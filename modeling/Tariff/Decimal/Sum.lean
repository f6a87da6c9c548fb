/-
  Sums of decimals. Zero leaves the other operand as it is, scale included. Otherwise the exact sum is
  taken at the larger scale; if it needs too many bits, the fewest possible fraction digits are rounded
  off, a half to the even neighbour. A sum whose whole part does not fit has no decimal.
-/
import Tariff.Decimal.Basic

namespace Tariff.Decimal

-- Powers of numbers are the core library's, whatever else is imported.
attribute [local instance (high)] instPowNat

/-- `n / d` rounded to the nearest number, a half to the even one. -/
def divHalfEven (n d : Nat) : Nat :=
  let q := n / d
  let r := n % d
  if 2 * r > d ∨ (2 * r = d ∧ q % 2 = 1) then q + 1 else q

/-- `units` without their last `k` digits, rounded. -/
def roundOff (units : Int) (k : Nat) : Int :=
  let n : Int := divHalfEven units.natAbs (10 ^ k)
  if units < 0 then -n else n

/-- The decimal nearest to `units / 10 ^ scale` that keeps the most fraction digits. -/
def fit? (units : Int) (scale : Nat) : Option Decimal :=
  (List.range (scale + 1)).findSome? fun k => ofParts? (roundOff units k) (scale - k)

/-- The sum of two decimals, `none` when it is out of range. -/
def add? (a b : Decimal) : Option Decimal :=
  if a.units = 0 then some b
  else if b.units = 0 then some a
  else
    let scale := max a.scale b.scale
    fit? (a.units * 10 ^ (scale - a.scale) + b.units * 10 ^ (scale - b.scale)) scale

end Tariff.Decimal
