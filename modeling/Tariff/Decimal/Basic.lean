/-
  Decimals: an integer of less than 96 bits scaled down by at most 28 decimal places. The scale is part
  of the value (`2.50` is not `2.5`), while `sameValue` compares the numbers meant.
-/
namespace Tariff

-- Powers of numbers are the core library's, whatever else is imported.
attribute [local instance (high)] instPowNat

/-- The number `units / 10 ^ scale`, written with `scale` decimal places. -/
structure Decimal where
  units : Int
  scale : Nat
  units_lt : units.natAbs < 2 ^ (96 : Nat)
  scale_le : scale ≤ 28
deriving DecidableEq

namespace Decimal

/-- The least number of units that is too large. -/
def limit : Nat := 2 ^ (96 : Nat)

/-- The largest scale. -/
def maxScale : Nat := 28

/-- The decimal of these parts if they are in range. -/
def ofParts? (units : Int) (scale : Nat) : Option Decimal :=
  if h : units.natAbs < 2 ^ (96 : Nat) ∧ scale ≤ 28 then some ⟨units, scale, h.1, h.2⟩ else none

/-- Whether two decimals mean the same number. -/
def sameValue (a b : Decimal) : Bool := a.units * 10 ^ b.scale == b.units * 10 ^ a.scale

end Decimal

end Tariff
