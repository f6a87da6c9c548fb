/-
  Decimals as text. Written, a decimal has exactly as many fraction digits as its scale. Read, it may
  have a sign, underscores behind its first digit, and an exponent; digits that do not fit are rounded
  off, a half upwards.
-/
import Tariff.Decimal.Basic
import Tariff.Text.Numeral

namespace Tariff.Decimal

-- Powers of numbers are the core library's, whatever else is imported.
attribute [local instance (high)] instPowNat

/-- The text of a decimal. -/
def chars (d : Decimal) : List Char :=
  let n := d.units.natAbs
  let sign := if d.units < 0 then ['-'] else []
  let whole := Nat.toDigits 10 (n / 10 ^ d.scale)
  let fraction := if d.scale = 0 then [] else '.' :: Text.padded d.scale (n % 10 ^ d.scale)
  sign ++ whole ++ fraction

def text (d : Decimal) : String := String.ofList d.chars

/-- The digits in front of the point of an unsigned numeral, and what stands behind it: digits and
    underscores. -/
structure Numeral where
  whole : List Char
  fraction : List Char

/-- Reads an unsigned numeral: digits, underscores behind the first digit, and at most one point. -/
def Numeral.parse? (cs : List Char) : Option Numeral :=
  let whole := cs.takeWhile (· ≠ '.')
  let fraction := (cs.dropWhile (· ≠ '.')).drop 1
  let inside := whole ++ fraction
  if inside.all (fun c => c.isDigit || c = '_') && (inside.head?.any Char.isDigit) then
    some ⟨whole.filter Char.isDigit, fraction⟩
  else none

/-- A mantissa and a scale while fraction digits are taken in, with the digits left over. -/
structure Intake where
  mantissa : Nat
  scale : Nat
  left : List Char

/-- Mantissas below this one are narrow: with another digit they stay well inside 64 bits. -/
def narrow : Nat := (2 ^ (64 : Nat) - 1) / 10 - 255

/-- Takes in fraction digits as long as there is room for one more. Underscores are skipped, except that
    one right behind the last place ends a numeral whose mantissa was narrow before that place. -/
def Intake.fill (mantissa scale : Nat) : List Char → Intake
  | [] => ⟨mantissa, scale, []⟩
  | '_' :: ds =>
    if scale = maxScale ∧ mantissa / 10 < narrow then ⟨mantissa, scale, []⟩
    else fill mantissa scale ds
  | d :: ds =>
    let more := 10 * mantissa + Text.digitsValue [d]
    if scale < maxScale ∧ more < limit then fill more (scale + 1) ds
    else ⟨mantissa, scale, d :: ds⟩

/-- The mantissa and scale after the digits left over are rounded off, the first of them alone
    deciding. A mantissa that grows too large gives up one place, and there may be none. -/
def Intake.round (i : Intake) : Option (Nat × Nat) :=
  match i.left with
  | [] => some (i.mantissa, i.scale)
  | d :: _ =>
    if Text.digitsValue [d] < 5 then some (i.mantissa, i.scale)
    else if i.mantissa + 1 < limit then some (i.mantissa + 1, i.scale)
    else if i.scale = 0 then none
    else some ((i.mantissa + 1 + 4) / 10, i.scale - 1)

/-- Reads a decimal without an exponent. -/
def parsePlain? (cs : List Char) : Option Decimal :=
  let (negative, body) := Text.splitSign cs
  (Numeral.parse? body).bind fun n =>
    let whole := Text.digitsValue n.whole
    if whole < limit then
      (Intake.fill whole 0 n.fraction).round.bind fun (mantissa, scale) =>
        ofParts? (if negative then -mantissa else mantissa) scale
    else none

/-- Moves the point `x` places to the left. -/
def shiftLeft? (d : Decimal) (x : Nat) : Option Decimal :=
  if x ≤ maxScale then ofParts? d.units (d.scale + x) else none

/-- Moves the point `x` places to the right. Past the last fraction digit the number becomes whole. -/
def shiftRight? (d : Decimal) (x : Nat) : Option Decimal :=
  if x ≤ d.scale then ofParts? d.units (d.scale - x)
  else if x ≤ maxScale then ofParts? (d.units * 10 ^ (x - d.scale)) 0
  else none

/-- Whether `c` begins an exponent. -/
def isExponentMark (c : Char) : Bool := c = 'e' || c = 'E'

/-- Reads a decimal, with an exponent or without. -/
def parse? (cs : List Char) : Option Decimal :=
  match cs.dropWhile (! isExponentMark ·) with
  | [] => parsePlain? cs
  | _ :: exponent =>
    (parsePlain? (cs.takeWhile (! isExponentMark ·))).bind fun base =>
      match exponent with
      | '-' :: digits => (Text.count? digits).bind base.shiftLeft?
      | digits => (Text.count? digits).bind base.shiftRight?

/-- Reads a decimal from a string. -/
def ofString? (s : String) : Option Decimal := parse? s.toList

end Tariff.Decimal
