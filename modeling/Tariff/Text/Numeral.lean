/-
  Texts that are numbers: runs of digits, decimal or in some other base, counts of a bounded size, and
  numbers written with a least number of digits.
-/
namespace Tariff.Text

-- Powers of numbers are the core library's, whatever else is imported.
attribute [local instance (high)] instPowNat

/-- The number that decimal digits stand for. -/
def digitsValue (ds : List Char) : Nat := Nat.ofDigitChars 10 ds 0

/-- Whether a text is one digit or more. -/
def isDigits (cs : List Char) : Bool := !cs.isEmpty && cs.all Char.isDigit

/-- A number in decimal digits, with zeros in front up to `width` digits. -/
def padded (width n : Nat) : List Char := (Nat.toDigits 10 n).leftpad width '0'

/-- Reads a count below `2 ^ 32`: digits, with a plus sign in front or not. -/
def count? (cs : List Char) : Option Nat :=
  let ds := match cs with
    | '+' :: ds => ds
    | _ => cs
  if isDigits ds && digitsValue ds < 2 ^ (32 : Nat) then some (digitsValue ds) else none

/-- Splits a leading sign off; the flag says whether it is a minus. -/
def splitSign : List Char → Bool × List Char
  | '-' :: cs => (true, cs)
  | '+' :: cs => (false, cs)
  | cs => (false, cs)

/-- The value of a digit in a base up to sixteen. -/
def digit? (base : Nat) (c : Char) : Option Nat :=
  let value :=
    if c.isDigit then c.toNat - '0'.toNat
    else if 'a' ≤ c && c ≤ 'f' then c.toNat - 'a'.toNat + 10
    else if 'A' ≤ c && c ≤ 'F' then c.toNat - 'A'.toNat + 10
    else base
  if value < base then some value else none

/-- The number that one digit or more stand for in a base. -/
def natural? (base : Nat) (cs : List Char) : Option Nat :=
  if cs.isEmpty then none else cs.foldlM (fun n c => (digit? base c).map (base * n + ·)) 0

/-- The character whose number stands in hexadecimal digits; there is none for a surrogate. -/
def codedChar? (cs : List Char) : Option Char :=
  (natural? 16 cs).bind fun n => if n.isValidChar then some (Char.ofNat n) else none

end Tariff.Text
