/-
  Dates of the proleptic Gregorian calendar, year zero included. `Date` holds only dates that exist.
  Written, a date is `YYYY-MM-DD`; a year that needs more than four digits, or is negative, has a sign.
  Read, each number may have blanks in front, and a signed year any number of digits.
-/
import Tariff.Text.Blank
import Tariff.Text.Numeral

namespace Tariff

/-- Whether a year has a 29th of February. -/
def isLeapYear (year : Int) : Bool := year % 4 = 0 && (year % 100 ≠ 0 || year % 400 = 0)

/-- The number of days in a month. -/
def daysInMonth (year : Int) : Nat → Nat
  | 2 => if isLeapYear year then 29 else 28
  | 4 | 6 | 9 | 11 => 30
  | _ => 31

/-- A date that exists, in a year the calendar covers. -/
structure Date where
  year : Int
  month : Nat
  day : Nat
  year_mem : -262143 ≤ year ∧ year ≤ 262142
  month_mem : 1 ≤ month ∧ month ≤ 12
  day_mem : 1 ≤ day ∧ day ≤ daysInMonth year month
deriving DecidableEq

namespace Date

/-- The date of these numbers if there is one. -/
def ofParts? (year : Int) (month day : Nat) : Option Date :=
  if h : (-262143 ≤ year ∧ year ≤ 262142) ∧ (1 ≤ month ∧ month ≤ 12) ∧
      (1 ≤ day ∧ day ≤ daysInMonth year month) then
    some ⟨year, month, day, h.1, h.2.1, h.2.2⟩
  else none

/-- A year as written in dates. -/
def yearChars (year : Int) : List Char :=
  let digits := Text.padded 4 year.natAbs
  if 0 ≤ year ∧ year ≤ 9999 then digits else (if year < 0 then '-' else '+') :: digits

def chars (d : Date) : List Char :=
  yearChars d.year ++ '-' :: Text.padded 2 d.month ++ '-' :: Text.padded 2 d.day

def text (d : Date) : String := String.ofList d.chars

end Date

namespace Calendar

/-- Reads at least one digit and at most `width`. Every reader here returns what follows, too. -/
def readDigits (width : Nat) (cs : List Char) : Option (Nat × List Char) :=
  let ds := (cs.takeWhile Char.isDigit).take width
  if ds.isEmpty then none else some (Text.digitsValue ds, cs.drop ds.length)

/-- Reads a number of at most `width` digits, with blanks in front or not. -/
def readNumber (width : Nat) (cs : List Char) : Option (Nat × List Char) :=
  readDigits width (Text.trimStart cs)

/-- Reads a year: up to four digits, or a sign and any number of digits. -/
def readYear (cs : List Char) : Option (Int × List Char) :=
  match Text.trimStart cs with
  | '-' :: ds => (readDigits ds.length ds).map fun (n, rest) => (-(n : Int), rest)
  | '+' :: ds => (readDigits ds.length ds).map fun (n, rest) => ((n : Int), rest)
  | ds => (readDigits 4 ds).map fun (n, rest) => ((n : Int), rest)

/-- Reads the character `c`. -/
def readMark (c : Char) : List Char → Option (List Char)
  | d :: cs => if d = c then some cs else none
  | [] => none

end Calendar

open Calendar

/-- Reads a date off the front of a text. -/
def Date.read (cs : List Char) : Option (Date × List Char) := do
  let (year, cs) ← readYear cs
  let cs ← readMark '-' cs
  let (month, cs) ← readNumber 2 cs
  let cs ← readMark '-' cs
  let (day, cs) ← readNumber 2 cs
  let date ← ofParts? year month day
  return (date, cs)

/-- Reads a text that is a date and nothing else. -/
def Date.parse? (cs : List Char) : Option Date :=
  match Date.read cs with
  | some (date, []) => some date
  | _ => none

end Tariff
