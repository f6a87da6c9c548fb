/-
  Moments: a date and a time of day down to the nanosecond. A moment may lie past the end of its second,
  in a leap second that follows it: behind second 59 this is second 60 of the clock, and behind any other
  second the clock shows the next one. Moments are ordered by `ordinal`, a single number that tells them
  apart; what a clock shows does not.
-/
import Tariff.Calendar.Date

namespace Tariff

-- Powers of numbers are the core library's, whatever else is imported.
attribute [local instance (high)] instPowNat

structure Moment where
  date : Date
  hour : Nat
  minute : Nat
  second : Nat
  nanos : Nat
  hour_lt : hour < 24
  minute_lt : minute < 60
  second_lt : second < 60
  nanos_lt : nanos < 2 * 10 ^ (9 : Nat)
deriving DecidableEq

namespace Moment

/-- The second that a clock shows. -/
def shownSecond (m : Moment) : Nat := m.second + m.nanos / 10 ^ (9 : Nat)

/-- How far the shown second has gone, in nanoseconds. -/
def fraction (m : Moment) : Nat := m.nanos % 10 ^ (9 : Nat)

theorem shownSecond_le (m : Moment) : m.shownSecond ≤ 60 := by
  have hsecond := m.second_lt
  have hnanos := m.nanos_lt
  unfold shownSecond
  omega

theorem fraction_lt (m : Moment) : m.fraction < 10 ^ (9 : Nat) := Nat.mod_lt _ (by decide)

/-- The moment at which a clock shows these numbers, if there is one. Second 60 is the leap second
    behind second 59; no other leap second is read. -/
def ofParts? (date : Date) (hour minute second nanos : Nat) : Option Moment :=
  if h : hour < 24 ∧ minute < 60 ∧ second ≤ 60 ∧ nanos < 10 ^ (9 : Nat) then
    if hlast : second < 60 then
      some ⟨date, hour, minute, second, nanos, h.1, h.2.1, hlast, by omega⟩
    else some ⟨date, hour, minute, 59, 10 ^ (9 : Nat) + nanos, h.1, h.2.1, by decide, by omega⟩
  else none

/-- The first moment of a date. -/
def midnight (date : Date) : Moment :=
  ⟨date, 0, 0, 0, 0, by decide, by decide, by decide, by decide⟩

/-- The rank of a moment: its numbers read as the places of one number. -/
def ordinal (m : Moment) : Int :=
  (((((m.date.year * 13 + m.date.month) * 32 + m.date.day) * 24 + m.hour) * 60 + m.minute) * 60
    + m.second) * (2 * 10 ^ (9 : Nat)) + m.nanos

instance : LE Moment := ⟨fun a b => a.ordinal ≤ b.ordinal⟩

instance : LT Moment := ⟨fun a b => a.ordinal < b.ordinal⟩

instance (a b : Moment) : Decidable (a ≤ b) := inferInstanceAs (Decidable (a.ordinal ≤ b.ordinal))

instance (a b : Moment) : Decidable (a < b) := inferInstanceAs (Decidable (a.ordinal < b.ordinal))

/-- The earlier of two moments. -/
def earlier (a b : Moment) : Moment := if b < a then b else a

/-- The later of two moments. -/
def later (a b : Moment) : Moment := if b < a then a else b

theorem ordinal_earlier (a b : Moment) : (a.earlier b).ordinal = min a.ordinal b.ordinal := by
  unfold earlier
  split
  · next h => exact (Int.min_eq_right (Int.le_of_lt h)).symm
  · next h => exact (Int.min_eq_left (Int.not_lt.mp h)).symm

theorem ordinal_later (a b : Moment) : (a.later b).ordinal = max a.ordinal b.ordinal := by
  unfold later
  split
  · next h => exact (Int.max_eq_left (Int.le_of_lt h)).symm
  · next h => exact (Int.max_eq_right (Int.not_lt.mp h)).symm

/-- The time of day without fractions of a second. -/
def clockChars (m : Moment) : List Char :=
  Text.padded 2 m.hour ++ ':' :: Text.padded 2 m.minute ++ ':' :: Text.padded 2 m.shownSecond

/-- The fraction of a second: nothing, or a point and 3, 6 or 9 digits, the fewest that are exact. -/
def fractionChars (m : Moment) : List Char :=
  if m.fraction = 0 then []
  else if m.fraction % 10 ^ (6 : Nat) = 0 then '.' :: Text.padded 3 (m.fraction / 10 ^ (6 : Nat))
  else if m.fraction % 10 ^ (3 : Nat) = 0 then '.' :: Text.padded 6 (m.fraction / 10 ^ (3 : Nat))
  else '.' :: Text.padded 9 m.fraction

/-- Date and time to the second, as keys show them. -/
def secondsChars (m : Moment) : List Char := m.date.chars ++ ' ' :: m.clockChars

/-- Date and time with `sep` between them. -/
def charsWith (sep : Char) (m : Moment) : List Char :=
  m.date.chars ++ sep :: m.clockChars ++ m.fractionChars

def text (m : Moment) : String := String.ofList (m.charsWith ' ')

/-- The form in which data is exchanged. -/
def isoText (m : Moment) : String := String.ofList (m.charsWith 'T')

end Moment

open Calendar

/-- Reads the fraction of a second, in nanoseconds: nothing, or a point and digits, of which the first
    nine count. -/
def Moment.readFraction : List Char → Option (Nat × List Char)
  | '.' :: cs =>
    let ds := (cs.takeWhile Char.isDigit).take 9
    if ds.isEmpty then none
    else some (Text.digitsValue ds * 10 ^ (9 - ds.length), cs.dropWhile Char.isDigit)
  | cs => some (0, cs)

/-- Reads a date, `T`, and a time of day off the front of a text. -/
def Moment.read (cs : List Char) : Option (Moment × List Char) := do
  let (date, cs) ← Date.read cs
  let cs ← readMark 'T' cs
  let (hour, cs) ← readNumber 2 cs
  let cs ← readMark ':' cs
  let (minute, cs) ← readNumber 2 cs
  let cs ← readMark ':' cs
  let (second, cs) ← readNumber 2 cs
  let (nanos, cs) ← readFraction cs
  let moment ← ofParts? date hour minute second nanos
  return (moment, cs)

/-- Reads a text that is a moment and nothing else. -/
def Moment.parse? (cs : List Char) : Option Moment :=
  match Moment.read cs with
  | some (moment, []) => some moment
  | _ => none

def Moment.ofString? (s : String) : Option Moment := Moment.parse? s.toList

end Tariff
