/-
  The form in which moments are exchanged is what a clock shows: the date, its year of four digits or
  signed, the time of day with a leap second as second 60, and a fraction of 3, 6 or 9 digits or none.
  What it shows is read back (`Moment.ofString?_isoText`), so the form tells the moment but for one
  thing: a leap second behind any second other than 59 shows as the next second (`RunsInto`), and two
  moments have one form just when they are the same or one runs into the other
  (`Moment.isoText_eq_iff`).
-/
import Tariff.Proofs.Calendar.ReadBack

namespace Tariff.Moment

open Text (Digits digitsValue padded)
open Calendar

-- Powers of numbers are the core library's, whatever else is imported.
attribute [local instance (high)] instPowNat

/-! ## Fractions of a second -/

/-- A fraction of `width` digits counts units of that place. -/
theorem readFraction_padded {width n : Nat} (hpos : 0 < width) (hwidth : width ≤ 9)
    (hn : n < 10 ^ width) :
    readFraction ('.' :: padded width n) = some (n * 10 ^ (9 - width), []) := by
  have hdigits := Text.digits_padded width n
  have hlength : (padded width n).length = width := Text.length_padded hpos hn
  have htake : ((padded width n).takeWhile Char.isDigit).take 9 = padded width n := by
    rw [List.takeWhile_eq_self_iff.mpr hdigits]
    exact List.take_of_length_le (by omega)
  have hrest : (padded width n).dropWhile Char.isDigit = [] := List.dropWhile_eq_nil_iff.mpr hdigits
  rw [readFraction, htake, hrest, hlength, Text.digitsValue_padded,
    if_neg (by simpa using Text.padded_ne_nil width n)]

variable (m : Moment)

/-- The fewest digits that are exact are exact. -/
theorem readFraction_fractionChars : readFraction m.fractionChars = some (m.fraction, []) := by
  have hnanos := m.fraction_lt
  unfold fractionChars
  split
  · next hzero => rw [hzero]; rfl
  split
  · next hmillis =>
    rw [readFraction_padded (by decide) (by decide) (by omega)]
    exact congrArg (fun n => some (n, [])) (Nat.div_mul_cancel (Nat.dvd_of_mod_eq_zero hmillis))
  split
  · next hmicros =>
    rw [readFraction_padded (by decide) (by decide) (by omega)]
    exact congrArg (fun n => some (n, [])) (Nat.div_mul_cancel (Nat.dvd_of_mod_eq_zero hmicros))
  · rw [readFraction_padded (by decide) (by decide) hnanos]
    exact congrArg (fun n => some (n, [])) (Nat.mul_one m.fraction)

theorem noDigitFirst_fractionChars : NoDigitFirst m.fractionChars := by
  unfold fractionChars
  split
  · exact noDigitFirst_nil
  · repeat' split
    all_goals exact noDigitFirst_cons rfl _

/-! ## What a clock shows -/

theorem charsWith_eq (sep : Char) : m.charsWith sep =
    m.date.chars ++ sep :: (padded 2 m.hour ++ ':' :: (padded 2 m.minute ++
      ':' :: (padded 2 m.shownSecond ++ m.fractionChars))) := by
  unfold charsWith clockChars
  simp only [List.append_assoc, List.cons_append]

/-- The moment that a clock shows is read from the exchanged form. -/
theorem ofString?_isoText :
    ofString? m.isoText = ofParts? m.date m.hour m.minute m.shownSecond m.fraction := by
  have hhour : m.hour < 100 := Nat.lt_trans m.hour_lt (by decide)
  have hminute : m.minute < 100 := Nat.lt_trans m.minute_lt (by decide)
  have hsecond : m.shownSecond < 100 := Nat.lt_of_le_of_lt m.shownSecond_le (by decide)
  have hread : Moment.read (m.charsWith 'T') =
      (ofParts? m.date m.hour m.minute m.shownSecond m.fraction).map fun r => (r, []) := by
    rw [charsWith_eq]
    unfold Moment.read
    rw [m.date.read_append (noDigitFirst_cons rfl _)]
    dsimp only [bind, Option.bind]
    rw [readMark_self]
    dsimp only
    rw [readNumber_padded hhour (noDigitFirst_cons rfl _)]
    dsimp only
    rw [readMark_self]
    dsimp only
    rw [readNumber_padded hminute (noDigitFirst_cons rfl _)]
    dsimp only
    rw [readMark_self]
    dsimp only
    rw [readNumber_padded hsecond m.noDigitFirst_fractionChars]
    dsimp only
    rw [m.readFraction_fractionChars]
    dsimp only
    cases ofParts? m.date m.hour m.minute m.shownSecond m.fraction <;> rfl
  unfold ofString? isoText parse?
  rw [String.toList_ofList, hread]
  cases ofParts? m.date m.hour m.minute m.shownSecond m.fraction <;> rfl

/-- A leap second of a year with five digits. -/
example : (ofString? "+12016-12-31T23:59:60.500").map isoText = some "+12016-12-31T23:59:60.500" := by
  decide +kernel

/-- A clock shows, at the moment read from what it shows, just that. -/
theorem shown_of_ofParts? {date : Date} {hour minute second nanos : Nat} {r : Moment}
    (h : ofParts? date hour minute second nanos = some r) :
    (r.date = date ∧ r.hour = hour ∧ r.minute = minute ∧ r.shownSecond = second) ∧
      r.fraction = nanos := by
  unfold ofParts? at h
  split at h
  · next hparts =>
    split at h
    all_goals
      cases h
      refine ⟨⟨rfl, rfl, rfl, ?_⟩, ?_⟩ <;> simp only [shownSecond, fraction] <;> omega
  · cases h

theorem isSome_ofParts?_shown :
    (ofParts? m.date m.hour m.minute m.shownSecond m.fraction).isSome = true := by
  unfold ofParts?
  rw [dif_pos ⟨m.hour_lt, m.minute_lt, m.shownSecond_le, m.fraction_lt⟩]
  split <;> rfl

/-! ## Moments of one form -/

variable {a b : Moment}

/-- The moment `a` lies in a leap second behind a second other than 59, and `b` as far in the second
    that comes after it on the clock. -/
structure RunsInto (a b : Moment) : Prop where
  date : a.date = b.date
  hour : a.hour = b.hour
  minute : a.minute = b.minute
  second : a.second + 1 = b.second
  nanos : a.nanos = 10 ^ (9 : Nat) + b.nanos

/-- The moments are the same, or one of them runs into the other. -/
def ShownAlike (a b : Moment) : Prop := a = b ∨ a.RunsInto b ∨ b.RunsInto a

theorem RunsInto.shown (h : a.RunsInto b) : a.SameSecond b ∧ a.fraction = b.fraction := by
  obtain ⟨hdate, hhour, hminute, hsecond, hnanos⟩ := h
  have hlast := a.nanos_lt
  refine ⟨⟨hdate, hhour, hminute, ?_⟩, ?_⟩
  · unfold shownSecond
    omega
  · unfold fraction
    omega

theorem shownAlike_iff : a.ShownAlike b ↔ a.SameSecond b ∧ a.fraction = b.fraction := by
  constructor
  · rintro (rfl | h | h)
    · exact ⟨⟨rfl, rfl, rfl, rfl⟩, rfl⟩
    · exact h.shown
    · obtain ⟨⟨hdate, hhour, hminute, hsecond⟩, hfraction⟩ := h.shown
      exact ⟨⟨hdate.symm, hhour.symm, hminute.symm, hsecond.symm⟩, hfraction.symm⟩
  · rintro ⟨⟨hdate, hhour, hminute, hsecond⟩, hfraction⟩
    have ha := a.nanos_lt
    have hb := b.nanos_lt
    unfold shownSecond at hsecond
    unfold fraction at hfraction
    -- The seconds are the same, or a whole second is among the nanoseconds of one of them.
    rcases Nat.lt_trichotomy a.second b.second with hlt | heq | hgt
    · exact Or.inr (Or.inl ⟨hdate, hhour, hminute, by omega, by omega⟩)
    · have hnanos : a.nanos = b.nanos := by omega
      cases a
      cases b
      exact Or.inl ((mk.injEq ..).mpr ⟨hdate, hhour, hminute, heq, hnanos⟩)
    · exact Or.inr (Or.inr ⟨hdate.symm, hhour.symm, hminute.symm, by omega, by omega⟩)

theorem charsWith_eq_of_shown (sep : Char) (hsecond : a.SameSecond b)
    (hfraction : a.fraction = b.fraction) : a.charsWith sep = b.charsWith sep := by
  obtain ⟨hdate, hhour, hminute, hsecond⟩ := hsecond
  rw [charsWith_eq, charsWith_eq, hdate, hhour, hminute, hsecond, fractionChars, fractionChars,
    hfraction]

/-- Two moments have one exchanged form just when they are the same or one runs into the other. -/
theorem isoText_eq_iff : a.isoText = b.isoText ↔ a.ShownAlike b := by
  rw [shownAlike_iff]
  constructor
  · intro h
    obtain ⟨r, hr⟩ := Option.isSome_iff_exists.mp a.isSome_ofParts?_shown
    have hr' := hr
    rw [← ofString?_isoText, h, ofString?_isoText] at hr'
    obtain ⟨⟨hdate, hhour, hminute, hsecond⟩, hfraction⟩ := shown_of_ofParts? hr
    obtain ⟨⟨hdate', hhour', hminute', hsecond'⟩, hfraction'⟩ := shown_of_ofParts? hr'
    exact ⟨⟨hdate.symm.trans hdate', hhour.symm.trans hhour', hminute.symm.trans hminute',
      hsecond.symm.trans hsecond'⟩, hfraction.symm.trans hfraction'⟩
  · rintro ⟨hsecond, hfraction⟩
    exact congrArg String.ofList (charsWith_eq_of_shown 'T' hsecond hfraction)

end Tariff.Moment
