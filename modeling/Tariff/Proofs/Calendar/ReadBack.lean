/-
  A written date is read back as it was (`Date.parse?_chars`), be its year of four digits or signed. So
  the text of a date and a time of day to the second tells both (`Moment.secondsChars_eq_iff`).
-/
import Tariff.Proofs.Calendar.Rank
import Tariff.Proofs.Text.Digits

namespace Tariff

open Text (Digits Simple Solid digitsValue padded)

-- Powers of numbers are the core library's, whatever else is imported.
attribute [local instance (high)] instPowNat

namespace Calendar

/-- No digit stands in front of the text. -/
def NoDigitFirst (cs : List Char) : Prop := ∀ c ∈ cs.head?, c.isDigit = false

theorem noDigitFirst_nil : NoDigitFirst [] := fun _ h => nomatch h

theorem noDigitFirst_cons {c : Char} (h : c.isDigit = false) (cs : List Char) :
    NoDigitFirst (c :: cs) := by
  rintro _ ⟨⟩
  exact h

variable {width : Nat} {ds rest : List Char}

/-- Digits that are few enough are read to their end. -/
theorem readDigits_append (hne : ds ≠ []) (hds : Digits ds) (hwidth : ds.length ≤ width)
    (hrest : NoDigitFirst rest) : readDigits width (ds ++ rest) = some (digitsValue ds, rest) := by
  have hstop : rest.takeWhile Char.isDigit = [] := by
    cases rest with
    | nil => rfl
    | cons c rest => exact List.takeWhile_cons_of_neg (by simp [hrest c rfl])
  have hfront : ((ds ++ rest).takeWhile Char.isDigit).take width = ds := by
    rw [List.takeWhile_append_of_pos hds, hstop, List.append_nil]
    exact List.take_of_length_le hwidth
  unfold readDigits
  rw [hfront]
  dsimp only
  rw [if_neg (by simpa using hne), List.drop_left]

theorem trimStart_digits (hne : ds ≠ []) (hds : Digits ds) (rest : List Char) :
    Text.trimStart (ds ++ rest) = ds ++ rest := by
  apply Text.trimStart_eq_self
  rw [List.head?_append_of_ne_nil _ hne]
  exact hds.solid.trimmed.1

theorem readNumber_append (hne : ds ≠ []) (hds : Digits ds) (hwidth : ds.length ≤ width)
    (hrest : NoDigitFirst rest) :
    readNumber width (ds ++ rest) = some (digitsValue ds, rest) := by
  unfold readNumber
  rw [trimStart_digits hne hds]
  exact readDigits_append hne hds hwidth hrest

/-- A number of one or two digits is read back from two. -/
theorem readNumber_padded {n : Nat} (hn : n < 100) (hrest : NoDigitFirst rest) :
    readNumber 2 (padded 2 n ++ rest) = some (n, rest) := by
  have hlength : (padded 2 n).length = 2 := Text.length_padded (by decide) hn
  rw [readNumber_append (Text.padded_ne_nil 2 n) (Text.digits_padded 2 n) (by omega) hrest,
    Text.digitsValue_padded]

theorem readMark_self (c : Char) (cs : List Char) : readMark c (c :: cs) = some cs := if_pos rfl

theorem readYear_minus (cs : List Char) :
    readYear ('-' :: cs) = (readDigits cs.length cs).map fun (n, rest) => (-(n : Int), rest) := rfl

theorem readYear_plus (cs : List Char) :
    readYear ('+' :: cs) = (readDigits cs.length cs).map fun (n, rest) => ((n : Int), rest) := rfl

/-- A year is read back, signed or not. -/
theorem readYear_append (year : Int) (hrest : NoDigitFirst rest) :
    readYear (Date.yearChars year ++ rest) = some (year, rest) := by
  have hne := Text.padded_ne_nil 4 year.natAbs
  have hds := Text.digits_padded 4 year.natAbs
  have hvalue := Text.digitsValue_padded 4 year.natAbs
  unfold Date.yearChars
  by_cases hplain : 0 ≤ year ∧ year ≤ 9999
  · have hlength : (padded 4 year.natAbs).length = 4 :=
      Text.length_padded (by decide) (show year.natAbs < 10 ^ (4 : Nat) by omega)
    have hread : readDigits 4 (padded 4 year.natAbs ++ rest) = _ :=
      readDigits_append hne hds (by omega) hrest
    have hyear : (year.natAbs : Int) = year := by omega
    dsimp only
    rw [if_pos hplain]
    unfold readYear
    rw [trimStart_digits hne hds]
    cases hpadded : padded 4 year.natAbs with
    | nil => exact absurd hpadded hne
    | cons d ds =>
      rw [hpadded] at hds hread hvalue
      have hd := Text.head_digits hds
      rw [List.cons_append] at hread ⊢
      split
      · next heq =>
        cases heq
        cases hd
      · next heq =>
        cases heq
        cases hd
      · rw [hread, hvalue]
        exact congrArg (fun y => some (y, rest)) hyear
  · have hread : readDigits (padded 4 year.natAbs ++ rest).length (padded 4 year.natAbs ++ rest) = _ :=
      readDigits_append hne hds (by rw [List.length_append]; omega) hrest
    rw [hvalue] at hread
    dsimp only
    rw [if_neg hplain]
    by_cases hneg : year < 0
    · have hyear : -(year.natAbs : Int) = year := by omega
      rw [if_pos hneg, List.cons_append, readYear_minus, hread]
      exact congrArg (fun y => some (y, rest)) hyear
    · have hyear : (year.natAbs : Int) = year := by omega
      rw [if_neg hneg, List.cons_append, readYear_plus, hread]
      exact congrArg (fun y => some (y, rest)) hyear

end Calendar

open Calendar

namespace Date

variable (d : Date)

theorem chars_append (rest : List Char) : d.chars ++ rest =
    yearChars d.year ++ '-' :: (padded 2 d.month ++ '-' :: (padded 2 d.day ++ rest)) := by
  unfold chars
  simp only [List.append_assoc, List.cons_append]

theorem chars_eq : d.chars =
    yearChars d.year ++ '-' :: (padded 2 d.month ++ '-' :: (padded 2 d.day ++ [])) := by
  rw [← chars_append, List.append_nil]

theorem ofParts?_self : ofParts? d.year d.month d.day = some d :=
  dif_pos ⟨d.year_mem, d.month_mem, d.day_mem⟩

/-- A date is read off the front of a text in which no digit follows it. -/
theorem read_append {rest : List Char} (hrest : NoDigitFirst rest) :
    Date.read (d.chars ++ rest) = some (d, rest) := by
  have hmonth : d.month < 100 := by
    have hmem := d.month_mem
    omega
  have hday : d.day < 100 := by
    have hmem := d.day_mem
    have hdays := daysInMonth_lt d.year d.month
    omega
  rw [chars_append]
  unfold Date.read
  rw [readYear_append _ (noDigitFirst_cons rfl _)]
  dsimp only [bind, Option.bind]
  rw [readMark_self]
  dsimp only
  rw [readNumber_padded hmonth (noDigitFirst_cons rfl _)]
  dsimp only
  rw [readMark_self]
  dsimp only
  rw [readNumber_padded hday hrest]
  dsimp only
  rw [d.ofParts?_self]
  rfl

/-- A written date is read back as it was. -/
theorem parse?_chars : parse? d.chars = some d := by
  have hread := d.read_append noDigitFirst_nil
  rw [List.append_nil] at hread
  unfold parse?
  rw [hread]

theorem chars_inj {d e : Date} (h : d.chars = e.chars) : d = e := by
  have hread := d.parse?_chars
  rw [h, e.parse?_chars] at hread
  exact (Option.some.inj hread).symm

/-! ## What stands in the text -/

theorem mem_yearChars {year : Int} {c : Char} (h : c ∈ yearChars year) :
    c.isDigit = true ∨ c = '-' ∨ c = '+' := by
  unfold yearChars at h
  dsimp only at h
  split at h
  · exact Or.inl (Text.digits_padded _ _ c h)
  · rcases List.mem_cons.mp h with rfl | h
    · split <;> decide
    · exact Or.inl (Text.digits_padded _ _ c h)

theorem mem_chars {c : Char} (h : c ∈ d.chars) : c.isDigit = true ∨ c = '-' ∨ c = '+' := by
  rw [chars_eq, List.append_nil, List.mem_append, List.mem_cons, List.mem_append, List.mem_cons] at h
  rcases h with h | rfl | h | rfl | h
  · exact mem_yearChars h
  · exact Or.inr (Or.inl rfl)
  · exact Or.inl (Text.digits_padded _ _ c h)
  · exact Or.inr (Or.inl rfl)
  · exact Or.inl (Text.digits_padded _ _ c h)

theorem solid_chars : Solid d.chars := by
  intro c hc
  rcases d.mem_chars hc with hdigit | rfl | rfl
  · exact Text.isBlank_of_isDigit hdigit
  · decide
  · decide

theorem simple_chars : Simple d.chars := by
  intro c hc
  rcases d.mem_chars hc with hdigit | rfl | rfl
  · exact Text.isSimple_of_isDigit hdigit
  · decide
  · decide

end Date

/-! ## Seconds -/

namespace Moment

/-- Both moments lie in one second of the clock; second 60 is a second of its own. -/
def SameSecond (a b : Moment) : Prop :=
  a.date = b.date ∧ a.hour = b.hour ∧ a.minute = b.minute ∧ a.shownSecond = b.shownSecond

instance (a b : Moment) : Decidable (a.SameSecond b) := inferInstanceAs (Decidable (_ ∧ _))

theorem simple_secondsChars (m : Moment) : Simple m.secondsChars := by
  have hmark : Text.isSimple ' ' = true ∧ Text.isSimple ':' = true := by decide
  have hnumber : ∀ n, Simple (padded 2 n) := fun n => (Text.digits_padded 2 n).simple
  unfold secondsChars clockChars
  simp only [Text.simple_append, Text.simple_cons, hmark, hnumber, m.date.simple_chars, and_self]

/-- The text of a second tells it. -/
theorem secondsChars_eq_iff (a b : Moment) : a.secondsChars = b.secondsChars ↔ a.SameSecond b := by
  have hlength : ∀ n, n < 100 → (padded 2 n).length = 2 := fun n hn =>
    Text.length_padded (by decide) hn
  have hhour := fun m : Moment => hlength m.hour (Nat.lt_trans m.hour_lt (by decide))
  have hminute := fun m : Moment => hlength m.minute (Nat.lt_trans m.minute_lt (by decide))
  have hsecond := fun m : Moment =>
    hlength m.shownSecond (Nat.lt_of_le_of_lt m.shownSecond_le (by decide))
  constructor
  · intro h
    -- The clock has eight characters, two for each number.
    have hclock : a.clockChars.length = b.clockChars.length := by
      simp only [clockChars, List.length_append, List.length_cons, hhour, hminute, hsecond]
    obtain ⟨hdate, htime⟩ := List.append_inj' h (congrArg Nat.succ hclock)
    obtain ⟨hfront, hseconds⟩ := List.append_inj' (List.cons.inj htime).2 (by simp [hsecond])
    obtain ⟨hhours, hminutes⟩ := List.append_inj' hfront (by simp [hminute])
    exact ⟨Date.chars_inj hdate, Text.padded_inj.mp hhours,
      Text.padded_inj.mp (List.cons.inj hminutes).2, Text.padded_inj.mp (List.cons.inj hseconds).2⟩
  · rintro ⟨hdate, hhours, hminutes, hseconds⟩
    rw [secondsChars, secondsChars, clockChars, clockChars, hdate, hhours, hminutes, hseconds]

end Moment

end Tariff
