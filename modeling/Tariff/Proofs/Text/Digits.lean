/-
  Written numbers are read back. The digits of a number, with zeros in front or not, have its value
  (`digitsValue_padded`); they hold no blanks, so a text of two such stretches with a blank between them
  has them as its words. Texts of numbers and what goes with them are simple: letters, digits and few
  marks, none of which has a meaning of its own in source, in keys or on a line.
-/
import Tariff.Proofs.Source.NormalForm
import Tariff.Text.Numeral

namespace Tariff.Text

-- Powers of numbers are the core library's, whatever else is imported.
attribute [local instance (high)] instPowNat

/-- The text has decimal digits only. -/
def Digits (cs : List Char) : Prop := ∀ c ∈ cs, c.isDigit = true

/-- The text has no white space in it. -/
def Solid (cs : List Char) : Prop := ∀ c ∈ cs, isBlank c = false

/-! ## Digits -/

theorem digits_append {cs ds : List Char} : Digits (cs ++ ds) ↔ Digits cs ∧ Digits ds :=
  List.forall_mem_append

theorem digits_toDigits (n : Nat) : Digits (Nat.toDigits 10 n) := fun _ =>
  Nat.isDigit_of_mem_toDigits (by decide) (by decide)

theorem digits_padded (width n : Nat) : Digits (padded width n) := by
  unfold padded List.leftpad
  rw [digits_append]
  refine ⟨?_, digits_toDigits n⟩
  intro c hc
  rw [List.eq_of_mem_replicate hc]
  rfl

theorem padded_ne_nil (width n : Nat) : padded width n ≠ [] := by
  unfold padded List.leftpad
  exact List.append_ne_nil_of_right_ne_nil _ Nat.toDigits_ne_nil

/-- Zeros in front do not count. -/
theorem digitsValue_padded (width n : Nat) : digitsValue (padded width n) = n := by
  unfold digitsValue padded List.leftpad
  rw [Nat.ofDigitChars_append, Nat.ofDigitChars_replicate_zero, Nat.mul_zero]
  exact Nat.ofDigitChars_ten_toDigits

/-- Digits tell the number. -/
theorem padded_inj {width m n : Nat} : padded width m = padded width n ↔ m = n := by
  constructor
  · intro h
    have hvalue := congrArg digitsValue h
    rwa [digitsValue_padded, digitsValue_padded] at hvalue
  · rintro rfl
    rfl

theorem length_padded {width n : Nat} (hwidth : 0 < width) (h : n < 10 ^ width) :
    (padded width n).length = width := by
  have hlength := (Nat.length_toDigits_le_iff (b := 10) (by decide) hwidth).mpr h
  unfold padded
  rw [List.length_leftpad]
  omega

theorem isDigits_of_digits {cs : List Char} (hne : cs ≠ []) (h : Digits cs) :
    isDigits cs = true := by
  unfold isDigits
  rw [Bool.and_eq_true, List.all_eq_true]
  exact ⟨by simpa using hne, h⟩

theorem head_digits {d : Char} {cs : List Char} (h : Digits (d :: cs)) : d.isDigit = true :=
  h d (List.mem_cons_self ..)

/-- A count is read back from its digits. -/
theorem count?_toDigits {n : Nat} (h : n < 2 ^ (32 : Nat)) :
    count? (Nat.toDigits 10 n) = some n := by
  have hdigits := digits_toDigits n
  have hvalue : digitsValue (Nat.toDigits 10 n) = n := Nat.ofDigitChars_ten_toDigits
  have hne : Nat.toDigits 10 n ≠ [] := Nat.toDigits_ne_nil
  unfold count?
  split
  · next ds hplus =>
    rw [hplus] at hdigits
    exact absurd (head_digits hdigits) (by decide)
  · dsimp only
    rw [hvalue, isDigits_of_digits hne hdigits]
    simp [h]

/-! ## Simple texts -/

/-- Letters and digits of ASCII, and the blanks and marks that stand in amounts and dates. -/
def isSimple (c : Char) : Bool := c.isAlphanum || c ∈ [' ', '%', '+', '-', '.', ':']

/-- The text has such characters only. -/
def Simple (cs : List Char) : Prop := ∀ c ∈ cs, isSimple c = true

instance (cs : List Char) : Decidable (Simple cs) := List.decidableBAll _ cs

theorem isSimple_of_isAlphanum {c : Char} (h : c.isAlphanum = true) : isSimple c = true := by
  rw [isSimple, h, Bool.true_or]

theorem isSimple_of_isDigit {c : Char} (h : c.isDigit = true) : isSimple c = true := by
  apply isSimple_of_isAlphanum
  rw [Char.isAlphanum, h, Bool.or_true]

theorem isSimple_of_isAlpha {c : Char} (h : c.isAlpha = true) : isSimple c = true := by
  apply isSimple_of_isAlphanum
  rw [Char.isAlphanum, h, Bool.true_or]

theorem Digits.simple {cs : List Char} (h : Digits cs) : Simple cs := fun c hc =>
  isSimple_of_isDigit (h c hc)

theorem simple_append {cs ds : List Char} : Simple (cs ++ ds) ↔ Simple cs ∧ Simple ds :=
  List.forall_mem_append

theorem simple_cons {c : Char} {cs : List Char} :
    Simple (c :: cs) ↔ isSimple c = true ∧ Simple cs :=
  List.forall_mem_cons

theorem Simple.not_mem {cs : List Char} (h : Simple cs) {c : Char} (hc : isSimple c = false) :
    c ∉ cs := by
  intro hmem
  rw [h c hmem] at hc
  cases hc

/-! ## Stretches without blanks -/

theorem toNat_of_isDigit {c : Char} (h : c.isDigit = true) : 48 ≤ c.toNat ∧ c.toNat ≤ 57 := by
  simp only [Char.isDigit, Bool.and_eq_true, decide_eq_true_eq] at h
  exact h

theorem toNat_of_isUpper {c : Char} (h : c.isUpper = true) : 65 ≤ c.toNat ∧ c.toNat ≤ 90 :=
  of_decide_eq_true h

theorem toNat_of_isLower {c : Char} (h : c.isLower = true) : 97 ≤ c.toNat ∧ c.toNat ≤ 122 := by
  obtain ⟨hlow, hhigh⟩ := Bool.and_eq_true_iff.mp h
  exact ⟨of_decide_eq_true hlow, of_decide_eq_true hhigh⟩

/-- Visible characters of ASCII are no white space. -/
theorem isBlank_of_visible {c : Char} (h : 33 ≤ c.toNat ∧ c.toNat ≤ 126) : isBlank c = false := by
  simp only [isBlank, blankRanges, List.any_cons, List.any_nil, Bool.or_false, Bool.or_eq_false_iff,
    Bool.and_eq_false_iff, decide_eq_false_iff_not]
  omega

theorem isBlank_of_isDigit {c : Char} (h : c.isDigit = true) : isBlank c = false := by
  have hrange := toNat_of_isDigit h
  exact isBlank_of_visible (by omega)

theorem Digits.solid {cs : List Char} (h : Digits cs) : Solid cs := fun c hc =>
  isBlank_of_isDigit (h c hc)

theorem solid_append {cs ds : List Char} : Solid (cs ++ ds) ↔ Solid cs ∧ Solid ds :=
  List.forall_mem_append

theorem solid_cons {c : Char} {cs : List Char} : Solid (c :: cs) ↔ isBlank c = false ∧ Solid cs :=
  List.forall_mem_cons

theorem Solid.trimmed {cs : List Char} (h : Solid cs) : Trimmed cs :=
  ⟨fun c hc => h c (List.mem_of_mem_head? hc), fun c hc => h c (List.mem_of_getLast? hc)⟩

theorem words_solid {cs : List Char} (hne : cs ≠ []) (h : Solid cs) : words cs = [cs] := by
  rw [words, parts_eq_singleton h]
  simpa using hne

/-- Two stretches without blanks and a blank between them are two words. -/
theorem words_pair {cs ds : List Char} (hcs : cs ≠ []) (hds : ds ≠ []) (h : Solid cs)
    (h' : Solid ds) : words (cs ++ ' ' :: ds) = [cs, ds] := by
  rw [words, parts_append_sep (by decide) h, parts_eq_singleton h']
  simp [hcs, hds]

theorem trimmed_pair {cs ds : List Char} (hcs : cs ≠ []) (hds : ds ≠ []) (h : Solid cs)
    (h' : Solid ds) : Trimmed (cs ++ ' ' :: ds) := by
  constructor
  · rw [List.head?_append_of_ne_nil _ hcs]
    exact h.trimmed.1
  · rw [List.append_cons, List.getLast?_append_of_ne_nil _ hds]
    exact h'.trimmed.2

end Tariff.Text
