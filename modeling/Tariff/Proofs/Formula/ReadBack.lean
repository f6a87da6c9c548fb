/-
  What formulas are made of is read back from its text: periods (`Period.parse?_text`) and discount
  values (`DiscountValue.parse?_text`), as far as reading can yield them at all. A period that was read
  has a positive count below `2 ^ 32`, and the currency of a value that was read is one capital or more.
-/
import Mathlib
import Tariff.Formula.Period
import Tariff.Formula.Value
import Tariff.Proofs.Decimal.ReadBack

namespace Tariff

open Text (Simple Solid)
open Decimal (Written)

-- Powers of numbers are the core library's, whatever else is imported.
attribute [local instance (high)] instPowNat

/-! ## Periods -/

namespace Period

/-- The count of a period that can be read. -/
def Sound (p : Period) : Prop := 0 < p.count ∧ p.count < 2 ^ (32 : Nat)

/-- The name of a unit as it stands behind a count. -/
def Unit.chars (u : Unit) (count : Nat) : List Char :=
  u.name.toList ++ if count = 1 then [] else ['s']

theorem Unit.chars_ne_nil (u : Unit) (count : Nat) : u.chars count ≠ [] := by
  cases u <;> simp [Unit.chars, Unit.name]

theorem Unit.all_isLower_chars (u : Unit) (count : Nat) :
    (u.chars count).all Char.isLower = true := by
  unfold Unit.chars
  cases u <;> split <;> rfl

theorem Unit.solid_chars (u : Unit) (count : Nat) : Solid (u.chars count) := by
  intro c hc
  have hrange := Text.toNat_of_isLower (List.all_eq_true.mp (u.all_isLower_chars count) c hc)
  exact Text.isBlank_of_visible (by omega)

theorem Unit.ofName?_chars (u : Unit) (count : Nat) : Unit.ofName? (u.chars count) = some u := by
  unfold Unit.chars
  cases u <;> split <;> decide

theorem toList_text (p : Period) :
    p.text.toList = Nat.toDigits 10 p.count ++ ' ' :: p.unit.chars p.count := by
  unfold text Unit.chars
  by_cases hone : p.count = 1 <;> simp [hone]

theorem simple_text (p : Period) : Simple p.text.toList := by
  have hunit : Simple (p.unit.chars p.count) := by
    intro c hc
    apply Text.isSimple_of_isAlpha
    rw [Char.isAlpha, List.all_eq_true.mp (p.unit.all_isLower_chars p.count) c hc, Bool.or_true]
  rw [toList_text, Text.simple_append, Text.simple_cons]
  exact ⟨(Text.digits_toDigits p.count).simple, by decide, hunit⟩

theorem parse?_text {p : Period} (h : p.Sound) : parse? p.text.toList = some p := by
  have hcount : p.count ≠ 0 := Nat.ne_of_gt h.1
  have hwords := Text.words_pair Nat.toDigits_ne_nil (p.unit.chars_ne_nil p.count)
    (Text.digits_toDigits p.count).solid (p.unit.solid_chars p.count)
  unfold parse?
  rw [toList_text, hwords]
  dsimp only [bind, Option.bind]
  rw [Text.count?_toDigits h.2]
  dsimp only
  rw [Unit.ofName?_chars]
  dsimp only
  rw [if_neg hcount]

theorem count_lt_of_count? {cs : List Char} {n : Nat} (h : Text.count? cs = some n) :
    n < 2 ^ (32 : Nat) := by
  unfold Text.count? at h
  rw [Option.ite_none_right_eq_some, Bool.and_eq_true, decide_eq_true_eq] at h
  obtain ⟨⟨-, hlimit⟩, hvalue⟩ := h
  rwa [Option.some.inj hvalue] at hlimit

/-- What is read is sound. -/
theorem sound_of_parse? {cs : List Char} {p : Period} (h : parse? cs = some p) : p.Sound := by
  unfold parse? at h
  split at h
  · obtain ⟨n, hn, h⟩ := Option.bind_eq_some_iff.mp h
    obtain ⟨u, -, h⟩ := Option.bind_eq_some_iff.mp h
    split at h
    · cases h
    · next hzero =>
      cases h
      exact ⟨Nat.pos_of_ne_zero hzero, count_lt_of_count? hn⟩
  · cases h

end Period

/-! ## Discount values -/

namespace DiscountValue

/-- One capital or more. -/
def IsCode (code : String) : Prop := code.toList ≠ [] ∧ ∀ c ∈ code.toList, c.isUpper = true

/-- The currency of a value that can be read. -/
def Sound (v : DiscountValue) : Prop := ∀ code ∈ v.currency, IsCode code

theorem IsCode.solid {code : String} (h : IsCode code) : Solid code.toList := by
  intro c hc
  have hrange := Text.toNat_of_isUpper (h.2 c hc)
  exact Text.isBlank_of_visible (by omega)

theorem IsCode.all_isAlpha {code : String} (h : IsCode code) :
    code.toList.all Char.isAlpha = true := by
  rw [List.all_eq_true]
  intro c hc
  rw [Char.isAlpha, h.2 c hc]
  rfl

theorem IsCode.map_toUpper {code : String} (h : IsCode code) :
    code.toList.map Char.toUpper = code.toList := by
  have hself : ∀ c ∈ code.toList, c.toUpper = c := fun c hc =>
    Char.toUpper_eq_of_not_isLower (Char.not_isLower_of_isUpper (h.2 c hc))
  exact (List.map_congr_left hself).trans (List.map_id _)

theorem toList_text (v : DiscountValue) : v.text.toList =
    match v with
    | .relative m => m.chars ++ ['%']
    | .absolute m (some code) => m.chars ++ ' ' :: code.toList
    | .absolute m none => m.chars := by
  match v with
  | .relative m => simp [text, Decimal.text]
  | .absolute m (some code) => simp [text, Decimal.text]
  | .absolute m none => simp [text, Decimal.text]

theorem simple_text {v : DiscountValue} (h : v.Sound) : Simple v.text.toList := by
  have hmagnitude : ∀ m : Decimal, Simple m.chars := by
    intro m c hc
    rcases m.mem_chars hc with hdigit | rfl | rfl
    · exact Text.isSimple_of_isDigit hdigit
    · decide
    · decide
  rw [toList_text]
  match v with
  | .relative m => exact Text.simple_append.mpr ⟨hmagnitude m, by decide⟩
  | .absolute m none => exact hmagnitude m
  | .absolute m (some code) =>
    have hcode : Simple code.toList := by
      intro c hc
      apply Text.isSimple_of_isAlpha
      rw [Char.isAlpha, (h code rfl).2 c hc, Bool.true_or]
    exact Text.simple_append.mpr ⟨hmagnitude m, Text.simple_cons.mpr ⟨by decide, hcode⟩⟩

theorem getLast?_chars_ne (w : Written) : w.chars.getLast? ≠ some '%' := by
  intro hlast
  rcases w.mem_chars (List.mem_of_getLast? hlast) with h | h | h <;> cases h

/-- A written number alone is an amount, and in front of a percent sign a percentage. -/
theorem parse?_chars (w : Written) :
    parse? w.chars = (Decimal.parse? w.chars).map (.absolute · none) := by
  unfold parse? parseAmount?
  rw [if_neg (getLast?_chars_ne w), Text.words_solid w.chars_ne_nil w.solid_chars, Option.map_map]
  rfl

theorem parse?_percent (w : Written) :
    parse? (w.chars ++ ['%']) = (Decimal.parse? w.chars).map .relative := by
  unfold parse?
  rw [List.getLast?_concat, if_pos rfl, List.dropLast_concat,
    Text.trim_eq_self w.solid_chars.trimmed]

theorem trimmed_percent (w : Written) : Text.Trimmed (w.chars ++ ['%']) := by
  have hpercent : Text.isBlank '%' = false := Text.isBlank_of_visible (by decide)
  have hend : Solid ['%'] := Text.solid_cons.mpr ⟨hpercent, List.forall_mem_nil _⟩
  exact (Text.solid_append.mpr ⟨w.solid_chars, hend⟩).trimmed

theorem IsCode.getLast?_ne {code : String} (h : IsCode code) (cs : List Char) :
    (cs ++ ' ' :: code.toList).getLast? ≠ some '%' := by
  rw [List.append_cons, List.getLast?_append_of_ne_nil _ h.1]
  intro hlast
  have hupper := h.2 _ (List.mem_of_getLast? hlast)
  cases hupper

theorem parse?_text {v : DiscountValue} (h : v.Sound) : parse? v.text.toList = some v := by
  rw [toList_text]
  match v with
  | .relative m =>
    dsimp only
    rw [← m.chars_written, parse?_percent, m.chars_written, m.parse?_chars]
    rfl
  | .absolute m none =>
    dsimp only
    rw [← m.chars_written, parse?_chars, m.chars_written, m.parse?_chars]
    rfl
  | .absolute m (some code) =>
    have hcode : IsCode code := h code rfl
    unfold parse? parseAmount?
    dsimp only
    rw [if_neg (hcode.getLast?_ne m.chars),
      Text.words_pair m.chars_ne_nil hcode.1 m.solid_chars hcode.solid]
    dsimp only
    rw [hcode.all_isAlpha, if_pos rfl, m.parse?_chars, hcode.map_toUpper, String.ofList_toList]
    rfl

theorem trimmed_text {v : DiscountValue} (h : v.Sound) : Text.Trimmed v.text.toList := by
  rw [toList_text]
  match v with
  | .relative m =>
    dsimp only
    rw [← m.chars_written]
    exact trimmed_percent m.written
  | .absolute m none => exact m.solid_chars.trimmed
  | .absolute m (some code) =>
    have hcode : IsCode code := h code rfl
    exact Text.trimmed_pair m.chars_ne_nil hcode.1 m.solid_chars hcode.solid

/-! What is read is sound. -/

theorem isCode_map_toUpper {code : List Char} (hne : code ≠ []) (h : code.all Char.isAlpha = true) :
    IsCode (String.ofList (code.map Char.toUpper)) := by
  unfold IsCode
  rw [String.toList_ofList]
  refine ⟨by simpa using hne, ?_⟩
  intro c hc
  obtain ⟨a, ha, rfl⟩ := List.mem_map.mp hc
  rw [Char.isUpper_toUpper_eq_isAlpha]
  exact List.all_eq_true.mp h a ha

theorem ne_nil_of_mem_words {cs w : List Char} (h : w ∈ Text.words cs) : w ≠ [] := by
  rintro rfl
  have hfilter := (List.mem_filter.mp h).2
  cases hfilter

theorem isCode_of_parseAmount? {cs : List Char} {m : Decimal} {currency : Option String}
    (h : parseAmount? cs = some (m, currency)) : ∀ code ∈ currency, IsCode code := by
  unfold parseAmount? at h
  split at h
  · obtain ⟨m', -, heq⟩ := Option.map_eq_some_iff.mp h
    cases heq
    rintro _ ⟨⟩
  · next amount code hwords =>
    rw [Option.ite_none_right_eq_some] at h
    obtain ⟨halpha, h⟩ := h
    obtain ⟨m', -, heq⟩ := Option.map_eq_some_iff.mp h
    cases heq
    rintro _ ⟨⟩
    have hmem : code ∈ Text.words cs := by
      rw [hwords]
      exact List.mem_cons_of_mem _ (List.mem_singleton_self code)
    exact isCode_map_toUpper (ne_nil_of_mem_words hmem) halpha
  · cases h

theorem sound_of_parse? {cs : List Char} {v : DiscountValue} (h : parse? cs = some v) :
    v.Sound := by
  unfold parse? at h
  split at h
  · obtain ⟨m, -, rfl⟩ := Option.map_eq_some_iff.mp h
    rintro _ ⟨⟩
  · obtain ⟨⟨m, currency⟩, hamount, rfl⟩ := Option.map_eq_some_iff.mp h
    exact isCode_of_parseAmount? hamount

theorem sound_of_parseRelative? {cs : List Char} {v : DiscountValue}
    (h : parseRelative? cs = some v) : v.Sound := by
  obtain ⟨w, -, h⟩ := Option.bind_eq_some_iff.mp h
  match w with
  | .relative m =>
    cases h
    rintro _ ⟨⟩
  | .absolute m none =>
    cases h
    rintro _ ⟨⟩

end DiscountValue

end Tariff
