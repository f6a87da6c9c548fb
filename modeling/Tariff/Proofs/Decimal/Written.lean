/-
  Reading a number that is written with digits alone, a point and a minus apart. Where its digits, read
  as one number, are below `2 ^ 96` and at most 28 of them stand behind the point, it is read as it is
  written, with all its places. Any other number is rounded to fewer places, by half a unit of the last
  of them at most, or it is refused, being too large for that (`Written.reading`).
-/
import Tariff.Proofs.Decimal.Intake
import Tariff.Proofs.Decimal.Value

namespace Tariff.Decimal

open Text (Digits Solid digitsValue)

-- Powers of numbers are the core library's, whatever else is imported.
attribute [local instance (high)] instPowNat

/-! ## The parts of a numeral -/

theorem ne_point_of_isDigit {c : Char} (h : c.isDigit = true) : c ≠ '.' := by
  rintro rfl
  cases h

theorem filter_digits {cs : List Char} (h : Digits cs) : cs.filter Char.isDigit = cs :=
  List.filter_eq_self.mpr h

theorem takeWhile_point {whole rest : List Char} (h : Digits whole)
    (hrest : rest.takeWhile (· ≠ '.') = []) : (whole ++ rest).takeWhile (· ≠ '.') = whole := by
  rw [List.takeWhile_append_of_pos fun c hc => decide_eq_true (ne_point_of_isDigit (h c hc)),
    hrest, List.append_nil]

theorem dropWhile_point {whole : List Char} (h : Digits whole) (rest : List Char) :
    (whole ++ rest).dropWhile (· ≠ '.') = rest.dropWhile (· ≠ '.') :=
  List.dropWhile_append_of_pos fun c hc => decide_eq_true (ne_point_of_isDigit (h c hc))

/-- Digits, a point and digits are those two stretches, and without the point the second is empty. -/
theorem numeral_parts {whole fraction rest : List Char} (hne : whole ≠ []) (h : Digits whole)
    (h' : Digits fraction) (hrest : rest = [] ∧ fraction = [] ∨ rest = '.' :: fraction) :
    Numeral.parse? (whole ++ rest) = some ⟨whole, fraction⟩ := by
  have hparts : (whole ++ rest).takeWhile (· ≠ '.') = whole ∧
      ((whole ++ rest).dropWhile (· ≠ '.')).drop 1 = fraction := by
    rw [dropWhile_point h]
    rcases hrest with ⟨rfl, rfl⟩ | rfl
    · exact ⟨takeWhile_point h rfl, rfl⟩
    · exact ⟨takeWhile_point h rfl, rfl⟩
  have hall : (whole ++ fraction).all (fun c => c.isDigit || c = '_') = true := by
    rw [List.all_eq_true]
    intro c hc
    have hdigit : c.isDigit = true := Text.digits_append.mpr ⟨h, h'⟩ c hc
    rw [hdigit]
    rfl
  have hhead : (whole ++ fraction).head?.any Char.isDigit = true := by
    cases whole with
    | nil => exact absurd rfl hne
    | cons c whole => exact Text.head_digits h
  unfold Numeral.parse?
  rw [hparts.1, hparts.2]
  dsimp only
  rw [hall, hhead, filter_digits h]
  rfl

/-- Rounding is off by half a unit of the last place at most. -/
theorem Rounds.near {n places m s : Nat} (h : Rounds n places m s) :
    |(m : ℚ) / 10 ^ s - (n : ℚ) / 10 ^ places| ≤ 1 / 2 / 10 ^ s := by
  obtain ⟨k, rfl⟩ := Nat.exists_eq_add_of_le h.scale_lt.le
  have hlow := h.low
  have hhigh := h.high
  rw [Nat.add_sub_cancel_left] at hlow hhigh
  have hlow' : (2 : ℚ) * n ≤ 2 * (m * 10 ^ k) + 10 ^ k := by exact_mod_cast hlow
  have hhigh' : (2 : ℚ) * (m * 10 ^ k) ≤ 2 * n + 10 ^ k := by exact_mod_cast hhigh
  have hdiff : (m : ℚ) / 10 ^ s - n / 10 ^ (s + k) = (m * 10 ^ k - n) / 10 ^ (s + k) := by
    field_simp
    ring
  have hhalf : (1 : ℚ) / 2 / 10 ^ s = 10 ^ k / 2 / 10 ^ (s + k) := by
    field_simp
    ring
  have hpos : (0 : ℚ) < 10 ^ (s + k) := by positivity
  rw [hdiff, hhalf, abs_div, abs_of_pos hpos]
  apply div_le_div_of_nonneg_right _ hpos.le
  rw [abs_le]
  constructor <;> linarith

/-! ## Written numbers -/

/-- A number as it is written: digits, with a point and digits behind them or not, and with a minus in
    front or not. -/
structure Written where
  negative : Bool
  whole : List Char
  fraction : List Char
  whole_ne_nil : whole ≠ []
  digits_whole : Digits whole
  digits_fraction : Digits fraction

namespace Written

/-- The digits, with the point if digits stand behind it. -/
def body (w : Written) : List Char :=
  w.whole ++ if w.fraction = [] then [] else '.' :: w.fraction

def chars (w : Written) : List Char := (if w.negative then ['-'] else []) ++ w.body

/-- All digits read as one number. -/
def count (w : Written) : Nat := digitsValue (w.whole ++ w.fraction)

/-- How many digits stand behind the point. -/
def places (w : Written) : Nat := w.fraction.length

/-- A number of units with the sign that is written. -/
def signed (w : Written) (m : Nat) : Int := if w.negative then -m else m

def units (w : Written) : Int := w.signed w.count

/-- The number that is meant. -/
def value (w : Written) : ℚ := (w.units : ℚ) / 10 ^ w.places

/-- A decimal has room for all digits. -/
def Fits (w : Written) : Prop := w.places ≤ maxScale ∧ w.count < limit

instance (w : Written) : Decidable w.Fits := inferInstanceAs (Decidable (_ ∧ _))

/-- What reading the number can come to: the number with all its places; if it does not fit, a decimal
    with fewer places, half a unit of the last of them away at most; or none, if it would be rounded to
    `2 ^ 96` or more. -/
inductive Reading (w : Written) : Option Decimal → Prop
  | exact {d : Decimal} (h : w.Fits) (hunits : d.units = w.units) (hscale : d.scale = w.places) :
      Reading w (some d)
  | rounded {d : Decimal} (h : ¬ w.Fits) (hsize : |w.value| < 2 ^ 96 - 1 / 2)
      (hscale : d.scale < w.places) (hnear : |d.value - w.value| ≤ 1 / 2 / 10 ^ d.scale) :
      Reading w (some d)
  | refused (hsize : 2 ^ 96 - 1 / 2 ≤ |w.value|) : Reading w none

variable (w : Written)

theorem parse?_body : Numeral.parse? w.body = some ⟨w.whole, w.fraction⟩ := by
  apply numeral_parts w.whole_ne_nil w.digits_whole w.digits_fraction
  split
  · next h => exact Or.inl ⟨rfl, h⟩
  · exact Or.inr rfl

theorem head_body : ∃ c cs, w.body = c :: cs ∧ c.isDigit = true := by
  obtain ⟨c, cs, hc⟩ := List.exists_cons_of_ne_nil w.whole_ne_nil
  refine ⟨c, _, by rw [body, hc, List.cons_append], ?_⟩
  exact w.digits_whole c (by simp [hc])

theorem splitSign_chars : Text.splitSign w.chars = (w.negative, w.body) := by
  obtain ⟨c, cs, hbody, hc⟩ := w.head_body
  unfold chars
  cases w.negative with
  | true => rfl
  | false =>
    rw [hbody]
    unfold Text.splitSign
    split
    · next heq =>
      cases heq
      cases hc
    · next heq =>
      cases heq
      cases hc
    · rfl

theorem count_eq : w.count = Nat.ofDigitChars 10 w.fraction (digitsValue w.whole) := by
  rw [count, digitsValue, Nat.ofDigitChars_append]
  rfl

/-- The sign and the digits that are taken in make up what is read. -/
theorem parsePlain?_chars : parsePlain? w.chars =
    if digitsValue w.whole < limit then
      (Intake.fill (digitsValue w.whole) 0 w.fraction).round.bind fun (mantissa, scale) =>
        ofParts? (w.signed mantissa) scale
    else none := by
  unfold parsePlain?
  rw [w.splitSign_chars]
  dsimp only
  rw [w.parse?_body]
  rfl

/-! ### The characters of written numbers -/

/-- Written numbers consist of digits, a minus and a point. -/
theorem mem_chars {c : Char} (h : c ∈ w.chars) : c.isDigit = true ∨ c = '-' ∨ c = '.' := by
  rw [chars, body, List.mem_append, List.mem_append] at h
  rcases h with h | h | h
  · split at h
    · exact Or.inr (Or.inl (List.mem_singleton.mp h))
    · cases h
  · exact Or.inl (w.digits_whole c h)
  · split at h
    · cases h
    · rcases List.mem_cons.mp h with rfl | h
      · exact Or.inr (Or.inr rfl)
      · exact Or.inl (w.digits_fraction c h)

theorem chars_ne_nil : w.chars ≠ [] :=
  List.append_ne_nil_of_right_ne_nil _ (List.append_ne_nil_of_left_ne_nil w.whole_ne_nil _)

theorem solid_chars : Solid w.chars := by
  intro c hc
  rcases w.mem_chars hc with h | rfl | rfl
  · exact Text.isBlank_of_isDigit h
  · decide
  · decide

theorem isExponentMark_of_mem {c : Char} (h : c ∈ w.chars) : isExponentMark c = false := by
  rcases w.mem_chars h with h | rfl | rfl
  · have hrange := Text.toNat_of_isDigit h
    rw [isExponentMark, Bool.or_eq_false_iff, decide_eq_false_iff_not, decide_eq_false_iff_not]
    constructor
    · rintro rfl
      revert hrange
      decide
    · rintro rfl
      revert hrange
      decide
  · decide
  · decide

theorem parse?_eq_parsePlain? : parse? w.chars = parsePlain? w.chars := by
  have hmark : w.chars.dropWhile (! isExponentMark ·) = [] := by
    rw [List.dropWhile_eq_nil_iff]
    intro c hc
    rw [w.isExponentMark_of_mem hc]
    rfl
  unfold parse?
  rw [hmark]

/-! ### What is read -/

theorem natAbs_signed (m : Nat) : (w.signed m).natAbs = m := by
  unfold signed
  split <;> omega

theorem ofParts?_signed {m s : Nat} (hm : m < limit) (hs : s ≤ maxScale) :
    ∃ d : Decimal, ofParts? (w.signed m) s = some d ∧ d.units = w.signed m ∧ d.scale = s := by
  have hroom : (w.signed m).natAbs < 2 ^ (96 : Nat) ∧ s ≤ 28 := ⟨by rwa [natAbs_signed], hs⟩
  exact ⟨_, dif_pos hroom, rfl, rfl⟩

/-- Signs do not change how far numbers are apart. -/
theorem abs_signed_sub (m : Nat) (x y : ℚ) :
    |(w.signed m : ℚ) / x - (w.units : ℚ) / y| = |(m : ℚ) / x - (w.count : ℚ) / y| := by
  unfold units signed
  split
  · push_cast
    rw [neg_div, neg_div, ← neg_sub', abs_neg]
  · push_cast
    rfl

theorem abs_value : |w.value| = (w.count : ℚ) / 10 ^ w.places := by
  have hpos : (0 : ℚ) ≤ (w.count : ℚ) / 10 ^ w.places := by positivity
  unfold value units signed
  split
  · push_cast
    rw [neg_div, abs_neg, abs_of_nonneg hpos]
  · push_cast
    exact abs_of_nonneg hpos

/-- Whether the number is small enough to be rounded, told by its digits. -/
theorem abs_value_lt_iff :
    |w.value| < 2 ^ 96 - 1 / 2 ↔ 2 * w.count < (2 * limit - 1) * 10 ^ w.places := by
  have hpow : (0 : ℚ) < 10 ^ w.places := by positivity
  rw [abs_value, div_lt_iff₀ hpow, ← @Nat.cast_lt ℚ, limit]
  push_cast
  constructor
  · intro h
    linarith
  · intro h
    linarith

theorem reading_of_rounds {d : Decimal} {m s : Nat} (hfits : ¬ w.Fits)
    (h : Rounds w.count w.places m s) (hunits : d.units = w.signed m) (hscale : d.scale = s) :
    w.Reading (some d) := by
  refine .rounded hfits (w.abs_value_lt_iff.mpr h.small) (hscale ▸ h.scale_lt) ?_
  rw [Decimal.value, value, hunits, hscale, abs_signed_sub]
  exact h.near

theorem reading_of_large (h : (2 * limit - 1) * 10 ^ w.places ≤ 2 * w.count) : w.Reading none :=
  .refused (not_lt.mp (mt w.abs_value_lt_iff.mp (Nat.not_lt_of_le h)))

/-- A number is read as it is written if a decimal has room for its digits. Else it is rounded, or it is
    refused for its size. -/
theorem reading : w.Reading (parse? w.chars) := by
  have hcount := w.count_eq
  rw [w.parse?_eq_parsePlain?, w.parsePlain?_chars]
  by_cases hwhole : digitsValue w.whole < limit
  · rw [if_pos hwhole]
    have hfill := fill_round w.digits_fraction hwhole
    dsimp only at hfill
    rw [← hcount] at hfill
    rcases hfill with ⟨hfits, hround⟩ | ⟨hfits, m, s, hround, hrounds⟩ | ⟨hlarge, hround⟩
    · obtain ⟨d, hd, hunits, hscale⟩ := w.ofParts?_signed hfits.2 hfits.1
      rw [hround, Option.bind_some]
      dsimp only
      rw [hd]
      exact .exact hfits hunits hscale
    · obtain ⟨d, hd, hunits, hscale⟩ := w.ofParts?_signed hrounds.units_lt hrounds.scale_le
      rw [hround, Option.bind_some]
      dsimp only
      rw [hd]
      exact w.reading_of_rounds hfits hrounds hunits hscale
    · rw [hround, Option.bind_none]
      exact w.reading_of_large hlarge
  · rw [if_neg hwhole]
    apply w.reading_of_large
    have hlarge : limit * 10 ^ w.places ≤ w.count := by
      rw [hcount, Nat.ofDigitChars_eq_ofDigitChars_zero, Nat.mul_comm]
      exact Nat.le_add_right_of_le (Nat.mul_le_mul_left _ (Nat.le_of_not_lt hwhole))
    calc (2 * limit - 1) * 10 ^ w.places ≤ 2 * limit * 10 ^ w.places :=
          Nat.mul_le_mul_right _ (Nat.sub_le _ _)
      _ = 2 * (limit * 10 ^ w.places) := Nat.mul_assoc _ _ _
      _ ≤ 2 * w.count := Nat.mul_le_mul_left 2 hlarge

/-- A number whose digits fit is read as it is written. -/
theorem parse?_of_fits (h : w.Fits) :
    ∃ d, parse? w.chars = some d ∧ d.units = w.units ∧ d.scale = w.places := by
  have hreading := w.reading
  cases hd : parse? w.chars with
  | some d =>
    rw [hd] at hreading
    cases hreading with
    | exact _ hunits hscale => exact ⟨d, rfl, hunits, hscale⟩
    | rounded hfits => exact absurd h hfits
  | none =>
    rw [hd] at hreading
    cases hreading with
    | refused hsize =>
      refine absurd (w.abs_value_lt_iff.mpr ?_) (not_lt.mpr hsize)
      have hless := h.2
      calc 2 * w.count < 2 * limit - 1 := by omega
        _ ≤ (2 * limit - 1) * 10 ^ w.places := Nat.le_mul_of_pos_right _ (Nat.pow_pos (by decide))

end Written

end Tariff.Decimal
