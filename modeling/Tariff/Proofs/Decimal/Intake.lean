/-
  The digits behind a point. They are taken in one by one as long as a decimal has room for one more
  (`fill_spec`), and the first digit that is left decides how the rest of them is rounded off. What comes
  of it is all digits, where there is room for them, or else a number that is half a unit of its last
  place away from what is written, or nothing, where what is written is too large for that
  (`fill_round`).
-/
import Mathlib.Tactic.Ring
import Tariff.Decimal.Text
import Tariff.Proofs.Text.Digits

namespace Tariff.Decimal

open Text (Digits digitsValue)

-- Powers of numbers are the core library's, whatever else is imported.
attribute [local instance (high)] instPowNat

/-! ## Taking in digits -/

/-- More digits do not make a number smaller. -/
theorem le_ofDigitChars (ds : List Char) (m : Nat) : m ≤ Nat.ofDigitChars 10 ds m := by
  induction ds generalizing m with
  | nil => exact Nat.le_refl m
  | cons d ds ih =>
    rw [Nat.ofDigitChars_cons]
    have hrest := ih (10 * m + (d.toNat - '0'.toNat))
    omega

theorem ofDigitChars_digit (m : Nat) (d : Char) (ds : List Char) :
    Nat.ofDigitChars 10 (d :: ds) m = Nat.ofDigitChars 10 ds (10 * m + digitsValue [d]) := by
  simp [digitsValue, Nat.ofDigitChars_cons]

/-- Digits are taken in from the left as long as there is room for one more. -/
theorem fill_spec {ds : List Char} {m k : Nat} (hds : Digits ds) (hm : m < limit)
    (hk : k ≤ maxScale) :
    ∃ taken left, ds = taken ++ left ∧
      Intake.fill m k ds = ⟨Nat.ofDigitChars 10 taken m, k + taken.length, left⟩ ∧
      Nat.ofDigitChars 10 taken m < limit ∧ k + taken.length ≤ maxScale ∧
      ∀ d more, left = d :: more →
        k + taken.length = maxScale ∨ limit ≤ Nat.ofDigitChars 10 (taken ++ [d]) m := by
  induction ds generalizing m k with
  | nil => exact ⟨[], [], rfl, rfl, hm, hk, fun d more h => nomatch h⟩
  | cons d ds ih =>
    have hd : d.isDigit = true := Text.head_digits hds
    have hbar : d ≠ '_' := by
      rintro rfl
      cases hd
    rw [Intake.fill.eq_3 _ _ _ _ hbar]
    by_cases hroom : k < maxScale ∧ 10 * m + digitsValue [d] < limit
    · rw [if_pos hroom]
      obtain ⟨taken, left, rfl, hfill, hless, hscale, hfull⟩ :=
        ih (fun c hc => hds c (List.mem_cons_of_mem _ hc)) hroom.2 (Nat.succ_le_of_lt hroom.1)
      have hlength : k + 1 + taken.length = k + (d :: taken).length := by
        rw [List.length_cons]
        omega
      refine ⟨d :: taken, left, rfl, ?_, ?_, ?_, ?_⟩
      · rw [hfill, ofDigitChars_digit, hlength]
      · rwa [ofDigitChars_digit]
      · rwa [← hlength]
      · rw [← hlength]
        intro e more hleft
        rw [List.cons_append, ofDigitChars_digit]
        exact hfull e more hleft
    · rw [if_neg hroom]
      refine ⟨[], d :: ds, rfl, rfl, hm, hk, fun e more hleft => ?_⟩
      obtain ⟨rfl, -⟩ := List.cons.inj hleft
      rw [List.nil_append, ofDigitChars_digit, List.length_nil]
      rw [not_and, Nat.not_lt] at hroom
      rcases Nat.lt_or_eq_of_le hk with hless | heq
      · exact Or.inr (hroom hless)
      · exact Or.inl heq

/-! ## Digits that are left -/

theorem ofDigitChars_append_left (taken left : List Char) (m : Nat) :
    Nat.ofDigitChars 10 (taken ++ left) m =
      Nat.ofDigitChars 10 taken m * 10 ^ left.length + digitsValue left := by
  rw [Nat.ofDigitChars_append, Nat.ofDigitChars_eq_ofDigitChars_zero, digitsValue, Nat.mul_comm]

theorem digitsValue_cons (d : Char) (ds : List Char) :
    digitsValue (d :: ds) = digitsValue [d] * 10 ^ ds.length + digitsValue ds :=
  ofDigitChars_append_left [d] ds 0

theorem digitsValue_digit_le {d : Char} (h : d.isDigit = true) : digitsValue [d] ≤ 9 := by
  have hrange := Text.toNat_of_isDigit h
  have hzero : '0'.toNat = 48 := rfl
  have hvalue : digitsValue [d] = d.toNat - '0'.toNat := by simp [digitsValue, Nat.ofDigitChars_cons]
  omega

theorem digitsValue_lt {ds : List Char} (h : Digits ds) : digitsValue ds < 10 ^ ds.length := by
  induction ds with
  | nil => exact Nat.one_pos
  | cons d ds ih =>
    have hd := digitsValue_digit_le (Text.head_digits h)
    have hds := ih fun c hc => h c (List.mem_cons_of_mem _ hc)
    have hle := Nat.mul_le_mul_right (10 ^ ds.length) hd
    rw [digitsValue_cons, List.length_cons, Nat.pow_succ]
    omega

/-- The first of some digits shows whether they make up less than half a unit of the place in front. -/
theorem digitsValue_half {d : Char} {ds : List Char} (h : Digits (d :: ds)) :
    digitsValue [d] < 5 ↔ 2 * digitsValue (d :: ds) < 10 ^ (d :: ds).length := by
  have hds := digitsValue_lt fun c hc => h c (List.mem_cons_of_mem _ hc)
  rw [digitsValue_cons d ds, List.length_cons, Nat.pow_succ]
  constructor
  · intro hless
    have hle := Nat.mul_le_mul_right (10 ^ ds.length) (Nat.le_of_lt_succ hless)
    omega
  · intro hless
    by_contra hfive
    have hle := Nat.mul_le_mul_right (10 ^ ds.length) (Nat.le_of_not_lt hfive)
    omega

/-! ## Rounding -/

/-- The number `m` with `s` places is half a unit of its last place away at most from the number `n`
    with more places, which is no larger than can be rounded. -/
structure Rounds (n places m s : Nat) : Prop where
  scale_lt : s < places
  scale_le : s ≤ maxScale
  units_lt : m < limit
  low : 2 * n ≤ 2 * (m * 10 ^ (places - s)) + 10 ^ (places - s)
  high : 2 * (m * 10 ^ (places - s)) ≤ 2 * n + 10 ^ (places - s)
  small : 2 * n < (2 * limit - 1) * 10 ^ places

/-- Numbers of fewer places are smaller. -/
theorem small_of_less {n k places : Nat} (h : 2 * n < (2 * limit - 1) * 10 ^ k) (hk : k ≤ places) :
    2 * n < (2 * limit - 1) * 10 ^ places :=
  Nat.lt_of_lt_of_le h (Nat.mul_le_mul_left _ (Nat.pow_le_pow_right (by decide) hk))

section

variable {m s k r : Nat}

/-- Less than half a unit is dropped. -/
theorem Rounds.down (hm : m < limit) (hs : s ≤ maxScale) (hk : 0 < k) (hr : 2 * r < 10 ^ k) :
    Rounds (m * 10 ^ k + r) (s + k) m s := by
  have hroom := Nat.mul_le_mul_right (10 ^ k) (show 2 * m + 1 ≤ 2 * limit - 1 by omega)
  have hunits : (2 * m + 1) * 10 ^ k = 2 * (m * 10 ^ k) + 10 ^ k := by ring
  refine ⟨by omega, hs, hm, ?_, ?_, small_of_less ?_ (Nat.le_add_left k s)⟩
  · rw [Nat.add_sub_cancel_left]
    omega
  · rw [Nat.add_sub_cancel_left]
    omega
  · omega

/-- Half a unit or more makes one unit more. -/
theorem Rounds.up (hm : m + 1 < limit) (hs : s ≤ maxScale) (hk : 0 < k) (hr : 10 ^ k ≤ 2 * r)
    (hr' : r < 10 ^ k) : Rounds (m * 10 ^ k + r) (s + k) (m + 1) s := by
  have hroom := Nat.mul_le_mul_right (10 ^ k) (show 2 * (m + 1) ≤ 2 * limit - 1 by omega)
  have hunits : 2 * (m + 1) * 10 ^ k = 2 * (m * 10 ^ k) + 2 * 10 ^ k := by ring
  have hmore : (m + 1) * 10 ^ k = m * 10 ^ k + 10 ^ k := by ring
  refine ⟨by omega, hs, hm, ?_, ?_, small_of_less ?_ (Nat.le_add_left k s)⟩
  · rw [Nat.add_sub_cancel_left, hmore]
    omega
  · rw [Nat.add_sub_cancel_left, hmore]
    omega
  · omega

/-- One unit more than there is room for is a tenth of that with one place less, rounded up. -/
theorem Rounds.carry (hm : m + 1 = limit) (hs : s + 1 ≤ maxScale) (hr : r < 10 ^ k) :
    Rounds (m * 10 ^ k + r) (s + 1 + k) ((m + 1 + 4) / 10) s := by
  have hplaces : s + 1 + k - s = k + 1 := by omega
  have htenth : 10 * ((limit + 4) / 10) = limit + 4 := by decide
  have hunits : (m + 1 + 4) / 10 * 10 ^ (k + 1) = m * 10 ^ k + 5 * 10 ^ k := by
    calc (m + 1 + 4) / 10 * 10 ^ (k + 1) = 10 * ((limit + 4) / 10) * 10 ^ k := by
          rw [hm, Nat.pow_succ]
          ring
      _ = m * 10 ^ k + 5 * 10 ^ k := by
          rw [htenth, ← hm]
          ring
  have hnext : 10 ^ (k + 1) = 10 * 10 ^ k := Nat.pow_succ'
  refine ⟨by omega, by omega, ?_, ?_, ?_, small_of_less (k := k + 1) ?_ (by omega)⟩
  · rw [hm]
    decide
  · rw [hplaces, hunits, hnext]
    omega
  · rw [hplaces, hunits, hnext]
    omega
  · have hroom := Nat.mul_le_mul_right (10 ^ k) (show 2 * (m + 1) ≤ (2 * limit - 1) * 10 by
      rw [hm]
      decide)
    have hall : 2 * (m + 1) * 10 ^ k = 2 * (m * 10 ^ k) + 2 * 10 ^ k := by ring
    rw [hnext, ← Nat.mul_assoc]
    omega

end

/-- What comes of digits that are left: they are rounded off, or the number is too large for that. -/
theorem round_left {m s : Nat} {d : Char} {left : List Char} (hm : m < limit) (hs : s ≤ maxScale)
    (hleft : Digits (d :: left)) :
    let k := (d :: left).length
    let n := m * 10 ^ k + digitsValue (d :: left)
    (∃ m' s', Intake.round ⟨m, s, d :: left⟩ = some (m', s') ∧ Rounds n (s + k) m' s') ∨
      (2 * limit - 1) * 10 ^ (s + k) ≤ 2 * n ∧ Intake.round ⟨m, s, d :: left⟩ = none := by
  have hlt := digitsValue_lt hleft
  have hhalf := digitsValue_half hleft
  have hpos : 0 < (d :: left).length := Nat.succ_pos _
  unfold Intake.round
  dsimp only
  by_cases hd : digitsValue [d] < 5
  · rw [if_pos hd]
    exact Or.inl ⟨m, s, rfl, .down hm hs hpos (hhalf.mp hd)⟩
  rw [if_neg hd]
  have hr := Nat.le_of_not_lt (mt hhalf.mpr hd)
  by_cases hroom : m + 1 < limit
  · rw [if_pos hroom]
    exact Or.inl ⟨m + 1, s, rfl, .up hroom hs hpos hr hlt⟩
  rw [if_neg hroom]
  have hlimit : m + 1 = limit := by omega
  cases s with
  | zero =>
    have hodd : 2 * limit - 1 = 2 * m + 1 := by omega
    have hunits : (2 * m + 1) * 10 ^ (d :: left).length =
        2 * (m * 10 ^ (d :: left).length) + 10 ^ (d :: left).length := by ring
    refine Or.inr ⟨?_, rfl⟩
    rw [Nat.zero_add, hodd, hunits]
    omega
  | succ s => exact Or.inl ⟨(m + 1 + 4) / 10, s, rfl, .carry hlimit hs hlt⟩

/-- What comes of all digits: they fit and are all kept, they are rounded off, or they make up a number
    that is too large. -/
theorem fill_round {ds : List Char} {m : Nat} (hds : Digits ds) (hm : m < limit) :
    let n := Nat.ofDigitChars 10 ds m
    (ds.length ≤ maxScale ∧ n < limit) ∧ (Intake.fill m 0 ds).round = some (n, ds.length) ∨
    ¬ (ds.length ≤ maxScale ∧ n < limit) ∧
      (∃ m' s, (Intake.fill m 0 ds).round = some (m', s) ∧ Rounds n ds.length m' s) ∨
    (2 * limit - 1) * 10 ^ ds.length ≤ 2 * n ∧ (Intake.fill m 0 ds).round = none := by
  obtain ⟨taken, left, rfl, hfill, hless, hscale, hfull⟩ := fill_spec hds hm (Nat.zero_le _)
  rw [Nat.zero_add] at hfill hscale hfull
  dsimp only
  rw [hfill]
  cases left with
  | nil =>
    rw [List.append_nil]
    exact Or.inl ⟨⟨hscale, hless⟩, rfl⟩
  | cons d left =>
    have hnone : ¬ ((taken ++ d :: left).length ≤ maxScale ∧
        Nat.ofDigitChars 10 (taken ++ d :: left) m < limit) := by
      rintro ⟨hplaces, hunits⟩
      rw [List.length_append, List.length_cons] at hplaces
      rcases hfull d left rfl with hlast | hlast
      · omega
      · have hmore := le_ofDigitChars left (Nat.ofDigitChars 10 (taken ++ [d]) m)
        rw [← Nat.ofDigitChars_append, List.append_assoc, List.singleton_append] at hmore
        omega
    have hround := round_left hless hscale (Text.digits_append.mp hds).2
    dsimp only at hround
    rw [← List.length_append, ← ofDigitChars_append_left] at hround
    rcases hround with hrounds | hlarge
    · exact Or.inr (Or.inl ⟨hnone, hrounds⟩)
    · exact Or.inr (Or.inr hlarge)

end Tariff.Decimal
