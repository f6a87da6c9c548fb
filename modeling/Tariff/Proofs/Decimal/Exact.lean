/-
  Sums of decimals that nothing is lost of. Decimals fit together when their sizes, all written with
  the decimal places of the finest, need less than 96 bits in all. Then parts of them can be added up in
  any order and grouping: no addition is out of range and none rounds (`Within.add`).
-/
import Tariff.Proofs.Decimal.Value
import Mathlib.Data.List.Perm.Subperm

namespace Tariff.Decimal

-- Powers of numbers are the core library's, as in the definition of decimals.
attribute [local instance (high)] instPowNat

/-- How many units there are in a decimal, without its sign, when it is written with `m` places. -/
def size (m : Nat) (d : Decimal) : Nat := d.units.natAbs * 10 ^ (m - d.scale)

/-- Written with places enough for each of them, the decimals have less than `2 ^ 96` units in all. -/
def Fit (ds : List Decimal) : Prop :=
  ∃ m, (∀ d ∈ ds, d.scale ≤ m) ∧ (ds.map (size m)).sum < 2 ^ 96

/-- The decimal places of the finest of some decimals. -/
def places : List Decimal → Nat
  | [] => 0
  | d :: ds => max d.scale (places ds)

theorem places_le_iff {ds : List Decimal} {m : Nat} : places ds ≤ m ↔ ∀ d ∈ ds, d.scale ≤ m := by
  induction ds with
  | nil => simp [places]
  | cons d ds ih => rw [places, Nat.max_le, ih, List.forall_mem_cons]

/-- No more places are needed than the finest has. -/
theorem fit_iff {ds : List Decimal} : Fit ds ↔ (ds.map (size (places ds))).sum < 2 ^ 96 := by
  constructor
  · rintro ⟨m, hscale, hsum⟩
    refine Nat.lt_of_le_of_lt (List.sum_le_sum fun d _ => ?_) hsum
    have hplaces : places ds - d.scale ≤ m - d.scale :=
      Nat.sub_le_sub_right (places_le_iff.mpr hscale) _
    exact Nat.mul_le_mul_left _ (Nat.pow_le_pow_right (by decide) hplaces)
  · exact fun hsum => ⟨places ds, places_le_iff.mp (Nat.le_refl _), hsum⟩

instance : DecidablePred Fit := fun _ => decidable_of_iff _ fit_iff.symm

/-- The decimal is no finer than the finest of some decimals, and no larger than all of them together. -/
def Within (d : Decimal) (ds : List Decimal) : Prop :=
  ∀ m, (∀ e ∈ ds, e.scale ≤ m) → d.scale ≤ m ∧ d.size m ≤ (ds.map (size m)).sum

theorem Fit.of_subperm {ds es : List Decimal} (h : Fit es) (hsub : List.Subperm ds es) : Fit ds := by
  obtain ⟨m, hscale, hsum⟩ := h
  obtain ⟨cs, hperm, hsublist⟩ := hsub
  refine ⟨m, fun d hd => hscale d (hsublist.subset (hperm.mem_iff.mpr hd)), ?_⟩
  have hle : (cs.map (size m)).sum ≤ (es.map (size m)).sum :=
    (hsublist.map _).sum_le_sum fun _ _ => Nat.zero_le _
  rw [← (hperm.map (size m)).sum_eq]
  exact Nat.lt_of_le_of_lt hle hsum

theorem within_self (d : Decimal) : d.Within [d] := by
  intro m hm
  exact ⟨hm d (List.mem_singleton_self d), by simp⟩

theorem Within.append_right {d : Decimal} {ds : List Decimal} (h : d.Within ds) (es : List Decimal) :
    d.Within (ds ++ es) := by
  intro m hm
  obtain ⟨hscale, hsize⟩ := h m fun e he => hm e (List.mem_append_left _ he)
  rw [List.map_append, List.sum_append]
  exact ⟨hscale, hsize.trans (Nat.le_add_right ..)⟩

/-! ## One addition -/

theorem roundOff_zero (units : Int) : roundOff units 0 = units := by
  have hwhole : divHalfEven units.natAbs (10 ^ 0) = units.natAbs := by
    simp [divHalfEven, Nat.mod_one]
  unfold roundOff
  dsimp only
  rw [hwhole]
  split <;> omega

theorem fit?_eq_some {units : Int} {scale : Nat} (hunits : units.natAbs < 2 ^ 96)
    (hscale : scale ≤ 28) : fit? units scale = some ⟨units, scale, hunits, hscale⟩ := by
  rw [fit?, List.range_succ_eq_map, List.findSome?_cons, roundOff_zero, Nat.sub_zero, ofParts?,
    dif_pos ⟨hunits, hscale⟩]

/-- The units of a sum at the larger scale of the two. -/
def sumUnits (d e : Decimal) : Int :=
  d.units * 10 ^ (max d.scale e.scale - d.scale) + e.units * 10 ^ (max d.scale e.scale - e.scale)

theorem size_eq {d : Decimal} {s m : Nat} (hd : d.scale ≤ s) (hs : s ≤ m) :
    (d.units * 10 ^ (s - d.scale)).natAbs * 10 ^ (m - s) = d.size m := by
  have hplaces : m - d.scale = (s - d.scale) + (m - s) := by omega
  rw [size, hplaces, Int.natAbs_mul, Int.natAbs_pow, Nat.pow_add, Nat.mul_assoc]
  rfl

theorem sumUnits_le {d e : Decimal} {m : Nat} (hd : d.scale ≤ m) (he : e.scale ≤ m) :
    (sumUnits d e).natAbs * 10 ^ (m - max d.scale e.scale) ≤ d.size m + e.size m := by
  have hm : max d.scale e.scale ≤ m := Nat.max_le.mpr ⟨hd, he⟩
  rw [← size_eq (Nat.le_max_left d.scale e.scale) hm, ← size_eq (Nat.le_max_right d.scale e.scale) hm,
    ← Nat.add_mul]
  exact Nat.mul_le_mul_right _ (Int.natAbs_add_le _ _)

theorem value_sumUnits (d e : Decimal) :
    (sumUnits d e : ℚ) / 10 ^ max d.scale e.scale = d.value + e.value := by
  have hscaled : ∀ (u : Int) {k s : Nat}, k ≤ s →
      ((u * 10 ^ (s - k) : Int) : ℚ) / 10 ^ s = (u : ℚ) / 10 ^ k := by
    intro u k s hk
    have hs : s = (s - k) + k := by omega
    have hne : (10 : ℚ) ^ (s - k) ≠ 0 := by positivity
    conv => lhs; rw [hs, Nat.add_sub_cancel]
    push_cast
    rw [pow_add, mul_comm (u : ℚ), mul_div_mul_left _ _ hne]
  rw [sumUnits, Int.cast_add, add_div, hscaled _ (Nat.le_max_left ..), hscaled _ (Nat.le_max_right ..)]
  rfl

/-- Decimals whose units fit at the larger scale are added without loss. -/
theorem add?_exact {d e : Decimal} (h : (sumUnits d e).natAbs < 2 ^ 96) :
    ∃ c ∈ d.add? e, c.value = d.value + e.value ∧
      ∀ m, d.scale ≤ m → e.scale ≤ m → c.scale ≤ m ∧ c.size m ≤ d.size m + e.size m := by
  have hzero : ∀ {d : Decimal}, d.units = 0 → d.value = 0 := by
    intro d hd
    rw [value, hd, Int.cast_zero, zero_div]
  unfold add?
  split
  · next hd =>
    refine ⟨e, rfl, by rw [hzero hd, zero_add], fun m _ he => ⟨he, Nat.le_add_left ..⟩⟩
  split
  · next he =>
    refine ⟨d, rfl, by rw [hzero he, add_zero], fun m hd _ => ⟨hd, Nat.le_add_right ..⟩⟩
  · refine ⟨_, fit?_eq_some h (Nat.max_le.mpr ⟨d.scale_le, e.scale_le⟩), value_sumUnits d e, ?_⟩
    intro m hd he
    exact ⟨Nat.max_le.mpr ⟨hd, he⟩, sumUnits_le hd he⟩

/-- What is within decimals that fit together adds up without loss, and the sum is within them. -/
theorem Within.add {d e : Decimal} {ds es : List Decimal} (hd : d.Within ds) (he : e.Within es)
    (hfit : Fit (ds ++ es)) :
    ∃ c ∈ d.add? e, c.value = d.value + e.value ∧ c.Within (ds ++ es) := by
  have hparts : ∀ m, (∀ x ∈ ds ++ es, x.scale ≤ m) → d.scale ≤ m ∧ e.scale ≤ m ∧
      d.size m + e.size m ≤ ((ds ++ es).map (size m)).sum := by
    intro m hm
    rw [List.forall_mem_append] at hm
    obtain ⟨hdscale, hdsize⟩ := hd m hm.1
    obtain ⟨hescale, hesize⟩ := he m hm.2
    rw [List.map_append, List.sum_append]
    exact ⟨hdscale, hescale, Nat.add_le_add hdsize hesize⟩
  have hunits : (sumUnits d e).natAbs < 2 ^ 96 := by
    obtain ⟨m, hm, hsum⟩ := hfit
    obtain ⟨hdscale, hescale, hle⟩ := hparts m hm
    have hscaled := (sumUnits_le hdscale hescale).trans hle
    exact Nat.lt_of_le_of_lt ((Nat.le_mul_of_pos_right _ (Nat.pow_pos (by decide))).trans hscaled) hsum
  obtain ⟨c, hc, hvalue, hsize⟩ := add?_exact hunits
  refine ⟨c, hc, hvalue, fun m hm => ?_⟩
  obtain ⟨hdscale, hescale, hle⟩ := hparts m hm
  obtain ⟨hcscale, hcsize⟩ := hsize m hdscale hescale
  exact ⟨hcscale, hcsize.trans hle⟩

end Tariff.Decimal
