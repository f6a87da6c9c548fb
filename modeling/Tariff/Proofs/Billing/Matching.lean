/-
  Which types apply to which. Two types are compared by their ids, or by their names if one of them is
  the wildcard; either way each applies to the other or neither does (`appliesTo_comm`). The id NONE
  matches no id, so a type that has it applies to no plain type, itself included. Next to a wildcard,
  though, ids do not count: there such a type applies by its name like any other (`appliesTo_void_iff`).
  Nothing at all applies only to a type named NONE whose id is reserved (`inert_iff`).
-/
import Tariff.Billing.ChargeType

namespace Tariff.ChargeType

/-- The name as wildcards compare it; a type without a name has the empty one. -/
def label (t : ChargeType) : String := t.name.getD ""

variable {t u : ChargeType}

/-! ## Comparing -/

theorem textsMatch_iff {a b : String} : textsMatch a b = true ↔ a = b ∧ a ≠ void := by
  simp only [textsMatch, Bool.and_eq_true, decide_eq_true_eq]
  constructor
  · rintro ⟨⟨ha, -⟩, heq⟩
    exact ⟨heq, ha⟩
  · rintro ⟨rfl, ha⟩
    exact ⟨⟨ha, ha⟩, rfl⟩

theorem appliesTo_by_name (h : t.id = wildcard ∨ u.id = wildcard) :
    t.appliesTo u = true ↔ t.label = u.label ∧ t.label ≠ void := by
  rw [appliesTo, if_pos h]
  exact textsMatch_iff

theorem appliesTo_by_id (h : ¬ (t.id = wildcard ∨ u.id = wildcard)) :
    t.appliesTo u = true ↔ t.id = u.id ∧ t.id ≠ void := by
  rw [appliesTo, if_neg h]
  exact textsMatch_iff

theorem appliesTo_comm (t u : ChargeType) : t.appliesTo u = u.appliesTo t := by
  have hswap : ∀ {a b : String}, a = b ∧ a ≠ void ↔ b = a ∧ b ≠ void := by
    intro a b
    constructor <;> exact fun ⟨heq, hne⟩ => ⟨heq.symm, heq ▸ hne⟩
  rw [Bool.eq_iff_iff]
  by_cases hname : t.id = wildcard ∨ u.id = wildcard
  · rw [appliesTo_by_name hname, appliesTo_by_name hname.symm]
    exact hswap
  · rw [appliesTo_by_id hname, appliesTo_by_id (mt Or.symm hname)]
    exact hswap

/-! ## What nothing applies to -/

/-- A type meets the wildcard of its own name, unless that is NONE. -/
theorem appliesTo_named_wildcard (t : ChargeType) :
    t.appliesTo ⟨wildcard, t.name⟩ = true ↔ t.label ≠ void := by
  rw [appliesTo_by_name (Or.inr rfl)]
  exact and_iff_right rfl

theorem appliesTo_self (t : ChargeType) :
    t.appliesTo t = true ↔ (if t.id = wildcard then t.label else t.id) ≠ void := by
  split
  · next hid => rw [appliesTo_by_name (Or.inl hid), and_iff_right rfl]
  · next hid => rw [appliesTo_by_id (not_or_intro hid hid), and_iff_right rfl]

/-- Nothing applies to a type exactly if it is named NONE and its id is NONE or the wildcard. -/
theorem inert_iff (t : ChargeType) :
    (∀ u : ChargeType, u.appliesTo t = false) ↔ t.label = void ∧ (t.id = void ∨ t.id = wildcard) := by
  constructor
  · intro h
    have hlabel : t.label = void := by
      refine Decidable.byContradiction fun hne => ?_
      have hmeets := (appliesTo_named_wildcard t).mpr hne
      rw [appliesTo_comm, h] at hmeets
      cases hmeets
    have hself : ¬ t.appliesTo t = true := Bool.eq_false_iff.mp (h t)
    rw [appliesTo_self, Ne, Decidable.not_not] at hself
    refine ⟨hlabel, ?_⟩
    split at hself
    · next hid => exact Or.inr hid
    · exact Or.inl hself
  · rintro ⟨hlabel, hid⟩ u
    rw [appliesTo_comm, Bool.eq_false_iff]
    by_cases hname : t.id = wildcard ∨ u.id = wildcard
    · rw [Ne, appliesTo_by_name hname]
      exact fun h => h.2 hlabel
    · rw [Ne, appliesTo_by_id hname]
      exact fun h => h.2 (hid.resolve_right fun hwild => hname (Or.inl hwild))

/-! ## The id NONE -/

/-- A type with the id NONE applies to the wildcards of its own name and to nothing else, and only they
    apply to it. So only if it is named NONE as well, it applies to nothing and nothing to it. -/
theorem appliesTo_void_iff (t : ChargeType) (h : t.id = void) :
    (∀ u : ChargeType, t.appliesTo u = u.appliesTo t ∧
      (t.appliesTo u = true ↔ u.id = wildcard ∧ u.label = t.label ∧ t.label ≠ void)) ∧
    ((∀ u : ChargeType, t.appliesTo u = false ∧ u.appliesTo t = false) ↔ t.label = void) := by
  have hmeets : ∀ u : ChargeType,
      t.appliesTo u = true ↔ u.id = wildcard ∧ u.label = t.label ∧ t.label ≠ void := by
    intro u
    have hplain : t.id ≠ wildcard := by
      rw [h]
      decide
    by_cases hwild : u.id = wildcard
    · rw [appliesTo_by_name (Or.inr hwild), and_iff_right hwild, eq_comm (a := t.label)]
    · rw [appliesTo_by_id (not_or_intro hplain hwild)]
      exact iff_of_false (fun hid => hid.2 h) fun hname => hwild hname.1
  refine ⟨fun u => ⟨appliesTo_comm t u, hmeets u⟩, ?_⟩
  have hinert := inert_iff t
  rw [and_iff_left (Or.inl h)] at hinert
  rw [← hinert]
  exact forall_congr' fun u => by rw [appliesTo_comm, and_self]

/-- Named `monthly`, a type with the id NONE applies to no plain type, but to the wildcard of this name. -/
theorem appliesTo_void_iff_monthly :
    let t : ChargeType := ⟨void, some "monthly"⟩
    t.id = void ∧ t.appliesTo t = false ∧ t.appliesTo ⟨"7", some "monthly"⟩ = false ∧
      (⟨wildcard, some "monthly"⟩ : ChargeType).appliesTo t = true ∧
      ¬ ∀ u : ChargeType, t.appliesTo u = false ∧ u.appliesTo t = false := by
  intro t
  obtain ⟨hmeets, hnothing⟩ := appliesTo_void_iff t rfl
  refine ⟨rfl, ?_, ?_, ?_, mt hnothing.mp (by decide)⟩
  · exact Bool.eq_false_iff.mpr (mt (hmeets t).2.mp (by decide))
  · exact Bool.eq_false_iff.mpr (mt (hmeets _).2.mp (by decide))
  · rw [← (hmeets _).1]
    exact (hmeets _).2.mpr (by decide)

/-- A type with the id NONE is matched by a wildcard of its name, also where neither has a name. -/
theorem wildcard_meets_void :
    (⟨void, some "monthly"⟩ : ChargeType).appliesTo ⟨wildcard, some "monthly"⟩ = true ∧
      (⟨wildcard, some "monthly"⟩ : ChargeType).appliesTo ⟨void, some "monthly"⟩ = true ∧
      (⟨void, none⟩ : ChargeType).appliesTo ⟨wildcard, none⟩ = true ∧
      (⟨wildcard, none⟩ : ChargeType).appliesTo ⟨void, none⟩ = true := by
  decide

end Tariff.ChargeType
