/-
  The index of a bill set keeps in step with its bills: it knows just the keys of the bills, and for each
  the place where its bill stands. A merged bill keeps its key, so this stays true when bills are
  replaced in place; and so a merge always finds the bill of its key when there is one.
-/
import Tariff.Proofs.Billing.Merge

namespace Tariff.BillSet

/-- The index tells where each key stands, and knows no other keys. -/
def InStep (s : BillSet) : Prop :=
  ∀ key n, s.index.lookup key = some n ↔ (s.order.map Bill.key)[n]? = some key

variable {s s' : BillSet} {b : Bill}

theorem inStep_empty : empty.InStep := by
  intro key n
  simp [empty]

theorem InStep.lookup_eq_none_iff (h : s.InStep) (key : String) :
    s.index.lookup key = none ↔ key ∉ s.order.map Bill.key := by
  rw [List.mem_iff_getElem?]
  constructor
  · rintro hnone ⟨n, hn⟩
    rw [(h key n).mpr hn] at hnone
    cases hnone
  · intro hnot
    rw [Option.eq_none_iff_forall_ne_some]
    intro n hn
    exact hnot ⟨n, (h key n).mp hn⟩

theorem getElem?_concat_eq_some {ks : List String} {k key : String} {n : Nat} :
    (ks ++ [k])[n]? = some key ↔ ks[n]? = some key ∨ n = ks.length ∧ k = key := by
  rcases Nat.lt_trichotomy n ks.length with hlt | rfl | hgt
  · rw [List.getElem?_append_left hlt]
    constructor
    · exact Or.inl
    · rintro (h | ⟨rfl, -⟩)
      · exact h
      · exact absurd hlt (Nat.lt_irrefl _)
  · rw [List.getElem?_concat_length, List.getElem?_eq_none (Nat.le_refl _)]
    simp
  · rw [List.getElem?_eq_none (by rw [List.length_append, List.length_singleton]; omega),
      List.getElem?_eq_none (Nat.le_of_lt hgt)]
    simp only [reduceCtorEq, false_or, false_iff, not_and]
    omega

theorem InStep.push (h : s.InStep) (hnew : b.key ∉ s.order.map Bill.key) : (s.push b).InStep := by
  intro key n
  show List.lookup key ((b.key, s.order.length) :: s.index) = some n ↔
    ((s.order ++ [b]).map Bill.key)[n]? = some key
  rw [List.map_append, List.map_singleton, getElem?_concat_eq_some, List.length_map,
    List.lookup_cons, ← h key n]
  by_cases hkey : key = b.key
  · rw [hkey, beq_self_eq_true, (h.lookup_eq_none_iff _).mpr hnew]
    simp [eq_comm]
  · rw [beq_eq_false_iff_ne.mpr hkey]
    simp [Ne.symm hkey]

/-- The new bill stands under the key that the replaced one had. -/
theorem InStep.replace (h : s.InStep) {n : Nat} (hkey : (s.order.map Bill.key)[n]? = some b.key) :
    (s.replace n b).InStep := by
  have hkeys : (s.order.set n b).map Bill.key = s.order.map Bill.key := by
    obtain ⟨hlt, hn⟩ := List.getElem?_eq_some_iff.mp hkey
    rw [List.map_set, ← hn, List.set_getElem_self]
  intro key m
  show s.index.lookup key = some m ↔ ((s.order.set n b).map Bill.key)[m]? = some key
  rw [hkeys]
  exact h key m

theorem InStep.key_get (h : s.InStep) {key : String} {n : Nat} (hn : s.index.lookup key = some n) :
    (s.order.get ⟨n, s.index_lt _ _ hn⟩).key = key := by
  have hkey := (h key n).mp hn
  rw [List.getElem?_map, List.getElem?_eq_getElem (s.index_lt _ _ hn)] at hkey
  exact Option.some.inj hkey

/-! ## One merge -/

/-- What a merge leaves: a new bill at the end when its key is new, or else the bill of its key merged
    with it where it stands. -/
theorem InStep.merge_eq_ok (h : s.InStep) (hmerge : s.merge b = .ok s') :
    s'.InStep ∧ ((b.key ∉ s.order.map Bill.key ∧ s'.order = s.order ++ [b]) ∨
      ∃ before first after merged, s.order = before ++ first :: after ∧ first.key = b.key ∧
        first.merge b = .ok merged ∧ s'.order = before ++ merged :: after) := by
  unfold merge at hmerge
  split at hmerge
  · next hnone =>
    cases hmerge
    have hnew := (h.lookup_eq_none_iff _).mp hnone
    exact ⟨h.push hnew, Or.inl ⟨hnew, rfl⟩⟩
  · next n hn =>
    have hlt := s.index_lt _ _ hn
    have hfirst := h.key_get hn
    split at hmerge
    · next merged hmerged =>
      cases hmerge
      have hkey := Bill.key_merge hmerged
      refine ⟨h.replace ?_, Or.inr ?_⟩
      · rw [hkey, hfirst]
        exact (h _ n).mp hn
      · obtain ⟨before, after, horder, -, hset⟩ := @List.exists_of_set _ n merged _ hlt
        exact ⟨before, s.order[n], after, merged, horder, hfirst, hmerged, hset⟩
    · cases hmerge

/-- A merge fails as the bill of its key fails to merge with it. -/
theorem InStep.merge_eq_error {e : AggregationError} (h : s.InStep) (hmerge : s.merge b = .error e) :
    ∃ first ∈ s.order, first.key = b.key ∧ first.merge b = .error e := by
  unfold merge at hmerge
  split at hmerge
  · cases hmerge
  · next n hn =>
    have hfirst := h.key_get hn
    split at hmerge
    · cases hmerge
    · next e' herror =>
      cases hmerge
      exact ⟨_, List.get_mem .., hfirst, herror⟩

end Tariff.BillSet
