/-
  Merging bills. `TotalOf` says what it is to be the total of some bills: every part of it is read off
  the bills themselves and none off the way they were merged. A bill is the total of itself, and merging
  one more bill into a total gives the total of one bill more. A merge that stays in range fails only
  where two ids or two currencies disagree.
-/
import Tariff.Billing.Bill
import Tariff.Proofs.Except

namespace Tariff

/-- The sum of decimals from left to right, `none` when one addition is out of range. -/
def Decimal.sumFrom? (d : Decimal) (ds : List Decimal) : Option Decimal := ds.foldlM Decimal.add? d

theorem Decimal.sumFrom?_concat (d : Decimal) (ds : List Decimal) (e : Decimal) :
    d.sumFrom? (ds ++ [e]) = (d.sumFrom? ds).bind (·.add? e) := by
  unfold Decimal.sumFrom?
  rw [List.foldlM_append]
  cases ds.foldlM Decimal.add? d with
  | none => rfl
  | some t => exact bind_pure (t.add? e)

/-! ## Intervals -/

/-- Whether the second interval lies in the first. -/
def Interval.Covers (i j : Interval) : Prop := i.start ≤ j.start ∧ j.finish ≤ i.finish

theorem Interval.covers_refl (i : Interval) : i.Covers i := ⟨Int.le_refl _, Int.le_refl _⟩

/-- What covers the cover of two intervals is what covers both. -/
theorem Interval.covers_cover_iff (k i j : Interval) :
    k.Covers (i.cover j) ↔ k.Covers i ∧ k.Covers j := by
  have hstart : (i.cover j).start.ordinal = min i.start.ordinal j.start.ordinal :=
    Moment.ordinal_earlier ..
  have hfinish : (i.cover j).finish.ordinal = max i.finish.ordinal j.finish.ordinal :=
    Moment.ordinal_later ..
  show (k.start.ordinal ≤ (i.cover j).start.ordinal ∧
      (i.cover j).finish.ordinal ≤ k.finish.ordinal) ↔
    (k.start.ordinal ≤ i.start.ordinal ∧ i.finish.ordinal ≤ k.finish.ordinal) ∧
      (k.start.ordinal ≤ j.start.ordinal ∧ j.finish.ordinal ≤ k.finish.ordinal)
  rw [hstart, hfinish]
  omega

namespace Bill

/-! ## The total of some bills -/

/-- The bill `b` is the total of `first :: rest`: it has their charges in order, the only id that is
    set among them, the sum of their sums, the sum of the quantities in the unit of the first, the
    smallest interval that covers theirs, and all else of the first. -/
structure TotalOf (b first : Bill) (rest : List Bill) : Prop where
  charges : b.charges = (first :: rest).flatMap Bill.charges
  ids : ∀ i, b.id = some i ↔ ∃ g ∈ first :: rest, g.id = some i
  currency : ∀ g ∈ first :: rest, g.sum.currency = b.sum.currency
  amount : first.sum.amount.sumFrom? (rest.map (·.sum.amount)) = some b.sum.amount
  unit : b.quantity.unit = first.quantity.unit
  value : first.quantity.value.sumFrom?
    ((rest.filter (·.quantity.unit = first.quantity.unit)).map (·.quantity.value)) =
      some b.quantity.value
  interval_covers : ∀ g ∈ first :: rest, b.interval.Covers g.interval
  interval_least : ∀ k : Interval, (∀ g ∈ first :: rest, k.Covers g.interval) → k.Covers b.interval
  type : b.type = first.type
  time : b.time = first.time
  customer : b.customer = first.customer
  target : b.target = first.target
  plan : b.plan = first.plan

theorem totalOf_self (b : Bill) : b.TotalOf b [] where
  charges := by simp
  ids := by simp
  currency := by simp
  amount := rfl
  unit := rfl
  value := rfl
  interval_covers := by simpa using b.interval.covers_refl
  interval_least := by simp
  type := rfl
  time := rfl
  customer := rfl
  target := rfl
  plan := rfl

/-! ## One merge -/

theorem mergeIds_eq_ok {a b c : Option String} (h : mergeIds a b = .ok c) (i : String) :
    c = some i ↔ a = some i ∨ b = some i := by
  unfold mergeIds at h
  split at h
  · cases h
    simp
  · cases h
    simp
  · split at h
    · next heq =>
      cases h
      rw [heq, or_self]
    · cases h

theorem mergeIds_eq_error {a b : Option String} {e : AggregationError}
    (h : mergeIds a b = .error e) : ∃ i j, a = some i ∧ b = some j ∧ i ≠ j := by
  unfold mergeIds at h
  split at h
  · cases h
  · cases h
  · split at h
    · cases h
    · next hne => exact ⟨_, _, rfl, rfl, hne⟩

theorem mergeSums_eq_ok {a b c : Money} (h : mergeSums a b = .ok c) :
    b.currency = c.currency ∧ a.currency = c.currency ∧ a.amount.add? b.amount = some c.amount := by
  unfold mergeSums Money.add at h
  by_cases heq : a.currency = b.currency
  · rw [if_pos heq] at h
    cases hadd : a.amount.add? b.amount with
    | none =>
      rw [hadd] at h
      cases h
    | some total =>
      rw [hadd] at h
      cases h
      exact ⟨heq.symm, rfl, rfl⟩
  · rw [if_neg heq] at h
    cases h

theorem mergeSums_eq_error {a b : Money} {e : AggregationError} (h : mergeSums a b = .error e)
    (he : e ≠ .overflow) : a.currency ≠ b.currency := by
  intro heq
  unfold mergeSums Money.add at h
  rw [if_pos heq] at h
  cases hadd : a.amount.add? b.amount with
  | none =>
    rw [hadd] at h
    cases h
    exact he rfl
  | some total =>
    rw [hadd] at h
    cases h

theorem mergeQuantities_eq_ok {a b c : Quantity} (h : mergeQuantities a b = .ok c) :
    c.unit = a.unit ∧
      if b.unit = a.unit then a.value.add? b.value = some c.value else c.value = a.value := by
  unfold mergeQuantities Quantity.add at h
  by_cases heq : a.unit = b.unit
  · rw [if_pos heq] at h
    rw [if_pos heq.symm]
    cases hadd : a.value.add? b.value with
    | none =>
      rw [hadd] at h
      cases h
    | some total =>
      rw [hadd] at h
      cases h
      exact ⟨rfl, rfl⟩
  · rw [if_neg heq] at h
    rw [if_neg fun h => heq h.symm]
    cases h
    exact ⟨rfl, rfl⟩

theorem mergeQuantities_eq_error {a b : Quantity} {e : AggregationError}
    (h : mergeQuantities a b = .error e) : e = .overflow := by
  unfold mergeQuantities at h
  split at h
  · cases h
  · cases h
  · cases h
    rfl

/-- All that a merge does. -/
theorem merge_eq_ok {first other merged : Bill} (h : first.merge other = .ok merged) :
    ∃ id sum quantity, mergeIds first.id other.id = .ok id ∧
      mergeSums first.sum other.sum = .ok sum ∧
      mergeQuantities first.quantity other.quantity = .ok quantity ∧
      merged = { first with
        id := id, sum := sum, quantity := quantity
        interval := first.interval.cover other.interval
        charges := first.charges ++ other.charges } := by
  obtain ⟨id, hid, h⟩ := of_bind_eq_ok h
  obtain ⟨sum, hsum, h⟩ := of_bind_eq_ok h
  obtain ⟨quantity, hquantity, h⟩ := of_bind_eq_ok h
  exact ⟨id, sum, quantity, hid, hsum, hquantity, (Except.ok.inj h).symm⟩

/-- Two bills agree when they have no two different ids and one currency. -/
structure Agrees (a b : Bill) : Prop where
  ids : ∀ i j, a.id = some i → b.id = some j → i = j
  currency : a.sum.currency = b.sum.currency

/-- A merge in range fails only for bills that disagree. -/
theorem merge_eq_error {first other : Bill} {e : AggregationError}
    (h : first.merge other = .error e) (he : e ≠ .overflow) : ¬ first.Agrees other := by
  intro hagree
  rcases of_bind_eq_error h with hid | ⟨id, -, h⟩
  · obtain ⟨i, j, hi, hj, hne⟩ := mergeIds_eq_error hid
    exact hne (hagree.ids i j hi hj)
  rcases of_bind_eq_error h with hsum | ⟨sum, -, h⟩
  · exact mergeSums_eq_error hsum he hagree.currency
  rcases of_bind_eq_error h with hquantity | ⟨quantity, -, h⟩
  · exact he (mergeQuantities_eq_error hquantity)
  · cases h

/-- The merged bill keeps the key under which it is found. -/
theorem key_merge {first other merged : Bill} (h : first.merge other = .ok merged) :
    merged.key = first.key := by
  obtain ⟨id, sum, quantity, -, hsum, -, rfl⟩ := merge_eq_ok h
  have hcurrency := (mergeSums_eq_ok hsum).2.1
  unfold key
  rw [hcurrency]

theorem charges_merge {first other merged : Bill} (h : first.merge other = .ok merged) :
    merged.charges = first.charges ++ other.charges := by
  obtain ⟨id, sum, quantity, -, -, -, rfl⟩ := merge_eq_ok h
  rfl

/-- Merging one more bill into a total gives the total of one bill more. -/
theorem TotalOf.merge {b first other merged : Bill} {rest : List Bill} (h : b.TotalOf first rest)
    (hmerge : b.merge other = .ok merged) : merged.TotalOf first (rest ++ [other]) := by
  obtain ⟨id, sum, quantity, hid, hsum, hquantity, rfl⟩ := merge_eq_ok hmerge
  obtain ⟨hother, hfirst, hamount⟩ := mergeSums_eq_ok hsum
  obtain ⟨hunit, hvalue⟩ := mergeQuantities_eq_ok hquantity
  have hmem : ∀ g, g ∈ first :: (rest ++ [other]) ↔ g ∈ first :: rest ∨ g = other := by
    intro g
    rw [← List.cons_append, List.mem_append, List.mem_singleton]
  refine ⟨?_, ?_, ?_, ?_, hunit.trans h.unit, ?_, ?_, ?_, h.type, h.time, h.customer, h.target,
    h.plan⟩
  · show b.charges ++ other.charges = _
    rw [h.charges, ← List.cons_append, List.flatMap_append, List.flatMap_singleton]
  · intro i
    show id = some i ↔ _
    rw [mergeIds_eq_ok hid i, h.ids i]
    constructor
    · rintro (⟨g, hg, hi⟩ | hi)
      · exact ⟨g, (hmem g).mpr (Or.inl hg), hi⟩
      · exact ⟨other, (hmem other).mpr (Or.inr rfl), hi⟩
    · rintro ⟨g, hg, hi⟩
      rcases (hmem g).mp hg with hg | rfl
      · exact Or.inl ⟨g, hg, hi⟩
      · exact Or.inr hi
  · intro g hg
    rcases (hmem g).mp hg with hg | rfl
    · exact (h.currency g hg).trans hfirst
    · exact hother
  · rw [List.map_append, List.map_singleton, Decimal.sumFrom?_concat, h.amount]
    exact hamount
  -- A quantity in another unit is neither among those summed up nor added by the merge.
  · rw [List.filter_append, List.map_append]
    by_cases heq : other.quantity.unit = first.quantity.unit
    · rw [if_pos (heq.trans h.unit.symm)] at hvalue
      rw [List.filter_cons_of_pos (by simpa using heq), List.filter_nil, List.map_singleton,
        Decimal.sumFrom?_concat, h.value]
      exact hvalue
    · rw [if_neg fun hb => heq (hb.trans h.unit)] at hvalue
      rw [List.filter_cons_of_neg (by simpa using heq), List.filter_nil, List.map_nil,
        List.append_nil, h.value, ← hvalue]
  · intro g hg
    have hself := (Interval.covers_cover_iff _ b.interval other.interval).mp (Interval.covers_refl _)
    rcases (hmem g).mp hg with hg | rfl
    · have hcover := h.interval_covers g hg
      exact ⟨Int.le_trans hself.1.1 hcover.1, Int.le_trans hcover.2 hself.1.2⟩
    · exact hself.2
  · intro k hk
    have hb := h.interval_least k fun g hg => hk g ((hmem g).mpr (Or.inl hg))
    exact (Interval.covers_cover_iff ..).mpr ⟨hb, hk other ((hmem other).mpr (Or.inr rfl))⟩

end Bill

end Tariff
