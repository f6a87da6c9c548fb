/-
  The additions of decimals that aggregation does, in order, up to the bill on which it fails. Where
  all of them are exact, no merge is out of range (`merge_ne_overflow`), and the amount of a merged
  bill means the sum of the two amounts (`value_merge`).
-/
import Tariff.Proofs.Billing.BillSet
import Tariff.Proofs.Decimal.Value

namespace Tariff

/-- All of these additions are exact. -/
def AllExact (additions : List (Decimal × Decimal)) : Prop := ∀ p ∈ additions, p.1.AddsExactly p.2

instance (additions : List (Decimal × Decimal)) : Decidable (AllExact additions) :=
  inferInstanceAs (Decidable (∀ p ∈ additions, _))

theorem allExact_append {as bs : List (Decimal × Decimal)} :
    AllExact (as ++ bs) ↔ AllExact as ∧ AllExact bs := List.forall_mem_append

/-! ## What is added -/

/-- The amounts are added when ids and currencies agree, and then the values when the units agree. -/
def Bill.additions (first other : Bill) : List (Decimal × Decimal) :=
  match mergeIds first.id other.id with
  | .error _ => []
  | .ok _ =>
    if first.sum.currency = other.sum.currency then
      (first.sum.amount, other.sum.amount) ::
        if first.quantity.unit = other.quantity.unit then
          [(first.quantity.value, other.quantity.value)]
        else []
    else []

namespace BillSet

/-- The additions of merging a bill into the one under its key. -/
def additions (s : BillSet) (b : Bill) : List (Decimal × Decimal) :=
  match (s.index.lookup b.key).bind (s.order[·]?) with
  | none => []
  | some first => first.additions b

/-- The additions of merging bills one after the other. -/
def allAdditions (s : BillSet) : List Bill → List (Decimal × Decimal)
  | [] => []
  | b :: bs =>
    s.additions b ++
      match s.merge b with
      | .ok s => s.allAdditions bs
      | .error _ => []

end BillSet

/-- The additions of aggregating charges. -/
def aggregateAdditions (toBill : Charge → Bill) (charges : List Charge) :
    List (Decimal × Decimal) :=
  BillSet.empty.allAdditions (charges.map toBill)

/-- The additions of merging the bills of each batch of charges into a set. -/
def BillSet.batchAdditions (toBill : Charge → Bill) (s : BillSet) :
    List (List Charge) → List (Decimal × Decimal)
  | [] => []
  | batch :: batches =>
    aggregateAdditions toBill batch ++
      match aggregate toBill batch with
      | .error _ => []
      | .ok bills =>
        s.allAdditions bills ++
          match s.mergeAll bills with
          | .error _ => []
          | .ok s => s.batchAdditions toBill batches

/-- The additions of aggregating batches of charges. -/
def aggregateBatchesAdditions (toBill : Charge → Bill) (batches : List (List Charge)) :
    List (Decimal × Decimal) :=
  BillSet.empty.batchAdditions toBill batches

/-! ## One merge -/

namespace Bill

variable {first other merged : Bill}

theorem mem_additions (h : first.merge other = .ok merged) :
    (first.sum.amount, other.sum.amount) ∈ first.additions other := by
  obtain ⟨id, sum, quantity, hid, hsum, -, -⟩ := merge_eq_ok h
  have hcurrency : first.sum.currency = other.sum.currency :=
    (mergeSums_eq_ok hsum).2.1.trans (mergeSums_eq_ok hsum).1.symm
  unfold additions
  rw [hid]
  dsimp only
  rw [if_pos hcurrency]
  exact List.mem_cons_self ..

theorem quantity_mem_additions (h : first.merge other = .ok merged)
    (hunit : first.quantity.unit = other.quantity.unit) :
    (first.quantity.value, other.quantity.value) ∈ first.additions other := by
  obtain ⟨id, sum, quantity, hid, hsum, -, -⟩ := merge_eq_ok h
  have hcurrency : first.sum.currency = other.sum.currency :=
    (mergeSums_eq_ok hsum).2.1.trans (mergeSums_eq_ok hsum).1.symm
  unfold additions
  rw [hid]
  dsimp only
  rw [if_pos hcurrency, if_pos hunit]
  exact List.mem_cons_of_mem _ (List.mem_singleton_self _)

/-- The amount of a merged bill means the sum of the two amounts. -/
theorem value_merge (h : first.merge other = .ok merged) (hexact : AllExact (first.additions other)) :
    merged.sum.amount.value = first.sum.amount.value + other.sum.amount.value := by
  obtain ⟨c, hc, hvalue⟩ := hexact _ (mem_additions h)
  obtain ⟨id, sum, quantity, -, hsum, -, rfl⟩ := merge_eq_ok h
  have hadd := (mergeSums_eq_ok hsum).2.2
  rw [← hvalue, Option.some.inj (hadd.symm.trans hc)]

theorem mergeSums_ne_overflow {a b : Money}
    (h : a.currency = b.currency → a.amount.AddsExactly b.amount) :
    mergeSums a b ≠ .error .overflow := by
  unfold mergeSums Money.add
  by_cases heq : a.currency = b.currency
  · obtain ⟨c, hc, -⟩ := h heq
    rw [if_pos heq, Option.mem_def.mp hc]
    exact fun h => nomatch h
  · rw [if_neg heq]
    exact fun h => nomatch h

theorem mergeQuantities_ne_overflow {a b : Quantity}
    (h : a.unit = b.unit → a.value.AddsExactly b.value) :
    mergeQuantities a b ≠ .error .overflow := by
  unfold mergeQuantities Quantity.add
  by_cases heq : a.unit = b.unit
  · obtain ⟨c, hc, -⟩ := h heq
    rw [if_pos heq, Option.mem_def.mp hc]
    exact fun h => nomatch h
  · rw [if_neg heq]
    exact fun h => nomatch h

theorem mergeIds_ne_overflow (a b : Option String) : mergeIds a b ≠ .error .overflow := by
  intro h
  unfold mergeIds at h
  split at h
  · cases h
  · cases h
  · split at h <;> cases h

theorem merge_ne_overflow (hexact : AllExact (first.additions other)) :
    first.merge other ≠ .error .overflow := by
  intro h
  rcases of_bind_eq_error h with hid | ⟨id, hid, h⟩
  · exact mergeIds_ne_overflow _ _ hid
  unfold additions at hexact
  rw [hid] at hexact
  dsimp only at hexact
  rcases of_bind_eq_error h with hsum | ⟨sum, hsum, h⟩
  · refine mergeSums_ne_overflow (fun heq => ?_) hsum
    rw [if_pos heq] at hexact
    exact hexact _ (List.mem_cons_self ..)
  have hcurrency : first.sum.currency = other.sum.currency :=
    (mergeSums_eq_ok hsum).2.1.trans (mergeSums_eq_ok hsum).1.symm
  rw [if_pos hcurrency] at hexact
  rcases of_bind_eq_error h with hquantity | ⟨quantity, -, h⟩
  · refine mergeQuantities_ne_overflow (fun heq => ?_) hquantity
    rw [if_pos heq] at hexact
    exact hexact _ (List.mem_cons_of_mem _ (List.mem_singleton_self _))
  · cases h

end Bill

/-! ## Merging into a set -/

/-- What is added is added to the only bill of that key. -/
theorem BillSet.InStep.additions_eq {s : BillSet} (h : s.InStep) {first b : Bill}
    (hmem : first ∈ s.order) (hkey : first.key = b.key) : s.additions b = first.additions b := by
  obtain ⟨n, hn, rfl⟩ := List.mem_iff_getElem.mp hmem
  have hlookup : s.index.lookup b.key = some n := by
    rw [h, List.getElem?_map, List.getElem?_eq_getElem hn, ← hkey]
    rfl
  unfold additions
  rw [hlookup, Option.bind_some, List.getElem?_eq_getElem hn]

end Tariff
