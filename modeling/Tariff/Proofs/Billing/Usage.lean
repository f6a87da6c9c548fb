/-
  How much usage the quantities of bills measure. A merge keeps the unit of the first bill and drops
  quantities in other units, so a bill of charges has the unit of the first charge and all usage in this
  unit. Of batches this is true once more on top: what a batch brings is in the unit of its own first
  charge. Where that is another unit than the bill's, the usage in the bill's unit that stands behind it
  in the batch is lost, and nothing else is (`aggregateBatches_usage`). So the quantity depends on the
  cut into batches only where a batch loses usage (`aggregateBatches_unit_behind`).
-/
import Tariff.Proofs.Billing.Balance
import Tariff.Proofs.Billing.Batches

namespace Tariff

/-! ## Usage and quantities in a unit -/

/-- The usage in a unit that charges have in total. -/
def usageIn (unit : String) (cs : List Charge) : ℚ :=
  ((cs.filter (·.usage.unit = unit)).map (·.usage.value.value)).sum

/-- The unit of the first of some charges. -/
def firstUnit (cs : List Charge) : Option String := cs.head?.map (·.usage.unit)

/-- What is lost of the usage in a unit by billing charges apart from others: all of it when the first
    of them is in another unit. -/
def lostUsage (unit : String) (cs : List Charge) : ℚ :=
  if firstUnit cs = some unit then 0 else usageIn unit cs

/-- What is lost of the usage in a unit, under a key, by billing batches apart from each other. -/
def BillContext.lost (ctx : BillContext) (key unit : String) (batches : List (List Charge)) : ℚ :=
  (batches.map fun batch => lostUsage unit (ctx.under key batch)).sum

/-- Under a key, a batch starts with this unit or has no usage in it. -/
def BillContext.Opens (ctx : BillContext) (key unit : String) (batch : List Charge) : Prop :=
  firstUnit (ctx.under key batch) = some unit ∨ ∀ c ∈ ctx.under key batch, c.usage.unit ≠ unit

/-- The total of the quantities in a unit that bills have. -/
def Bills.quantityIn (unit : String) (bs : List Bill) : ℚ :=
  ((bs.filter (·.quantity.unit = unit)).map (·.quantity.value.value)).sum

theorem usageIn_append (unit : String) (cs ds : List Charge) :
    usageIn unit (cs ++ ds) = usageIn unit cs + usageIn unit ds := by
  unfold usageIn
  rw [List.filter_append, List.map_append, List.sum_append]

theorem Bills.quantityIn_append (unit : String) (bs bs' : List Bill) :
    quantityIn unit (bs ++ bs') = quantityIn unit bs + quantityIn unit bs' := by
  unfold quantityIn
  rw [List.filter_append, List.map_append, List.sum_append]

theorem Bills.quantityIn_singleton (unit : String) (b : Bill) :
    quantityIn unit [b] = if b.quantity.unit = unit then b.quantity.value.value else 0 := by
  unfold quantityIn
  by_cases hunit : b.quantity.unit = unit <;> simp [hunit]

theorem Bills.quantityIn_bill (ctx : BillContext) (unit : String) (cs : List Charge) :
    quantityIn unit (cs.map ctx.bill) = usageIn unit cs := by
  unfold quantityIn usageIn
  rw [List.filter_map, List.map_map]
  rfl

/-- Batches that start with a unit whenever they have usage in it lose nothing of it. -/
theorem BillContext.lost_eq_zero {ctx : BillContext} {key unit : String}
    {batches : List (List Charge)} (h : ∀ batch ∈ batches, ctx.Opens key unit batch) :
    ctx.lost key unit batches = 0 := by
  apply List.sum_eq_zero
  intro x hx
  obtain ⟨batch, hbatch, rfl⟩ := List.mem_map.mp hx
  unfold lostUsage
  rcases h batch hbatch with hfirst | hnone
  · exact if_pos hfirst
  · have husage : usageIn unit (ctx.under key batch) = 0 := by
      unfold usageIn
      rw [List.filter_eq_nil_iff.mpr fun c hc heq => hnone c hc (of_decide_eq_true heq)]
      rfl
    rw [husage, ite_self]

/-! ## Bills that measure others -/

/-- The quantity of the bill `b` measures those of the bills `gs`: it has the unit of the first of them
    and the total of their quantities in this unit. -/
structure Bill.Measures (b : Bill) (gs : List Bill) : Prop where
  unit : gs.head?.map (·.quantity.unit) = some b.quantity.unit
  value : b.quantity.value.value = Bills.quantityIn b.quantity.unit gs

namespace Bill

variable {first other merged : Bill} {gs : List Bill}

theorem measures_self (b : Bill) : b.Measures [b] where
  unit := rfl
  value := by rw [Bills.quantityIn_singleton, if_pos rfl]

/-- What a merge does to the quantity, when no addition is rounded. -/
theorem quantity_merge (hmerge : first.merge other = .ok merged)
    (hexact : AllExact (first.additions other)) :
    merged.quantity.unit = first.quantity.unit ∧
      merged.quantity.value.value =
        first.quantity.value.value + Bills.quantityIn first.quantity.unit [other] := by
  have hadds := quantity_mem_additions hmerge
  obtain ⟨id, sum, quantity, -, -, hquantity, rfl⟩ := merge_eq_ok hmerge
  obtain ⟨hunit, hvalue⟩ := mergeQuantities_eq_ok hquantity
  refine ⟨hunit, ?_⟩
  rw [Bills.quantityIn_singleton]
  split at hvalue
  · next heq =>
    obtain ⟨total, htotal, hexactly⟩ := hexact _ (hadds heq.symm)
    rw [if_pos heq, ← hexactly, Option.some.inj (hvalue.symm.trans htotal)]
  · next hne =>
    rw [if_neg hne, add_zero]
    exact congrArg Decimal.value hvalue

theorem Measures.merge (h : first.Measures gs) (hmerge : first.merge other = .ok merged)
    (hexact : AllExact (first.additions other)) : merged.Measures (gs ++ [other]) := by
  obtain ⟨hunit, hvalue⟩ := quantity_merge hmerge hexact
  refine ⟨?_, ?_⟩
  · rw [List.head?_append, Option.map_or, h.unit, hunit]
    rfl
  · rw [hvalue, h.value, hunit, Bills.quantityIn_append]

end Bill

namespace Bills

/-! ## Runs -/

/-- What stands after the bills `done` have been merged: totals whose quantities measure those of the
    bills of their key. -/
structure Measured (done : List Bill) (bills : Bills) : Prop where
  accounts : Accounts done bills
  measures : ∀ b ∈ bills, b.Measures (done.filter (·.key = b.key))

variable {done : List Bill} {bills : Bills} {b : Bill} {s s' : BillSet} {toBill : Charge → Bill}

theorem measured_nil : Measured [] [] where
  accounts := accounts_nil
  measures := by simp

/-- A bill under a new key measures itself. -/
theorem Measured.add_new (h : Measured done bills) (hnew : b.key ∉ bills.map Bill.key) :
    Measured (done ++ [b]) (bills ++ [b]) := by
  refine ⟨h.accounts.add_new hnew, fun x hx => ?_⟩
  rcases List.mem_append.mp hx with hx | hx
  · have hne : b.key ≠ x.key := fun heq => hnew (heq ▸ List.mem_map_of_mem hx)
    rw [filter_concat_of_ne hne]
    exact h.measures x hx
  · have hnone : done.filter (·.key = b.key) = [] := by
      rw [List.filter_eq_nil_iff]
      intro y hy heq
      apply hnew
      rw [h.accounts.mem_keys, ← of_decide_eq_true heq]
      exact List.mem_map_of_mem hy
    rw [List.mem_singleton.mp hx, filter_concat_self, hnone]
    exact b.measures_self

/-- The bill of a key measures one more that is merged into it; the others measure what they did. -/
theorem Measured.add_merged {before after : List Bill} {first merged : Bill}
    (h : Measured done (before ++ first :: after)) (hkey : first.key = b.key)
    (hmerge : first.merge b = .ok merged) (hexact : AllExact (first.additions b)) :
    Measured (done ++ [b]) (before ++ merged :: after) := by
  refine ⟨h.accounts.add_merged hkey hmerge, fun x hx => ?_⟩
  rcases List.mem_cons.mp (List.perm_middle.mem_iff.mp hx) with rfl | hx
  · have hfirst := h.measures first (List.mem_append_right _ (List.mem_cons_self ..))
    rw [Bill.key_merge hmerge, hkey, filter_concat_self, ← hkey]
    exact hfirst.merge hmerge hexact
  · rw [filter_concat_of_ne (hkey ▸ key_ne_of_nodup h.accounts.keys_nodup x hx)]
    exact h.measures x (List.perm_middle.mem_iff.mpr (List.mem_cons_of_mem _ hx))

/-- One merge: what stood after `done` has taken in `b` as well. -/
theorem Measured.merge (h : Measured done s.order) (hstep : s.InStep)
    (hmerge : s.merge b = .ok s') (hexact : AllExact (s.additions b)) :
    Measured (done ++ [b]) s'.order ∧ s'.InStep := by
  obtain ⟨hstep', ⟨hnew, horder⟩ | ⟨before, first, after, merged, horder, hkey, hmerged, horder'⟩⟩ :=
    hstep.merge_eq_ok hmerge
  · rw [horder]
    exact ⟨h.add_new hnew, hstep'⟩
  · have hfirst : first ∈ s.order := by
      rw [horder]
      exact List.mem_append_right _ (List.mem_cons_self ..)
    rw [hstep.additions_eq hfirst hkey] at hexact
    rw [horder] at h
    rw [horder']
    exact ⟨h.add_merged hkey hmerged hexact, hstep'⟩

-- The induction is on the bills still to be merged; `done` grows as they are taken in.
theorem Measured.mergeAll {bs : List Bill} (h : Measured done s.order) (hstep : s.InStep)
    (hmerge : s.mergeAll bs = .ok s') (hexact : AllExact (s.allAdditions bs)) :
    Measured (done ++ bs) s'.order ∧ s'.InStep := by
  induction bs generalizing done s with
  | nil =>
    cases hmerge
    rw [List.append_nil]
    exact ⟨h, hstep⟩
  | cons b bs ih =>
    rw [BillSet.mergeAll] at hmerge
    obtain ⟨hone, hrest⟩ := allExact_append.mp hexact
    cases hresult : s.merge b with
    | error e =>
      rw [hresult] at hmerge
      cases hmerge
    | ok next =>
      rw [hresult] at hmerge hrest
      obtain ⟨hnext, hstep'⟩ := h.merge hstep hresult hone
      rw [List.append_cons]
      exact ih hnext hstep' hmerge hrest

theorem measured_aggregate {charges : List Charge} (h : aggregate toBill charges = .ok bills)
    (hexact : AllExact (aggregateAdditions toBill charges)) :
    Measured (charges.map toBill) bills := by
  unfold aggregate at h
  split at h
  · next s hmerge =>
    cases h
    exact (measured_nil.mergeAll (s := BillSet.empty) BillSet.inStep_empty hmerge hexact).1
  · cases h

/-- The batches have been merged into these bills, a list for each. -/
theorem Measured.mergeBatches {batches : List (List Charge)} (h : Measured done s.order)
    (hstep : s.InStep) (hmerge : s.mergeBatches toBill batches = .ok s')
    (hexact : AllExact (s.batchAdditions toBill batches)) :
    ∃ runs, List.Forall₂ (fun batch bills => Measured (batch.map toBill) bills) batches runs ∧
      Measured (done ++ runs.flatten) s'.order := by
  induction batches generalizing done s with
  | nil =>
    cases hmerge
    exact ⟨[], List.Forall₂.nil, by rwa [List.flatten_nil, List.append_nil]⟩
  | cons batch batches ih =>
    rw [BillSet.mergeBatches] at hmerge
    obtain ⟨hbatch, hrest⟩ := allExact_append.mp hexact
    cases hbills : aggregate toBill batch with
    | error e =>
      rw [hbills] at hmerge
      cases hmerge
    | ok bills =>
      rw [hbills] at hmerge hrest
      obtain ⟨hmerges, hlater⟩ := allExact_append.mp hrest
      dsimp only at hmerge
      cases hresult : s.mergeAll bills with
      | error e =>
        rw [hresult] at hmerge
        cases hmerge
      | ok next =>
        rw [hresult] at hmerge hlater
        obtain ⟨hnext, hstep'⟩ := h.mergeAll hstep hresult hmerges
        obtain ⟨runs, hruns, hall⟩ := ih hnext hstep' hmerge hlater
        refine ⟨bills :: runs, List.Forall₂.cons (measured_aggregate hbills hbatch) hruns, ?_⟩
        rwa [List.flatten_cons, ← List.append_assoc]

theorem measured_aggregateBatches {batches : List (List Charge)}
    (h : aggregateBatches toBill batches = .ok bills)
    (hexact : AllExact (aggregateBatchesAdditions toBill batches)) :
    ∃ runs, List.Forall₂ (fun batch bills => Measured (batch.map toBill) bills) batches runs ∧
      Measured runs.flatten bills := by
  unfold aggregateBatches at h
  split at h
  · next s hmerge =>
    cases h
    exact measured_nil.mergeBatches (s := BillSet.empty) BillSet.inStep_empty hmerge hexact
  · cases h

/-! ## The bills of a batch -/

variable {ctx : BillContext} {batch : List Charge} {batches : List (List Charge)} {runs : List Bills}

/-- Of a run there is one bill under a key, which measures the charges of this key, or none. -/
theorem Measured.under (h : Measured (batch.map ctx.bill) bills) (key : String) :
    (ctx.under key batch = [] ∧ bills.filter (·.key = key) = []) ∨
      ∃ b, bills.filter (·.key = key) = [b] ∧ b.Measures ((ctx.under key batch).map ctx.bill) := by
  by_cases hkey : key ∈ bills.map Bill.key
  · obtain ⟨b, hb, rfl⟩ := List.mem_map.mp hkey
    refine Or.inr ⟨b, ?_, ?_⟩
    · obtain ⟨before, after, rfl⟩ := List.append_of_mem hb
      have hne := key_ne_of_nodup h.accounts.keys_nodup
      have hfront : before.filter (·.key = b.key) = [] := List.filter_eq_nil_iff.mpr fun x hx heq =>
        hne x (List.mem_append_left _ hx) (of_decide_eq_true heq).symm
      have hback : after.filter (·.key = b.key) = [] := List.filter_eq_nil_iff.mpr fun x hx heq =>
        hne x (List.mem_append_right _ hx) (of_decide_eq_true heq).symm
      rw [List.filter_append, List.filter_cons_of_pos (by simp), hfront, hback, List.nil_append]
    · have hb := h.measures b hb
      rw [List.filter_map] at hb
      exact hb
  · refine Or.inl ⟨?_, ?_⟩
    · apply under_eq_nil
      intro c hc heq
      apply hkey
      rw [h.accounts.mem_keys, ← heq]
      exact List.mem_map_of_mem (List.mem_map_of_mem hc)
    · rw [List.filter_eq_nil_iff]
      intro x hx heq
      exact hkey (of_decide_eq_true heq ▸ List.mem_map_of_mem hx)

theorem Measured.firstUnit_under (h : Measured (batch.map ctx.bill) bills) (key : String) :
    (bills.filter (·.key = key)).head?.map (·.quantity.unit) = firstUnit (ctx.under key batch) := by
  rcases h.under key with ⟨hcharges, hbills⟩ | ⟨b, hbills, hmeasures⟩
  · rw [hcharges, hbills]
    rfl
  · have hunit := hmeasures.unit
    rw [List.head?_map, Option.map_map] at hunit
    rw [hbills]
    exact hunit.symm

/-- What the bill of a batch measures in a unit, and what is lost of this unit. -/
theorem Measured.quantityIn_under (h : Measured (batch.map ctx.bill) bills) (key unit : String) :
    quantityIn unit (bills.filter (·.key = key)) + lostUsage unit (ctx.under key batch) =
      usageIn unit (ctx.under key batch) := by
  have hfirst := h.firstUnit_under key
  unfold lostUsage
  rcases h.under key with ⟨hcharges, hbills⟩ | ⟨b, hbills, hmeasures⟩
  · rw [hcharges, hbills]
    simp [quantityIn, usageIn]
  · have hvalue := hmeasures.value
    rw [quantityIn_bill] at hvalue
    rw [hbills] at hfirst ⊢
    have hunder : firstUnit (ctx.under key batch) = some b.quantity.unit := hfirst.symm
    rw [quantityIn_singleton, hunder]
    by_cases hunit : b.quantity.unit = unit
    · rw [if_pos hunit, if_pos (congrArg some hunit), hvalue, hunit, add_zero]
    · rw [if_neg hunit, if_neg fun heq => hunit (Option.some.inj heq), zero_add]

/-! ## The bills of all batches -/

variable (hruns : List.Forall₂ (fun batch bills => Measured (batch.map ctx.bill) bills) batches runs)
  (key : String)

include hruns

theorem firstUnit_flatten : (runs.flatten.filter (·.key = key)).head?.map (·.quantity.unit) =
    firstUnit (ctx.under key batches.flatten) := by
  induction hruns with
  | nil => rfl
  | cons hbatch _ ih =>
    have hone := hbatch.firstUnit_under key
    unfold firstUnit at hone ih ⊢
    rw [List.flatten_cons, List.flatten_cons, List.filter_append, under_append, List.head?_append,
      List.head?_append, Option.map_or, Option.map_or, hone, ih]

theorem quantityIn_flatten (unit : String) :
    quantityIn unit (runs.flatten.filter (·.key = key)) + ctx.lost key unit batches =
      usageIn unit (ctx.under key batches.flatten) := by
  induction hruns with
  | nil => simp [quantityIn, usageIn, BillContext.lost, BillContext.under]
  | @cons batch bills batches runs hbatch _ ih =>
    have hone := hbatch.quantityIn_under key unit
    have hlost : ctx.lost key unit (batch :: batches) =
        lostUsage unit (ctx.under key batch) + ctx.lost key unit batches := by
      simp [BillContext.lost]
    rw [List.flatten_cons, List.flatten_cons, List.filter_append, under_append, quantityIn_append,
      usageIn_append, ← hone, ← ih, hlost]
    ring

end Bills

/-! ## Aggregation in batches -/

section

variable {ctx : BillContext} {batches : List (List Charge)} {bills : Bills} {b : Bill}

/-- The charges of a bill are those of its key, however they were cut into batches. -/
theorem charges_eq_under (hexact : AllExact (aggregateBatchesAdditions ctx.bill batches))
    (h : aggregateBatches ctx.bill batches = .ok bills) (hb : b ∈ bills) :
    b.charges = ctx.under b.key batches.flatten := by
  have hgathered := Bills.outcome_aggregateBatches hexact
  rw [h] at hgathered
  have hcharges := (hgathered.gathers b hb).charges
  rw [List.filter_map, List.flatMap_map] at hcharges
  exact hcharges.trans (List.flatMap_singleton' _)

/-- The unit of a bill, and what it measures of the usage in this unit. -/
theorem quantity_aggregateBatches (hexact : AllExact (aggregateBatchesAdditions ctx.bill batches))
    (h : aggregateBatches ctx.bill batches = .ok bills) (hb : b ∈ bills) :
    firstUnit b.charges = some b.quantity.unit ∧
      b.quantity.value.value + ctx.lost b.key b.quantity.unit batches =
        usageIn b.quantity.unit b.charges := by
  obtain ⟨runs, hruns, hmeasured⟩ := Bills.measured_aggregateBatches h hexact
  obtain ⟨hunit, hvalue⟩ := hmeasured.measures b hb
  rw [charges_eq_under hexact h hb, ← Bills.firstUnit_flatten hruns, hvalue,
    Bills.quantityIn_flatten hruns]
  exact ⟨hunit, rfl⟩

end

/-- Let no addition in aggregating batches be out of range or rounded. Then every bill has the unit of
    the first of its charges, and its quantity is the total usage of its charges in this unit, less what
    is lost in batches in which its first charge is in another unit. Where no batch has usage in the
    unit behind another unit, it is the whole total, and any two such cuts of the same charges into
    batches give the same quantity. -/
theorem aggregateBatches_usage (ctx : BillContext) (batches : List (List Charge))
    (hexact : AllExact (aggregateBatchesAdditions ctx.bill batches)) (bills : Bills)
    (h : aggregateBatches ctx.bill batches = .ok bills) (b : Bill) (hb : b ∈ bills) :
    firstUnit b.charges = some b.quantity.unit ∧
    b.quantity.value.value =
      usageIn b.quantity.unit b.charges - ctx.lost b.key b.quantity.unit batches ∧
    ((∀ batch ∈ batches, ctx.Opens b.key b.quantity.unit batch) →
      b.quantity.value.value = usageIn b.quantity.unit b.charges) ∧
    ∀ batches' bills', batches'.flatten = batches.flatten →
      AllExact (aggregateBatchesAdditions ctx.bill batches') →
      aggregateBatches ctx.bill batches' = .ok bills' → ∀ b' ∈ bills', b'.key = b.key →
        b'.quantity.unit = b.quantity.unit ∧
        ((∀ batch ∈ batches ++ batches', ctx.Opens b.key b.quantity.unit batch) →
          b'.quantity.value.sameValue b.quantity.value = true) := by
  obtain ⟨hunit, hvalue⟩ := quantity_aggregateBatches hexact h hb
  have htotal : (∀ batch ∈ batches, ctx.Opens b.key b.quantity.unit batch) →
      b.quantity.value.value = usageIn b.quantity.unit b.charges := by
    intro hopens
    rw [← hvalue, BillContext.lost_eq_zero hopens, add_zero]
  refine ⟨hunit, eq_sub_of_add_eq hvalue, htotal, ?_⟩
  intro batches' bills' hflatten hexact' h' b' hb' hkey
  have hcharges : b'.charges = b.charges := by
    rw [charges_eq_under hexact' h' hb', charges_eq_under hexact h hb, hkey, hflatten]
  obtain ⟨hunit', hvalue'⟩ := quantity_aggregateBatches hexact' h' hb'
  rw [hcharges] at hunit' hvalue'
  have hsame : b'.quantity.unit = b.quantity.unit := Option.some.inj (hunit'.symm.trans hunit)
  refine ⟨hsame, fun hopens => ?_⟩
  rw [List.forall_mem_append] at hopens
  rw [hkey, hsame, BillContext.lost_eq_zero hopens.2, add_zero] at hvalue'
  rw [Decimal.sameValue_iff, hvalue', htotal hopens.1]

/-- Of three batches that bill one target, the second starts with gigabytes; its three items are lost
    and the bill measures five of eight. -/
theorem aggregateBatches_usage_lost :
    let day := Moment.midnight ⟨2024, 8, 1, by decide, by decide, by decide⟩
    let charge (units : Fin 10) (unit : String) : Charge :=
      ⟨none, ⟨"monthly", none⟩, "server", ⟨⟨1, 0, by decide, by decide⟩, "USD"⟩,
        ⟨⟨units, 0, by omega, by decide⟩, unit⟩, Interval.between day day, []⟩
    let batches := [[charge 1 "item", charge 2 "gb"], [charge 2 "gb", charge 3 "item"],
      [charge 4 "item"]]
    let ctx : BillContext := ⟨"client", none, day⟩
    AllExact (aggregateBatchesAdditions ctx.bill batches) ∧
      ∃ b, aggregateBatches ctx.bill batches = .ok [b] ∧ b.quantity.unit = "item" ∧
        usageIn "item" b.charges = 8 ∧ ctx.lost b.key "item" batches = 3 ∧
        b.quantity.value.value = 5 := by
  intro day charge batches ctx
  have hexact : AllExact (aggregateBatchesAdditions ctx.bill batches) := by
    simp only [ctx, batches, charge, day]
    decide +kernel
  have hrun : (aggregateBatches ctx.bill batches).map (fun bills => bills.map fun b =>
      (b.quantity.unit, usageIn "item" b.charges, ctx.lost b.key "item" batches)) =
        .ok [("item", 8, 3)] := by
    simp only [ctx, batches, charge, day]
    decide +kernel
  cases hresult : aggregateBatches ctx.bill batches with
  | error e =>
    rw [hresult] at hrun
    cases hrun
  | ok bills =>
    rw [hresult] at hrun
    obtain ⟨b, rfl, hb⟩ := List.map_eq_singleton_iff.mp (Except.ok.inj hrun)
    obtain ⟨hunit, htotal, hlost⟩ : b.quantity.unit = "item" ∧ usageIn "item" b.charges = 8 ∧
      ctx.lost b.key "item" batches = 3 := by simpa using hb
    have hvalue := (aggregateBatches_usage ctx batches hexact [b] hresult b
      (List.mem_singleton_self b)).2.1
    rw [hunit, htotal, hlost] at hvalue
    exact ⟨hexact, b, rfl, hunit, htotal, hlost, hvalue.trans (by norm_num)⟩

/-- Usage behind another unit is lost when it is billed in a batch of its own, and counts when it is
    not. -/
theorem aggregateBatches_unit_behind :
    let day := Moment.midnight ⟨2024, 8, 1, by decide, by decide, by decide⟩
    let charge (units : Fin 10) (unit : String) : Charge :=
      ⟨none, ⟨"monthly", none⟩, "server", ⟨⟨1, 0, by decide, by decide⟩, "USD"⟩,
        ⟨⟨units, 0, by omega, by decide⟩, unit⟩, Interval.between day day, []⟩
    let cut := [[charge 1 "item"], [charge 2 "gb", charge 3 "item"]]
    let whole := [[charge 1 "item", charge 2 "gb", charge 3 "item"]]
    let ctx : BillContext := ⟨"client", none, day⟩
    cut.flatten = whole.flatten ∧ AllExact (aggregateBatchesAdditions ctx.bill cut) ∧
      AllExact (aggregateBatchesAdditions ctx.bill whole) ∧
      (aggregateBatches ctx.bill cut).map (fun bills => bills.map fun b =>
          (b.quantity.unit, b.quantity.value.value, usageIn b.quantity.unit b.charges)) =
        .ok [("item", 1, 4)] ∧
      (aggregateBatches ctx.bill whole).map (fun bills => bills.map fun b =>
          (b.quantity.unit, b.quantity.value.value)) = .ok [("item", 4)] := by
  decide +kernel

end Tariff
