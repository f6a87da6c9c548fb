/-
  Bills that lose no money. A bill balances when its sum means the total of the sums of its charges.
  Where the charges of one key fit together, as decimals do that can be added up without loss, every
  merge of their bills balances again, in whatever grouping they come; so aggregation, with or without
  batches, yields bills that balance, or fails for another reason than a sum out of range
  (`aggregate_balances`). Charges that do not fit can be rounded, or be out of range on the way to a
  total that is not (`aggregate_lossy`).
-/
import Tariff.Proofs.Billing.Additions
import Tariff.Proofs.Billing.Totals
import Tariff.Proofs.Decimal.Exact

namespace Tariff

/-! ## Charges that fit together -/

/-- The sums of the charges can be added up without loss, and so can their usages. -/
structure Fit (charges : List Charge) : Prop where
  sums : Decimal.Fit (charges.map (·.sum.amount))
  usages : Decimal.Fit (charges.map (·.usage.value))

instance : DecidablePred Fit := fun charges =>
  decidable_of_iff (Decimal.Fit (charges.map (·.sum.amount)) ∧
      Decimal.Fit (charges.map (·.usage.value)))
    ⟨fun h => ⟨h.1, h.2⟩, fun h => ⟨h.sums, h.usages⟩⟩

theorem Fit.of_subperm {cs ds : List Charge} (h : Fit ds) (hsub : List.Subperm cs ds) : Fit cs := by
  obtain ⟨es, hperm, hsublist⟩ := hsub
  exact ⟨h.sums.of_subperm ⟨_, hperm.map _, hsublist.map _⟩,
    h.usages.of_subperm ⟨_, hperm.map _, hsublist.map _⟩⟩

/-- The charges that are billed under a key. -/
def BillContext.under (ctx : BillContext) (key : String) (charges : List Charge) : List Charge :=
  charges.filter fun c => (ctx.bill c).key = key

/-- The charges of each key fit together. -/
def FitByKey (ctx : BillContext) (charges : List Charge) : Prop :=
  ∀ c ∈ charges, Fit (ctx.under (ctx.bill c).key charges)

instance (ctx : BillContext) : DecidablePred (FitByKey ctx) := fun charges =>
  inferInstanceAs (Decidable (∀ c ∈ charges, _))

variable {ctx : BillContext} {charges done more : List Charge}

theorem FitByKey.fit (h : FitByKey ctx charges) (key : String) : Fit (ctx.under key charges) := by
  cases hunder : ctx.under key charges with
  | nil => exact ⟨⟨0, by simp, by decide⟩, ⟨0, by simp, by decide⟩⟩
  | cons c cs =>
    have hc : c ∈ ctx.under key charges := by
      rw [hunder]
      exact List.mem_cons_self ..
    obtain ⟨hmem, hkey⟩ := List.mem_filter.mp hc
    rw [← hunder, ← of_decide_eq_true hkey]
    exact h c hmem

theorem FitByKey.of_subperm (h : FitByKey ctx charges) (hsub : List.Subperm more charges) :
    FitByKey ctx more :=
  fun _ _ => (h.fit _).of_subperm (hsub.filter _)

theorem under_append (key : String) (cs ds : List Charge) :
    ctx.under key (cs ++ ds) = ctx.under key cs ++ ctx.under key ds := List.filter_append ..

theorem under_eq_self {key : String} {cs : List Charge} (h : ∀ c ∈ cs, (ctx.bill c).key = key) :
    ctx.under key cs = cs :=
  List.filter_eq_self.mpr fun c hc => decide_eq_true (h c hc)

theorem under_eq_nil {key : String} {cs : List Charge} (h : ∀ c ∈ cs, (ctx.bill c).key ≠ key) :
    ctx.under key cs = [] :=
  List.filter_eq_nil_iff.mpr fun c hc heq => h c hc (of_decide_eq_true heq)

/-! ## Bills that balance -/

namespace Bill

/-- The sum of the bill means the total of the sums of its charges; and neither the sum nor the quantity
    is finer or larger than what the charges have together. -/
structure Balances (b : Bill) : Prop where
  total : b.sum.amount.value = (b.charges.map (·.sum.amount.value)).sum
  sum_within : b.sum.amount.Within (b.charges.map (·.sum.amount))
  quantity_within : b.quantity.value.Within (b.charges.map (·.usage.value))

theorem balances_bill (ctx : BillContext) (c : Charge) : (ctx.bill c).Balances where
  total := by simp [BillContext.bill]
  sum_within := c.sum.amount.within_self
  quantity_within := c.usage.value.within_self

variable {first other merged : Bill}

theorem allExact_additions (hsum : first.sum.amount.AddsExactly other.sum.amount)
    (hquantity : first.quantity.value.AddsExactly other.quantity.value) :
    AllExact (first.additions other) := by
  unfold additions
  split
  · exact fun p hp => nomatch hp
  split
  · rw [AllExact, List.forall_mem_cons]
    refine ⟨hsum, ?_⟩
    split
    · simpa using hquantity
    · exact fun p hp => nomatch hp
  · exact fun p hp => nomatch hp

/-- How a merge ends in which nothing is lost: with a bill that balances, or for another reason than a
    sum out of range. -/
theorem Balances.merge (hfirst : first.Balances) (hother : other.Balances)
    (hfit : Fit (first.charges ++ other.charges)) :
    match first.merge other with
    | .ok merged => merged.Balances
    | .error e => e ≠ .overflow := by
  have hsums := hfit.sums
  have husages := hfit.usages
  rw [List.map_append] at hsums husages
  obtain ⟨sum, hsum, hvalue, hwithin⟩ := hfirst.sum_within.add hother.sum_within hsums
  obtain ⟨quantity, hquantity, hqvalue, hqwithin⟩ :=
    hfirst.quantity_within.add hother.quantity_within husages
  have hexact : AllExact (first.additions other) :=
    allExact_additions ⟨sum, hsum, hvalue⟩ ⟨quantity, hquantity, hqvalue⟩
  cases hmerge : first.merge other with
  | error e =>
    rintro rfl
    exact merge_ne_overflow hexact hmerge
  | ok merged =>
    have htotal := value_merge hmerge hexact
    have hcharges := charges_merge hmerge
    obtain ⟨id, sum', quantity', -, hsum', hquantity', rfl⟩ := merge_eq_ok hmerge
    obtain ⟨-, -, hadd⟩ := mergeSums_eq_ok hsum'
    obtain ⟨-, hqadd⟩ := mergeQuantities_eq_ok hquantity'
    dsimp only at hcharges
    refine ⟨?_, ?_, ?_⟩
    · rw [htotal, hfirst.total, hother.total, hcharges, List.map_append, List.sum_append]
    · show sum'.amount.Within _
      rw [List.map_append, Option.some.inj (hadd.symm.trans hsum)]
      exact hwithin
    · show quantity'.value.Within _
      rw [List.map_append]
      split at hqadd
      · rw [Option.some.inj (hqadd.symm.trans hquantity)]
        exact hqwithin
      · rw [hqadd]
        exact hfirst.quantity_within.append_right _

end Bill

namespace Bills

/-! ## Sets of bills that balance -/

/-- What stands after the charges `done` have been billed: bills that balance, each of them with the
    charges of its key, whichever order they came in. -/
structure Settles (ctx : BillContext) (done : List Charge) (bills : Bills) : Prop where
  balances : ∀ b ∈ bills, b.Balances
  charges : ∀ b ∈ bills, b.charges.Perm (ctx.under b.key done)
  keys : ∀ c ∈ done, (ctx.bill c).key ∈ bills.map Bill.key

/-- How a run ends that bills the charges `done`. -/
def Settled (ctx : BillContext) (done : List Charge) : Except AggregationError BillSet → Prop
  | .ok s => s.InStep ∧ Settles ctx done s.order
  | .error e => e ≠ .overflow

variable {bills : Bills} {b : Bill} {s : BillSet}

theorem settles_nil : Settles ctx [] [] where
  balances := by simp
  charges := by simp
  keys := by simp

theorem Settles.of_perm (h : Settles ctx done bills) (hperm : done.Perm more) :
    Settles ctx more bills where
  balances := h.balances
  charges := fun b hb => (h.charges b hb).trans (hperm.filter _)
  keys := fun c hc => h.keys c (hperm.mem_iff.mpr hc)

theorem Settles.key_of_mem (h : Settles ctx done bills) (hb : b ∈ bills) :
    ∀ c ∈ b.charges, (ctx.bill c).key = b.key := by
  intro c hc
  exact of_decide_eq_true (List.mem_filter.mp ((h.charges b hb).mem_iff.mp hc)).2

/-- The bills of other keys keep the charges that they have. -/
theorem Settles.charges_append (h : Settles ctx done bills)
    (hkey : ∀ c ∈ b.charges, (ctx.bill c).key = b.key) {x : Bill} (hx : x ∈ bills)
    (hne : b.key ≠ x.key) : x.charges.Perm (ctx.under x.key (done ++ b.charges)) := by
  have hnone : ctx.under x.key b.charges = [] := by
    refine under_eq_nil fun c hc => ?_
    rw [hkey c hc]
    exact hne
  rw [under_append, hnone, List.append_nil]
  exact h.charges x hx

theorem Settles.add_new (h : Settles ctx done bills) (hb : b.Balances)
    (hkey : ∀ c ∈ b.charges, (ctx.bill c).key = b.key) (hnew : b.key ∉ bills.map Bill.key) :
    Settles ctx (done ++ b.charges) (bills ++ [b]) := by
  have hdone : ∀ c ∈ done, (ctx.bill c).key ≠ b.key := by
    intro c hc heq
    exact hnew (heq ▸ h.keys c hc)
  refine ⟨?_, ?_, ?_⟩
  · intro x hx
    rcases List.mem_append.mp hx with hx | hx
    · exact h.balances x hx
    · rw [List.mem_singleton.mp hx]
      exact hb
  · intro x hx
    rcases List.mem_append.mp hx with hx | hx
    · refine h.charges_append hkey hx fun heq => hnew ?_
      rw [heq]
      exact List.mem_map_of_mem hx
    · rw [List.mem_singleton.mp hx, under_append, under_eq_nil hdone, under_eq_self hkey]
      exact List.Perm.refl _
  · intro c hc
    rw [List.map_append, List.mem_append]
    rcases List.mem_append.mp hc with hc | hc
    · exact Or.inl (h.keys c hc)
    · rw [hkey c hc]
      exact Or.inr (List.mem_singleton_self _)

theorem Settles.add_merged {before after : List Bill} {first merged : Bill}
    (h : Settles ctx done (before ++ first :: after)) (hmerged : merged.Balances)
    (hkey : ∀ c ∈ b.charges, (ctx.bill c).key = b.key) (hfirst : first.key = b.key)
    (hothers : ∀ x ∈ before ++ after, b.key ≠ x.key) (hmerge : first.merge b = .ok merged) :
    Settles ctx (done ++ b.charges) (before ++ merged :: after) := by
  have hmem : first ∈ before ++ first :: after :=
    List.mem_append_right _ (List.mem_cons_self ..)
  have hmergedKey : merged.key = b.key := (Bill.key_merge hmerge).trans hfirst
  have hcases : ∀ x ∈ before ++ merged :: after, x = merged ∨ x ∈ before ++ after :=
    fun x hx => List.mem_cons.mp (List.perm_middle.mem_iff.mp hx)
  have hold : ∀ x ∈ before ++ after, x ∈ before ++ first :: after :=
    fun x hx => List.perm_middle.mem_iff.mpr (List.mem_cons_of_mem _ hx)
  refine ⟨?_, ?_, ?_⟩
  · intro x hx
    rcases hcases x hx with rfl | hx
    · exact hmerged
    · exact h.balances x (hold x hx)
  · intro x hx
    rcases hcases x hx with rfl | hx
    · rw [hmergedKey, under_append, under_eq_self hkey, Bill.charges_merge hmerge]
      exact (hfirst ▸ h.charges first hmem).append_right _
    · exact h.charges_append hkey (hold x hx) (hothers x hx)
  · intro c hc
    rw [keys_merged hmerge]
    rcases List.mem_append.mp hc with hc | hc
    · exact h.keys c hc
    · rw [hkey c hc, ← hfirst]
      exact List.mem_map_of_mem hmem

/-- One merge: the charges of one more bill are billed. -/
theorem Settles.merge (h : Settles ctx done s.order) (hstep : s.InStep) (hb : b.Balances)
    (hkey : ∀ c ∈ b.charges, (ctx.bill c).key = b.key) (hfit : FitByKey ctx (done ++ b.charges)) :
    Settled ctx (done ++ b.charges) (s.merge b) := by
  -- The bill of this key and the one merged with it have all charges of the key.
  have hmerge : ∀ first ∈ s.order, first.key = b.key →
      match first.merge b with
      | .ok merged => merged.Balances
      | .error e => e ≠ .overflow := by
    intro first hfirst hfirstKey
    apply (h.balances first hfirst).merge hb
    have hunder := hfit.fit b.key
    rw [under_append, under_eq_self hkey, ← hfirstKey] at hunder
    exact hunder.of_subperm ((h.charges first hfirst).append_right _).subperm
  cases hresult : s.merge b with
  | error e =>
    obtain ⟨first, hfirst, hfirstKey, herror⟩ := hstep.merge_eq_error hresult
    have hends := hmerge first hfirst hfirstKey
    rwa [herror] at hends
  | ok s' =>
    obtain ⟨hstep', ⟨hnew, horder⟩ | ⟨before, first, after, merged, horder, hfirstKey, hmerged,
      horder'⟩⟩ := hstep.merge_eq_ok hresult
    · refine ⟨hstep', ?_⟩
      rw [horder]
      exact h.add_new hb hkey hnew
    · have hends := hmerge first (by simp [horder]) hfirstKey
      rw [hmerged] at hends
      have hnodup := hstep.keys_nodup
      rw [horder] at hnodup h
      refine ⟨hstep', ?_⟩
      rw [horder']
      exact h.add_merged hends hkey hfirstKey (hfirstKey ▸ key_ne_of_nodup hnodup) hmerged

/-! ## Whole runs -/

-- The induction is on the bills still to be merged; `done` grows by their charges.
theorem Settles.mergeAll {bs : List Bill} (h : Settles ctx done s.order) (hstep : s.InStep)
    (hbs : ∀ b ∈ bs, b.Balances ∧ ∀ c ∈ b.charges, (ctx.bill c).key = b.key)
    (hfit : FitByKey ctx (done ++ bs.flatMap Bill.charges)) :
    Settled ctx (done ++ bs.flatMap Bill.charges) (s.mergeAll bs) := by
  induction bs generalizing done s with
  | nil =>
    rw [List.flatMap_nil, List.append_nil]
    exact ⟨hstep, h⟩
  | cons b bs ih =>
    rw [List.forall_mem_cons] at hbs
    rw [List.flatMap_cons, ← List.append_assoc] at hfit ⊢
    rw [BillSet.mergeAll]
    have hone := h.merge hstep hbs.1.1 hbs.1.2
      (hfit.of_subperm (List.sublist_append_left _ _).subperm)
    cases hresult : s.merge b with
    | error e =>
      rw [hresult] at hone
      exact hone
    | ok next =>
      rw [hresult] at hone
      exact ih hone.2 hone.1 hbs.2 hfit

theorem settles_aggregate (hfit : FitByKey ctx charges) :
    match aggregate ctx.bill charges with
    | .ok bills => Settles ctx charges bills
    | .error e => e ≠ .overflow := by
  have hcharges : (charges.map ctx.bill).flatMap Bill.charges = charges := by
    rw [List.flatMap_map]
    exact List.flatMap_singleton' charges
  have hbills : ∀ b ∈ charges.map ctx.bill,
      b.Balances ∧ ∀ c ∈ b.charges, (ctx.bill c).key = b.key := by
    intro b hb
    obtain ⟨c, -, rfl⟩ := List.mem_map.mp hb
    refine ⟨Bill.balances_bill ctx c, fun d hd => ?_⟩
    rw [List.mem_singleton.mp hd]
  rw [← hcharges] at hfit
  have hall := @Settles.mergeAll ctx [] BillSet.empty _ settles_nil BillSet.inStep_empty hbills hfit
  rw [hcharges, List.nil_append] at hall
  unfold aggregate
  cases hresult : BillSet.empty.mergeAll (charges.map ctx.bill) with
  | error e =>
    rw [hresult] at hall
    exact hall
  | ok s =>
    rw [hresult] at hall
    exact hall.2

/-- The charges of the bills of a run are the charges that were billed. -/
theorem charges_perm_aggregate (h : aggregate ctx.bill charges = .ok bills) :
    (bills.flatMap Bill.charges).Perm charges := by
  have hperm := (accounts_aggregate h).charges
  rw [List.flatMap_map] at hperm
  exact hperm.trans (List.Perm.of_eq (List.flatMap_singleton' charges))

theorem Settles.mergeBatches {batches : List (List Charge)} (h : Settles ctx done s.order)
    (hstep : s.InStep) (hfit : FitByKey ctx (done ++ batches.flatten)) :
    Settled ctx (done ++ batches.flatten) (s.mergeBatches ctx.bill batches) := by
  induction batches generalizing done s with
  | nil =>
    rw [List.flatten_nil, List.append_nil]
    exact ⟨hstep, h⟩
  | cons batch batches ih =>
    rw [List.flatten_cons, ← List.append_assoc] at hfit ⊢
    rw [BillSet.mergeBatches]
    have hdone : FitByKey ctx (done ++ batch) :=
      hfit.of_subperm (List.sublist_append_left _ _).subperm
    have hown := settles_aggregate (hdone.of_subperm (List.sublist_append_right _ _).subperm)
    cases hbills : aggregate ctx.bill batch with
    | error e =>
      rw [hbills] at hown
      exact hown
    | ok bills =>
      rw [hbills] at hown
      have hperm : (done ++ bills.flatMap Bill.charges).Perm (done ++ batch) :=
        (charges_perm_aggregate hbills).append_left done
      have hmerge := h.mergeAll hstep (fun b hb => ⟨hown.balances b hb, hown.key_of_mem hb⟩)
        (hdone.of_subperm hperm.subperm)
      dsimp only
      cases hresult : s.mergeAll bills with
      | error e =>
        rw [hresult] at hmerge
        exact hmerge
      | ok next =>
        rw [hresult] at hmerge
        exact ih (hmerge.2.of_perm hperm) hmerge.1 hfit

theorem settles_aggregateBatches {batches : List (List Charge)}
    (hfit : FitByKey ctx batches.flatten) :
    match aggregateBatches ctx.bill batches with
    | .ok bills => Settles ctx batches.flatten bills
    | .error e => e ≠ .overflow := by
  have hall := @Settles.mergeBatches ctx [] BillSet.empty _ settles_nil BillSet.inStep_empty hfit
  rw [List.nil_append] at hall
  unfold aggregateBatches
  cases hresult : BillSet.empty.mergeBatches ctx.bill batches with
  | error e =>
    rw [hresult] at hall
    exact hall
  | ok s =>
    rw [hresult] at hall
    exact hall.2

end Bills

/-- An outcome of aggregation in which no money is lost: no sum was out of range, and bills have sums that
    mean the totals of the sums of their charges. -/
structure Lossless (outcome : Except AggregationError Bills) : Prop where
  in_range : outcome ≠ .error .overflow
  totals : ∀ bills, outcome = .ok bills → ∀ b ∈ bills,
    b.sum.amount.value = (b.charges.map (·.sum.amount.value)).sum

theorem lossless_of_settles {outcome : Except AggregationError Bills}
    (h : match outcome with
      | .ok bills => Bills.Settles ctx done bills
      | .error e => e ≠ .overflow) : Lossless outcome := by
  cases outcome with
  | error e =>
    refine ⟨?_, fun bills hbills => (nomatch hbills)⟩
    rintro ⟨⟩
    exact h rfl
  | ok bills =>
    refine ⟨fun he => (nomatch he), ?_⟩
    rintro _ ⟨⟩ b hb
    exact (h.balances b hb).total

/-- Charges of which those of each key fit together are aggregated without loss, in one go or in
    batches. -/
theorem aggregate_balances (ctx : BillContext) (charges : List Charge)
    (batches : List (List Charge)) (hcharges : FitByKey ctx charges)
    (hbatches : FitByKey ctx batches.flatten) :
    Lossless (aggregate ctx.bill charges) ∧ Lossless (aggregateBatches ctx.bill batches) :=
  ⟨lossless_of_settles (Bills.settles_aggregate hcharges),
    lossless_of_settles (Bills.settles_aggregateBatches hbatches)⟩

/-- Charges of one key, with more and fewer places and of both signs, next to a charge that would not fit
    with them. -/
theorem aggregate_balances_mixed :
    let day := Moment.midnight ⟨2024, 8, 1, by decide, by decide, by decide⟩
    let charge (target : String) (amount : Decimal) : Charge :=
      ⟨none, ⟨"monthly", none⟩, target, ⟨amount, "USD"⟩, ⟨⟨1, 0, by decide, by decide⟩, "item"⟩,
        Interval.between day day, []⟩
    let one : Decimal := ⟨10, 1, by decide, by decide⟩
    let most : Decimal := ⟨79228162514264337593543950335, 0, by decide, by decide⟩
    let back : Decimal := ⟨-39614081257132168796771975168, 3, by decide, by decide⟩
    let batches := [[charge "a" one, charge "b" most], [charge "a" back, charge "a" one]]
    let ctx : BillContext := ⟨"client", none, day⟩
    FitByKey ctx batches.flatten ∧ Lossless (aggregate ctx.bill batches.flatten) ∧
      Lossless (aggregateBatches ctx.bill batches) ∧
      (aggregateBatches ctx.bill batches).map List.length = .ok 2 := by
  intro day charge one most back batches ctx
  have hfit : FitByKey ctx batches.flatten := by
    simp only [ctx, batches, back, most, one, charge, day]
    decide +kernel
  have hcount : (aggregateBatches ctx.bill batches).map List.length = .ok 2 := by
    simp only [ctx, batches, back, most, one, charge, day]
    decide +kernel
  obtain ⟨hwhole, hcut⟩ := aggregate_balances ctx batches.flatten batches hfit hfit
  exact ⟨hfit, hwhole, hcut, hcount⟩

/-- A total in range is lost when the way to it leads out of range, and a fraction of it is when it passes
    a number that has no room for the fraction. -/
theorem aggregate_lossy :
    let day := Moment.midnight ⟨2024, 8, 1, by decide, by decide, by decide⟩
    let charge (amount : Decimal) : Charge :=
      ⟨none, ⟨"disk", none⟩, "server", ⟨amount, "USD"⟩, ⟨⟨1, 0, by decide, by decide⟩, "item"⟩,
        Interval.between day day, []⟩
    let beyond := [charge ⟨79228162514264337593543950335, 0, by decide, by decide⟩,
      charge ⟨1, 0, by decide, by decide⟩, charge ⟨-1, 0, by decide, by decide⟩]
    let rounded := [charge ⟨79228162514264337593543950333, 0, by decide, by decide⟩,
      charge ⟨5, 1, by decide, by decide⟩, charge ⟨-5, 1, by decide, by decide⟩]
    let ctx : BillContext := ⟨"c", none, day⟩
    ¬ Lossless (aggregate ctx.bill beyond) ∧ ¬ Lossless (aggregate ctx.bill rounded) ∧
      aggregate ctx.bill beyond = .error .overflow ∧
      (aggregate ctx.bill rounded).map (fun bills => bills.map (·.sum.amount.units)) =
        .ok [79228162514264337593543950334] := by
  intro day charge beyond rounded ctx
  have hbeyond : aggregate ctx.bill beyond = .error .overflow := by
    simp only [ctx, beyond, charge, day]
    decide +kernel
  have hunits : (aggregate ctx.bill rounded).map (fun bills => bills.map (·.sum.amount.units)) =
      .ok [79228162514264337593543950334] := by
    simp only [ctx, rounded, charge, day]
    decide +kernel
  have hwrong : (aggregate ctx.bill rounded).map (fun bills => bills.map fun b =>
      decide (b.sum.amount.value = (b.charges.map (·.sum.amount.value)).sum)) = .ok [false] := by
    simp only [ctx, rounded, charge, day]
    decide +kernel
  refine ⟨fun h => h.in_range hbeyond, ?_, hbeyond, hunits⟩
  intro h
  cases hresult : aggregate ctx.bill rounded with
  | error e =>
    rw [hresult] at hunits
    cases hunits
  | ok bills =>
    rw [hresult] at hwrong
    have hfalse := Except.ok.inj hwrong
    obtain ⟨b, hb, hdecided⟩ := List.mem_map.mp (hfalse ▸ List.mem_singleton_self false)
    exact of_decide_eq_false hdecided (h.totals bills hresult b hb)

end Tariff
