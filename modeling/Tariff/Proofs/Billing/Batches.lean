/-
  Aggregation in batches. The bills of a run gather, key by key, the bills that went in (`Gathered`),
  whether they went in one by one or as the bills of a batch, each with all that it holds; and a run
  fails just when two bills of one key disagree. Hence cutting charges into batches changes nothing but
  quantities.
-/
import Tariff.Proofs.Billing.Gathers
import Tariff.Proofs.Billing.Totals

namespace Tariff

/-! ## First appearances -/

section

variable {α : Type} [DecidableEq α]

theorem eraseDups_filter (p : α → Bool) (l : List α) :
    (l.filter p).eraseDups = l.eraseDups.filter p := by
  match l with
  | [] => rfl
  | a :: l =>
    have ih := eraseDups_filter p (l.filter fun b => !b == a)
    rw [List.eraseDups_cons, List.filter_cons, List.filter_cons, ← ih, List.filter_filter]
    by_cases ha : p a = true
    · rw [if_pos ha, if_pos ha, List.eraseDups_cons, List.filter_filter]
      simp only [Bool.and_comm]
    · rw [if_neg ha, if_neg ha]
      congr 1
      apply List.filter_congr
      intro b _
      by_cases hb : b = a
      · subst hb
        simp [ha]
      · simp [hb]
termination_by l.length
decreasing_by exact Nat.lt_succ_of_le (List.length_filter_le ..)

theorem nodup_eraseDups (l : List α) : l.eraseDups.Nodup := by
  match l with
  | [] => exact List.nodup_nil
  | a :: l =>
    rw [List.eraseDups_cons, List.nodup_cons, List.mem_eraseDups]
    exact ⟨by simp, nodup_eraseDups _⟩
termination_by l.length
decreasing_by exact Nat.lt_succ_of_le (List.length_filter_le ..)

theorem eraseDups_of_nodup {l : List α} (h : l.Nodup) : l.eraseDups = l := by
  induction l with
  | nil => rfl
  | cons a l ih =>
    rw [List.nodup_cons] at h
    have hfilter : l.filter (fun b => !b == a) = l := by
      rw [List.filter_eq_self]
      intro b hb
      have hne : b ≠ a := fun he => h.1 (he ▸ hb)
      simpa using hne
    rw [List.eraseDups_cons, hfilter, ih h.2]

/-- Later appearances in the second list do not count anyway. -/
theorem eraseDups_append_eraseDups (as bs : List α) :
    (as ++ bs.eraseDups).eraseDups = (as ++ bs).eraseDups := by
  rw [List.eraseDups_append, List.eraseDups_append, List.removeAll, List.removeAll,
    eraseDups_filter, eraseDups_filter, eraseDups_of_nodup (nodup_eraseDups bs)]

/-- Repeats of what came before do not count. -/
theorem eraseDups_append_of_subset {as bs : List α} (h : ∀ b ∈ bs, b ∈ as) :
    (as ++ bs).eraseDups = as.eraseDups := by
  have hnone : bs.removeAll as = [] := by
    rw [List.removeAll, List.filter_eq_nil_iff]
    intro b hb
    simpa using h b hb
  rw [List.eraseDups_append, hnone]
  exact List.append_nil _

theorem eraseDups_append_congr {as bs : List α} (cs : List α) (h : as.eraseDups = bs.eraseDups) :
    (as ++ cs).eraseDups = (bs ++ cs).eraseDups := by
  have hmem : cs.removeAll as = cs.removeAll bs := by
    rw [List.removeAll, List.removeAll]
    apply List.filter_congr
    intro c _
    have hiff : c ∈ as ↔ c ∈ bs := by rw [← List.mem_eraseDups, h, List.mem_eraseDups]
    simp [List.elem_eq_contains, hiff]
  rw [List.eraseDups_append, List.eraseDups_append, h, hmem]

end

/-! ## What a run has gathered -/

/-- What stands after the bills `done` have gone in, by themselves or held by others: for each key, in
    the order in which the keys appeared, a bill that holds all bills of that key. -/
structure Bills.Gathered (done : List Bill) (bills : Bills) : Prop where
  keys : bills.map Bill.key = (done.map Bill.key).eraseDups
  gathers : ∀ b ∈ bills, b.Gathers (done.filter (·.key = b.key))

/-- How a run ends in which the bills `done` are to go in: with bills that gather them, or else because
    two of them disagree. -/
def Bills.Outcome (done : List Bill) : Except AggregationError BillSet → Prop
  | .ok s => s.InStep ∧ Gathered done s.order
  | .error _ => ¬ Agree done

namespace Bills

variable {done more gs hs : List Bill} {bills : Bills} {b : Bill} {s : BillSet}

theorem gathered_nil : Gathered [] [] where
  keys := rfl
  gathers := by simp

theorem Gathered.mem_keys (h : Gathered done bills) (key : String) :
    key ∈ bills.map Bill.key ↔ key ∈ done.map Bill.key := by
  rw [h.keys, List.mem_eraseDups]

theorem Gathered.keys_nodup (h : Gathered done bills) : (bills.map Bill.key).Nodup := by
  rw [h.keys]
  exact nodup_eraseDups _

/-- No other bill has the key of this one. -/
theorem Gathered.key_not_mem {before after : List Bill}
    (h : Gathered done (before ++ b :: after)) :
    b.key ∉ before.map Bill.key ∧ b.key ∉ after.map Bill.key := by
  have hnodup := h.keys_nodup
  rw [List.map_append, List.map_cons, List.nodup_middle, List.nodup_cons, List.mem_append,
    not_or] at hnodup
  exact hnodup.1

theorem Gathered.agree (h : Gathered done bills) : Agree done := by
  intro x hx y hy hkey
  obtain ⟨b, hb, hbkey⟩ := List.mem_map.mp ((h.mem_keys x.key).mpr (List.mem_map_of_mem hx))
  have hxmem : x ∈ done.filter (·.key = b.key) :=
    List.mem_filter.mpr ⟨hx, decide_eq_true hbkey.symm⟩
  have hymem : y ∈ done.filter (·.key = b.key) :=
    List.mem_filter.mpr ⟨hy, decide_eq_true (hkey.symm.trans hbkey.symm)⟩
  exact (h.gathers b hb).agrees hxmem hymem

theorem Agree.of_subset {bs cs : List Bill} (h : Agree cs) (hsub : ∀ x ∈ bs, x ∈ cs) :
    Agree bs := by
  intro x hx y hy
  exact h x (hsub x hx) y (hsub y hy)

/-! ## One bill with what it holds -/

theorem filter_of_gathers (hb : b.Gathers gs) : gs.filter (·.key = b.key) = gs := by
  rw [List.filter_eq_self]
  intro g hg
  exact decide_eq_true (hb.key g hg)

theorem filter_of_gathers_of_ne {key : String} (hb : b.Gathers gs) (hne : b.key ≠ key) :
    gs.filter (·.key = key) = [] := by
  rw [List.filter_eq_nil_iff]
  intro g hg heq
  exact hne ((hb.key g hg).symm.trans (of_decide_eq_true heq))

/-- The bills held by one bill bring its key and no other. -/
theorem eraseDups_append_of_gathers (keys : List String) (hb : b.Gathers gs) :
    (keys ++ gs.map Bill.key).eraseDups = (keys ++ [b.key]).eraseDups := by
  cases gs with
  | nil => exact absurd rfl hb.ne_nil
  | cons g gs =>
    have hg : g.key = b.key := hb.key g (List.mem_cons_self ..)
    have hlater : ∀ k ∈ gs.map Bill.key, k ∈ keys ++ [b.key] := by
      intro k hk
      obtain ⟨g', hg', rfl⟩ := List.mem_map.mp hk
      rw [hb.key g' (List.mem_cons_of_mem _ hg')]
      exact List.mem_append_right _ (List.mem_singleton_self _)
    rw [List.map_cons, hg, List.append_cons, eraseDups_append_of_subset hlater]

theorem Gathered.add_new (h : Gathered done bills) (hb : b.Gathers gs)
    (hnew : b.key ∉ bills.map Bill.key) : Gathered (done ++ gs) (bills ++ [b]) := by
  have hdone : b.key ∉ done.map Bill.key := fun hmem => hnew ((h.mem_keys _).mpr hmem)
  refine ⟨?_, ?_⟩
  · rw [List.map_append, List.map_append, eraseDups_append_of_gathers _ hb, List.map_singleton,
      h.keys, eraseDups_concat_of_not_mem hdone]
  · intro x hx
    rw [List.filter_append]
    rcases List.mem_append.mp hx with hx | hx
    · have hne : b.key ≠ x.key := by
        intro heq
        rw [heq] at hnew
        exact hnew (List.mem_map_of_mem hx)
      rw [filter_of_gathers_of_ne hb hne, List.append_nil]
      exact h.gathers x hx
    · rw [List.mem_singleton.mp hx, filter_of_gathers hb, List.filter_eq_nil_iff.mpr,
        List.nil_append]
      · exact hb
      · intro y hy heq
        apply hdone
        rw [← of_decide_eq_true heq]
        exact List.mem_map_of_mem hy

theorem Gathered.add_merged {before after : List Bill} {first merged : Bill}
    (h : Gathered done (before ++ first :: after)) (hb : b.Gathers gs) (hkey : first.key = b.key)
    (hmerge : first.merge b = .ok merged) (hexact : AllExact (first.additions b)) :
    Gathered (done ++ gs) (before ++ merged :: after) := by
  have hmerged := Bill.key_merge hmerge
  have hfirst : first ∈ before ++ first :: after :=
    List.mem_append_right _ (List.mem_cons_self ..)
  have hdone : b.key ∈ done.map Bill.key := by
    rw [← h.mem_keys, ← hkey]
    exact List.mem_map_of_mem hfirst
  -- No other bill has this key, so what the others hold is all there is of their keys.
  have hne : ∀ x ∈ before ++ after, b.key ≠ x.key :=
    hkey ▸ key_ne_of_nodup h.keys_nodup
  refine ⟨?_, ?_⟩
  · rw [keys_merged hmerge, h.keys, List.map_append, eraseDups_append_of_gathers _ hb,
      eraseDups_concat_of_mem hdone]
  · intro x hx
    rw [List.filter_append]
    rcases List.mem_cons.mp (List.perm_middle.mem_iff.mp hx) with rfl | hx
    · have hboth := (h.gathers first hfirst).merge hb hkey hmerge hexact
      rw [hkey] at hboth
      rw [hmerged, hkey, filter_of_gathers hb]
      exact hboth
    · rw [filter_of_gathers_of_ne hb (hne x hx), List.append_nil]
      exact h.gathers x (List.perm_middle.mem_iff.mpr (List.mem_cons_of_mem _ hx))

/-- One merge: what has gone in takes in all that the merged bill holds. -/
theorem Gathered.merge (h : Gathered done s.order) (hstep : s.InStep) (hb : b.Gathers gs)
    (hexact : AllExact (s.additions b)) : Outcome (done ++ gs) (s.merge b) := by
  cases hmerge : s.merge b with
  | ok s' =>
    obtain ⟨hstep', ⟨hnew, horder⟩ | ⟨before, first, after, merged, horder, hkey, hmerged,
      horder'⟩⟩ := hstep.merge_eq_ok hmerge
    · refine ⟨hstep', ?_⟩
      rw [horder]
      exact h.add_new hb hnew
    · have hfirst : first ∈ s.order := by
        rw [horder]
        exact List.mem_append_right _ (List.mem_cons_self ..)
      rw [hstep.additions_eq hfirst hkey] at hexact
      rw [horder] at h
      refine ⟨hstep', ?_⟩
      rw [horder']
      exact h.add_merged hb hkey hmerged hexact
  | error e =>
    intro hagree
    obtain ⟨first, hfirst, hkey, herror⟩ := hstep.merge_eq_error hmerge
    rw [hstep.additions_eq hfirst hkey] at hexact
    have he : e ≠ .overflow := by
      rintro rfl
      exact Bill.merge_ne_overflow hexact herror
    apply Bill.merge_eq_error herror he
    apply Bill.agrees_of_gathers (h.gathers first hfirst) hb
    intro x hx y hy
    obtain ⟨hx, hxkey⟩ := List.mem_filter.mp hx
    have hxy : x.key = y.key := by rw [of_decide_eq_true hxkey, hkey, hb.key y hy]
    exact hagree x (List.mem_append_left _ hx) y (List.mem_append_right _ hy) hxy

/-! ## All bills of a list -/

-- The induction is on the bills still to be merged; `done` grows by what each of them holds.
theorem Gathered.mergeAll {bs : List Bill} (held : Bill → List Bill) (h : Gathered done s.order)
    (hstep : s.InStep) (hheld : ∀ b ∈ bs, b.Gathers (held b))
    (hexact : AllExact (s.allAdditions bs)) :
    Outcome (done ++ bs.flatMap held) (s.mergeAll bs) := by
  induction bs generalizing done s with
  | nil =>
    rw [List.flatMap_nil, List.append_nil]
    exact ⟨hstep, h⟩
  | cons b bs ih =>
    rw [List.flatMap_cons, ← List.append_assoc, BillSet.mergeAll]
    obtain ⟨hone, hrest⟩ := allExact_append.mp hexact
    have hmerge := h.merge hstep (hheld b (List.mem_cons_self ..)) hone
    cases hresult : s.merge b with
    | ok next =>
      rw [hresult] at hmerge hrest
      exact ih hmerge.2 hmerge.1 (fun b' hb' => hheld b' (List.mem_cons_of_mem _ hb')) hrest
    | error e =>
      rw [hresult] at hmerge
      exact fun hagree => hmerge hagree.of_append

theorem Gathered.mergeAll_single {bs : List Bill} (h : Gathered done s.order) (hstep : s.InStep)
    (hexact : AllExact (s.allAdditions bs)) : Outcome (done ++ bs) (s.mergeAll bs) := by
  have hheld := h.mergeAll (fun b => [b]) hstep (fun b _ => b.gathers_self) hexact
  rwa [List.flatMap_singleton'] at hheld

/-! ## The bills of a batch -/

theorem filter_flatMap_of_not_mem {held : Bill → List Bill} {bs : List Bill} {key : String}
    (hheld : ∀ b ∈ bs, b.Gathers (held b)) (hkey : key ∉ bs.map Bill.key) :
    (bs.flatMap held).filter (·.key = key) = [] := by
  rw [List.filter_eq_nil_iff]
  intro x hx heq
  obtain ⟨b, hb, hxb⟩ := List.mem_flatMap.mp hx
  have hbkey : b.key = key := ((hheld b hb).key x hxb).symm.trans (of_decide_eq_true heq)
  exact hkey (hbkey ▸ List.mem_map_of_mem hb)

theorem eraseDups_append_flatMap {held : Bill → List Bill} {bs : List Bill} (keys : List String)
    (hheld : ∀ b ∈ bs, b.Gathers (held b)) :
    (keys ++ (bs.flatMap held).map Bill.key).eraseDups = (keys ++ bs.map Bill.key).eraseDups := by
  induction bs generalizing keys with
  | nil => rfl
  | cons b bs ih =>
    have hb := hheld b (List.mem_cons_self ..)
    rw [List.flatMap_cons, List.map_append, List.map_cons, ← List.append_assoc,
      ih _ fun b' hb' => hheld b' (List.mem_cons_of_mem _ hb'), List.append_cons keys]
    exact eraseDups_append_congr _ (eraseDups_append_of_gathers _ hb)

/-- All that the bills of a run hold. -/
def held (bs : List Bill) (bills : Bills) : List Bill :=
  bills.flatMap fun b => bs.filter (·.key = b.key)

/-- The bills of a run hold the bills that went in, key by key. -/
theorem Gathered.filter_held (h : Gathered more bills) (key : String) :
    (held more bills).filter (·.key = key) = more.filter (·.key = key) := by
  by_cases hkey : key ∈ bills.map Bill.key
  · obtain ⟨b, hb, rfl⟩ := List.mem_map.mp hkey
    obtain ⟨before, after, rfl⟩ := List.append_of_mem hb
    obtain ⟨hbefore, hafter⟩ := h.key_not_mem
    have hfront := filter_flatMap_of_not_mem
      (fun x hx => h.gathers x (List.mem_append_left _ hx)) hbefore
    have hback := filter_flatMap_of_not_mem
      (fun x hx => h.gathers x (List.mem_append_right _ (List.mem_cons_of_mem _ hx))) hafter
    rw [held, List.flatMap_append, List.flatMap_cons, List.filter_append, List.filter_append,
      hfront, hback, List.filter_filter, List.append_nil, List.nil_append]
    simp only [Bool.and_self]
  · have hmore : more.filter (·.key = key) = [] := by
      rw [List.filter_eq_nil_iff]
      intro x hx heq
      rw [h.mem_keys, ← of_decide_eq_true heq] at hkey
      exact hkey (List.mem_map_of_mem hx)
    rw [hmore]
    exact filter_flatMap_of_not_mem h.gathers hkey

theorem Gathered.mem_held (h : Gathered more bills) (x : Bill) : x ∈ held more bills ↔ x ∈ more := by
  have hfilter := congrArg (x ∈ ·) (h.filter_held x.key)
  simpa only [List.mem_filter, decide_true, and_true, eq_iff_iff] using hfilter

/-- Bills that go in held by the bills of a run leave what they leave by themselves. -/
theorem Outcome.of_held {result : Except AggregationError BillSet} (h : Gathered more bills)
    (hresult : Outcome (done ++ held more bills) result) : Outcome (done ++ more) result := by
  cases result with
  | ok s =>
    obtain ⟨hstep, hkeys, hgathers⟩ := hresult
    refine ⟨hstep, ?_, ?_⟩
    · rw [hkeys, List.map_append, List.map_append, held, eraseDups_append_flatMap _ h.gathers,
        h.keys, eraseDups_append_eraseDups]
    · intro b hb
      have hboth := hgathers b hb
      rw [List.filter_append, h.filter_held] at hboth
      rw [List.filter_append]
      exact hboth
  | error e =>
    intro hagree
    apply hresult
    apply hagree.of_subset
    intro x hx
    rwa [List.mem_append, h.mem_held, ← List.mem_append] at hx

/-! ## Whole runs -/

variable {toBill : Charge → Bill}

theorem outcome_aggregate {charges : List Charge}
    (hexact : AllExact (aggregateAdditions toBill charges)) :
    match aggregate toBill charges with
    | .ok bills => Gathered (charges.map toBill) bills
    | .error _ => ¬ Agree (charges.map toBill) := by
  have hall := gathered_nil.mergeAll_single (s := BillSet.empty) BillSet.inStep_empty hexact
  rw [List.nil_append] at hall
  unfold aggregate
  cases hresult : BillSet.empty.mergeAll (charges.map toBill) with
  | ok s =>
    rw [hresult] at hall
    exact hall.2
  | error e =>
    rw [hresult] at hall
    exact hall

theorem Gathered.mergeBatches {batches : List (List Charge)} (h : Gathered done s.order)
    (hstep : s.InStep) (hexact : AllExact (s.batchAdditions toBill batches)) :
    Outcome (done ++ batches.flatten.map toBill) (s.mergeBatches toBill batches) := by
  induction batches generalizing done s with
  | nil =>
    rw [List.flatten_nil, List.map_nil, List.append_nil]
    exact ⟨hstep, h⟩
  | cons batch batches ih =>
    rw [List.flatten_cons, List.map_append, ← List.append_assoc, BillSet.mergeBatches]
    obtain ⟨hbatch, hrest⟩ := allExact_append.mp hexact
    have hown := outcome_aggregate hbatch
    cases hbills : aggregate toBill batch with
    | error e =>
      rw [hbills] at hown
      have hsub : ∀ x ∈ batch.map toBill, x ∈ done ++ batch.map toBill :=
        fun x hx => List.mem_append_right _ hx
      exact fun hagree => hown ((Agree.of_append hagree).of_subset hsub)
    | ok bills =>
      rw [hbills] at hown hrest
      obtain ⟨hmerges, hlater⟩ := allExact_append.mp hrest
      have hmerge := Outcome.of_held hown (h.mergeAll _ hstep hown.gathers hmerges)
      dsimp only
      cases hresult : s.mergeAll bills with
      | error e =>
        rw [hresult] at hmerge
        exact fun hagree => hmerge (Agree.of_append hagree)
      | ok next =>
        rw [hresult] at hmerge hlater
        exact ih hmerge.2 hmerge.1 hlater

theorem outcome_aggregateBatches {batches : List (List Charge)}
    (hexact : AllExact (aggregateBatchesAdditions toBill batches)) :
    match aggregateBatches toBill batches with
    | .ok bills => Gathered (batches.flatten.map toBill) bills
    | .error _ => ¬ Agree (batches.flatten.map toBill) := by
  have hall := gathered_nil.mergeBatches (s := BillSet.empty) BillSet.inStep_empty hexact
  rw [List.nil_append] at hall
  unfold aggregateBatches
  cases hresult : BillSet.empty.mergeBatches toBill batches with
  | ok s =>
    rw [hresult] at hall
    exact hall.2
  | error e =>
    rw [hresult] at hall
    exact hall

/-- Bills that gather the same are the same but for quantities. -/
theorem Gathered.same {bills' : Bills} (h : Gathered done bills) (h' : Gathered done bills') :
    List.Forall₂ Bill.SameButQuantity bills bills' := by
  have hkeys : bills.map Bill.key = bills'.map Bill.key := h.keys.trans h'.keys.symm
  have hlength : bills.length = bills'.length := by
    simpa only [List.length_map] using congrArg List.length hkeys
  rw [List.forall₂_iff_get]
  refine ⟨hlength, ?_⟩
  intro i hi hi'
  have hkey : (bills.get ⟨i, hi⟩).key = (bills'.get ⟨i, hi'⟩).key := by
    have hat := congrArg (fun keys => keys[i]?) hkeys
    simpa [hi, hi'] using hat
  have hg := h.gathers _ (List.get_mem bills ⟨i, hi⟩)
  have hg' := h'.gathers _ (List.get_mem bills' ⟨i, hi'⟩)
  rw [← hkey] at hg'
  exact hg.same hg'

end Bills

/-- Let no addition in aggregating charges, in one go or cut into batches, be out of range or rounded.
    Then the one yields bills just when the other does; and what they yield are as many bills, which
    agree place by place in all but their quantities, where sums of one value count as the same. -/
theorem aggregateBatches_flatten (toBill : Charge → Bill) (batches : List (List Charge))
    (hflat : AllExact (aggregateAdditions toBill batches.flatten))
    (hbatches : AllExact (aggregateBatchesAdditions toBill batches)) :
    ((∃ bills, aggregateBatches toBill batches = .ok bills) ↔
      ∃ bills, aggregate toBill batches.flatten = .ok bills) ∧
    ∀ bills bills', aggregateBatches toBill batches = .ok bills →
      aggregate toBill batches.flatten = .ok bills' →
      List.Forall₂ Bill.SameButQuantity bills bills' := by
  have hcut := Bills.outcome_aggregateBatches hbatches
  have hwhole := Bills.outcome_aggregate hflat
  cases hone : aggregateBatches toBill batches with
  | ok bills =>
    rw [hone] at hcut
    cases hother : aggregate toBill batches.flatten with
    | ok bills' =>
      rw [hother] at hwhole
      refine ⟨⟨fun _ => ⟨bills', rfl⟩, fun _ => ⟨bills, rfl⟩⟩, ?_⟩
      rintro _ _ ⟨⟩ ⟨⟩
      exact hcut.same hwhole
    | error e =>
      rw [hother] at hwhole
      exact absurd hcut.agree hwhole
  | error e =>
    rw [hone] at hcut
    cases hother : aggregate toBill batches.flatten with
    | ok bills' =>
      rw [hother] at hwhole
      exact absurd hwhole.agree hcut
    | error e' =>
      refine ⟨⟨?_, ?_⟩, ?_⟩
      · rintro ⟨_, ⟨⟩⟩
      · rintro ⟨_, ⟨⟩⟩
      · rintro _ _ ⟨⟩

/-- Of four charges in three batches, one batch empty, those of the target that recurs are merged. -/
theorem aggregateBatches_flatten_recurring :
    let day := Moment.midnight ⟨2024, 8, 1, by decide, by decide, by decide⟩
    let charge (target : String) (amount : Decimal) : Charge :=
      ⟨none, ⟨"monthly", none⟩, target, ⟨amount, "USD"⟩, ⟨⟨1, 0, by decide, by decide⟩, "item"⟩,
        Interval.between day day, []⟩
    let one : Decimal := ⟨10, 1, by decide, by decide⟩
    let two : Decimal := ⟨200, 2, by decide, by decide⟩
    let batches := [[charge "a" one, charge "b" two], [], [charge "b" one, charge "a" two]]
    let ctx : BillContext := ⟨"client", none, day⟩
    AllExact (aggregateAdditions ctx.bill batches.flatten) ∧
      AllExact (aggregateBatchesAdditions ctx.bill batches) ∧
      ∃ bills bills', aggregateBatches ctx.bill batches = .ok bills ∧
        aggregate ctx.bill batches.flatten = .ok bills' ∧ bills.length = 2 ∧
        List.Forall₂ Bill.SameButQuantity bills bills' := by
  intro day charge one two batches ctx
  have hflat : AllExact (aggregateAdditions ctx.bill batches.flatten) := by
    simp only [ctx, batches, one, two, charge, day]
    decide +kernel
  have hbatches : AllExact (aggregateBatchesAdditions ctx.bill batches) := by
    simp only [ctx, batches, one, two, charge, day]
    decide +kernel
  have hcount : (aggregateBatches ctx.bill batches).map List.length = .ok 2 := by
    simp only [ctx, batches, one, two, charge, day]
    decide +kernel
  obtain ⟨hiff, hsame⟩ := aggregateBatches_flatten ctx.bill batches hflat hbatches
  cases hcut : aggregateBatches ctx.bill batches with
  | error e =>
    rw [hcut] at hcount
    cases hcount
  | ok bills =>
    rw [hcut] at hcount
    obtain ⟨bills', hwhole⟩ := hiff.mp ⟨bills, hcut⟩
    exact ⟨hflat, hbatches, bills, bills', rfl, hwhole, Except.ok.inj hcount,
      hsame bills bills' hcut hwhole⟩

end Tariff
