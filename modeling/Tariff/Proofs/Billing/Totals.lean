/-
  Aggregation computes totals. After any number of bills have been added, what stands there is one bill
  for each key, in the order in which the keys appeared, and each is the total of the bills that were
  added under its key. Adding fails, but for sums out of range, just when two bills of one key disagree.
-/
import Tariff.Proofs.Billing.BillSet
import Mathlib.Data.List.Nodup

namespace Tariff

/-- All bills of one key agree. -/
def Bills.Agree (bs : List Bill) : Prop := ∀ x ∈ bs, ∀ y ∈ bs, x.key = y.key → x.Agrees y

/-- What stands after the bills `done` have been added: the invariant of aggregation. -/
structure Bills.Accounts (done : List Bill) (bills : Bills) : Prop where
  keys_nodup : (bills.map Bill.key).Nodup
  keys : bills.map Bill.key = (done.map Bill.key).eraseDups
  totals : ∀ b ∈ bills, ∃ first rest, done.filter (·.key = b.key) = first :: rest ∧ b.TotalOf first rest
  charges : (bills.flatMap Bill.charges).Perm (done.flatMap Bill.charges)

/-- Where no key stands twice, the bills around one have other keys. -/
theorem Bills.key_ne_of_nodup {before after : List Bill} {first : Bill}
    (h : ((before ++ first :: after).map Bill.key).Nodup) :
    ∀ x ∈ before ++ after, first.key ≠ x.key := by
  rw [List.map_append, List.map_cons, List.nodup_middle, List.nodup_cons, ← List.map_append] at h
  intro x hx heq
  rw [heq] at h
  exact h.1 (List.mem_map_of_mem hx)

/-- A bill that was merged with another keeps its key, so a list keeps its keys. -/
theorem Bills.keys_merged {before after : List Bill} {first other merged : Bill}
    (h : first.merge other = .ok merged) :
    (before ++ merged :: after).map Bill.key = (before ++ first :: after).map Bill.key := by
  rw [List.map_append, List.map_append, List.map_cons, List.map_cons, Bill.key_merge h]

/-- No key stands twice in a set whose index is in step. -/
theorem BillSet.InStep.keys_nodup {s : BillSet} (h : s.InStep) : (s.order.map Bill.key).Nodup := by
  rw [List.nodup_iff_getElem?_ne_getElem?]
  intro i j hij hj heq
  have hi := (h _ i).mpr (heq.trans (List.getElem?_eq_getElem hj))
  rw [(h _ j).mpr (List.getElem?_eq_getElem hj)] at hi
  exact Nat.ne_of_gt hij (Option.some.inj hi)

namespace Bills

variable {done : List Bill} {bills : Bills} {b : Bill}

theorem accounts_nil : Accounts [] [] where
  keys_nodup := List.nodup_nil
  keys := rfl
  totals := by simp
  charges := List.Perm.nil

theorem Accounts.mem_keys (h : Accounts done bills) (key : String) :
    key ∈ bills.map Bill.key ↔ key ∈ done.map Bill.key := by
  rw [h.keys, List.mem_eraseDups]

/-! ## Adding one bill -/

theorem filter_concat_of_ne {key : String} (h : b.key ≠ key) :
    (done ++ [b]).filter (·.key = key) = done.filter (·.key = key) := by
  rw [List.filter_append, List.filter_cons_of_neg (by simpa using h), List.filter_nil,
    List.append_nil]

theorem filter_concat_self :
    (done ++ [b]).filter (·.key = b.key) = done.filter (·.key = b.key) ++ [b] := by
  rw [List.filter_append, List.filter_cons_of_pos (by simp), List.filter_nil]

theorem eraseDups_concat_of_mem {key : String} {keys : List String} (h : key ∈ keys) :
    (keys ++ [key]).eraseDups = keys.eraseDups := by
  rw [List.eraseDups_append, List.removeAll]
  simp [h]

theorem eraseDups_concat_of_not_mem {key : String} {keys : List String} (h : key ∉ keys) :
    (keys ++ [key]).eraseDups = keys.eraseDups ++ [key] := by
  rw [List.eraseDups_append, List.removeAll]
  simp [h, List.eraseDups_cons]

theorem charges_middle (before after : List Bill) (x : Bill) :
    ((before ++ x :: after).flatMap Bill.charges).Perm
      ((before ++ after).flatMap Bill.charges ++ x.charges) :=
  (List.perm_middle.flatMap_right _).trans List.perm_append_comm

/-- A bill under a new key is the total of itself. -/
theorem Accounts.add_new (h : Accounts done bills) (hnew : b.key ∉ bills.map Bill.key) :
    Accounts (done ++ [b]) (bills ++ [b]) := by
  have hdone : b.key ∉ done.map Bill.key := fun hmem => hnew ((h.mem_keys _).mpr hmem)
  refine ⟨?_, ?_, ?_, ?_⟩
  · rw [List.map_append, List.map_singleton, ← List.concat_eq_append]
    exact h.keys_nodup.concat hnew
  · rw [List.map_append, List.map_append, List.map_singleton, h.keys,
      eraseDups_concat_of_not_mem hdone]
  · intro x hx
    rcases List.mem_append.mp hx with hx | hx
    · have hne : b.key ≠ x.key := by
        intro heq
        rw [heq] at hnew
        exact hnew (List.mem_map_of_mem hx)
      rw [filter_concat_of_ne hne]
      exact h.totals x hx
    · rw [List.mem_singleton.mp hx]
      refine ⟨b, [], ?_, b.totalOf_self⟩
      rw [filter_concat_self, List.filter_eq_nil_iff.mpr, List.nil_append]
      intro y hy heq
      apply hdone
      rw [← of_decide_eq_true heq]
      exact List.mem_map_of_mem hy
  · rw [List.flatMap_append, List.flatMap_append]
    exact h.charges.append_right _

/-- A bill merged into the total of its key gives the total with it; the other totals stay. -/
theorem Accounts.add_merged {before after : List Bill} {first merged : Bill}
    (h : Accounts done (before ++ first :: after)) (hkey : first.key = b.key)
    (hmerge : first.merge b = .ok merged) :
    Accounts (done ++ [b]) (before ++ merged :: after) := by
  have hfirst : first ∈ before ++ first :: after :=
    List.mem_append_right _ (List.mem_cons_self ..)
  have hdone : b.key ∈ done.map Bill.key := by
    rw [← h.mem_keys, ← hkey]
    exact List.mem_map_of_mem hfirst
  -- No other bill has this key, so what was totalled under the other keys is what it was.
  have hne : ∀ x ∈ before ++ after, b.key ≠ x.key :=
    hkey ▸ key_ne_of_nodup h.keys_nodup
  refine ⟨?_, ?_, ?_, ?_⟩
  · rw [keys_merged hmerge]
    exact h.keys_nodup
  · rw [keys_merged hmerge, h.keys, List.map_append, List.map_singleton, eraseDups_concat_of_mem hdone]
  · intro x hx
    rcases List.mem_cons.mp (List.perm_middle.mem_iff.mp hx) with rfl | hx
    · obtain ⟨f, rest, hfilter, htotal⟩ := h.totals first hfirst
      refine ⟨f, rest ++ [b], ?_, htotal.merge hmerge⟩
      rw [Bill.key_merge hmerge, hkey, filter_concat_self, ← hkey, hfilter, List.cons_append]
    · rw [filter_concat_of_ne (hne x hx)]
      exact h.totals x (List.perm_middle.mem_iff.mpr (List.mem_cons_of_mem _ hx))
  · have hcharges : ((before ++ merged :: after).flatMap Bill.charges).Perm
        ((before ++ first :: after).flatMap Bill.charges ++ b.charges) := by
      refine (charges_middle before after merged).trans ?_
      rw [Bill.charges_merge hmerge, ← List.append_assoc]
      exact (charges_middle before after first).symm.append_right _
    have hlast : (done ++ [b]).flatMap Bill.charges = done.flatMap Bill.charges ++ b.charges := by
      rw [List.flatMap_append, List.flatMap_singleton]
    rw [hlast]
    exact hcharges.trans (h.charges.append_right _)

/-- One merge: what stood after `done` has taken in `b` as well. -/
theorem Accounts.merge {s s' : BillSet} (h : Accounts done s.order) (hstep : s.InStep)
    (hmerge : s.merge b = .ok s') : Accounts (done ++ [b]) s'.order ∧ s'.InStep := by
  obtain ⟨hstep', ⟨hnew, horder⟩ | ⟨before, first, after, merged, horder, hkey, hmerged, horder'⟩⟩ :=
    hstep.merge_eq_ok hmerge
  · rw [horder]
    exact ⟨h.add_new hnew, hstep'⟩
  · rw [horder] at h
    rw [horder']
    exact ⟨h.add_merged hkey hmerged, hstep'⟩

/-! ## Agreement -/

theorem Agree.of_append {bs : List Bill} (h : Agree (done ++ bs)) : Agree done := by
  intro x hx y hy
  exact h x (List.mem_append_left _ hx) y (List.mem_append_left _ hy)

/-- Bills that have a total agree with each other. -/
theorem Accounts.agree (h : Accounts done bills) : Agree done := by
  intro x hx y hy hkey
  obtain ⟨b, hb, hbkey⟩ := List.mem_map.mp ((h.mem_keys x.key).mpr (List.mem_map_of_mem hx))
  obtain ⟨first, rest, hfilter, htotal⟩ := h.totals b hb
  have hgroup : ∀ z ∈ done, z.key = x.key → z ∈ first :: rest := by
    intro z hz hzkey
    rw [← hfilter, List.mem_filter]
    exact ⟨hz, decide_eq_true (hzkey.trans hbkey.symm)⟩
  have hxmem := hgroup x hx rfl
  have hymem := hgroup y hy hkey.symm
  refine ⟨?_, ?_⟩
  · intro i j hi hj
    have hib := (htotal.ids i).mpr ⟨x, hxmem, hi⟩
    have hjb := (htotal.ids j).mpr ⟨y, hymem, hj⟩
    exact Option.some.inj (hib.symm.trans hjb)
  · exact (htotal.currency x hxmem).trans (htotal.currency y hymem).symm

/-- A bill that agrees with all bills of its key agrees with their total. -/
theorem agrees_of_totalOf {total first : Bill} {rest : List Bill} (h : total.TotalOf first rest)
    (hall : ∀ g ∈ first :: rest, g.Agrees b) : total.Agrees b := by
  refine ⟨?_, ?_⟩
  · intro i j hi hj
    obtain ⟨g, hg, hgi⟩ := (h.ids i).mp hi
    exact (hall g hg).ids i j hgi hj
  · have hfirst : first ∈ first :: rest := List.mem_cons_self ..
    exact (h.currency first hfirst).symm.trans (hall first hfirst).currency

/-- A merge in range fails only for a bill that disagrees with one of its key. -/
theorem Accounts.merge_error {s : BillSet} {e : AggregationError} (h : Accounts done s.order)
    (hstep : s.InStep) (hmerge : s.merge b = .error e) (he : e ≠ .overflow) :
    ¬ Agree (done ++ [b]) := by
  intro hagree
  obtain ⟨total, htotal, hkey, herror⟩ := hstep.merge_eq_error hmerge
  obtain ⟨first, rest, hfilter, hof⟩ := h.totals total htotal
  apply Bill.merge_eq_error herror he
  apply agrees_of_totalOf hof
  intro g hg
  rw [← hfilter, List.mem_filter] at hg
  have hgkey : g.key = total.key := of_decide_eq_true hg.2
  exact hagree g (List.mem_append_left _ hg.1) b
    (List.mem_append_right _ (List.mem_singleton_self b)) (hgkey.trans hkey)

/-! ## Merging all bills -/

-- The induction is on the bills still to be merged; `done` grows as they are taken in.
theorem Accounts.mergeAll {bs : List Bill} {s s' : BillSet} (h : Accounts done s.order)
    (hstep : s.InStep) (hmerge : s.mergeAll bs = .ok s') :
    Accounts (done ++ bs) s'.order ∧ s'.InStep := by
  induction bs generalizing done s with
  | nil =>
    cases hmerge
    rw [List.append_nil]
    exact ⟨h, hstep⟩
  | cons b bs ih =>
    rw [BillSet.mergeAll] at hmerge
    cases hone : s.merge b with
    | error e =>
      rw [hone] at hmerge
      cases hmerge
    | ok next =>
      rw [hone] at hmerge
      obtain ⟨hnext, hstep'⟩ := h.merge hstep hone
      have hrest := ih hnext hstep' hmerge
      rw [List.append_assoc, List.singleton_append] at hrest
      exact hrest

theorem Accounts.mergeAll_error {bs : List Bill} {s : BillSet} {e : AggregationError}
    (h : Accounts done s.order) (hstep : s.InStep) (hmerge : s.mergeAll bs = .error e)
    (he : e ≠ .overflow) : ¬ Agree (done ++ bs) := by
  induction bs generalizing done s with
  | nil => cases hmerge
  | cons b bs ih =>
    rw [BillSet.mergeAll] at hmerge
    have happend : done ++ b :: bs = (done ++ [b]) ++ bs := by
      rw [List.append_assoc, List.singleton_append]
    rw [happend]
    cases hone : s.merge b with
    | error e' =>
      rw [hone] at hmerge
      cases hmerge
      exact fun hagree => h.merge_error hstep hone he hagree.of_append
    | ok next =>
      rw [hone] at hmerge
      obtain ⟨hnext, hstep'⟩ := h.merge hstep hone
      exact ih hnext hstep' hmerge

end Bills

/-! ## Aggregation -/

variable {toBill : Charge → Bill} {charges : List Charge} {bills : Bills}

theorem accounts_aggregate (h : aggregate toBill charges = .ok bills) :
    Bills.Accounts (charges.map toBill) bills := by
  unfold aggregate at h
  split at h
  · next s hmerge =>
    cases h
    exact (Bills.accounts_nil.mergeAll BillSet.inStep_empty hmerge).1
  · cases h

theorem aggregate_ok_iff (h : aggregate toBill charges ≠ .error .overflow) :
    (∃ bills, aggregate toBill charges = .ok bills) ↔ Bills.Agree (charges.map toBill) := by
  constructor
  · rintro ⟨bills, hbills⟩
    exact (accounts_aggregate hbills).agree
  · intro hagree
    unfold aggregate at h ⊢
    cases hmerge : BillSet.empty.mergeAll (charges.map toBill) with
    | ok s => exact ⟨s.order, rfl⟩
    | error e =>
      rw [hmerge] at h
      have he : e ≠ .overflow := by
        rintro rfl
        exact h rfl
      exact absurd hagree (Bills.accounts_nil.mergeAll_error BillSet.inStep_empty hmerge he)

/-! ## Bills of single charges -/

/-- The bill of a key lists just the charges of that key, in order. -/
theorem charges_eq_filter {ctx : BillContext} {b : Bill}
    (h : aggregate ctx.bill charges = .ok bills) (hb : b ∈ bills) :
    b.charges = charges.filter fun c => (ctx.bill c).key = b.key := by
  obtain ⟨first, rest, hfilter, htotal⟩ := (accounts_aggregate h).totals b hb
  rw [htotal.charges, ← hfilter, List.filter_map, List.flatMap_map]
  exact List.flatMap_singleton' _

/-- Each charge stands in just one bill. -/
theorem existsUnique_bill {ctx : BillContext} {c : Charge}
    (h : aggregate ctx.bill charges = .ok bills) (hc : c ∈ charges) :
    ∃! b, b ∈ bills ∧ c ∈ b.charges := by
  have haccounts := accounts_aggregate h
  have hkey : (ctx.bill c).key ∈ bills.map Bill.key := by
    rw [haccounts.mem_keys]
    exact List.mem_map_of_mem (List.mem_map_of_mem hc)
  obtain ⟨b, hb, hbkey⟩ := List.mem_map.mp hkey
  refine ⟨b, ⟨hb, ?_⟩, ?_⟩
  · rw [charges_eq_filter h hb, List.mem_filter]
    exact ⟨hc, decide_eq_true hbkey.symm⟩
  · rintro b' ⟨hb', hc'⟩
    rw [charges_eq_filter h hb', List.mem_filter] at hc'
    have hsame : b'.key = b.key := (of_decide_eq_true hc'.2).symm.trans hbkey.symm
    exact List.inj_on_of_nodup_map haccounts.keys_nodup hb' hb hsame

/-- Let `bs` be the bills that charges are made into. Unless a sum is out of range, aggregation yields
    bills exactly when the bills of each key in `bs` have no two different ids and one currency; and
    what it yields is one bill for each key, in the order in which the keys appear in `bs`, each of
    them the total of the bills with its key. When each charge is made a bill of its own, every charge
    stands in just one bill, as often as it was given. -/
theorem aggregate_totals (toBill : Charge → Bill) (charges : List Charge)
    (h : aggregate toBill charges ≠ .error .overflow) :
    ((∃ bills, aggregate toBill charges = .ok bills) ↔ Bills.Agree (charges.map toBill)) ∧
    ∀ bills, aggregate toBill charges = .ok bills →
      Bills.Accounts (charges.map toBill) bills ∧
      ∀ ctx : BillContext, toBill = ctx.bill →
        (bills.flatMap Bill.charges).Perm charges ∧
        ∀ c ∈ charges, ∃! b, b ∈ bills ∧ c ∈ b.charges := by
  refine ⟨aggregate_ok_iff h, ?_⟩
  intro bills hbills
  have haccounts := accounts_aggregate hbills
  refine ⟨haccounts, ?_⟩
  rintro ctx rfl
  refine ⟨?_, fun c hc => existsUnique_bill hbills hc⟩
  have hcharges := haccounts.charges
  rw [List.flatMap_map] at hcharges
  exact hcharges.trans (List.Perm.of_eq (List.flatMap_singleton' charges))

/-- Two charges of one target are totalled, that of another target is a bill of its own. -/
theorem aggregate_totals_merged :
    let day := Moment.midnight ⟨2024, 8, 1, by decide, by decide, by decide⟩
    let charge (target : String) (units : Fin 100) : Charge :=
      ⟨none, ⟨"monthly", none⟩, target, ⟨⟨units, 0, by omega, by decide⟩, "USD"⟩,
        ⟨⟨1, 0, by decide, by decide⟩, "item"⟩, Interval.between day day, []⟩
    let charges := [charge "a" 10, charge "b" 20, charge "a" 5]
    let ctx : BillContext := ⟨"client", none, day⟩
    ∃ bills, aggregate ctx.bill charges = .ok bills ∧ bills.length = 2 ∧
      Bills.Accounts (charges.map ctx.bill) bills ∧ (bills.flatMap Bill.charges).Perm charges := by
  intro day charge charges ctx
  have hcount : (aggregate ctx.bill charges).map List.length = .ok 2 := by
    simp only [ctx, charges, charge, day]
    decide +kernel
  cases hresult : aggregate ctx.bill charges with
  | error e =>
    rw [hresult] at hcount
    cases hcount
  | ok bills =>
    rw [hresult] at hcount
    have hrange : aggregate ctx.bill charges ≠ .error .overflow := by
      rw [hresult]
      exact fun h => nomatch h
    obtain ⟨haccounts, hsingle⟩ := (aggregate_totals ctx.bill charges hrange).2 bills hresult
    exact ⟨bills, rfl, Except.ok.inj hcount, haccounts, (hsingle ctx rfl).1⟩

end Tariff
