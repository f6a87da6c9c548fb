/-
  Bills that hold other bills. `Gathers` says what it is for a bill to hold some bills of its key, in
  whichever order and grouping they were merged: nothing in it depends on that, and it fixes all of the
  bill but its quantity and the scale of its sum (`Gathers.same`). Merging two bills gathers what both
  gather.
-/
import Tariff.Proofs.Billing.Additions
import Tariff.Proofs.Calendar.Rank

namespace Tariff

/-! ## Intervals -/

/-- Intervals that cover each other are one. -/
theorem Interval.eq_of_covers {i j : Interval} (h : i.Covers j) (h' : j.Covers i) : i = j := by
  have hstart : i.start = j.start := Moment.ordinal_injective (Int.le_antisymm h.1 h'.1)
  have hfinish : i.finish = j.finish := Moment.ordinal_injective (Int.le_antisymm h'.2 h.2)
  cases i
  cases j
  cases hstart
  cases hfinish
  rfl

/-! ## Bills that hold other bills -/

namespace Bill

/-- What a bill takes over from the first of the bills merged into it. -/
def heading (b : Bill) : ChargeType × Moment × String × String × Option String :=
  (b.type, b.time, b.customer, b.target, b.plan)

/-- The bill `b` holds the bills `gs` of its key: their charges in order, the only id that is set among
    them, the sum of the numbers their amounts mean, the smallest interval that covers theirs, and all
    else but its quantity of the first. -/
structure Gathers (b : Bill) (gs : List Bill) : Prop where
  key : ∀ g ∈ gs, g.key = b.key
  heading : gs.head?.map Bill.heading = some b.heading
  charges : b.charges = gs.flatMap Bill.charges
  ids : ∀ i, b.id = some i ↔ ∃ g ∈ gs, g.id = some i
  currency : ∀ g ∈ gs, g.sum.currency = b.sum.currency
  amount : b.sum.amount.value = (gs.map (·.sum.amount.value)).sum
  interval_covers : ∀ g ∈ gs, b.interval.Covers g.interval
  interval_least : ∀ k : Interval, (∀ g ∈ gs, k.Covers g.interval) → k.Covers b.interval

/-- Two bills agree in all but their quantities, where sums of one value count as the same. -/
structure SameButQuantity (a b : Bill) : Prop where
  key : a.key = b.key
  id : a.id = b.id
  type : a.type = b.type
  time : a.time = b.time
  customer : a.customer = b.customer
  target : a.target = b.target
  plan : a.plan = b.plan
  charges : a.charges = b.charges
  interval : a.interval = b.interval
  currency : a.sum.currency = b.sum.currency
  amount : a.sum.amount.sameValue b.sum.amount = true

variable {a b c merged : Bill} {gs hs : List Bill}

theorem gathers_self (b : Bill) : b.Gathers [b] where
  key := by simp
  heading := rfl
  charges := by simp
  ids := by simp
  currency := by simp
  amount := by simp
  interval_covers := by simpa using b.interval.covers_refl
  interval_least := by simp

theorem Gathers.ne_nil (h : b.Gathers gs) : gs ≠ [] := by
  rintro rfl
  cases h.heading

/-- What a merge of two bills of one key leaves holds what both hold. -/
theorem Gathers.merge (hb : b.Gathers gs) (hc : c.Gathers hs) (hkey : b.key = c.key)
    (hmerge : b.merge c = .ok merged) (hexact : AllExact (b.additions c)) :
    merged.Gathers (gs ++ hs) := by
  have hvalue := value_merge hmerge hexact
  have hmerged := key_merge hmerge
  obtain ⟨id, sum, quantity, hid, hsum, -, rfl⟩ := merge_eq_ok hmerge
  obtain ⟨hother, hfirst, -⟩ := mergeSums_eq_ok hsum
  refine ⟨?_, ?_, ?_, ?_, ?_, ?_, ?_, ?_⟩
  · intro g hg
    rcases List.mem_append.mp hg with hg | hg
    · exact (hb.key g hg).trans hmerged.symm
    · exact ((hc.key g hg).trans hkey.symm).trans hmerged.symm
  · rw [List.head?_append_of_ne_nil _ hb.ne_nil]
    exact hb.heading
  · show b.charges ++ c.charges = _
    rw [hb.charges, hc.charges, List.flatMap_append]
  · intro i
    show id = some i ↔ _
    rw [mergeIds_eq_ok hid i, hb.ids i, hc.ids i]
    simp only [List.mem_append, or_and_right, exists_or]
  · intro g hg
    rcases List.mem_append.mp hg with hg | hg
    · exact (hb.currency g hg).trans hfirst
    · exact (hc.currency g hg).trans hother
  · rw [List.map_append, List.sum_append, ← hb.amount, ← hc.amount]
    exact hvalue
  · intro g hg
    have hself := (Interval.covers_cover_iff _ b.interval c.interval).mp (Interval.covers_refl _)
    rcases List.mem_append.mp hg with hg | hg
    · have hcover := hb.interval_covers g hg
      exact ⟨Int.le_trans hself.1.1 hcover.1, Int.le_trans hcover.2 hself.1.2⟩
    · have hcover := hc.interval_covers g hg
      exact ⟨Int.le_trans hself.2.1 hcover.1, Int.le_trans hcover.2 hself.2.2⟩
  · intro k hk
    have hfront := hb.interval_least k fun g hg => hk g (List.mem_append_left _ hg)
    have hback := hc.interval_least k fun g hg => hk g (List.mem_append_right _ hg)
    exact (Interval.covers_cover_iff ..).mpr ⟨hfront, hback⟩

/-- The bills held fix all of a bill but its quantity and the scale of its sum. -/
theorem Gathers.same (ha : a.Gathers gs) (hb : b.Gathers gs) : a.SameButQuantity b := by
  have hheading : a.heading = b.heading := Option.some.inj (ha.heading.symm.trans hb.heading)
  obtain ⟨g, hg⟩ := List.exists_mem_of_ne_nil gs ha.ne_nil
  have hcurrency : a.sum.currency = b.sum.currency := (ha.currency g hg).symm.trans (hb.currency g hg)
  simp only [Bill.heading, Prod.mk.injEq] at hheading
  obtain ⟨htype, htime, hcustomer, htarget, hplan⟩ := hheading
  refine ⟨?_, ?_, htype, htime, hcustomer, htarget, hplan, ?_, ?_, hcurrency, ?_⟩
  · exact (ha.key g hg).symm.trans (hb.key g hg)
  · exact Option.ext fun i => (ha.ids i).trans (hb.ids i).symm
  · rw [ha.charges, hb.charges]
  · exact Interval.eq_of_covers (hb.interval_least _ ha.interval_covers)
      (ha.interval_least _ hb.interval_covers)
  · rw [Decimal.sameValue_iff, ha.amount, hb.amount]

/-- Bills that one bill holds agree with each other. -/
theorem Gathers.agrees (h : b.Gathers gs) {x y : Bill} (hx : x ∈ gs) (hy : y ∈ gs) : x.Agrees y := by
  refine ⟨?_, (h.currency x hx).trans (h.currency y hy).symm⟩
  intro i j hi hj
  have hib := (h.ids i).mpr ⟨x, hx, hi⟩
  have hjb := (h.ids j).mpr ⟨y, hy, hj⟩
  exact Option.some.inj (hib.symm.trans hjb)

/-- Two bills agree when the bills that they hold do. -/
theorem agrees_of_gathers (hb : b.Gathers gs) (hc : c.Gathers hs)
    (hall : ∀ x ∈ gs, ∀ y ∈ hs, x.Agrees y) : b.Agrees c := by
  refine ⟨?_, ?_⟩
  · intro i j hi hj
    obtain ⟨x, hx, hxi⟩ := (hb.ids i).mp hi
    obtain ⟨y, hy, hyj⟩ := (hc.ids j).mp hj
    exact (hall x hx y hy).ids i j hxi hyj
  · obtain ⟨x, hx⟩ := List.exists_mem_of_ne_nil gs hb.ne_nil
    obtain ⟨y, hy⟩ := List.exists_mem_of_ne_nil hs hc.ne_nil
    rw [← hb.currency x hx, ← hc.currency y hy]
    exact (hall x hx y hy).currency

end Bill

end Tariff
