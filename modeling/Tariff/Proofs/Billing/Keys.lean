/-
  What the key of a bill tells. A key is the texts of a bill with bars between them, so texts with bars
  in them can make one key of different things: then different things stand in one bill, or a run fails
  for two currencies under one key. Where the currencies have no bars, and the targets or else the ids
  of the types have none, keys tell all of these apart (`Legible.key_eq_iff`), so that a bill lists
  charges of one kind only.
-/
import Tariff.Proofs.Billing.Totals

namespace Tariff

/-! ## Texts between bars -/

/-- A text that no bar cuts. -/
def Unbarred (text : String) : Prop := '|' ∉ text.toList

instance (text : String) : Decidable (Unbarred text) := inferInstanceAs (Decidable (_ ∉ _))

/-- The first bar tells where the text before it ends. -/
theorem eq_of_append_bar {a b c d : List Char} (ha : '|' ∉ a) (hc : '|' ∉ c)
    (h : a ++ '|' :: b = c ++ '|' :: d) : a = c ∧ b = d := by
  rcases List.append_eq_append_iff.mp h with ⟨l, hl, hb⟩ | ⟨l, hl, hd⟩
  · cases l with
    | nil => exact ⟨by simpa using hl.symm, by simpa using hb⟩
    | cons x l =>
      have hx : x = '|' := (List.cons.inj hb).1.symm
      rw [hl, hx] at hc
      exact absurd (List.mem_append_right _ (List.mem_cons_self ..)) hc
  · cases l with
    | nil => exact ⟨by simpa using hl, by simpa using hd.symm⟩
    | cons x l =>
      have hx : x = '|' := (List.cons.inj hd).1.symm
      rw [hl, hx] at ha
      exact absurd (List.mem_append_right _ (List.mem_cons_self ..)) ha

/-- The last bar tells where the text after it starts. -/
theorem eq_of_append_bar_last {a b c d : List Char} (hb : '|' ∉ b) (hd : '|' ∉ d)
    (h : a ++ '|' :: b = c ++ '|' :: d) : a = c ∧ b = d := by
  have hreverse := congrArg List.reverse h
  simp only [List.reverse_append, List.reverse_cons, List.append_assoc, List.singleton_append]
    at hreverse
  have hback := eq_of_append_bar (by simpa using hb) (by simpa using hd) hreverse
  exact ⟨List.reverse_injective hback.2, List.reverse_injective hback.1⟩

/-! ## Keys of single charges -/

/-- What a charge is for: its currency, its target and the id of its type. -/
def Charge.subject (c : Charge) : String × String × String :=
  (c.sum.currency, c.target, c.type.uniqueId)

/-- No bar stands where it would hide what charges are for. -/
structure Legible (charges : List Charge) : Prop where
  currency : ∀ c ∈ charges, Unbarred c.sum.currency
  target_or_type : (∀ c ∈ charges, Unbarred c.target) ∨ ∀ c ∈ charges, Unbarred c.type.uniqueId

instance (charges : List Charge) : Decidable (Legible charges) :=
  decidable_of_iff ((∀ c ∈ charges, Unbarred c.sum.currency) ∧
      ((∀ c ∈ charges, Unbarred c.target) ∨ ∀ c ∈ charges, Unbarred c.type.uniqueId))
    ⟨fun h => ⟨h.1, h.2⟩, fun h => ⟨h.currency, h.target_or_type⟩⟩

variable {ctx : BillContext} {charges : List Charge} {bills : Bills}

theorem toList_key_bill (ctx : BillContext) (c : Charge) :
    (ctx.bill c).key.toList = c.sum.currency.toList ++ '|' :: (ctx.customer.toList ++ '|' ::
      ((c.target.toList ++ '|' :: c.type.uniqueId.toList) ++ '|' ::
        (ctx.time.secondsChars ++ '|' :: (ctx.plan.getD "").toList))) := by
  simp [Bill.key, BillContext.bill, joinKey]

/-- The keys of legible charges tell what they are for. -/
theorem Legible.key_eq_iff (h : Legible charges) {c d : Charge} (hc : c ∈ charges)
    (hd : d ∈ charges) : (ctx.bill c).key = (ctx.bill d).key ↔ c.subject = d.subject := by
  constructor
  · intro hkey
    have hchars := congrArg String.toList hkey
    rw [toList_key_bill, toList_key_bill] at hchars
    obtain ⟨hcurrency, hrest⟩ := eq_of_append_bar (h.currency c hc) (h.currency d hd) hchars
    have hmiddle := (List.cons.inj (List.append_cancel_left hrest)).2
    have hpair := List.append_cancel_right hmiddle
    have htexts : c.target.toList = d.target.toList ∧
        c.type.uniqueId.toList = d.type.uniqueId.toList := by
      rcases h.target_or_type with htarget | htype
      · exact eq_of_append_bar (htarget c hc) (htarget d hd) hpair
      · exact eq_of_append_bar_last (htype c hc) (htype d hd) hpair
    unfold Charge.subject
    rw [String.toList_inj.mp hcurrency, String.toList_inj.mp htexts.1,
      String.toList_inj.mp htexts.2]
  · intro hsubject
    simp only [Charge.subject, Prod.mk.injEq] at hsubject
    rw [← String.toList_inj, toList_key_bill, toList_key_bill, hsubject.1, hsubject.2.1,
      hsubject.2.2]

/-! ## Aggregation -/

/-- The bills of single charges agree when those of one key are in one currency. -/
theorem agree_bill (h : ∀ c ∈ charges, ∀ d ∈ charges, (ctx.bill c).key = (ctx.bill d).key →
    c.sum.currency = d.sum.currency) : Bills.Agree (charges.map ctx.bill) := by
  intro x hx y hy hkey
  obtain ⟨c, hc, rfl⟩ := List.mem_map.mp hx
  obtain ⟨d, hd, rfl⟩ := List.mem_map.mp hy
  exact ⟨fun i j hi => (nomatch hi), h c hc d hd hkey⟩

/-- In each bill of legible charges stand, in the order given, all charges of one currency, one target
    and one type id, and no others; and only sums out of range keep the charges from being billed. -/
theorem charges_eq_filter_subject (ctx : BillContext) (charges : List Charge)
    (h : Legible charges) :
    (∀ bills, aggregate ctx.bill charges = .ok bills → ∀ b ∈ bills, ∀ c ∈ b.charges,
      b.charges = charges.filter fun d => d.subject = c.subject) ∧
    ∀ e, aggregate ctx.bill charges = .error e → e = .overflow := by
  constructor
  · intro bills hbills b hb c hc
    have hcharges := charges_eq_filter hbills hb
    rw [hcharges, List.mem_filter] at hc
    obtain ⟨hc, hckey⟩ := hc
    rw [hcharges]
    apply List.filter_congr
    intro d hd
    rw [← of_decide_eq_true hckey]
    exact decide_eq_decide.mpr (h.key_eq_iff hd hc)
  · intro e he
    by_contra hne
    have hrange : aggregate ctx.bill charges ≠ .error .overflow := by
      rw [he]
      rintro ⟨⟩
      exact hne rfl
    have hagree : Bills.Agree (charges.map ctx.bill) := by
      apply agree_bill
      intro c hc d hd hkey
      exact congrArg Prod.fst ((h.key_eq_iff hc hd).mp hkey)
    obtain ⟨bills, hbills⟩ := (aggregate_ok_iff hrange).mpr hagree
    rw [he] at hbills
    cases hbills

/-- Of three charges of a customer whose name has a bar, the two in one currency share a bill. -/
theorem charges_eq_filter_subject_two :
    let day := Moment.midnight ⟨2024, 8, 1, by decide, by decide, by decide⟩
    let charge (currency : String) (amount : Decimal) : Charge :=
      ⟨none, ⟨"1", some "monthly"⟩, "server", ⟨amount, currency⟩,
        ⟨⟨1, 0, by decide, by decide⟩, "item"⟩, Interval.between day day, []⟩
    let one : Decimal := ⟨1, 0, by decide, by decide⟩
    let two : Decimal := ⟨2, 0, by decide, by decide⟩
    let charges := [charge "USD" one, charge "EUR" one, charge "USD" two]
    let ctx : BillContext := ⟨"a|b", none, day⟩
    Legible charges ∧ ∃ bills, aggregate ctx.bill charges = .ok bills ∧ bills.length = 2 ∧
      ∀ b ∈ bills, ∀ c ∈ b.charges,
        b.charges = charges.filter fun d => d.subject = c.subject := by
  intro day charge one two charges ctx
  have hlegible : Legible charges := by
    simp only [charges, one, two, charge, day]
    decide +kernel
  have hcount : (aggregate ctx.bill charges).map List.length = .ok 2 := by
    simp only [ctx, charges, one, two, charge, day]
    decide +kernel
  have hsubject := (charges_eq_filter_subject ctx charges hlegible).1
  cases hresult : aggregate ctx.bill charges with
  | error e =>
    rw [hresult] at hcount
    cases hcount
  | ok bills =>
    rw [hresult] at hcount
    exact ⟨hlegible, bills, rfl, Except.ok.inj hcount, hsubject bills hresult⟩

/-- Bars hide what charges are for: two targets and two types share a bill, and two currencies meet
    under one key. -/
theorem aggregate_barred :
    let day := Moment.midnight ⟨2024, 8, 1, by decide, by decide, by decide⟩
    let charge (currency target type : String) : Charge :=
      ⟨none, ⟨type, none⟩, target, ⟨⟨1, 0, by decide, by decide⟩, currency⟩,
        ⟨⟨1, 0, by decide, by decide⟩, "item"⟩, Interval.between day day, []⟩
    let mixed := [charge "USD" "server|1" "disk", charge "USD" "server" "1|disk"]
    let clashing := [charge "USD" "c|server" "disk", charge "USD|c" "server" "disk"]
    let ctx : BillContext := ⟨"c", none, day⟩
    (aggregate ctx.bill mixed).map (fun bills => bills.map Bill.charges) = .ok [mixed] ∧
      aggregate ctx.bill clashing = .error (.currencyMismatch "USD" "USD|c") := by
  decide +kernel

end Tariff
