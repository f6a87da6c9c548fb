/-
  The JSON forms of charges and bills tell them. Every part of a charge stands under a key of its own,
  its modifiers only when there are any, and a bill has its charges in order. So formulas, charges and
  bills that are exchanged as JSON lose nothing but one thing of their moments: forms say the same just
  when the values are the same, down to the scale of every decimal, and their moments are the same or run
  into each other (`toJson_same_iff`). That loss is real: a leap second behind second 30 and the second
  that follows it give one form (`toJson_same_leap`).
-/
import Tariff.Billing.Bill
import Tariff.Proofs.Formula.JsonForm

namespace Tariff

open Json (Faithful Same Tells)

-- Powers of numbers are the core library's, whatever else is imported.
attribute [local instance (high)] instPowNat

/-! ## Parts of charges -/

theorem ChargeType.faithful_toJson : Faithful toJson := by
  intro t u h
  have hid : t.id = u.id := h.eq_of_field Json.faithful_string "id" (by simp) (by simp)
  have hname : t.name = u.name := h.eq_of_field? Json.faithful_string "name" (by simp) (by simp)
  cases t
  cases u
  exact congrArg₂ mk hid hname

theorem Money.faithful_toJson : Faithful toJson := by
  intro a b h
  have hamount : a.amount = b.amount :=
    h.eq_of_field Decimal.faithful_text "amount" (by simp) (by simp)
  have hcurrency : a.currency = b.currency :=
    h.eq_of_field Json.faithful_string "currency" (by simp) (by simp)
  cases a
  cases b
  exact congrArg₂ mk hamount hcurrency

theorem Quantity.faithful_toJson : Faithful toJson := by
  intro p q h
  have hvalue : p.value = q.value :=
    h.eq_of_field Decimal.faithful_text "value" (by simp) (by simp)
  have hunit : p.unit = q.unit :=
    h.eq_of_field Json.faithful_string "unit" (by simp) (by simp)
  cases p
  cases q
  exact congrArg₂ mk hvalue hunit

/-- The intervals have the same bounds as a clock shows them. -/
structure Interval.ShownAlike (i j : Interval) : Prop where
  start : i.start.ShownAlike j.start
  finish : i.finish.ShownAlike j.finish

theorem Interval.tells_toJson : Tells toJson ShownAlike := by
  intro i j h
  have hstart : i.start.ShownAlike j.start :=
    h.rel_of_field Moment.tells_isoText "start" (by simp) (by simp)
  have hfinish : i.finish.ShownAlike j.finish :=
    h.rel_of_field Moment.tells_isoText "end" (by simp) (by simp)
  exact ⟨hstart, hfinish⟩

theorem Interval.toJson_eq_of_shownAlike (i j : Interval) (h : i.ShownAlike j) :
    i.toJson = j.toJson := by
  rw [toJson, toJson, Moment.isoText_eq_iff.mpr h.start, Moment.isoText_eq_iff.mpr h.finish]

/-- Forms of related values, item by item. -/
theorem Json.map_eq_of_forall₂ {α : Type} {form : α → Json} {R : α → α → Prop}
    (hform : ∀ a b, R a b → form a = form b) {as bs : List α} (h : List.Forall₂ R as bs) :
    as.map form = bs.map form := by
  induction h with
  | nil => rfl
  | cons hab _ ih => rw [List.map_cons, List.map_cons, hform _ _ hab, ih]

/-! ## Charges -/

namespace Charge

/-- The modifiers that the JSON form of a charge shows, if it shows any. -/
def modifiers? (c : Charge) : Option (List Formula) :=
  if c.modifiers.isEmpty then none else some c.modifiers

/-- Modifiers that are not shown are none. -/
theorem getD_modifiers? (c : Charge) : c.modifiers?.getD [] = c.modifiers := by
  unfold modifiers?
  split
  · next hempty => exact (List.isEmpty_iff.mp hempty).symm
  · rfl

theorem toJson_eq (c : Charge) : c.toJson =
    .obj ([("id", Json.ofText? c.id), ("type", c.type.toJson), ("target", .str c.target),
      ("sum", c.sum.toJson), ("usage", c.usage.toJson), ("interval", c.interval.toJson)]
    ++ Json.field? "modifiers" (c.modifiers?.map fun fs => .arr (fs.map Formula.toJson))) := by
  unfold toJson modifiers?
  split <;> rfl

/-- The charges are the same, their moments as a clock shows them. -/
structure ShownAlike (c d : Charge) : Prop where
  id : c.id = d.id
  type : c.type = d.type
  target : c.target = d.target
  sum : c.sum = d.sum
  usage : c.usage = d.usage
  interval : c.interval.ShownAlike d.interval
  modifiers : List.Forall₂ Formula.ShownAlike c.modifiers d.modifiers

theorem tells_toJson : Tells toJson ShownAlike := by
  intro c d h
  rw [toJson_eq, toJson_eq] at h
  have hid : c.id = d.id := h.eq_of_field Json.faithful_ofText? "id" (by simp) (by simp)
  have htype : c.type = d.type :=
    h.eq_of_field ChargeType.faithful_toJson "type" (by simp) (by simp)
  have htarget : c.target = d.target :=
    h.eq_of_field Json.faithful_string "target" (by simp) (by simp)
  have hsum : c.sum = d.sum := h.eq_of_field Money.faithful_toJson "sum" (by simp) (by simp)
  have husage : c.usage = d.usage :=
    h.eq_of_field Quantity.faithful_toJson "usage" (by simp) (by simp)
  have hinterval : c.interval.ShownAlike d.interval :=
    h.rel_of_field Interval.tells_toJson "interval" (by simp) (by simp)
  have hshown : Option.Rel (List.Forall₂ Formula.ShownAlike) c.modifiers? d.modifiers? :=
    h.rel_of_field? Formula.tells_toJson.arr "modifiers" (by simp) (by simp)
  have hmodifiers : List.Forall₂ Formula.ShownAlike c.modifiers d.modifiers := by
    rw [← c.getD_modifiers?, ← d.getD_modifiers?]
    generalize c.modifiers? = fs, d.modifiers? = gs at hshown
    cases hshown with
    | none => exact .nil
    | some hmodifiers => exact hmodifiers
  exact ⟨hid, htype, htarget, hsum, husage, hinterval, hmodifiers⟩

theorem toJson_eq_of_shownAlike (c d : Charge) (h : c.ShownAlike d) : c.toJson = d.toJson := by
  have hmodifiers := Json.map_eq_of_forall₂ Formula.toJson_eq_of_shownAlike h.modifiers
  have hempty : c.modifiers.isEmpty = d.modifiers.isEmpty := by
    rw [Bool.eq_iff_iff, List.isEmpty_iff_length_eq_zero, List.isEmpty_iff_length_eq_zero,
      h.modifiers.length_eq]
  rw [toJson, toJson, h.id, h.type, h.target, h.sum, h.usage,
    Interval.toJson_eq_of_shownAlike _ _ h.interval, hmodifiers, hempty]

end Charge

/-! ## Bills -/

namespace Bill

/-- The bills are the same, their moments as a clock shows them. -/
structure ShownAlike (a b : Bill) : Prop where
  id : a.id = b.id
  type : a.type = b.type
  time : a.time.ShownAlike b.time
  sum : a.sum = b.sum
  quantity : a.quantity = b.quantity
  customer : a.customer = b.customer
  target : a.target = b.target
  plan : a.plan = b.plan
  charges : List.Forall₂ Charge.ShownAlike a.charges b.charges
  interval : a.interval.ShownAlike b.interval

theorem tells_toJson : Tells toJson ShownAlike := by
  intro a b h
  have hid : a.id = b.id := h.eq_of_field Json.faithful_ofText? "id" (by simp) (by simp)
  have htype : a.type = b.type :=
    h.eq_of_field ChargeType.faithful_toJson "type" (by simp) (by simp)
  have htime : a.time.ShownAlike b.time :=
    h.rel_of_field Moment.tells_isoText "time" (by simp) (by simp)
  have hsum : a.sum = b.sum := h.eq_of_field Money.faithful_toJson "sum" (by simp) (by simp)
  have hquantity : a.quantity = b.quantity :=
    h.eq_of_field Quantity.faithful_toJson "quantity" (by simp) (by simp)
  have hcustomer : a.customer = b.customer :=
    h.eq_of_field Json.faithful_string "customer" (by simp) (by simp)
  have htarget : a.target = b.target :=
    h.eq_of_field Json.faithful_string "target" (by simp) (by simp)
  have hplan : a.plan = b.plan := h.eq_of_field Json.faithful_ofText? "plan" (by simp) (by simp)
  have hcharges : List.Forall₂ Charge.ShownAlike a.charges b.charges :=
    h.rel_of_field Charge.tells_toJson.arr "charges" (by simp) (by simp)
  have hinterval : a.interval.ShownAlike b.interval :=
    h.rel_of_field Interval.tells_toJson "usage_interval" (by simp) (by simp)
  exact ⟨hid, htype, htime, hsum, hquantity, hcustomer, htarget, hplan, hcharges, hinterval⟩

theorem toJson_eq_of_shownAlike (a b : Bill) (h : a.ShownAlike b) : a.toJson = b.toJson := by
  have hcharges := Json.map_eq_of_forall₂ Charge.toJson_eq_of_shownAlike h.charges
  rw [toJson, toJson, h.id, h.type, Moment.isoText_eq_iff.mpr h.time, h.sum, h.quantity, h.customer,
    h.target, h.plan, hcharges, Interval.toJson_eq_of_shownAlike _ _ h.interval]

end Bill

/-- The JSON forms of two formulas, of two charges or of two bills say the same, as objects whose
    fields have no order, just when they are forms of one value: all its texts, decimals with their
    scales and lists are the same, and its moments are but for those that run into each other. -/
theorem toJson_same_iff :
    (∀ f g : Formula, Same f.toJson g.toJson ↔ f.ShownAlike g) ∧
    (∀ c d : Charge, Same c.toJson d.toJson ↔ c.ShownAlike d) ∧
    (∀ a b : Bill, Same a.toJson b.toJson ↔ a.ShownAlike b) :=
  ⟨Formula.tells_toJson.same_iff Formula.toJson_eq_of_shownAlike,
    Charge.tells_toJson.same_iff Charge.toJson_eq_of_shownAlike,
    Bill.tells_toJson.same_iff Bill.toJson_eq_of_shownAlike⟩

/-- Formulas from, and charges in, half a second into a leap second behind second 30 differ from those
    at half a second into second 31, and have the same forms. -/
theorem toJson_same_leap :
    let day : Date := ⟨2024, 8, 1, by decide, by decide, by decide⟩
    let leap : Moment := ⟨day, 12, 0, 30, 1500000000, by decide, by decide, by decide, by decide⟩
    let next : Moment := ⟨day, 12, 0, 31, 500000000, by decide, by decide, by decide, by decide⟩
    let formula (since : Moment) : Formula := .installment none ⟨some since, none, none⟩
    let charge (start : Moment) : Charge :=
      ⟨some "1", ⟨"monthly", none⟩, "server", ⟨⟨1, 0, by decide, by decide⟩, "USD"⟩,
        ⟨⟨1, 0, by decide, by decide⟩, "item"⟩, ⟨start, start, Int.le_refl _⟩, []⟩
    (formula leap ≠ formula next ∧ Same (formula leap).toJson (formula next).toJson) ∧
      charge leap ≠ charge next ∧ Same (charge leap).toJson (charge next).toJson := by
  intro day leap next formula charge
  have hnanos : 1500000000 = 10 ^ (9 : Nat) + 500000000 := by decide
  have hruns : leap.ShownAlike next := Or.inr (Or.inl ⟨rfl, rfl, rfl, rfl, hnanos⟩)
  have hformula : (formula leap).toJson = (formula next).toJson :=
    Formula.toJson_eq_of_shownAlike _ _ (.installment none ⟨.some hruns, .none, rfl⟩)
  have hcharge : (charge leap).toJson = (charge next).toJson :=
    Charge.toJson_eq_of_shownAlike _ _ ⟨rfl, rfl, rfl, rfl, rfl, ⟨hruns, hruns⟩, .nil⟩
  have hne : leap ≠ next := fun h => absurd (congrArg Moment.second h) (by decide)
  rw [hformula, hcharge]
  exact ⟨⟨fun h => hne (Option.some.inj (congrArg (fun f => f.addons.since) h)), Same.refl _⟩,
    fun h => hne (congrArg (fun c => c.interval.start) h), Same.refl _⟩

end Tariff
