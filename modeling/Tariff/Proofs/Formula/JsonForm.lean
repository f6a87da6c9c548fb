/-
  The JSON form of a formula tells the formula, its moments as a clock shows them
  (`Formula.tells_toJson`). Its kind stands beside what the kind has of its own and beside the addons, each
  of them under a key that no other part takes: the kind of a discount value is a field of that value and
  not of the formula.
-/
import Tariff.Formula.Basic
import Tariff.Proofs.Calendar.Iso
import Tariff.Proofs.Decimal.ReadBack
import Tariff.Proofs.Json.Same

namespace Tariff

open Json (Faithful Same Tells faithful_str)

/-! ## Texts -/

theorem Decimal.text_inj (a b : Decimal) (h : a.text = b.text) : a = b := by
  have hread := a.parse?_chars
  rw [String.ofList_inj.mp h, b.parse?_chars] at hread
  exact (Option.some.inj hread).symm

theorem Decimal.faithful_text : Faithful fun d : Decimal => .str d.text := faithful_str text_inj

theorem Moment.tells_isoText : Tells (fun m : Moment => .str m.isoText) ShownAlike :=
  fun _ _ h => isoText_eq_iff.mp h.str_inj

theorem Moment.map_isoText {a b : Option Moment} (h : Option.Rel ShownAlike a b) :
    (a.map fun m => Json.str m.isoText) = b.map fun m => Json.str m.isoText := by
  cases h with
  | none => rfl
  | some h => exact congrArg (fun text => some (Json.str text)) (isoText_eq_iff.mpr h)

/-! ## What formulas are made of -/

theorem DiscountValue.faithful_toJson : Faithful toJson := by
  intro v w h
  have hmagnitude : v.magnitude = w.magnitude :=
    h.eq_of_field Decimal.faithful_text "magnitude" (by simp) (by simp)
  have hkind : (if v.isRelative then "relative" else "absolute") =
      if w.isRelative then "relative" else "absolute" :=
    h.eq_of_field Json.faithful_string "kind" (by simp) (by simp)
  have hcurrency : v.currency = w.currency :=
    h.eq_of_field? Json.faithful_string "currency" (by simp) (by simp)
  match v, w with
  | .relative m, .relative n => exact congrArg relative hmagnitude
  | .absolute m c, .absolute n d => exact congrArg₂ absolute hmagnitude hcurrency
  | .relative _, .absolute _ _ => simp [isRelative] at hkind
  | .absolute _ _, .relative _ => simp [isRelative] at hkind

theorem Period.Unit.name_inj (u v : Period.Unit) (h : u.name = v.name) : u = v := by
  cases u <;> cases v <;> revert h <;> decide

theorem Period.faithful_toJson : Faithful toJson := by
  intro p q h
  have hcount : p.count = q.count :=
    h.eq_of_field Json.faithful_count "count" (by simp) (by simp)
  have hunit : p.unit = q.unit :=
    h.eq_of_field (faithful_str Unit.name_inj) "unit" (by simp) (by simp)
  cases p
  cases q
  exact congrArg₂ mk hcount hunit

/-! ## Formulas -/

/-- The addons are the same, their moments as a clock shows them. -/
structure Addons.ShownAlike (a b : Addons) : Prop where
  since : Option.Rel Moment.ShownAlike a.since b.since
  till : Option.Rel Moment.ShownAlike a.till b.till
  reason : a.reason = b.reason

namespace Formula

/-- The formulas are the same, their moments as a clock shows them. -/
inductive ShownAlike : Formula → Formula → Prop
  | discount (v : DiscountValue) {a b : Addons} (h : a.ShownAlike b) :
      ShownAlike (.discount v a) (.discount v b)
  | installment (t : Option Period) {a b : Addons} (h : a.ShownAlike b) :
      ShownAlike (.installment t a) (.installment t b)

/-- What both kinds of formulas write, each part that is set under its own key. -/
theorem toJson_eq (f : Formula) : f.toJson =
    .obj ([("kind", .str f.kind)] ++ Json.field? "value" (f.value?.map DiscountValue.toJson)
      ++ Json.field? "term" (f.term?.map Period.toJson) ++ f.addons.jsonFields) := by
  cases f <;> rfl

/-- Kind, value, term and addons make a formula. -/
theorem shownAlike_of_parts {f g : Formula} (hkind : f.kind = g.kind) (hvalue : f.value? = g.value?)
    (hterm : f.term? = g.term?) (haddons : f.addons.ShownAlike g.addons) : f.ShownAlike g := by
  match f, g with
  | .discount v a, .discount w b =>
    cases hvalue
    exact .discount v haddons
  | .installment t a, .installment u b =>
    cases hterm
    exact .installment t haddons
  | .discount _ _, .installment _ _ => exact absurd hkind (by simp [kind])
  | .installment _ _, .discount _ _ => exact absurd hkind (by simp [kind])

theorem tells_toJson : Tells toJson ShownAlike := by
  intro f g h
  rw [toJson_eq, toJson_eq, Addons.jsonFields, Addons.jsonFields] at h
  have hkind : f.kind = g.kind :=
    h.eq_of_field Json.faithful_string "kind" (by simp) (by simp)
  have hvalue : f.value? = g.value? :=
    h.eq_of_field? DiscountValue.faithful_toJson "value" (by simp) (by simp)
  have hterm : f.term? = g.term? :=
    h.eq_of_field? Period.faithful_toJson "term" (by simp) (by simp)
  have hsince : Option.Rel Moment.ShownAlike f.addons.since g.addons.since :=
    h.rel_of_field? Moment.tells_isoText "since" (by simp) (by simp)
  have htill : Option.Rel Moment.ShownAlike f.addons.till g.addons.till :=
    h.rel_of_field? Moment.tells_isoText "till" (by simp) (by simp)
  have hreason : f.addons.reason = g.addons.reason :=
    h.eq_of_field? Json.faithful_string "reason" (by simp) (by simp)
  exact shownAlike_of_parts hkind hvalue hterm ⟨hsince, htill, hreason⟩

theorem toJson_eq_of_shownAlike (f g : Formula) (h : f.ShownAlike g) : f.toJson = g.toJson := by
  have hfields : ∀ {a b : Addons}, a.ShownAlike b → a.jsonFields = b.jsonFields := by
    intro a b h
    rw [Addons.jsonFields, Addons.jsonFields, Moment.map_isoText h.since,
      Moment.map_isoText h.till, h.reason]
  cases h with
  | discount v h => rw [toJson, toJson, hfields h]
  | installment t h => rw [toJson, toJson, hfields h]

end Formula

end Tariff
