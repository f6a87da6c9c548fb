/-
  Formulas: what a line of source means for a charge. A formula is a discount or an installment, each
  with the bounds between which it holds and a reason.
-/
import Tariff.Calendar.Moment
import Tariff.Formula.Period
import Tariff.Formula.Value

namespace Tariff

/-- What every kind of formula may carry. Both bounds are inclusive. -/
structure Addons where
  since : Option Moment
  till : Option Moment
  reason : Option String
deriving DecidableEq

inductive Formula
  | discount (value : DiscountValue) (addons : Addons)
  | installment (term : Option Period) (addons : Addons)
deriving DecidableEq

namespace Formula

/-- The name of the kind of a formula. -/
def kind : Formula → String
  | .discount _ _ => "fixed-discount"
  | .installment _ _ => "installment"

def addons : Formula → Addons
  | .discount _ a => a
  | .installment _ a => a

def value? : Formula → Option DiscountValue
  | .discount v _ => some v
  | .installment _ _ => none

def term? : Formula → Option Period
  | .discount _ _ => none
  | .installment t _ => t

def isRelative (f : Formula) : Bool := f.value?.any (·.isRelative)

/-- False when both bounds are set and the lower one comes after the upper one. -/
def hasValidInterval (f : Formula) : Bool :=
  match f.addons.since, f.addons.till with
  | some since, some till => since ≤ till
  | _, _ => true

/-- Equality of formulas, where magnitudes count as numbers: `2` is `2.0`. -/
def sameAs : Formula → Formula → Bool
  | .discount v a, .discount w b => v.sameAs w && a == b
  | .installment t a, .installment u b => t == u && a == b
  | _, _ => false

/-- What a formula grants, without its addons. -/
def headText : Formula → String
  | .discount v _ => "fixed-discount " ++ v.text
  | .installment (some t) _ => "installment " ++ t.text
  | .installment none _ => "installment"

/-- The compact form of a formula. Bounds show their dates only. -/
def text (f : Formula) : String :=
  f.headText
    ++ (f.addons.since.map fun m => " since " ++ m.date.text).getD ""
    ++ (f.addons.till.map fun m => " till " ++ m.date.text).getD ""
    ++ (f.addons.reason.map fun r => " (" ++ r ++ ")").getD ""

end Formula

/-- The fields of addons, those that are set. -/
def Addons.jsonFields (a : Addons) : List (String × Json) :=
  Json.field? "since" (a.since.map fun m => .str m.isoText)
    ++ Json.field? "till" (a.till.map fun m => .str m.isoText)
    ++ Json.field? "reason" (a.reason.map .str)

def Formula.toJson : Formula → Json
  | .discount v a => .obj ([("kind", .str "fixed-discount"), ("value", v.toJson)] ++ a.jsonFields)
  | .installment t a =>
    .obj ([("kind", .str "installment")] ++ Json.field? "term" (t.map Period.toJson) ++ a.jsonFields)

end Tariff
