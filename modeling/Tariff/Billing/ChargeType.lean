/-
  The types of charges: an id with a name or without. The id `ANY` is a wildcard that compares by name;
  `NONE` matches nothing, itself included.
-/
import Tariff.Json

namespace Tariff

structure ChargeType where
  id : String
  name : Option String
deriving DecidableEq

namespace ChargeType

/-- The wildcard id. -/
def wildcard : String := "ANY"

/-- The id that matches nothing. -/
def void : String := "NONE"

/-- Whether the name is set and tells anything. -/
def hasName (t : ChargeType) : Bool :=
  t.name.any fun n => n ≠ "" && n ≠ wildcard && n ≠ void

/-- The name when it tells something, else the id. -/
def uniqueId (t : ChargeType) : String := if t.hasName then t.name.getD t.id else t.id

/-- Whether two texts match: they are equal and not `NONE`. -/
def textsMatch (a b : String) : Bool := a ≠ void && b ≠ void && a = b

/-- Whether one type applies to another. -/
def appliesTo (t u : ChargeType) : Bool :=
  if t.id = wildcard ∨ u.id = wildcard then textsMatch (t.name.getD "") (u.name.getD "")
  else textsMatch t.id u.id

def toJson (t : ChargeType) : Json :=
  .obj (("id", .str t.id) :: Json.field? "name" (t.name.map .str))

end ChargeType

end Tariff
