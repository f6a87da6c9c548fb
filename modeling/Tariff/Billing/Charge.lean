/-
  Charges: a priced usage of a target, with the formulas that applied to it. The key of a charge says
  what it accounts for: its type, its target, and the second in which its interval starts.
-/
import Tariff.Billing.ChargeType
import Tariff.Billing.Interval
import Tariff.Billing.Money
import Tariff.Formula.Basic

namespace Tariff

structure Charge where
  id : Option String
  type : ChargeType
  target : String
  sum : Money
  usage : Quantity
  interval : Interval
  modifiers : List Formula
deriving DecidableEq

/-- The parts of a key with bars between them. -/
def joinKey (texts : List String) : String := "|".intercalate texts

namespace Charge

def key (c : Charge) : String :=
  joinKey [c.type.uniqueId, c.target, String.ofList c.interval.start.secondsChars]

/-- The JSON form; modifiers are left out when there are none. -/
def toJson (c : Charge) : Json :=
  .obj ([("id", Json.ofText? c.id), ("type", c.type.toJson), ("target", .str c.target),
      ("sum", c.sum.toJson), ("usage", c.usage.toJson), ("interval", c.interval.toJson)]
    ++ if c.modifiers.isEmpty then [] else [("modifiers", .arr (c.modifiers.map Formula.toJson))])

end Charge

end Tariff
