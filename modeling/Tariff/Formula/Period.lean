/-
  Periods: a count of days, months or years, such as `2 months`.
-/
import Tariff.Json
import Tariff.Text.Blank
import Tariff.Text.Numeral

namespace Tariff

/-- The units of periods. -/
inductive Period.Unit
  | day | month | year
deriving DecidableEq

/-- The name of a unit, in the singular. -/
def Period.Unit.name : Period.Unit → String
  | .day => "day"
  | .month => "month"
  | .year => "year"

/-- The unit of a name, singular or plural, in any case. -/
def Period.Unit.ofName? (name : List Char) : Option Period.Unit :=
  let lower := String.ofList (name.map Char.toLower)
  if lower = "day" ∨ lower = "days" then some .day
  else if lower = "month" ∨ lower = "months" then some .month
  else if lower = "year" ∨ lower = "years" then some .year
  else none

/-- A number of calendar units. -/
structure Period where
  count : Nat
  unit : Period.Unit
deriving DecidableEq

namespace Period

/-- The text of a period; only a count of one has the singular. -/
def text (p : Period) : String :=
  toString p.count ++ " " ++ p.unit.name ++ if p.count = 1 then "" else "s"

def toJson (p : Period) : Json :=
  .obj [("count", .int p.count), ("unit", .str p.unit.name)]

/-- Reads a positive count and a unit, with blanks between and around them. -/
def parse? (cs : List Char) : Option Period :=
  match Text.words cs with
  | [count, unit] => do
    let n ← Text.count? count
    let u ← Unit.ofName? unit
    if n = 0 then none else some ⟨n, u⟩
  | _ => none

end Period

end Tariff
