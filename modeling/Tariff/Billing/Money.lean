/-
  Money and quantities: a decimal in a currency, a decimal in a unit. Only like can be added to like,
  and the sum has to stay in the range of decimals.
-/
import Tariff.Decimal.Sum
import Tariff.Decimal.Text
import Tariff.Json

namespace Tariff

structure Money where
  amount : Decimal
  currency : String
deriving DecidableEq

structure Quantity where
  value : Decimal
  unit : String
deriving DecidableEq

/-- What the sum of two decimals out of range is reported as. -/
def overflowMessage : String := "Addition overflowed"

/-- Why two sums of money have no total. -/
inductive MoneyError
  | currencyMismatch (first other : String)
  | overflow
deriving DecidableEq

def MoneyError.message : MoneyError → String
  | .currencyMismatch first other => "currency mismatch: " ++ first ++ " vs " ++ other
  | .overflow => overflowMessage

/-- Why two quantities have no total. -/
inductive QuantityError
  | unitMismatch
  | overflow
deriving DecidableEq

def Money.add (a b : Money) : Except MoneyError Money :=
  if a.currency = b.currency then
    match a.amount.add? b.amount with
    | some total => .ok ⟨total, a.currency⟩
    | none => .error .overflow
  else .error (.currencyMismatch a.currency b.currency)

def Money.text (m : Money) : String := m.amount.text ++ " " ++ m.currency

def Money.toJson (m : Money) : Json :=
  .obj [("amount", .str m.amount.text), ("currency", .str m.currency)]

def Quantity.add (a b : Quantity) : Except QuantityError Quantity :=
  if a.unit = b.unit then
    match a.value.add? b.value with
    | some total => .ok ⟨total, a.unit⟩
    | none => .error .overflow
  else .error .unitMismatch

def Quantity.text (q : Quantity) : String := q.value.text ++ " " ++ q.unit

def Quantity.toJson (q : Quantity) : Json :=
  .obj [("value", .str q.value.text), ("unit", .str q.unit)]

end Tariff
