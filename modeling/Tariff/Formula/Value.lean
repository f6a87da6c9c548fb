/-
  Discount values: a percentage of the charged sum, or an amount in some currency or in none. The
  written forms are `2%`, `5 USD` and `5`.
-/
import Tariff.Decimal.Text
import Tariff.Json
import Tariff.Text.Blank

namespace Tariff

/-- How much a discount takes off. -/
inductive DiscountValue
  | relative (magnitude : Decimal)
  | absolute (magnitude : Decimal) (currency : Option String)
deriving DecidableEq

namespace DiscountValue

def magnitude : DiscountValue → Decimal
  | .relative m => m
  | .absolute m _ => m

def currency : DiscountValue → Option String
  | .relative _ => none
  | .absolute _ c => c

def isRelative : DiscountValue → Bool
  | .relative _ => true
  | .absolute _ _ => false

def text : DiscountValue → String
  | .relative m => m.text ++ "%"
  | .absolute m (some c) => m.text ++ " " ++ c
  | .absolute m none => m.text

def toJson (v : DiscountValue) : Json :=
  .obj ([("magnitude", .str v.magnitude.text),
      ("kind", .str (if v.isRelative then "relative" else "absolute"))]
    ++ Json.field? "currency" (v.currency.map .str))

/-- Whether two values are of one kind and currency and have magnitudes that mean the same number. -/
def sameAs : DiscountValue → DiscountValue → Bool
  | .relative m, .relative n => m.sameValue n
  | .absolute m c, .absolute n d => m.sameValue n && c == d
  | _, _ => false

/-- Reads an amount, alone or followed by a currency code of letters, which is put in capitals. -/
def parseAmount? (cs : List Char) : Option (Decimal × Option String) :=
  match Text.words cs with
  | [amount] => (Decimal.parse? amount).map fun m => (m, none)
  | [amount, code] =>
    if code.all Char.isAlpha then
      (Decimal.parse? amount).map fun m => (m, some (String.ofList (code.map Char.toUpper)))
    else none
  | _ => none

/-- Reads a percentage or an amount from a text without blanks at its ends. -/
def parse? (cs : List Char) : Option DiscountValue :=
  if cs.getLast? = some '%' then (Decimal.parse? (Text.trim cs.dropLast)).map .relative
  else (parseAmount? cs).map fun (m, currency) => .absolute m currency

/-- Reads a percentage, whose sign may be left out, from a text without blanks at its ends. -/
def parseRelative? (cs : List Char) : Option DiscountValue :=
  (parse? cs).bind fun
    | .relative m => some (.relative m)
    | .absolute m none => some (.relative m)
    | .absolute _ (some _) => none

end DiscountValue

end Tariff
