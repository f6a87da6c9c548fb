/-
  The normal form of formula source: every line trimmed, blank lines dropped, the rest joined by line
  breaks. It is what is compiled and what compiled formulas are kept under. `Input` lists what a caller
  may hand in as source.
-/
import Tariff.Text.Lines

namespace Tariff.Source

/-- What may stand for formula source. -/
inductive Input
  | text (s : String)
  | flag (b : Bool)
  | number (n : Int)

/-- The source text of an input: a true flag reads `1`, a false one is empty, a number is written out. -/
def Input.toText : Input → String
  | .text s => s
  | .flag true => "1"
  | .flag false => ""
  | .number n => toString n

/-- The lines of the normal form. -/
def contentLines (cs : List Char) : List (List Char) :=
  ((Text.lines cs).map Text.trim).filter (! ·.isEmpty)

/-- The normal form of a text, `none` when it holds nothing but white space. -/
def normalForm? (cs : List Char) : Option (List Char) :=
  match contentLines cs with
  | [] => none
  | ls => some (Text.joinLines ls)

/-- The normal form of a string. -/
def normalize (s : String) : Option String := (normalForm? s.toList).map String.ofList

end Tariff.Source
