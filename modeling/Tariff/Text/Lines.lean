/-
  Tariff texts: lines. A line ends at a line break; one carriage return before the break belongs to it,
  and a break at the very end opens no further line. `joinLines` puts lines together again.
-/
import Tariff.Text.Blank

namespace Tariff.Text

/-- The line without one carriage return at its end. -/
def dropReturn (cs : List Char) : List Char :=
  if cs.getLast? = some '\r' then cs.dropLast else cs

/-- The lines of a text. Text after the last line break is a line if there is any. -/
def lines (cs : List Char) : List (List Char) :=
  let pieces := parts (· == '\n') cs
  let ended := pieces.dropLast.map dropReturn
  match pieces.getLast? with
  | none | some [] => ended
  | some last => ended ++ [last]

/-- The lines with a line break between neighbours. -/
def joinLines (ls : List (List Char)) : List Char := ['\n'].intercalate ls

end Tariff.Text
