/-
  JSON values with ordered fields, and their text: two spaces per level, one item or field a line, empty
  lists and objects on one line. Strings escape quotes, backslashes and control characters only.
-/
namespace Tariff

inductive Json
  | null
  | bool (b : Bool)
  | int (n : Int)
  | str (s : String)
  | arr (items : List Json)
  | obj (fields : List (String × Json))

namespace Json

/-- A text or null. -/
def ofText? : Option String → Json
  | some s => .str s
  | none => .null

/-- A field for an object that leaves it out when there is no value. -/
def field? (key : String) (value : Option Json) : List (String × Json) :=
  value.toList.map fun v => (key, v)

/-- The escape of a control character by its code. -/
def escapeCode (c : Char) : List Char :=
  ['\\', 'u', '0', '0', Nat.digitChar (c.toNat / 16), Nat.digitChar (c.toNat % 16)]

/-- A character as it stands inside a JSON string. -/
def escapeChar : Char → List Char
  | '"' => ['\\', '"']
  | '\\' => ['\\', '\\']
  | '\n' => ['\\', 'n']
  | '\r' => ['\\', 'r']
  | '\t' => ['\\', 't']
  | '\x08' => ['\\', 'b']
  | '\x0c' => ['\\', 'f']
  | c => if c.toNat < 0x20 then escapeCode c else [c]

/-- A string with its quotes. -/
def quoted (s : String) : String := String.ofList ('"' :: s.toList.flatMap escapeChar ++ ['"'])

/-- The blanks in front of a line at some depth. -/
def margin (depth : Nat) : String := String.ofList (List.replicate (2 * depth) ' ')

/-- Brackets around lines that stand one level deeper than the closing bracket. -/
def bracketed (depth : Nat) (opening closing : String) : List String → String
  | [] => opening ++ closing
  | lines =>
    opening ++ "\n" ++ ",\n".intercalate (lines.map (margin (depth + 1) ++ ·)) ++ "\n"
      ++ margin depth ++ closing

mutual

/-- The text of a value whose first line stands at some depth. -/
def textAt (depth : Nat) : Json → String
  | .null => "null"
  | .bool b => if b then "true" else "false"
  | .int n => toString n
  | .str s => quoted s
  | .arr items => bracketed depth "[" "]" (itemsAt (depth + 1) items)
  | .obj fields => bracketed depth "\x7b" "\x7d" (fieldsAt (depth + 1) fields)

def itemsAt (depth : Nat) : List Json → List String
  | [] => []
  | item :: items => textAt depth item :: itemsAt depth items

def fieldsAt (depth : Nat) : List (String × Json) → List String
  | [] => []
  | (key, value) :: fields => (quoted key ++ ": " ++ textAt depth value) :: fieldsAt depth fields

end

/-- The text of a value. -/
def text (j : Json) : String := j.textAt 0

end Json

end Tariff
