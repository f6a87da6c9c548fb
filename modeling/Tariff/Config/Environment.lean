/-
  Settings from environment variables. A variable whose name starts with `BILLING_`, in any case, sets
  the key that the rest of its name spells in small letters; `__` and `.` lead into groups. Its value is
  a flag, a list `[a, b]`, a group `{key=value}` written with braces, a quoted text, one character in
  single quotes, or else the text that stands there.
-/
import Tariff.Config.Node
import Tariff.Text.Blank
import Tariff.Text.Numeral

namespace Tariff.Config

/-- Variables with their values; later ones are merged over earlier ones. Values are texts: a variable
    that has another value is not among them. -/
abbrev Environment := List (String × String)

namespace Environment

/-- What the names of all variables that count start with. -/
def nameStart : List Char := "billing_".toList

/-- Blanks inside values are those of ASCII. -/
def isGap (c : Char) : Bool := c = ' ' || c = '\t' || c = '\n' || c = '\x0c' || c = '\r'

/-- Characters that end an unquoted text. -/
def isSeparator (c : Char) : Bool := c = ',' || c = '{' || c = '}' || c = '[' || c = ']'

def isKeyChar (c : Char) : Bool := c.isAlphanum || c = '_' || c = '-'

def skipGap (cs : List Char) : List Char := cs.dropWhile isGap

/-- What a backslash and a character stand for in a quoted text. -/
def unescape? : Char → Option Char
  | 'b' => some '\x08'
  | 't' => some '\t'
  | 'n' => some '\n'
  | 'f' => some '\x0c'
  | 'r' => some '\r'
  | '"' => some '"'
  | '\\' => some '\\'
  | _ => none

/-- Characters that may stand for themselves in a quoted text. -/
def isPlain (c : Char) : Bool := c = '\t' || (' ' ≤ c && c != '\x7f')

/-- Reads a quoted text behind its opening quote. -/
def readQuoted : List Char → Option (List Char × List Char)
  | [] => none
  | '"' :: cs => some ([], cs)
  | '\\' :: 'u' :: a :: b :: c :: d :: cs => do
    let x ← Text.codedChar? [a, b, c, d]
    let (text, rest) ← readQuoted cs
    return (x :: text, rest)
  | '\\' :: 'U' :: a :: b :: c :: d :: e :: f :: g :: h :: cs => do
    let x ← Text.codedChar? [a, b, c, d, e, f, g, h]
    let (text, rest) ← readQuoted cs
    return (x :: text, rest)
  | '\\' :: c :: cs => do
    let x ← unescape? c
    let (text, rest) ← readQuoted cs
    return (x :: text, rest)
  | c :: cs => do
    let (text, rest) ← readQuoted cs
    if isPlain c then some (c :: text, rest) else none

/-- Reads a key: quoted, or letters, digits, underscores and dashes. -/
def readKey (cs : List Char) : Option (List Char × List Char) :=
  match cs with
  | '"' :: cs => readQuoted cs
  | cs =>
    let key := cs.takeWhile isKeyChar
    if key.isEmpty then none else some (key, cs.dropWhile isKeyChar)

mutual

/-- Reads a value and the blanks around it off the front of a text; the first argument bounds the
    steps. -/
def readValue : Nat → List Char → Option (Node × List Char)
  | 0, _ => none
  | fuel + 1, cs =>
    let found := match skipGap cs with
      | 't' :: 'r' :: 'u' :: 'e' :: cs => some (Node.flag true, cs)
      | 'f' :: 'a' :: 'l' :: 's' :: 'e' :: cs => some (.flag false, cs)
      | '{' :: cs => (readFields fuel [] cs).map fun (fields, rest) => (.group fields, rest)
      | '[' :: cs => (readItems fuel cs).map fun (items, rest) => (.list items, rest)
      | '"' :: cs => (readQuoted cs).map fun (text, rest) => (.text (String.ofList text), rest)
      | '\'' :: c :: '\'' :: cs => some (.text c.toString, cs)
      | '\'' :: _ => none
      | cs =>
        some (.text (String.ofList (Text.trim (cs.takeWhile (! isSeparator ·)))),
          cs.dropWhile (! isSeparator ·))
    found.map fun (node, rest) => (node, skipGap rest)

/-- Reads the fields of a group up to its closing brace, on top of those read before. -/
def readFields : Nat → Fields → List Char → Option (Fields × List Char)
  | 0, _, _ => none
  | _ + 1, fields, '}' :: cs => some (fields, cs)
  | fuel + 1, fields, cs => do
    let (key, rest) ← readKey (skipGap cs)
    match skipGap rest with
    | '=' :: rest =>
      let (value, rest) ← readValue fuel rest
      let fields := fields.set (String.ofList key) value
      match rest with
      | ',' :: rest => readFields fuel fields rest
      | '}' :: rest => return (fields, rest)
      | _ => none
    | _ => none

/-- Reads the items of a list up to its closing bracket. -/
def readItems : Nat → List Char → Option (List Node × List Char)
  | 0, _ => none
  | _ + 1, ']' :: cs => some ([], cs)
  | fuel + 1, cs => do
    let (item, rest) ← readValue fuel cs
    match rest with
    | ',' :: rest =>
      let (items, rest) ← readItems fuel rest
      return (item :: items, rest)
    | ']' :: rest => return ([item], rest)
    | _ => none

end

/-- The value of a variable. A text that cannot be read to its end stands for itself. -/
def value (s : String) : Node :=
  match readValue (2 * s.length + 2) s.toList with
  | some (node, []) => node
  | _ => .text s

/-- Two underscores become a point. -/
def pointed : List Char → List Char
  | '_' :: '_' :: cs => '.' :: pointed cs
  | c :: cs => c :: pointed cs
  | [] => []

/-- The path of keys that a variable sets; `none` when its name is not of the right form. -/
def path? (name : String) : Option (List String) :=
  let chars := Text.trim name.toList
  let lower := chars.map Char.toLower
  if nameStart.isPrefixOf lower then
    let keys := Text.parts (· == '.') (Text.trim (pointed (lower.drop nameStart.length)))
    if keys.any List.isEmpty then none else some (keys.map String.ofList)
  else none

/-- The layer that the variables of the environment make up. -/
def layer (env : Environment) : Node :=
  env.foldl (fun below (name, text) =>
    match path? name with
    | some path => below.merge (.nest path (value text))
    | none => below) (.group [])

end Environment

end Tariff.Config
