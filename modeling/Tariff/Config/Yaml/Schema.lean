/-
  The values of scalars, and the keys in local tags. A plain scalar without a tag can be nothing or a flag,
  and else is its text. A core tag may ask for nothing, a flag, an integer or a float, and then the text has
  to be one. A local tag, which starts with an exclamation mark, leaves the value as it is and puts it under
  the keys that its name spells.
-/
import Tariff.Config.Node
import Tariff.Config.Yaml.Token
import Tariff.Text.Blank

namespace Tariff.Config.Yaml

-- Powers of numbers are the core library's, whatever else is imported.
attribute [local instance (high)] instPowNat

def isNullText (s : String) : Bool := ["~", "null", "Null", "NULL"].contains s

def flagOfText? (s : String) : Option Bool :=
  if ["true", "True", "TRUE"].contains s then some true
  else if ["false", "False", "FALSE"].contains s then some false
  else none

/-! ## Numbers -/

/-- The base that a number without its sign is written in, and its digits. -/
def splitBase : List Char → Nat × List Char
  | '0' :: 'x' :: cs => (16, cs)
  | '0' :: 'o' :: cs => (8, cs)
  | '0' :: 'b' :: cs => (2, cs)
  | cs => (10, cs)

/-- Reads an integer, without zeros in front of decimal digits: whether it has a minus sign, and its
    size. -/
def integer? (cs : List Char) : Option (Bool × Nat) :=
  let (negative, body) := Text.splitSign cs
  let (base, digits) := splitBase body
  let padded := base = 10 && digits.head? = some '0' && 1 < digits.length
  if padded then none else (Text.natural? base digits).map (negative, ·)

/-- Whether a text is an integer from `-2 ^ 127` and below `2 ^ 128`. -/
def isInteger (cs : List Char) : Bool :=
  (integer? cs).any fun (negative, n) =>
    if negative then n ≤ 2 ^ (127 : Nat) else n < 2 ^ (128 : Nat)

/-- Whether a text is an integer without a minus sign and below `2 ^ 64`. -/
def isCount (cs : List Char) : Bool :=
  (integer? cs).any fun (negative, n) => !negative && n < 2 ^ (64 : Nat)

/-- Whether `digits * 10 ^ (tens - down)` is less than `2 ^ 1024 - 2 ^ 970`, and so has a nearest number
    among the floats of 64 bits. -/
def isInRange (digits : List Char) (tens down : Nat) : Bool :=
  let n := Text.digitsValue digits
  let places := digits.length + tens
  let limit := 2 ^ (1024 : Nat) - 2 ^ (970 : Nat)
  if n = 0 || places < 309 + down then true
  else if 309 + down < places then false
  else n * 10 ^ tens < limit * 10 ^ down

/-- The exponent of ten at the end of a float: its sign and digits. -/
def exponent? : List Char → Option (Bool × List Char)
  | [] => some (false, ['0'])
  | c :: cs =>
    let (negative, digits) := Text.splitSign cs
    if (c = 'e' || c = 'E') && Text.isDigits digits then some (negative, digits) else none

/-- Whether a text is a float in decimal digits, with a point and an exponent or without. -/
def isDecimalFloat (cs : List Char) : Bool :=
  let whole := cs.takeWhile Char.isDigit
  let behind := cs.dropWhile Char.isDigit
  let (part, behind) := match behind with
    | '.' :: cs => (cs.takeWhile Char.isDigit, cs.dropWhile Char.isDigit)
    | cs => ([], cs)
  let digits := (whole ++ part).dropWhile (· = '0')
  !(whole.isEmpty && part.isEmpty) && (exponent? behind).any fun (negative, exponent) =>
    let n := Text.digitsValue exponent
    if negative then isInRange digits 0 (part.length + n)
    else isInRange digits n part.length

/-- Whether a text is a float: a finite one, or one of the names for infinity and no number. -/
def isFloat (cs : List Char) : Bool :=
  let body := (Text.splitSign cs).2
  [".inf", ".Inf", ".INF"].contains (String.ofList body)
    || [".nan", ".NaN", ".NAN"].contains (String.ofList cs) || isDecimalFloat body

/-! ## Tags -/

/-- The text of a tag; there is none when its octets are not UTF-8. -/
def Octets.text? (tag : Octets) : Option String := String.fromUTF8? tag.toByteArray

/-- Whether a tag is local, whatever its name. -/
def Octets.isLocal (tag : Octets) : Bool := tag.head? = some '!'.toUInt8

/-- The name in a local tag: what follows its exclamation mark, and the mark itself if nothing does. -/
def Octets.localName? (tag : Octets) : Option String :=
  if tag.isLocal then
    tag.text?.map fun name => if name = "!" then name else String.ofList (name.toList.drop 1)
  else none

/-- The keys that the name in a local tag spells: its parts between points, up to an empty one. -/
def keysOfName (name : String) : List String :=
  ((Text.parts (· == '.') name.toList).takeWhile (! ·.isEmpty)).map String.ofList

/-! ## Scalars -/

/-- What the text of a scalar may be. -/
inductive ScalarType
  /-- Nothing, a flag or a text, as it looks. -/
  | plain
  | text
  | flag
  | integer
  | float
  | nothing
deriving DecidableEq

/-- The types that core tags ask for. -/
def coreTypes : List (String × ScalarType) :=
  [("tag:yaml.org,2002:bool", .flag), ("tag:yaml.org,2002:int", .integer),
   ("tag:yaml.org,2002:float", .float), ("tag:yaml.org,2002:null", .nothing)]

/-- The type of a scalar by its tag and by whether it is plain. -/
def ScalarType.of (tag : Option Octets) (plain : Bool) : ScalarType :=
  let own := if plain then .plain else .text
  match tag with
  | none => own
  | some tag => if tag.isLocal then own else (tag.text?.bind fun name => coreTypes.lookup name).getD .text

/-- The value of a plain scalar without a tag. -/
def ofPlain (s : String) : Node :=
  if s = "" || isNullText s then .nothing
  else
    match flagOfText? s with
    | some b => .flag b
    | none => .text s

/-- The value of a scalar of a type, `none` when its text is not of the type. -/
def ScalarType.value? (s : String) : ScalarType → Option Node
  | .plain => some (ofPlain s)
  | .text => some (.text s)
  | .flag => (flagOfText? s).map .flag
  | .integer => if isInteger s.toList then some (.text s) else none
  | .float => if isFloat s.toList then some (.text s) else none
  | .nothing => if isNullText s then some .nothing else none

/-- Whether a scalar of a type is a count. -/
def ScalarType.isCount (cs : List Char) : ScalarType → Bool
  | .plain => Yaml.isCount cs
  | .integer => Yaml.isCount cs
  | _ => false

end Tariff.Config.Yaml
