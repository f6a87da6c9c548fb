/-
  The tokens of a YAML text, and the words that some of them are made of: the names of anchors, tags, and
  the directives in front of a document. Every reader gives what follows the word.
-/
import Tariff.Config.Yaml.Scalar

namespace Tariff.Config.Yaml

/-- Octets of a tag, which need not be those of a text. -/
abbrev Octets := List UInt8

/-- The octets of a text of ASCII. -/
def asciiOctets (cs : List Char) : Octets := cs.map Char.toUInt8

/-- A tag as it stands in a text: its handle, which is empty when the tag is complete, and the rest. -/
structure Tag where
  handle : List Char
  suffix : Octets
deriving DecidableEq

inductive Token
  /-- The directive that tells the version. -/
  | version (major minor : Nat)
  /-- The directive that tells what a handle stands for. -/
  | handle (handle : List Char) (meaning : Octets)
  | documentStart
  | documentEnd
  /-- The start of a block list or map, which no character shows. -/
  | blockList
  | blockMap
  | blockEnd
  | flowList
  | flowListEnd
  | flowMap
  | flowMapEnd
  /-- The dash in front of an item of a block list. -/
  | dash
  | comma
  /-- The start of a key, with a question mark or without. -/
  | key
  /-- The colon in front of a value. -/
  | value
  | reference (name : List Char)
  | anchor (name : List Char)
  | tag (t : Tag)
  | scalar (text : List Char) (plain : Bool)
deriving DecidableEq

/-- Characters of names and handles. -/
def isWordChar (c : Char) : Bool := c.isAlphanum || c = '_' || c = '-'

/-- Reads the name of an anchor behind its indicator. -/
def readName (gs : List Glyph) : Option (List Char × List Glyph) :=
  let name := textWhile isWordChar gs
  let rest := skipWhile isWordChar gs
  let ends := atGap rest || nextIs ['?', ':', ',', ']', '\x7d', '%', '@', '\x60'].contains rest
  if !name.isEmpty && ends then some (name, rest) else none

/-! ## Tags -/

/-- Characters of tags; some stand only in a tag between angle brackets. -/
def isTagChar (bracketed : Bool) (c : Char) : Bool :=
  isWordChar c || ";/?:@&=+$.!~*'()".toList.contains c || (bracketed && [',', '[', ']'].contains c)

/-- How many more octets the sequence of an octet has; `none` for one that starts no sequence. -/
def octetsBehind? (octet : Nat) : Option Nat :=
  if octet < 0x80 then some 0
  else if octet < 0xC0 then none
  else if octet < 0xE0 then some 1
  else if octet < 0xF0 then some 2
  else if octet < 0xF8 then some 3
  else none

/-- Reads characters of a tag. A percent sign stands in front of an octet, and `behind` octets have to
    follow. -/
def readOctets (bracketed : Bool) (behind : Nat) : List Glyph → Option (Octets × List Glyph)
  | [] => if behind = 0 then some ([], []) else none
  | g :: gs =>
    if g.char = '%' then
      match gs with
      | a :: b :: gs => do
        let octet ← Text.natural? 16 [a.char, b.char]
        let behind ←
          if behind = 0 then octetsBehind? octet
          else if 0x80 ≤ octet && octet < 0xC0 then some (behind - 1)
          else none
        let (octets, rest) ← readOctets bracketed behind gs
        some (octet.toUInt8 :: octets, rest)
      | _ => none
    else if behind != 0 then none
    else if isTagChar bracketed g.char then
      (readOctets bracketed 0 gs).map fun (octets, rest) => (g.char.toUInt8 :: octets, rest)
    else some ([], g :: gs)

/-- The octets that count: those in front of a zero. -/
def Octets.counted (os : Octets) : Octets := os.takeWhile (· != 0)

/-- Reads characters of a tag, of which there has to be one. -/
def readSomeOctets (bracketed : Bool) (gs : List Glyph) : Option (Octets × List Glyph) := do
  let (octets, rest) ← readOctets bracketed 0 gs
  if octets.isEmpty then none else some (octets.counted, rest)

/-- Reads a tag behind its exclamation mark. -/
def readTagBody (gs : List Glyph) : Option (Tag × List Glyph) :=
  if nextIs (· = '<') gs then do
    let (suffix, rest) ← readSomeOctets true (gs.drop 1)
    if nextIs (· = '>') rest then some (⟨[], suffix⟩, rest.drop 1) else none
  else
    let word := textWhile isWordChar gs
    let rest := skipWhile isWordChar gs
    if nextIs (· = '!') rest then do
      let (suffix, rest) ← readSomeOctets false (rest.drop 1)
      some (⟨'!' :: word ++ ['!'], suffix⟩, rest)
    else do
      let (octets, rest) ← readOctets false 0 gs
      let suffix := octets.counted
      some (if suffix.isEmpty then ⟨[], asciiOctets ['!']⟩ else ⟨['!'], suffix⟩, rest)

/-- Reads a tag behind its exclamation mark, with the gap or the comma that has to follow. -/
def readTag (inFlow : Bool) (gs : List Glyph) : Option (Tag × List Glyph) :=
  (readTagBody gs).filter fun (_, rest) => atGap rest || (inFlow && nextIs (· = ',') rest)

/-! ## Directives -/

/-- Reads a number of a version, of nine digits at most. -/
def readNumber (gs : List Glyph) : Option (Nat × List Glyph) :=
  let digits := textWhile Char.isDigit gs
  if digits.isEmpty || 9 < digits.length then none
  else some (Nat.ofDigitChars 10 digits 0, skipWhile Char.isDigit gs)

/-- Reads the two numbers of a version with a point between them. -/
def readVersion (gs : List Glyph) : Option (Token × List Glyph) := do
  let (major, rest) ← readNumber gs
  if nextIs (· = '.') rest then
    let (minor, rest) ← readNumber (rest.drop 1)
    some (.version major minor, rest)
  else none

/-- Reads a handle and, behind blanks, what it stands for. -/
def readHandle (gs : List Glyph) : Option (Token × List Glyph) :=
  if !nextIs (· = '!') gs then none
  else
    let word := textWhile isWordChar (gs.drop 1)
    let behind := skipWhile isWordChar (gs.drop 1)
    let closed := nextIs (· = '!') behind
    let handle := '!' :: word ++ if closed then ['!'] else []
    let behind := if closed then behind.drop 1 else behind
    if (!closed && !word.isEmpty) || !nextIs isBlank behind then none
    else do
      let (meaning, rest) ← readSomeOctets true (skipWhile isBlank behind)
      if atGap rest then some (.handle handle meaning, rest) else none

/-- Reads a directive behind its percent sign, and the rest of its line. -/
def readDirective (gs : List Glyph) : Option (Token × List Glyph) := do
  let name := String.ofList (textWhile isWordChar gs)
  let rest := skipWhile isWordChar gs
  if !atGap rest then none
  else
    let arguments := skipWhile isBlank rest
    let (token, rest) ←
      if name = "YAML" then readVersion arguments
      else if name = "TAG" then readHandle arguments
      else none
    (nextLine? rest).map fun rest => (token, rest)

end Tariff.Config.Yaml
