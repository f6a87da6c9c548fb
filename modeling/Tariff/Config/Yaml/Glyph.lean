/-
  The characters of a YAML text with the places where they stand. Breaks of lines are brought to one
  form first, and a text with a character that YAML bars has no glyphs.
-/
namespace Tariff.Config.Yaml

/-- Characters that a text may hold, in whatever place. -/
def isAllowed (c : Char) : Bool :=
  c = '\t' || c = '\n' || c = '\r' || c = '\u0085' || (' ' ≤ c && c ≤ '~')
    || ('\u00A0' ≤ c && c != '\uFFFE' && c != '\uFFFF')

/-- Breaks of lines, once they are uniform. -/
def isBreak (c : Char) : Bool := c = '\n' || c = '\u2028' || c = '\u2029'

/-- Blanks inside a line. -/
def isBlank (c : Char) : Bool := c = ' ' || c = '\t'

/-- Blanks and breaks, which part the words of a text. -/
def isGap (c : Char) : Bool := isBlank c || isBreak c

/-- A carriage return, alone or in front of a line feed, and a next line control become a line feed.
    The separators of lines and paragraphs stay what they are. -/
def uniform : List Char → List Char
  | '\r' :: '\n' :: cs => '\n' :: uniform cs
  | '\r' :: cs => '\n' :: uniform cs
  | '\u0085' :: cs => '\n' :: uniform cs
  | c :: cs => c :: uniform cs
  | [] => []

/-- A character with its place: its line, its column, and the bytes in front of it in the line. -/
structure Glyph where
  char : Char
  line : Nat
  column : Nat
  offset : Nat
deriving Inhabited

namespace Glyph

/-- The characters with their places, the first of which is given. -/
def ofCharsAt (line column offset : Nat) : List Char → List Glyph
  | [] => []
  | c :: cs =>
    ⟨c, line, column, offset⟩ ::
      if isBreak c then ofCharsAt (line + 1) 0 0 cs
      else ofCharsAt line (column + 1) (offset + c.utf8Size) cs

/-- The glyphs of a text; `none` when it holds a character that it may not. -/
def ofChars? (cs : List Char) : Option (List Glyph) :=
  if cs.all isAllowed then some (ofCharsAt 0 0 0 (uniform cs)) else none

end Glyph

/-- The characters in front that satisfy `p`. -/
def textWhile (p : Char → Bool) (gs : List Glyph) : List Char :=
  (gs.takeWhile (p ·.char)).map Glyph.char

/-- The glyphs behind the characters in front that satisfy `p`. -/
def skipWhile (p : Char → Bool) (gs : List Glyph) : List Glyph := gs.dropWhile (p ·.char)

/-- Whether the next character satisfies `p`. -/
def nextIs (p : Char → Bool) (gs : List Glyph) : Bool := gs.head?.any (p ·.char)

/-- Whether a text is at its end or goes on with a blank or a break. -/
def atGap (gs : List Glyph) : Bool := gs.isEmpty || nextIs isGap gs

/-- Whether a text is at its end or at the end of a line. -/
def atLineEnd (gs : List Glyph) : Bool := gs.isEmpty || nextIs isBreak gs

/-- Whether a line starts here with a marker of documents: three times one character, and a gap. -/
def atMarker (c : Char) : List Glyph → Bool
  | x :: y :: z :: gs => x.column = 0 && x.char = c && y.char = c && z.char = c && atGap gs
  | _ => false

/-- Whether a document starts or ends here. -/
def atDocumentEdge (gs : List Glyph) : Bool := atMarker '-' gs || atMarker '.' gs

/-- The start of the next line, behind blanks and a comment; `none` when the line holds more. -/
def nextLine? (gs : List Glyph) : Option (List Glyph) :=
  let gs := skipWhile isBlank gs
  let gs := if nextIs (· = '#') gs then skipWhile (! isBreak ·) gs else gs
  if atLineEnd gs then some (gs.drop 1) else none

end Tariff.Config.Yaml
