/-
  The texts of scalars. Plain and quoted scalars may go on over several lines, and a run of blanks and
  breaks between two words is folded. Block scalars hold whole lines, folded or as they are. Every reader
  gives the text and what follows it.
-/
import Tariff.Config.Yaml.Glyph
import Tariff.Text.Numeral

namespace Tariff.Config.Yaml

/-- What a run of blanks and breaks between two words stands for. Without a break it is kept. A line
    feed alone becomes a space, and goes when more breaks follow; blanks around breaks go. -/
def folded (gap : List Char) : List Char :=
  match gap.filter isBreak with
  | [] => gap
  | ['\n'] => [' ']
  | '\n' :: more => more
  | breaks => breaks

/-! ## Quoted scalars -/

/-- Reads a scalar in single quotes behind its opening quote; a doubled quote stands for one. The words
    so far and the gap behind them are given from back to front. -/
def readSingle (words gap : List Char) : List Glyph → Option (List Char × List Glyph)
  | [] => none
  | g :: gs =>
    if isGap g.char then readSingle words (g.char :: gap) gs
    else if atDocumentEdge (g :: gs) then none
    else
      let words := (folded gap.reverse).reverse ++ words
      if g.char != '\'' then readSingle (g.char :: words) [] gs
      else
        match gs with
        | h :: hs =>
          if h.char = '\'' then readSingle ('\'' :: words) [] hs else some (words.reverse, h :: hs)
        | [] => some (words.reverse, [])

/-- What a backslash and a character stand for between double quotes. -/
def unescape? : Char → Option Char
  | '0' => some '\x00'
  | 'a' => some '\x07'
  | 'b' => some '\x08'
  | 't' => some '\t'
  | '\t' => some '\t'
  | 'n' => some '\n'
  | 'v' => some '\x0b'
  | 'f' => some '\x0c'
  | 'r' => some '\r'
  | 'e' => some '\x1b'
  | ' ' => some ' '
  | '"' => some '"'
  | '/' => some '/'
  | '\\' => some '\\'
  | 'N' => some '\u0085'
  | '_' => some '\u00A0'
  | 'L' => some '\u2028'
  | 'P' => some '\u2029'
  | _ => none

/-- The character with a number in hexadecimal digits. -/
def coded? (gs : List Glyph) : Option Char := Text.codedChar? (gs.map Glyph.char)

/-- Reads a scalar in double quotes behind its opening quote. An escaped break joins two lines: then
    `joined` is set, and of the gap behind it only further breaks stay. -/
def readDouble (words : List Char) (joined : Bool) (gap : List Char) :
    List Glyph → Option (List Char × List Glyph)
  | [] => none
  | g :: gs =>
    if isGap g.char then readDouble words joined (g.char :: gap) gs
    else if atDocumentEdge (g :: gs) then none
    else
      let inner := if joined then gap.reverse.filter isBreak else folded gap.reverse
      let words := inner.reverse ++ words
      if g.char = '"' then some (words.reverse, gs)
      else if g.char != '\\' then readDouble (g.char :: words) false [] gs
      else
        match gs with
        | [] => none
        | h :: hs =>
          if isBreak h.char then readDouble words true [] hs
          else
            match h.char, hs with
            | 'x', a :: b :: hs =>
              (coded? [a, b]).bind fun c => readDouble (c :: words) false [] hs
            | 'u', a :: b :: c :: d :: hs =>
              (coded? [a, b, c, d]).bind fun c => readDouble (c :: words) false [] hs
            | 'U', a :: b :: c :: d :: e :: f :: i :: j :: hs =>
              (coded? [a, b, c, d, e, f, i, j]).bind fun c => readDouble (c :: words) false [] hs
            | x, hs => (unescape? x).bind fun c => readDouble (c :: words) false [] hs

/-! ## Plain scalars -/

/-- Characters that end a plain scalar inside a flow collection. -/
def isFlowMark (c : Char) : Bool := c = ',' || c = '[' || c = ']' || c = '\x7b' || c = '\x7d'

/-- Characters that no plain scalar starts with. -/
def isIndicator (c : Char) : Bool :=
  isFlowMark c || ['#', '&', '*', '!', '|', '>', '\'', '"', '%', '@', '\x60'].contains c

/-- Whether a plain scalar may start here. A dash, a question mark or a colon needs more behind it. -/
def startsPlain (inFlow : Bool) : List Glyph → Bool
  | [] => false
  | g :: gs =>
    if g.char = '-' then !nextIs isBlank gs
    else if g.char = '?' || g.char = ':' then !inFlow && !atGap gs
    else !isGap g.char && !isIndicator g.char

/-- Whether a plain scalar ends in front of a glyph. -/
def endsPlain (inFlow : Bool) : List Glyph → Bool
  | [] => true
  | g :: gs => (g.char = ':' && atGap gs) || (inFlow && isFlowMark g.char)

/-- A plain scalar as it was read. -/
structure Plain where
  text : List Char
  /-- Whether the gap behind the scalar, which belongs to it, has a break. -/
  broken : Bool
  rest : List Glyph

/-- Reads a plain scalar. A line of it stands in column `margin` or to the right, and behind a gap no
    comment and no edge of a document belongs to it. The words so far and the gap behind them are given
    from back to front. -/
def readPlain (inFlow : Bool) (margin : Nat) (words gap : List Char) : List Glyph → Option Plain
  | [] => some ⟨words.reverse, gap.any isBreak, []⟩
  | g :: gs =>
    let outside := g.column < margin && gap.any isBreak
    if isGap g.char then
      if g.char = '\t' && outside then none else readPlain inFlow margin words (g.char :: gap) gs
    else if endsPlain inFlow (g :: gs) || (!gap.isEmpty && g.char = '#') || (!inFlow && outside)
        || atDocumentEdge (g :: gs) then
      some ⟨words.reverse, gap.any isBreak, g :: gs⟩
    else if inFlow && g.char = ':' && nextIs (fun c => c = '?' || isFlowMark c) gs then none
    else readPlain inFlow margin (g.char :: ((folded gap.reverse).reverse ++ words)) [] gs

/-! ## Block scalars -/

/-- What becomes of the breaks at the end of a block scalar. -/
inductive Chomp
  | strip
  | clip
  | keep
deriving DecidableEq

/-- Reads the indicator of what becomes of the breaks at the end. -/
def readChomp (gs : List Glyph) : Chomp × List Glyph :=
  match gs with
  | g :: rest =>
    if g.char = '-' then (.strip, rest) else if g.char = '+' then (.keep, rest) else (.clip, gs)
  | [] => (.clip, [])

/-- Reads the indicator of the indentation, a digit but not zero; without one the number is zero. -/
def readIndent (gs : List Glyph) : Option (Nat × List Glyph) :=
  match gs with
  | g :: rest =>
    if g.char = '0' then none
    else if g.char.isDigit then some (g.char.toNat - '0'.toNat, rest)
    else some (0, gs)
  | [] => some (0, [])

/-- Reads the two indicators, in whatever order. -/
def readHeader (gs : List Glyph) : Option (Chomp × Nat × List Glyph) :=
  match readChomp gs with
  | (.clip, gs) => (readIndent gs).map fun (indent, gs) =>
      if indent = 0 then (.clip, 0, gs) else ((readChomp gs).1, indent, (readChomp gs).2)
  | (chomp, gs) => (readIndent gs).map fun (indent, gs) => (chomp, indent, gs)

/-- Reads the indentation of the next line and the empty lines in front of it. The indentation is zero
    as long as it is not known. The second part is the rightmost column that was met. -/
def readMargin (indent deepest : Nat) : List Glyph → Option (List Char × Nat × List Glyph)
  | [] => some ([], deepest, [])
  | g :: gs =>
    let deepest := max deepest g.column
    let inside := indent = 0 || g.column < indent
    if g.char = ' ' && inside then readMargin indent deepest gs
    else if g.char = '\t' && inside then none
    else if isBreak g.char then
      (readMargin indent deepest gs).map fun (breaks, met, rest) => (g.char :: breaks, met, rest)
    else some ([], deepest, g :: gs)

/-- The text of a block scalar while it is read, from back to front. -/
structure Lines where
  text : List Char := []
  /-- The break that ends the last line, if any. -/
  ending : List Char := []
  /-- The breaks of the empty lines behind it. -/
  empty : List Char
  /-- Whether the last line starts with a blank. -/
  indented : Bool := false

/-- Adds a line. A line feed between two lines that start with no blank is folded. -/
def Lines.push (literal : Bool) (b : Lines) (line : List Char) : List Char :=
  let indented := line.head?.any isBlank
  let between :=
    if !literal && b.ending = ['\n'] && !b.indented && !indented then
      if b.empty.isEmpty then [' '] else b.empty
    else b.ending ++ b.empty
  line.reverse ++ between.reverse ++ b.text

/-- Reads the lines of a block scalar, which start in column `indent`; the first argument bounds the
    steps. -/
def readLines (literal : Bool) (indent : Nat) :
    Nat → Lines → List Glyph → Option (Lines × List Glyph)
  | 0, _, _ => none
  | fuel + 1, b, gs =>
    match gs with
    | [] => some (b, [])
    | g :: _ =>
      if g.column != indent then some (b, gs)
      else
        let line := textWhile (! isBreak ·) gs
        let behind := skipWhile (! isBreak ·) gs
        match readMargin indent 0 (behind.drop 1) with
        | none => none
        | some (empty, _, rest) =>
          let b := {
            text := b.push literal line
            ending := (behind.take 1).map Glyph.char
            empty := empty
            indented := line.head?.any isBlank }
          readLines literal indent fuel b rest

/-- Reads a block scalar behind its indicator, inside a block whose content starts in column `margin`
    at least. Without an indicator of its indentation the first line that is not empty gives it. -/
def readBlock (literal : Bool) (margin : Nat) (gs : List Glyph) :
    Option (List Char × List Glyph) := do
  let (chomp, given, gs) ← readHeader gs
  let gs ← nextLine? gs
  let fixed := if given = 0 then 0 else margin - 1 + given
  let (empty, deepest, gs) ← readMargin fixed 0 gs
  let indent := if fixed = 0 then max deepest (max margin 1) else fixed
  let (b, rest) ← readLines literal indent (gs.length + 1) ⟨[], [], empty, false⟩ gs
  let tail := match chomp with
    | .strip => []
    | .clip => b.ending
    | .keep => b.ending ++ b.empty
  return (b.text.reverse ++ tail, rest)

end Tariff.Config.Yaml
