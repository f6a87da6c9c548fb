/-
  From the glyphs of a YAML text to its tokens. Indentation opens and closes blocks, and a colon turns
  what stands in front of it into a key, provided that it is on the line of the colon and no longer than
  1024 bytes.
-/
import Tariff.Config.Yaml.Token

namespace Tariff.Config.Yaml

/-- A place where a key may have started. -/
structure KeyStart where
  /-- The number of tokens in front of the place. -/
  tokens : Nat
  first : Glyph
  /-- Whether nothing but a key can stand there. -/
  required : Bool

/-- Whether a key can no longer end at a glyph. -/
def KeyStart.isOver (k : KeyStart) (g : Glyph) : Bool :=
  k.first.line < g.line || k.first.offset + 1024 < g.offset

/-- What has been read of a text. -/
structure Scan where
  /-- The tokens, from back to front. -/
  tokens : List Token := []
  /-- The number of tokens. -/
  count : Nat := 0
  /-- The columns of the open blocks, the innermost one first. -/
  blocks : List Nat := []
  /-- Where a key may have started in the innermost flow collection, or in the block around all. -/
  key : Option KeyStart := none
  /-- The same for what is around it. -/
  outer : List (Option KeyStart) := []
  /-- Whether a key may start with the next token. -/
  keyAllowed : Bool := true

namespace Scan

/-- Whether a flow collection is open. -/
def inFlow (s : Scan) : Bool := !s.outer.isEmpty

/-- The column where the content of the innermost block starts at least. -/
def margin (s : Scan) : Nat :=
  match s.blocks with
  | [] => 0
  | column :: _ => column + 1

def push (s : Scan) (t : Token) : Scan := { s with tokens := t :: s.tokens, count := s.count + 1 }

/-- Puts tokens behind the first `n` ones. -/
def insertAt (s : Scan) (n : Nat) (ts : List Token) : Scan :=
  let later := s.count - n
  { s with
    tokens := s.tokens.take later ++ ts.reverse ++ s.tokens.drop later
    count := s.count + ts.length }

def allowKey (s : Scan) (allowed : Bool) : Scan := { s with keyAllowed := allowed }

/-! ## Keys -/

/-- Gives up the place of a key; `none` when the key has to be there. -/
def dropKey (s : Scan) : Option Scan :=
  if s.key.any (·.required) then none else some { s with key := none }

/-- Takes note that a key may start with a glyph. -/
def noteKey (s : Scan) (g : Glyph) : Option Scan :=
  if s.keyAllowed then do
    let s ← s.dropKey
    let required := !s.inFlow && s.blocks.head? = some g.column
    some { s with key := some ⟨s.count, g, required⟩ }
  else some s

/-- Gives up the place of the innermost key if it is over at a glyph. Those around it wait until the
    flow collection has ended. -/
def dropOldKey (s : Scan) (g : Glyph) : Option Scan :=
  if s.key.any (·.isOver g) then s.dropKey else some s

/-! ## Blocks -/

/-- Whether a block starts in a column. -/
def opensBlock (s : Scan) (column : Nat) : Bool :=
  !s.inFlow && s.blocks.head?.all (· < column)

/-- Starts a block in a column, unless one has started there. -/
def openBlock (s : Scan) (column : Nat) (t : Token) : Scan :=
  if s.opensBlock column then { s.push t with blocks := column :: s.blocks } else s

/-- Ends the blocks that satisfy `p`, from the innermost one to the first that does not. -/
def closeBlocks (s : Scan) (p : Nat → Bool) : Scan :=
  if s.inFlow then s
  else
    let ended := (s.blocks.takeWhile p).foldl (fun s _ => s.push .blockEnd) s
    { ended with blocks := s.blocks.dropWhile p }

/-- Ends all blocks, and the last key with them. -/
def closeAll (s : Scan) : Option Scan := (s.closeBlocks fun _ => true).dropKey

/-! ## Tokens -/

/-- The start of a flow collection, which a key may start with. -/
def openFlow (s : Scan) (g : Glyph) (t : Token) : Option Scan := do
  let s ← s.noteKey g
  some { s.push t with key := none, outer := s.key :: s.outer, keyAllowed := true }

/-- The end of a flow collection. -/
def closeFlow (s : Scan) (t : Token) : Option Scan := do
  let s ← s.dropKey
  let s := s.push t
  match s.outer with
  | [] => some { s with keyAllowed := false }
  | key :: outer => some { s with key := key, outer := outer, keyAllowed := false }

def comma (s : Scan) : Option Scan := do
  let s ← s.dropKey
  some ((s.push .comma).allowKey true)

/-- A dash in front of an item. -/
def dash (s : Scan) (g : Glyph) : Option Scan :=
  if !s.inFlow && !s.keyAllowed then none
  else do
    let s ← (s.openBlock g.column .blockList).dropKey
    some ((s.push .dash).allowKey true)

/-- A question mark in front of a key. -/
def explicitKey (s : Scan) (g : Glyph) : Option Scan :=
  if !s.inFlow && !s.keyAllowed then none
  else do
    let s ← (s.openBlock g.column .blockMap).dropKey
    some ((s.push .key).allowKey !s.inFlow)

/-- A colon in front of a value. What may have been a key is one. -/
def colon (s : Scan) (g : Glyph) : Option Scan :=
  match s.key with
  | some k =>
    let column := k.first.column
    let s :=
      if s.opensBlock column then
        { s.insertAt k.tokens [.blockMap, .key] with blocks := column :: s.blocks }
      else s.insertAt k.tokens [.key]
    some { s.push .value with key := none, keyAllowed := false }
  | none =>
    if !s.inFlow && !s.keyAllowed then none
    else some (((s.openBlock g.column .blockMap).push .value).allowKey !s.inFlow)

/-- A marker of documents. -/
def marker (s : Scan) (t : Token) : Option Scan := do
  let s ← s.closeAll
  some ((s.push t).allowKey false)

/-- A token that a key may start with or be, read by `read` behind its first character. -/
def word (s : Scan) (g : Glyph) {α : Type} (read : Option (α × List Glyph)) (token : α → Token) :
    Option (Scan × List Glyph) := do
  let s ← s.noteKey g
  let (a, rest) ← read
  some ((s.push (token a)).allowKey false, rest)

/-- A plain scalar. When a break follows it a key may start next. -/
def plain (s : Scan) (g : Glyph) (gs : List Glyph) : Option (Scan × List Glyph) := do
  let s ← s.noteKey g
  let p ← readPlain s.inFlow s.margin [] [] (g :: gs)
  some ((s.push (.scalar p.text true)).allowKey p.broken, p.rest)

/-- A block scalar. -/
def block (s : Scan) (literal : Bool) (gs : List Glyph) : Option (Scan × List Glyph) := do
  let s ← s.dropKey
  let (text, rest) ← readBlock literal s.margin gs
  some ((s.push (.scalar text false)).allowKey true, rest)

/-- Reads the token that starts with a glyph. -/
def token (s : Scan) (g : Glyph) (gs : List Glyph) : Option (Scan × List Glyph) :=
  let mark (c : Char) : Bool := g.char = c && (s.inFlow || atGap gs)
  if g.column = 0 && g.char = '%' then do
    let s ← s.closeAll
    let (t, rest) ← readDirective gs
    some ((s.push t).allowKey false, rest)
  else if atMarker '-' (g :: gs) then (s.marker .documentStart).map (·, gs.drop 2)
  else if atMarker '.' (g :: gs) then (s.marker .documentEnd).map (·, gs.drop 2)
  else if g.char = '[' then (s.openFlow g .flowList).map (·, gs)
  else if g.char = '\x7b' then (s.openFlow g .flowMap).map (·, gs)
  else if g.char = ']' then (s.closeFlow .flowListEnd).map (·, gs)
  else if g.char = '\x7d' then (s.closeFlow .flowMapEnd).map (·, gs)
  else if g.char = ',' then s.comma.map (·, gs)
  else if g.char = '-' && atGap gs then (s.dash g).map (·, gs)
  else if mark '?' then (s.explicitKey g).map (·, gs)
  else if mark ':' then (s.colon g).map (·, gs)
  else if g.char = '*' then s.word g (readName gs) .reference
  else if g.char = '&' then s.word g (readName gs) .anchor
  else if g.char = '!' then s.word g (readTag s.inFlow gs) .tag
  else if g.char = '|' && !s.inFlow then s.block true gs
  else if g.char = '>' && !s.inFlow then s.block false gs
  else if g.char = '\'' then s.word g (readSingle [] [] gs) (.scalar · false)
  else if g.char = '"' then s.word g (readDouble [] false [] gs) (.scalar · false)
  else if startsPlain s.inFlow (g :: gs) then s.plain g gs
  else none

/-- Skips blanks, comments and breaks in front of a token; the flag tells whether a comment is open. A
    tab is no blank where a key may start, and a byte order mark is one at the start of a line. Behind a
    break a key may start, though in a flow collection that changes nothing. -/
def skipGap (s : Scan) (comment : Bool) : List Glyph → Scan × List Glyph
  | [] => (s, [])
  | g :: gs =>
    if isBreak g.char then (s.allowKey (s.keyAllowed || !s.inFlow)).skipGap false gs
    else if comment then s.skipGap true gs
    else if g.char = ' ' || (g.char = '\t' && (s.inFlow || !s.keyAllowed))
        || (g.char = '\uFEFF' && g.column = 0) then
      s.skipGap false gs
    else if g.char = '#' then s.skipGap true gs
    else (s, g :: gs)

/-- Reads all tokens, from back to front; the first argument bounds the steps. -/
def run : Nat → Scan → List Glyph → Option Scan
  | 0, _, _ => none
  | fuel + 1, s, gs =>
    match s.skipGap false gs with
    | (s, []) => s.closeAll
    | (s, g :: gs) => do
      let s ← s.dropOldKey g
      let (s, gs) ← (s.closeBlocks (g.column < ·)).token g gs
      run fuel s gs

end Scan

/-- The tokens of a text; `none` when the text cannot be parted into tokens. -/
def tokens? (gs : List Glyph) : Option (List Token) :=
  (Scan.run (gs.length + 1) {} gs).map fun s => s.tokens.reverse

end Tariff.Config.Yaml
