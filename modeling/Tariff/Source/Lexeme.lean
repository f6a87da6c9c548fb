/-
  From characters to tokens. A text is cut into pieces (`Lexeme`), blanks included, each with the
  characters it was written with; the place of a piece is what the characters before it lead to.
  Proved here: a piece is never empty, and the pieces in order, followed by what could not be read, are
  the text (`scan_spelling`).
-/
import Tariff.Source.Token

namespace Tariff.Source

/-- A piece of source text: a blank, or a token with its text and the characters it is written with. -/
inductive Lexeme
  | blank (c : Char)
  | token (kind : Token.Kind) (text : String) (spelling : List Char)

/-- The characters a piece is written with. -/
def Lexeme.spelling : Lexeme → List Char
  | .blank c => [c]
  | .token _ _ spelling => spelling

/-- Why no piece can be read, and the characters in question. -/
structure Obstacle where
  cause : SyntaxError.Cause
  text : String

/-- The punctuation marks. -/
def punctuation? : Char → Option Token.Kind
  | '.' => some .dot
  | ',' => some .comma
  | '(' => some .leftParen
  | ')' => some .rightParen
  | _ => none

/-- Blanks between tokens; a line break is a token. -/
def isGap (c : Char) : Bool := c = ' ' || c = '\t' || c = '\r'

def isWordStart (c : Char) : Bool := c.isAlpha || c = '_'

def isWordPart (c : Char) : Bool := c.isAlphanum || c = '_'

def isQuote (c : Char) : Bool := c = '\'' || c = '"'

/-- What a backslash followed by `c` stands for inside a quoted string. -/
def unescapeChar : Char → List Char
  | 'n' => ['\n']
  | 't' => ['\t']
  | '\\' => ['\\']
  | '\'' => ['\'']
  | '"' => ['"']
  | c => ['\\', c]

/-- The content of a quoted string, given what is written between its quotes. -/
def unescape : List Char → List Char
  | '\\' :: c :: cs => unescapeChar c ++ unescape cs
  | c :: cs => c :: unescape cs
  | [] => []

/-- What is written up to the closing quote, and what follows that quote; `none` when the line ends
    before the string does. A backslash takes the next character of its line with it. -/
def splitQuoted (quote : Char) : List Char → Option (List Char × List Char)
  | [] => none
  | '\\' :: c :: cs =>
    if c = '\n' then none
    else (splitQuoted quote cs).map fun (body, rest) => ('\\' :: c :: body, rest)
  | c :: cs =>
    if c = '\n' then none
    else if c = quote then some ([], cs)
    else (splitQuoted quote cs).map fun (body, rest) => (c :: body, rest)

/-- The longest `digits` or `digits.digits` in front, and what follows it. -/
def splitNumber (cs : List Char) : List Char × List Char :=
  match cs.dropWhile Char.isDigit with
  | '.' :: d :: ds =>
    if d.isDigit then
      (cs.takeWhile Char.isDigit ++ '.' :: d :: ds.takeWhile Char.isDigit, ds.dropWhile Char.isDigit)
    else (cs.takeWhile Char.isDigit, '.' :: d :: ds)
  | rest => (cs.takeWhile Char.isDigit, rest)

/-- The kind of a word: two words are literals, all others are names. -/
def wordKind (w : List Char) : Token.Kind :=
  if w = "true".toList then .yes else if w = "false".toList then .no else .ident

/-- The number that begins with `c`, and what follows it. -/
def readNumber (c : Char) (cs : List Char) : Lexeme × List Char :=
  let spelling := c :: (splitNumber cs).1
  (.token .number (String.ofList spelling) spelling, (splitNumber cs).2)

/-- The word that begins with `c`, and what follows it. -/
def readWord (c : Char) (cs : List Char) : Lexeme × List Char :=
  let word := c :: cs.takeWhile isWordPart
  (.token (wordKind word) (String.ofList word) word, cs.dropWhile isWordPart)

/-- The quoted string that `quote` opens, and what follows it. -/
def readQuoted (quote : Char) (cs : List Char) : Except Obstacle (Lexeme × List Char) :=
  match splitQuoted quote cs with
  | some (body, rest) =>
    .ok (.token .str (String.ofList (unescape body)) (quote :: body ++ [quote]), rest)
  | none => .error ⟨.unterminated, String.ofList (quote :: cs.takeWhile (· ≠ '\n'))⟩

/-- Whether a number begins with `c` when `cs` follows. -/
def startsNumber (c : Char) (cs : List Char) : Bool :=
  c.isDigit || (c = '-' && match cs with | d :: _ => d.isDigit | [] => false)

/-- The piece in front of the text `c :: cs`, and what follows it. -/
def readLexeme (c : Char) (cs : List Char) : Except Obstacle (Lexeme × List Char) :=
  if c = '\n' then .ok (.token .lineBreak "\\n" [c], cs)
  else if isGap c then .ok (.blank c, cs)
  else match punctuation? c with
    | some kind => .ok (.token kind (String.singleton c) [c], cs)
    | none =>
      if isQuote c then readQuoted c cs
      else if startsNumber c cs then .ok (readNumber c cs)
      else if isWordStart c then .ok (readWord c cs)
      else .error ⟨.unknown, String.singleton c⟩

theorem splitQuoted_append {quote : Char} {cs body rest : List Char}
    (h : splitQuoted quote cs = some (body, rest)) : body ++ quote :: rest = cs := by
  fun_induction splitQuoted quote cs generalizing body rest with
  | case1 => simp at h
  | case2 => simp at h
  | case3 c cs hc ih =>
    simp only [Option.map_eq_some_iff, Prod.exists, Prod.mk.injEq] at h
    obtain ⟨b, r, hs, rfl, rfl⟩ := h
    simp [ih hs]
  | case4 => simp at h
  | case5 =>
    simp only [Option.some.injEq, Prod.mk.injEq] at h
    simp [← h.1, ← h.2]
  | case6 c cs _ hn hc ih =>
    simp only [Option.map_eq_some_iff, Prod.exists, Prod.mk.injEq] at h
    obtain ⟨b, r, hs, rfl, rfl⟩ := h
    simp [ih hs]

theorem splitNumber_append (cs : List Char) : (splitNumber cs).1 ++ (splitNumber cs).2 = cs := by
  unfold splitNumber
  split
  · next d ds h =>
    split
    · conv => rhs; rw [← List.takeWhile_append_dropWhile (p := Char.isDigit) (l := cs), h]
      simp [List.takeWhile_append_dropWhile]
    · conv => rhs; rw [← List.takeWhile_append_dropWhile (p := Char.isDigit) (l := cs), h]
  · simp [List.takeWhile_append_dropWhile]

theorem readNumber_append (c : Char) (cs : List Char) :
    (readNumber c cs).1.spelling ++ (readNumber c cs).2 = c :: cs :=
  congrArg (c :: ·) (splitNumber_append cs)

theorem readWord_append (c : Char) (cs : List Char) :
    (readWord c cs).1.spelling ++ (readWord c cs).2 = c :: cs :=
  congrArg (c :: ·) List.takeWhile_append_dropWhile

theorem readQuoted_append {quote : Char} {cs : List Char} {piece : Lexeme} {rest : List Char}
    (h : readQuoted quote cs = .ok (piece, rest)) : piece.spelling ++ rest = quote :: cs := by
  unfold readQuoted at h
  split at h
  · next body r hs =>
    cases h
    simp [Lexeme.spelling, splitQuoted_append hs]
  · cases h

/-- A piece and what follows it are the text it was read from. -/
theorem readLexeme_append {c : Char} {cs : List Char} {piece : Lexeme} {rest : List Char}
    (h : readLexeme c cs = .ok (piece, rest)) : piece.spelling ++ rest = c :: cs := by
  unfold readLexeme at h
  repeat' split at h
  · cases h; rfl
  · cases h; rfl
  · cases h; rfl
  · exact readQuoted_append h
  · have e := Except.ok.inj h
    have := readNumber_append c cs
    rwa [e] at this
  · have e := Except.ok.inj h
    have := readWord_append c cs
    rwa [e] at this
  · cases h

/-- A piece is never empty. -/
theorem readLexeme_spelling_ne_nil {c : Char} {cs : List Char} {piece : Lexeme} {rest : List Char}
    (h : readLexeme c cs = .ok (piece, rest)) : piece.spelling ≠ [] := by
  unfold readLexeme at h
  repeat' split at h
  · cases h; exact List.cons_ne_nil _ _
  · cases h; exact List.cons_ne_nil _ _
  · cases h; exact List.cons_ne_nil _ _
  · unfold readQuoted at h
    split at h
    · cases h; exact List.cons_ne_nil _ _
    · cases h
  · cases h; exact List.cons_ne_nil _ _
  · cases h; exact List.cons_ne_nil _ _
  · cases h

theorem readLexeme_length {c : Char} {cs : List Char} {piece : Lexeme} {rest : List Char}
    (h : readLexeme c cs = .ok (piece, rest)) : rest.length < (c :: cs).length := by
  have hpos := List.length_pos_iff.mpr (readLexeme_spelling_ne_nil h)
  rw [← readLexeme_append h, List.length_append]
  omega

/-- A text cut into pieces as far as they can be read, with the obstacle if there is one. -/
structure Scan where
  pieces : List Lexeme
  obstacle : Option Obstacle

/-- Cuts a text into pieces. -/
def scan : List Char → Scan
  | [] => ⟨[], none⟩
  | c :: cs =>
    match h : readLexeme c cs with
    | .error obstacle => ⟨[], some obstacle⟩
    | .ok (piece, rest) =>
      have := readLexeme_length h
      let tail := scan rest
      ⟨piece :: tail.pieces, tail.obstacle⟩
termination_by cs => cs.length
decreasing_by assumption

/-- The tokens among pieces that begin at `p`, each with its place. -/
def place (p : Pos) : List Lexeme → List Token
  | [] => []
  | .blank c :: ps => place (p.next c) ps
  | .token kind text spelling :: ps => ⟨kind, text, p⟩ :: place (p.after spelling) ps

/-- The characters of pieces in order. -/
def spellings (ps : List Lexeme) : List Char := ps.flatMap Lexeme.spelling

/-- The tokens of a text; the last one marks its end. -/
def lex (cs : List Char) : Except SyntaxError (List Token) :=
  let s := scan cs
  let stop := Pos.start.after (spellings s.pieces)
  match s.obstacle with
  | some o => .error ⟨o.cause, o.text, stop⟩
  | none => .ok (place .start s.pieces ++ [.finishAt stop])

/-- The pieces of a text make up its front, and the whole of it when nothing stood in the way. -/
theorem scan_spelling (cs : List Char) :
    ∃ rest, spellings (scan cs).pieces ++ rest = cs ∧ ((scan cs).obstacle = none ↔ rest = []) := by
  fun_induction scan cs with
  | case1 => exact ⟨[], rfl, by simp⟩
  | case2 c cs o h => exact ⟨c :: cs, rfl, by simp⟩
  | case3 c cs piece rest h _ tail ih =>
    obtain ⟨r, hr, hiff⟩ := ih
    refine ⟨r, ?_, hiff⟩
    rw [← readLexeme_append h, ← hr]
    simp [spellings, tail]

end Tariff.Source
