/-
  Writing chains. A chain is written as its head and its calls, each with one text in single quotes in
  which backslashes, single quotes and line breaks are escaped. What is written so is one content line,
  and it is read as just that chain (`parseStatement_chainChars`), whatever the texts are.
-/
import Tariff.Proofs.Source.LineStatements
import Tariff.Proofs.Text.Digits

namespace Tariff.Source

/-! ## Quoted texts -/

/-- How a character is written between single quotes. -/
def escapeChar : Char → List Char
  | '\\' => ['\\', '\\']
  | '\'' => ['\\', '\'']
  | '\n' => ['\\', 'n']
  | c => [c]

/-- How a text is written between single quotes. -/
def escape (cs : List Char) : List Char := cs.flatMap escapeChar

/-- A character that is written as itself. -/
def Plain (c : Char) : Prop := c ≠ '\\' ∧ c ≠ '\'' ∧ c ≠ '\n'

instance (c : Char) : Decidable (Plain c) := inferInstanceAs (Decidable (_ ∧ _ ∧ _))

/-- How a character is written between quotes of one kind. -/
def escapeCharIn (quote c : Char) : List Char :=
  if c = '\n' then ['\\', 'n'] else if c = '\\' ∨ c = quote then ['\\', c] else [c]

/-- How a text is written between quotes of one kind. -/
def escapeIn (quote : Char) (cs : List Char) : List Char := cs.flatMap (escapeCharIn quote)

theorem escapeIn_cons (quote c : Char) (cs : List Char) :
    escapeIn quote (c :: cs) = escapeCharIn quote c ++ escapeIn quote cs := List.flatMap_cons

theorem escape_eq_escapeIn (cs : List Char) : escape cs = escapeIn '\'' cs := by
  refine congrArg cs.flatMap (funext fun c => ?_)
  unfold escapeChar escapeCharIn
  split <;> simp_all

theorem escape_cons (c : Char) (cs : List Char) : escape (c :: cs) = escapeChar c ++ escape cs :=
  List.flatMap_cons

theorem escape_eq_self {cs : List Char} (h : ∀ c ∈ cs, Plain c) : escape cs = cs := by
  induction cs with
  | nil => rfl
  | cons c cs ih =>
    obtain ⟨hslash, hquote, hbreak⟩ := h c (List.mem_cons_self ..)
    rw [escape_cons, escapeChar.eq_4 c hslash hquote hbreak,
      ih fun d hd => h d (List.mem_cons_of_mem _ hd)]
    rfl

theorem unescape_cons {c : Char} (h : c ≠ '\\') (cs : List Char) :
    unescape (c :: cs) = c :: unescape cs := by
  rw [unescape.eq_2 c cs]
  rintro _ _ rfl
  exact absurd rfl h

section

variable {quote : Char}

/-- A character is written as itself, or as a backslash and a character that together stand for it. -/
theorem escapeCharIn_cases (hquote : isQuote quote = true) (c : Char) :
    (∃ e, escapeCharIn quote c = ['\\', e] ∧ e ≠ '\n' ∧ unescapeChar e = [c]) ∨
      (c ≠ '\\' ∧ c ≠ quote ∧ c ≠ '\n') ∧ escapeCharIn quote c = [c] := by
  unfold escapeCharIn
  split
  · next hbreak => exact Or.inl ⟨'n', rfl, by decide, hbreak ▸ rfl⟩
  next hbreak =>
  split
  · next hc =>
    refine Or.inl ⟨c, rfl, hbreak, ?_⟩
    rcases hc with rfl | rfl
    · rfl
    · rw [isQuote, Bool.or_eq_true, decide_eq_true_eq, decide_eq_true_eq] at hquote
      rcases hquote with rfl | rfl <;> rfl
  · next hc =>
    rw [not_or] at hc
    exact Or.inr ⟨⟨hc.1, hc.2, hbreak⟩, rfl⟩

theorem noBreak_escapeIn (hquote : isQuote quote = true) (cs : List Char) :
    '\n' ∉ escapeIn quote cs := by
  intro hmem
  obtain ⟨c, -, hc⟩ := List.mem_flatMap.mp hmem
  rcases escapeCharIn_cases hquote c with ⟨e, he, hbreak, -⟩ | ⟨hplain, he⟩
  · rw [he, List.mem_cons, List.mem_singleton] at hc
    rcases hc with hc | hc
    · cases hc
    · exact hbreak hc.symm
  · rw [he, List.mem_singleton] at hc
    exact hplain.2.2 hc.symm

/-- An escaped text stands for the text. -/
theorem unescape_escapeIn (hquote : isQuote quote = true) (cs : List Char) :
    unescape (escapeIn quote cs) = cs := by
  induction cs with
  | nil => rfl
  | cons c cs ih =>
    rw [escapeIn_cons]
    rcases escapeCharIn_cases hquote c with ⟨e, he, -, hback⟩ | ⟨hplain, he⟩
    · rw [he, List.cons_append, List.singleton_append, unescape, hback, ih]
      rfl
    · rw [he, List.singleton_append, unescape_cons hplain.1, ih]

/-- An escaped text ends at the quote behind it. -/
theorem splitQuoted_escapeIn (hquote : isQuote quote = true) (cs rest : List Char) :
    splitQuoted quote (escapeIn quote cs ++ quote :: rest) = some (escapeIn quote cs, rest) := by
  have hclose : quote ≠ '\\' ∧ quote ≠ '\n' := by
    constructor <;>
    · rintro rfl
      cases hquote
  induction cs with
  | nil =>
    show splitQuoted quote (quote :: rest) = some ([], rest)
    rw [splitQuoted_cons hclose.1, if_neg hclose.2, if_pos rfl]
  | cons c cs ih =>
    rw [escapeIn_cons, List.append_assoc]
    rcases escapeCharIn_cases hquote c with ⟨e, he, hbreak, -⟩ | ⟨hplain, he⟩
    · rw [he, List.cons_append, List.singleton_append, splitQuoted, if_neg hbreak, ih]
      rfl
    · rw [he, List.singleton_append, splitQuoted_cons hplain.1, if_neg hplain.2.2,
        if_neg hplain.2.1, ih]
      rfl

end

theorem noBreak_escape (cs : List Char) : '\n' ∉ escape cs :=
  escape_eq_escapeIn cs ▸ noBreak_escapeIn (by decide) cs

theorem unescape_escape (cs : List Char) : unescape (escape cs) = cs := by
  rw [escape_eq_escapeIn, unescape_escapeIn (by decide)]

theorem splitQuoted_escape (cs rest : List Char) :
    splitQuoted '\'' (escape cs ++ '\'' :: rest) = some (escape cs, rest) := by
  rw [escape_eq_escapeIn, splitQuoted_escapeIn (by decide)]

/-! ## Names -/

/-- A word that is a name. -/
def IsName (w : List Char) : Prop :=
  (∃ c ∈ w.head?, isWordStart c = true) ∧ (∀ c ∈ w, isWordPart c = true) ∧ wordKind w = .ident

/-- The piece that a name is. -/
def namePiece (w : List Char) : Lexeme := .token .ident (String.ofList w) w

/-- The characters that break a line, stand between tokens, are tokens, or open quoted strings. -/
def marks : List Char := ['\n', ' ', '\t', '\r', '.', ',', '(', ')', '\'', '"']

/-- What begins with no mark is a number or a word, if it is anything. -/
theorem readLexeme_of_not_mem_marks {c : Char} (h : c ∉ marks) (cs : List Char) :
    readLexeme c cs =
      if startsNumber c cs then .ok (readNumber c cs)
      else if isWordStart c then .ok (readWord c cs)
      else .error ⟨.unknown, String.singleton c⟩ := by
  simp only [marks, List.mem_cons, List.not_mem_nil, or_false, not_or] at h
  obtain ⟨hbreak, hspace, htab, hreturn, hdot, hcomma, hleft, hright, hsingle, hdouble⟩ := h
  have hgap : isGap c = false := by simp [isGap, hspace, htab, hreturn]
  have hmark : punctuation? c = none := by
    unfold punctuation?
    split <;> first | rfl | contradiction
  have hquote : isQuote c = false := by simp [isQuote, hsingle, hdouble]
  unfold readLexeme
  rw [if_neg hbreak, hgap, hmark, hquote]
  rfl

/-- What begins a word begins nothing else. -/
theorem readLexeme_word {c : Char} (h : isWordStart c = true) (cs : List Char) :
    readLexeme c cs = .ok (readWord c cs) := by
  have hmarks : c ∉ marks := by
    intro hmem
    have hfalse : ∀ d ∈ marks, isWordStart d = false := by simp [marks, isWordStart]
    rw [hfalse c hmem] at h
    cases h
  have hminus : c ≠ '-' := by
    rintro rfl
    cases h
  have hdigit : c.isDigit = false := by
    rw [Bool.eq_false_iff]
    intro hdigit
    have hrange := Text.toNat_of_isDigit hdigit
    rw [isWordStart, Bool.or_eq_true, decide_eq_true_eq, Char.isAlpha, Bool.or_eq_true] at h
    rcases h with (hupper | hlower) | rfl
    · have hletter := Text.toNat_of_isUpper hupper
      omega
    · have hletter := Text.toNat_of_isLower hlower
      omega
    · cases hdigit
  have hnumber : startsNumber c cs = false := by simp [startsNumber, hdigit, hminus]
  rw [readLexeme_of_not_mem_marks hmarks, hnumber, h]
  rfl

/-- A name is a piece of its own when no further part of a word follows. -/
theorem scan_name {w rest : List Char} (h : IsName w)
    (hrest : ∀ c ∈ rest.head?, isWordPart c = false) :
    scan (w ++ rest) = ⟨namePiece w :: (scan rest).pieces, (scan rest).obstacle⟩ := by
  obtain ⟨⟨c, hc, hstart⟩, hparts, hkind⟩ := h
  obtain ⟨cs, rfl⟩ := List.head?_eq_some_iff.mp hc
  have hstop : rest.takeWhile isWordPart = [] ∧ rest.dropWhile isWordPart = rest := by
    cases rest with
    | nil => exact ⟨rfl, rfl⟩
    | cons d rest =>
      have hd := hrest d rfl
      exact ⟨List.takeWhile_cons_of_neg (by simp [hd]), List.dropWhile_cons_of_neg (by simp [hd])⟩
  have hcs : ∀ d ∈ cs, isWordPart d = true := fun d hd => hparts d (List.mem_cons_of_mem _ hd)
  have hread : readWord c (cs ++ rest) = (namePiece (c :: cs), rest) := by
    unfold readWord
    rw [List.takeWhile_append_of_pos hcs, List.dropWhile_append_of_pos hcs, hstop.1, hstop.2,
      List.append_nil]
    dsimp only
    rw [hkind]
    rfl
  rw [List.cons_append]
  apply scan_cons_ok
  rw [readLexeme_word hstart, hread]

/-! ## Calls with one text -/

/-- A call to be written, by its name and its text. -/
structure Link where
  name : List Char
  text : List Char

namespace Link

/-- A call as it is written behind its dot. -/
def chars (l : Link) : List Char :=
  '.' :: (l.name ++ '(' :: '\'' :: (escape l.text ++ ['\'', ')']))

/-- The pieces that a written call is cut into. -/
def pieces (l : Link) : List Lexeme :=
  [.token .dot "." ['.'], namePiece l.name, .token .leftParen "(" ['('],
    .token .str (String.ofList l.text) ('\'' :: escape l.text ++ ['\'']),
    .token .rightParen ")" [')']]

/-- The call that is read is the call that was written. -/
def Reads (l : Link) (c : Call) : Prop :=
  c.name = String.ofList l.name ∧ c.args = [.str (String.ofList l.text)]

theorem scan_quoted (text rest : List Char) :
    scan ('\'' :: (escape text ++ '\'' :: rest)) =
      ⟨.token .str (String.ofList text) ('\'' :: escape text ++ ['\'']) :: (scan rest).pieces,
        (scan rest).obstacle⟩ := by
  apply scan_cons_ok
  show readQuoted '\'' _ = _
  unfold readQuoted
  rw [splitQuoted_escape]
  dsimp only
  rw [unescape_escape]

theorem scan_chars {l : Link} (h : IsName l.name) (rest : List Char) :
    scan (l.chars ++ rest) = ⟨l.pieces ++ (scan rest).pieces, (scan rest).obstacle⟩ := by
  have hchars : l.chars ++ rest =
      '.' :: (l.name ++ '(' :: '\'' :: (escape l.text ++ '\'' :: ')' :: rest)) := by
    simp [chars]
  have hparen : ∀ c ∈ ('(' :: '\'' :: (escape l.text ++ '\'' :: ')' :: rest)).head?,
      isWordPart c = false := by
    rintro _ ⟨⟩
    rfl
  have hdot : readLexeme '.' (l.name ++ '(' :: '\'' :: (escape l.text ++ '\'' :: ')' :: rest)) =
      .ok (.token .dot "." ['.'], _) := rfl
  have hopen : readLexeme '(' ('\'' :: (escape l.text ++ '\'' :: ')' :: rest)) =
      .ok (.token .leftParen "(" ['('], _) := rfl
  have hclose : readLexeme ')' rest = .ok (.token .rightParen ")" [')'], rest) := rfl
  rw [hchars, scan_cons_ok hdot, scan_name h hparen, scan_cons_ok hopen, scan_quoted,
    scan_cons_ok hclose]
  rfl

theorem scan_flatMap {ls : List Link} (h : ∀ l ∈ ls, IsName l.name) :
    scan (ls.flatMap chars) = ⟨ls.flatMap pieces, none⟩ := by
  induction ls with
  | nil => rw [List.flatMap_nil, List.flatMap_nil, scan]
  | cons l ls ih =>
    rw [List.flatMap_cons, scan_chars (h l (List.mem_cons_self ..)),
      ih fun k hk => h k (List.mem_cons_of_mem _ hk), List.flatMap_cons]

/-- Wherever a written call begins, its tokens are a dot and a derivation of the call. -/
theorem derivesCall (l : Link) (p : Pos) :
    ∃ dot ts c, place p l.pieces = dot :: ts ∧ dot.kind = .dot ∧ DerivesCall ts c ∧ l.Reads c := by
  have hname : (Token.mk .ident (String.ofList l.name) (p.after ['.'])).kind = .ident := rfl
  have hleft : (Token.mk .leftParen "(" ((p.after ['.']).after l.name)).kind = .leftParen := rfl
  have htext : (Token.mk .str (String.ofList l.text)
      (((p.after ['.']).after l.name).after ['('])).kind = .str := rfl
  have hright : (Token.mk .rightParen ")" ((((p.after ['.']).after l.name).after ['(']).after
      ('\'' :: escape l.text ++ ['\'']))).kind = .rightParen := rfl
  exact ⟨⟨.dot, ".", p⟩, _, _, rfl, rfl, .args hname hleft (.last (.str htext)) hright, rfl, rfl⟩

/-- Wherever written calls begin, their tokens derive the calls. -/
theorem derivesLinks (ls : List Link) (p : Pos) :
    ∃ cs, DerivesLinks (place p (ls.flatMap pieces)) cs ∧ List.Forall₂ Reads ls cs := by
  induction ls generalizing p with
  | nil => exact ⟨[], .nil, .nil⟩
  | cons l ls ih =>
    obtain ⟨dot, ts, c, hplace, hdot, hcall, hread⟩ := l.derivesCall p
    obtain ⟨cs, hcs, hreads⟩ := ih (p.after (spellings l.pieces))
    rw [List.flatMap_cons, place_append, hplace]
    exact ⟨c :: cs, .cons hdot hcall hcs, .cons hread hreads⟩

end Link

/-! ## Chains -/

/-- A chain as it is written. -/
def chainChars (head : List Char) (ls : List Link) : List Char := head ++ ls.flatMap Link.chars

variable {head : List Char} {ls : List Link}

theorem noBreak_of_isName {w : List Char} (h : IsName w) : '\n' ∉ w := by
  intro hmem
  have hpart := h.2.1 _ hmem
  cases hpart

theorem Link.noBreak_chars {l : Link} (h : IsName l.name) : '\n' ∉ l.chars := by
  have hname := noBreak_of_isName h
  have htext := noBreak_escape l.text
  simp [Link.chars, hname, htext]

theorem isBlank_of_isWordPart {c : Char} (h : isWordPart c = true) : Text.isBlank c = false := by
  rw [isWordPart, Bool.or_eq_true, decide_eq_true_eq, Char.isAlphanum, Bool.or_eq_true,
    Char.isAlpha, Bool.or_eq_true] at h
  rcases h with ((hupper | hlower) | hdigit) | rfl
  · have hrange := Text.toNat_of_isUpper hupper
    exact Text.isBlank_of_visible (by omega)
  · have hrange := Text.toNat_of_isLower hlower
    exact Text.isBlank_of_visible (by omega)
  · exact Text.isBlank_of_isDigit hdigit
  · decide

/-- A written chain is a content line. -/
theorem contentLine_chainChars (hhead : IsName head) (h : ∀ l ∈ ls, IsName l.name) :
    ContentLine (chainChars head ls) := by
  have hne : head ≠ [] := by
    rintro rfl
    obtain ⟨⟨c, hc, -⟩, -⟩ := hhead
    cases hc
  refine ⟨List.append_ne_nil_of_left_ne_nil hne _, ?_, ?_, ?_⟩
  · rw [chainChars, List.mem_append, List.mem_flatMap, not_or]
    refine ⟨noBreak_of_isName hhead, ?_⟩
    rintro ⟨l, hl, hbreak⟩
    exact Link.noBreak_chars (h l hl) hbreak
  · rw [chainChars, List.head?_append_of_ne_nil _ hne]
    intro c hc
    exact isBlank_of_isWordPart (hhead.2.1 c (List.mem_of_mem_head? hc))
  · -- The text ends in the head, or else in the parenthesis of the last call.
    rcases List.eq_nil_or_concat ls with rfl | ⟨front, l, rfl⟩
    · rw [chainChars, List.flatMap_nil, List.append_nil]
      intro c hc
      exact isBlank_of_isWordPart (hhead.2.1 c (List.mem_of_getLast? hc))
    · have hlast : chainChars head (front.concat l) = (head ++ (front.flatMap Link.chars ++
          '.' :: (l.name ++ '(' :: '\'' :: (escape l.text ++ ['\''])))) ++ [')'] := by
        simp [chainChars, Link.chars]
      rw [hlast, List.getLast?_concat]
      rintro _ ⟨⟩
      decide

theorem parseStatement_chainChars (hhead : IsName head) (h : ∀ l ∈ ls, IsName l.name) :
    ∃ pos cs, parseStatement (chainChars head ls) =
        .ok (.chain ⟨String.ofList head, [], pos⟩ cs) ∧ List.Forall₂ Link.Reads ls cs := by
  have hdot : ∀ c ∈ (ls.flatMap Link.chars).head?, isWordPart c = false := by
    cases ls with
    | nil => exact fun _ hc => nomatch hc
    | cons l ls =>
      rintro _ ⟨⟩
      rfl
  have hscan : scan (chainChars head ls) =
      ⟨namePiece head :: ls.flatMap Link.pieces, none⟩ := by
    rw [chainChars, scan_name hhead hdot, Link.scan_flatMap h]
  obtain ⟨cs, hcs, hreads⟩ := Link.derivesLinks ls (Pos.start.after head)
  refine ⟨.start, cs, (parseStatement_eq_ok_iff (contentLine_chainChars hhead h)).mpr ⟨?_, ?_⟩,
    hreads⟩
  · rw [hscan]
  · rw [tokensAt, hscan]
    have hkind : (Token.mk .ident (String.ofList head) .start).kind = .ident := rfl
    exact .chain (.bare hkind) hcs

end Tariff.Source
