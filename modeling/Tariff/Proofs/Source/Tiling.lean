/-
  How a text is cut into tokens. `Tiles` says, without any reader, what a correct cut is: blanks and one
  lexeme for each token follow each other without a gap, words and numbers reach as far as they can,
  and each token stands at the place that the characters before it make up. Proved here: the tokens of
  a text tile it, and where there are none the text is tiled up to a place at which no token begins, or
  a quoted string that its line does not close (`lex_tiles`).
-/
import Tariff.Proofs.Source.Writing

namespace Tariff.Source

/-! ## Lexemes -/

/-- The longest front of a text that has a property. -/
structure Longest (P : List Char → Prop) (front text : List Char) : Prop where
  is_front : front <+: text
  holds : P front
  length_le : ∀ w, w <+: text → P w → w.length ≤ front.length

/-- A letter or underscore, and letters, digits and underscores behind it. -/
def IsWord : List Char → Prop
  | [] => False
  | c :: cs => isWordStart c = true ∧ ∀ d ∈ cs, isWordPart d = true

/-- Digits, with a point and further digits behind them or not. -/
def IsUnsigned (w : List Char) : Prop :=
  ∃ whole fraction, w = whole ++ fraction ∧ Text.isDigits whole = true ∧
    (fraction = [] ∨ ∃ ds, fraction = '.' :: ds ∧ Text.isDigits ds = true)

/-- An unsigned number, with a minus in front or not. -/
def IsNumber (w : List Char) : Prop := IsUnsigned w ∨ ∃ u, w = '-' :: u ∧ IsUnsigned u

/-- The characters that a backslash gives another meaning, with this meaning. -/
def escapes : List (Char × Char) :=
  [('n', '\n'), ('t', '\t'), ('\\', '\\'), ('\'', '\''), ('"', '"')]

/-- What may stand between two quotes of one kind, and the text that it means. It lies on one line. -/
inductive Quoted (quote : Char) : List Char → List Char → Prop
  | nil : Quoted quote [] []
  | plain {c : Char} {body content : List Char} (hback : c ≠ '\\') (hquote : c ≠ quote)
      (hbreak : c ≠ '\n') (h : Quoted quote body content) :
      Quoted quote (c :: body) (c :: content)
  | escape {c d : Char} {body content : List Char} (hc : (c, d) ∈ escapes)
      (h : Quoted quote body content) : Quoted quote ('\\' :: c :: body) (d :: content)
  | kept {c : Char} {body content : List Char} (hc : c ∉ escapes.map Prod.fst) (hbreak : c ≠ '\n')
      (h : Quoted quote body content) :
      Quoted quote ('\\' :: c :: body) ('\\' :: c :: content)

/-- The kind and the text of the token that a lexeme is when `next` follows it. -/
inductive IsLexeme (next : List Char) : Token.Kind → String → List Char → Prop
  | lineBreak : IsLexeme next .lineBreak "\\n" ['\n']
  | dot : IsLexeme next .dot "." ['.']
  | comma : IsLexeme next .comma "," [',']
  | leftParen : IsLexeme next .leftParen "(" ['(']
  | rightParen : IsLexeme next .rightParen ")" [')']
  | yes (h : Longest IsWord "true".toList ("true".toList ++ next)) :
      IsLexeme next .yes "true" "true".toList
  | no (h : Longest IsWord "false".toList ("false".toList ++ next)) :
      IsLexeme next .no "false" "false".toList
  | ident {w : List Char} (h : Longest IsWord w (w ++ next)) (hyes : w ≠ "true".toList)
      (hno : w ≠ "false".toList) : IsLexeme next .ident (String.ofList w) w
  | number {w : List Char} (h : Longest IsNumber w (w ++ next)) :
      IsLexeme next .number (String.ofList w) w
  | str {quote : Char} {body content : List Char} (hquote : quote ∈ ['\'', '"'])
      (h : Quoted quote body content) :
      IsLexeme next .str (String.ofList content) (quote :: body ++ [quote])

/-! ## Tilings -/

/-- The place behind a text: its line is one more than the line breaks in the text, its column one more
    than the characters behind the last of them. -/
def Pos.behind (cs : List Char) : Pos :=
  ⟨1 + cs.count '\n', 1 + (cs.reverse.takeWhile (· ≠ '\n')).length⟩

/-- Behind `before`, the text `front` is blanks and the lexemes of these tokens in order, each token at
    the place of its lexeme; `rest` follows. -/
inductive Tiles : (before front rest : List Char) → List Token → Prop
  | nil {before rest : List Char} : Tiles before [] rest []
  | blank {before front rest : List Char} {c : Char} {ts : List Token} (hc : c ∈ [' ', '\t', '\r'])
      (h : Tiles (before ++ [c]) front rest ts) : Tiles before (c :: front) rest ts
  | token {before front rest lexeme : List Char} {kind : Token.Kind} {text : String}
      {ts : List Token} (hlexeme : IsLexeme (front ++ rest) kind text lexeme)
      (h : Tiles (before ++ lexeme) front rest ts) :
      Tiles before (lexeme ++ front) rest (⟨kind, text, Pos.behind before⟩ :: ts)

/-- Why a text begins with neither a blank nor a token, and the characters in question: its first
    character begins no token, or opens a quoted string that is not closed on its line. -/
inductive Blocks : List Char → SyntaxError.Cause → String → Prop
  | unknown {c : Char} {cs : List Char} (hblank : c ∉ [' ', '\t', '\r']) (hquote : c ∉ ['\'', '"'])
      (h : ∀ next kind text lexeme, IsLexeme next kind text lexeme → c :: cs ≠ lexeme ++ next) :
      Blocks (c :: cs) .unknown (String.singleton c)
  | unterminated {quote : Char} {cs : List Char} (hquote : quote ∈ ['\'', '"'])
      (h : ∀ body content, Quoted quote body content → ¬ body ++ [quote] <+: cs) :
      Blocks (quote :: cs) .unterminated (String.ofList (quote :: cs.takeWhile (· ≠ '\n')))

/-! ## Places -/

theorem Pos.after_start (cs : List Char) : Pos.start.after cs = Pos.behind cs := by
  induction cs using List.reverseRecOn with
  | nil => rfl
  | append_singleton cs c ih =>
    rw [Pos.after_append, ih]
    show (Pos.behind cs).next c = Pos.behind (cs ++ [c])
    unfold Pos.next Pos.behind
    by_cases hc : c = '\n'
    · simp [hc]
      omega
    · simp [hc]
      omega

theorem Pos.after_noBreak {cs : List Char} (h : '\n' ∉ cs) (p : Pos) :
    p.after cs = ⟨p.line, p.column + cs.length⟩ := by
  induction cs generalizing p with
  | nil => rfl
  | cons c cs ih =>
    rw [List.mem_cons, not_or] at h
    rw [Pos.after_cons, ih h.2, Pos.next, if_neg (Ne.symm h.1), List.length_cons, Nat.add_assoc,
      Nat.add_comm 1]

theorem length_le_takeWhile {p : Char → Bool} {w text : List Char} (h : w <+: text)
    (hw : ∀ c ∈ w, p c = true) : w.length ≤ (text.takeWhile p).length := by
  obtain ⟨t, rfl⟩ := h
  rw [List.takeWhile_append_of_pos hw, List.length_append]
  exact Nat.le_add_right ..

theorem takeWhile_holds {p : Char → Bool} (cs : List Char) : ∀ c ∈ cs.takeWhile p, p c = true :=
  fun c hc => List.all_eq_true.mp List.all_takeWhile c hc

theorem longest_readWord {c : Char} (hc : isWordStart c = true) (cs : List Char) :
    Longest IsWord (c :: cs.takeWhile isWordPart) (c :: cs) := by
  refine ⟨?_, ⟨hc, takeWhile_holds cs⟩, ?_⟩
  · exact List.cons_prefix_cons.mpr ⟨rfl, List.takeWhile_prefix _⟩
  · intro w hw hword
    cases w with
    | nil => cases hword
    | cons d ds =>
      have hds := (List.cons_prefix_cons.mp hw).2
      exact Nat.succ_le_succ (length_le_takeWhile hds hword.2)

theorem digits_of_isDigits {ds : List Char} (h : Text.isDigits ds = true) :
    ds ≠ [] ∧ ∀ d ∈ ds, d.isDigit = true := by
  unfold Text.isDigits at h
  rw [Bool.and_eq_true, List.all_eq_true] at h
  exact ⟨by simpa using h.1, h.2⟩

/-- An unsigned number in front of a text is made of its first digits, or of them all with a point and
    some of the digits behind it. -/
theorem IsUnsigned.cases {w text : List Char} (h : IsUnsigned w) (hw : w <+: text) :
    w.length ≤ (text.takeWhile Char.isDigit).length ∨
      ∃ d ds, text.dropWhile Char.isDigit = '.' :: d :: ds ∧ d.isDigit = true ∧
        w.length ≤ (text.takeWhile Char.isDigit).length + 2 + (ds.takeWhile Char.isDigit).length := by
  obtain ⟨whole, fraction, rfl, hwhole, hfraction⟩ := h
  obtain ⟨hne, hdigits⟩ := digits_of_isDigits hwhole
  rcases hfraction with rfl | ⟨ds, rfl, hds⟩
  · rw [List.append_nil] at hw ⊢
    exact Or.inl (length_le_takeWhile hw hdigits)
  · obtain ⟨t, rfl⟩ := hw
    obtain ⟨hne, hdigits'⟩ := digits_of_isDigits hds
    obtain ⟨d, es, rfl⟩ := List.exists_cons_of_ne_nil hne
    have hpoint : Char.isDigit '.' = false := by decide
    rw [List.append_assoc, List.takeWhile_append_of_pos hdigits,
      List.dropWhile_append_of_pos hdigits, List.cons_append, List.cons_append,
      List.takeWhile_cons_of_neg (by simp [hpoint]), List.dropWhile_cons_of_neg (by simp [hpoint])]
    refine Or.inr ⟨d, es ++ t, rfl, hdigits' d (List.mem_cons_self ..), ?_⟩
    have hes : ∀ e ∈ es, e.isDigit = true := fun e he => hdigits' e (List.mem_cons_of_mem _ he)
    rw [List.takeWhile_append_of_pos hes]
    simp only [List.length_append, List.length_cons, List.append_nil]
    omega

theorem longest_splitNumber {cs : List Char} (h : ∃ d ∈ cs.head?, d.isDigit = true) :
    Longest IsUnsigned (splitNumber cs).1 cs := by
  obtain ⟨d, hd, hdigit⟩ := h
  obtain ⟨ds, rfl⟩ := List.head?_eq_some_iff.mp hd
  have hdigits : ∀ es : List Char, es ≠ [] → (∀ e ∈ es, e.isDigit = true) →
      Text.isDigits es = true := fun es hne hall => Text.isDigits_of_digits hne hall
  have hwhole : Text.isDigits ((d :: ds).takeWhile Char.isDigit) = true := by
    apply hdigits _ _ (takeWhile_holds _)
    rw [List.takeWhile_cons_of_pos hdigit]
    exact List.cons_ne_nil _ _
  refine ⟨⟨_, splitNumber_append _⟩, ?_, ?_⟩
  · unfold splitNumber
    split
    · next e es _ =>
      split
      · next he =>
        refine ⟨_, _, rfl, hwhole, Or.inr ⟨_, rfl, hdigits _ (List.cons_ne_nil _ _) ?_⟩⟩
        rw [List.forall_mem_cons]
        exact ⟨he, takeWhile_holds es⟩
      · exact ⟨_, [], (List.append_nil _).symm, hwhole, Or.inl rfl⟩
    · exact ⟨_, [], (List.append_nil _).symm, hwhole, Or.inl rfl⟩
  · -- A number longer than its whole part needs a digit behind the point.
    intro w hw hnumber
    rcases hnumber.cases hw with hle | ⟨e, es, hdrop, he, hle⟩
    · refine hle.trans ?_
      unfold splitNumber
      split
      · split
        · simp
        · exact Nat.le_refl _
      · exact Nat.le_refl _
    · unfold splitNumber
      rw [hdrop]
      simp only [he, if_true, List.length_append, List.length_cons]
      omega

theorem splitNumber_cons {c : Char} (hc : c.isDigit = true) (cs : List Char) :
    splitNumber (c :: cs) = (c :: (splitNumber cs).1, (splitNumber cs).2) := by
  unfold splitNumber
  rw [List.takeWhile_cons_of_pos hc, List.dropWhile_cons_of_pos hc]
  split
  · split <;> rfl
  · rfl

theorem IsUnsigned.head {c : Char} {cs : List Char} (h : IsUnsigned (c :: cs)) :
    c.isDigit = true := by
  obtain ⟨whole, fraction, heq, hwhole, -⟩ := h
  obtain ⟨hne, hdigits⟩ := digits_of_isDigits hwhole
  obtain ⟨d, ds, rfl⟩ := List.exists_cons_of_ne_nil hne
  rw [List.cons_append] at heq
  rw [(List.cons.inj heq).1]
  exact hdigits d (List.mem_cons_self ..)

theorem IsUnsigned.ne_nil {w : List Char} (h : IsUnsigned w) : w ≠ [] := by
  obtain ⟨whole, fraction, rfl, hwhole, -⟩ := h
  exact List.append_ne_nil_of_left_ne_nil (digits_of_isDigits hwhole).1 _

theorem startsNumber_cases {c : Char} {cs : List Char} (h : startsNumber c cs = true) :
    c.isDigit = true ∨ c = '-' ∧ ∃ d ∈ cs.head?, d.isDigit = true := by
  unfold startsNumber at h
  rw [Bool.or_eq_true, Bool.and_eq_true, decide_eq_true_eq] at h
  refine h.imp_right ?_
  rintro ⟨hc, hd⟩
  cases cs with
  | nil => cases hd
  | cons d ds => exact ⟨hc, d, rfl, hd⟩

theorem longest_readNumber {c : Char} {cs : List Char} (h : startsNumber c cs = true) :
    Longest IsNumber (c :: (splitNumber cs).1) (c :: cs) := by
  rcases startsNumber_cases h with hc | ⟨rfl, hd⟩
  · have hlong : Longest IsUnsigned (splitNumber (c :: cs)).1 (c :: cs) :=
      longest_splitNumber ⟨c, rfl, hc⟩
    rw [splitNumber_cons hc] at hlong
    refine ⟨hlong.is_front, Or.inl hlong.holds, ?_⟩
    rintro w hw (hnumber | ⟨u, rfl, -⟩)
    · exact hlong.length_le w hw hnumber
    · rw [← (List.cons_prefix_cons.mp hw).1] at hc
      exact absurd hc (by decide)
  · have hlong := longest_splitNumber hd
    refine ⟨List.cons_prefix_cons.mpr ⟨rfl, hlong.is_front⟩, Or.inr ⟨_, rfl, hlong.holds⟩, ?_⟩
    rintro w hw (hnumber | ⟨u, rfl, hu⟩)
    · obtain ⟨d, ds, rfl⟩ := List.exists_cons_of_ne_nil hnumber.ne_nil
      have hdigit := hnumber.head
      rw [(List.cons_prefix_cons.mp hw).1] at hdigit
      exact absurd hdigit (by decide)
    · exact Nat.succ_le_succ (hlong.length_le u (List.cons_prefix_cons.mp hw).2 hu)

/-! ## Quoted strings -/

/-- A backslash gives a character another meaning, or is kept in front of it. -/
theorem unescapeChar_cases (c : Char) :
    (∃ d, (c, d) ∈ escapes ∧ unescapeChar c = [d]) ∨
      c ∉ escapes.map Prod.fst ∧ unescapeChar c = ['\\', c] := by
  by_cases hc : c ∈ escapes.map Prod.fst
  · have hmem : c ∈ ['n', 't', '\\', '\'', '"'] := hc
    simp only [List.mem_cons, List.not_mem_nil, or_false] at hmem
    rcases hmem with rfl | rfl | rfl | rfl | rfl <;>
      exact Or.inl ⟨_, by simp [escapes], rfl⟩
  · refine Or.inr ⟨hc, ?_⟩
    have hmem : c ∉ ['n', 't', '\\', '\'', '"'] := hc
    simp only [List.mem_cons, List.not_mem_nil, or_false, not_or] at hmem
    unfold unescapeChar
    split <;> simp_all

theorem ne_break_of_mem_escapes {c d : Char} (h : (c, d) ∈ escapes) : c ≠ '\n' := by
  rintro rfl
  have hmem : '\n' ∈ escapes.map Prod.fst := List.mem_map_of_mem h
  exact absurd hmem (by decide)

theorem quote_ne {quote : Char} (h : quote ∈ ['\'', '"']) : quote ≠ '\\' ∧ quote ≠ '\n' := by
  rcases List.mem_pair.mp h with rfl | rfl <;> decide

theorem quoted_of_splitQuoted {quote : Char} {cs body rest : List Char}
    (h : splitQuoted quote cs = some (body, rest)) : Quoted quote body (unescape body) := by
  fun_induction splitQuoted quote cs generalizing body rest with
  | case3 c cs hbreak ih =>
    simp only [Option.map_eq_some_iff, Prod.exists, Prod.mk.injEq] at h
    obtain ⟨b, r, hs, rfl, rfl⟩ := h
    have hb := ih hs
    rw [unescape]
    rcases unescapeChar_cases c with ⟨d, hd, hmeans⟩ | ⟨hnot, hmeans⟩
    · rw [hmeans]
      exact .escape hd hb
    · rw [hmeans]
      exact .kept hnot hbreak hb
  | case5 => cases h; exact .nil
  | case6 c cs hlone hbreak hquote ih =>
    simp only [Option.map_eq_some_iff, Prod.exists, Prod.mk.injEq] at h
    obtain ⟨b, r, hs, rfl, rfl⟩ := h
    have hback : c ≠ '\\' := by
      rintro rfl
      cases cs with
      | nil => cases hs
      | cons d ds => exact hlone d ds rfl rfl
    rw [unescape_cons hback]
    exact .plain hback hquote hbreak (ih hs)
  | _ => cases h

theorem Quoted.splitQuoted_eq {quote : Char} (hquote : quote ∈ ['\'', '"']) {body content : List Char}
    (h : Quoted quote body content) (rest : List Char) :
    splitQuoted quote (body ++ quote :: rest) = some (body, rest) := by
  induction h with
  | nil =>
    rw [List.nil_append, splitQuoted_cons (quote_ne hquote).1, if_neg (quote_ne hquote).2, if_pos rfl]
  | plain hback hne hbreak _ ih =>
    rw [List.cons_append, splitQuoted_cons hback, if_neg hbreak, if_neg hne, ih]
    rfl
  | escape hc _ ih =>
    rw [List.cons_append, List.cons_append, splitQuoted, if_neg (ne_break_of_mem_escapes hc), ih]
    rfl
  | kept _ hbreak _ ih =>
    rw [List.cons_append, List.cons_append, splitQuoted, if_neg hbreak, ih]
    rfl

/-! ## One piece -/

theorem isGap_iff {c : Char} : isGap c = true ↔ c ∈ [' ', '\t', '\r'] := by
  simp [isGap, or_assoc]

theorem isQuote_iff {c : Char} : isQuote c = true ↔ c ∈ ['\'', '"'] := by
  simp [isQuote]

/-- A piece is a blank, or the lexeme of its token. -/
def Lexeme.Fits (next : List Char) : Lexeme → Prop
  | .blank c => c ∈ [' ', '\t', '\r']
  | .token kind text spelling => IsLexeme next kind text spelling

theorem isLexeme_punctuation? {c : Char} {kind : Token.Kind} (h : punctuation? c = some kind)
    (next : List Char) : IsLexeme next kind (String.singleton c) [c] := by
  unfold punctuation? at h
  split at h <;> cases h
  · exact .dot
  · exact .comma
  · exact .leftParen
  · exact .rightParen

theorem isLexeme_readWord {c : Char} (hc : isWordStart c = true) (cs : List Char) :
    (readWord c cs).1.Fits (readWord c cs).2 := by
  have hlong := longest_readWord hc cs
  have htext : c :: cs = (c :: cs.takeWhile isWordPart) ++ cs.dropWhile isWordPart :=
    (readWord_append c cs).symm
  rw [htext] at hlong
  unfold readWord wordKind
  dsimp only
  split
  · next hyes =>
    rw [hyes] at hlong ⊢
    exact .yes hlong
  · next hyes =>
    split
    · next hno =>
      rw [hno] at hlong ⊢
      exact .no hlong
    · next hno => exact .ident hlong hyes hno

theorem isLexeme_readNumber {c : Char} {cs : List Char} (h : startsNumber c cs = true) :
    (readNumber c cs).1.Fits (readNumber c cs).2 := by
  have hlong := longest_readNumber h
  have htext : c :: cs = (c :: (splitNumber cs).1) ++ (splitNumber cs).2 :=
    (readNumber_append c cs).symm
  rw [htext] at hlong
  exact .number hlong

theorem fits_of_readLexeme {c : Char} {cs rest : List Char} {piece : Lexeme}
    (h : readLexeme c cs = .ok (piece, rest)) : piece.Fits rest := by
  unfold readLexeme at h
  split at h
  · next hc =>
    cases h
    rw [hc]
    exact .lineBreak
  split at h
  · next hgap =>
    cases h
    exact isGap_iff.mp hgap
  split at h
  · next hkind =>
    cases h
    exact isLexeme_punctuation? hkind _
  split at h
  · next hquote =>
    unfold readQuoted at h
    split at h
    · next hsplit =>
      cases h
      exact .str (isQuote_iff.mp hquote) (quoted_of_splitQuoted hsplit)
    · cases h
  split at h
  · next hnumber =>
    have hfits := isLexeme_readNumber hnumber
    rwa [Except.ok.inj h] at hfits
  split at h
  · next hword =>
    have hfits := isLexeme_readWord hword cs
    rwa [Except.ok.inj h] at hfits
  · cases h

/-! ## Where no piece begins -/

theorem IsWord.startsWord {w next : List Char} {c : Char} {cs : List Char} (h : IsWord w)
    (heq : c :: cs = w ++ next) : isWordStart c = true := by
  cases w with
  | nil => cases h
  | cons d ds => exact (List.cons.inj heq).1 ▸ h.1

theorem IsNumber.startsNumber {w next : List Char} {c : Char} {cs : List Char} (h : IsNumber w)
    (heq : c :: cs = w ++ next) : startsNumber c cs = true := by
  unfold Source.startsNumber
  rcases h with hu | ⟨u, rfl, hu⟩
  · obtain ⟨d, ds, rfl⟩ := List.exists_cons_of_ne_nil hu.ne_nil
    rw [(List.cons.inj heq).1, hu.head]
    rfl
  · obtain ⟨d, ds, rfl⟩ := List.exists_cons_of_ne_nil hu.ne_nil
    obtain ⟨rfl, rfl⟩ := List.cons.inj heq
    have hd := hu.head
    simp [hd]

theorem blocks_of_readLexeme {c : Char} {cs : List Char} {o : Obstacle}
    (h : readLexeme c cs = .error o) : Blocks (c :: cs) o.cause o.text := by
  unfold readLexeme at h
  split at h
  · cases h
  next hbreak =>
  split at h
  · cases h
  next hgap =>
  split at h
  · cases h
  next hkind =>
  split at h
  · next hquote =>
    unfold readQuoted at h
    split at h
    · cases h
    · next hsplit =>
      cases h
      refine .unterminated (isQuote_iff.mp hquote) ?_
      rintro body content hbody ⟨rest, rfl⟩
      have hclosed := hbody.splitQuoted_eq (isQuote_iff.mp hquote) rest
      rw [List.append_assoc, List.singleton_append, hclosed] at hsplit
      cases hsplit
  next hquote =>
  split at h
  · cases h
  next hnumber =>
  split at h
  · cases h
  next hword =>
  cases h
  refine .unknown (isGap_iff.not.mp hgap) (isQuote_iff.not.mp hquote) ?_
  intro next kind text lexeme hlexeme heq
  cases hlexeme with
  | lineBreak => exact hbreak (List.cons.inj heq).1
  | dot | comma | leftParen | rightParen =>
    rw [(List.cons.inj heq).1] at hkind
    cases hkind
  | yes hw | no hw | ident hw => exact hword (hw.holds.startsWord heq)
  | number hn => exact hnumber (hn.holds.startsNumber heq)
  | str hq => exact hquote ((List.cons.inj heq).1 ▸ isQuote_iff.mpr hq)

/-! ## Texts -/

/-- The pieces of a text behind `before` tile it as far as they go, and something stands in the way of
    more of them exactly when text is left. -/
theorem scan_tiles (before cs : List Char) :
    ∃ rest, spellings (scan cs).pieces ++ rest = cs ∧
      Tiles before (spellings (scan cs).pieces) rest (place (Pos.behind before) (scan cs).pieces) ∧
      match (scan cs).obstacle with
      | none => rest = []
      | some o => Blocks rest o.cause o.text := by
  fun_induction scan cs generalizing before with
  | case1 => exact ⟨[], rfl, .nil, rfl⟩
  | case2 c cs o h => exact ⟨c :: cs, rfl, .nil, blocks_of_readLexeme h⟩
  | case3 c cs piece rest h _ tail ih =>
    obtain ⟨left, hleft, htiles, hend⟩ := ih (before ++ piece.spelling)
    have hfits := fits_of_readLexeme h
    have hplace : Pos.behind (before ++ piece.spelling) = (Pos.behind before).after piece.spelling := by
      rw [← Pos.after_start, ← Pos.after_start, Pos.after_append]
    rw [hplace] at htiles
    refine ⟨left, ?_, ?_, hend⟩
    · rw [← readLexeme_append h, ← hleft]
      exact List.append_assoc ..
    · rw [← hleft] at hfits
      cases piece with
      | blank c => exact .blank hfits htiles
      | token kind text spelling => exact .token hfits htiles

/-- Each token of a tiling stands for a stretch of the text, at the place behind what is in front of
    it. -/
theorem Tiles.split_of_mem {before front rest : List Char} {ts : List Token}
    (h : Tiles before front rest ts) : ∀ t ∈ ts, ∃ lead lexeme behind,
      front = lead ++ lexeme ++ behind ∧ IsLexeme (behind ++ rest) t.kind t.text lexeme ∧
        t.pos = Pos.behind (before ++ lead) := by
  induction h with
  | nil => exact List.forall_mem_nil _
  | @blank before front rest c ts _ _ ih =>
    intro t ht
    obtain ⟨lead, lexeme, behind, rfl, hlexeme, hpos⟩ := ih t ht
    exact ⟨c :: lead, lexeme, behind, rfl, hlexeme, by rw [hpos, List.append_assoc]; rfl⟩
  | @token before front rest lexeme kind text ts hlexeme _ ih =>
    intro t ht
    rcases List.mem_cons.mp ht with rfl | ht
    · exact ⟨[], lexeme, front, rfl, hlexeme, by rw [List.append_nil]⟩
    · obtain ⟨lead, lexeme', behind, rfl, hlexeme', hpos⟩ := ih t ht
      exact ⟨lexeme ++ lead, lexeme', behind, by simp, hlexeme', by rw [hpos, List.append_assoc]⟩

/-- The lexemes of a tiling are stretches of the text. -/
theorem Tiles.lexeme_of_mem {before front rest : List Char} {ts : List Token}
    (h : Tiles before front rest ts) : ∀ t ∈ ts,
      ∃ next lexeme, IsLexeme next t.kind t.text lexeme ∧ lexeme <:+: front := by
  intro t ht
  obtain ⟨lead, lexeme, behind, rfl, hlexeme, -⟩ := h.split_of_mem t ht
  exact ⟨_, lexeme, hlexeme, ⟨lead, behind, rfl⟩⟩

/-- Every token of a text is some lexeme in it, but for the mark of its end. -/
theorem lexeme_of_mem_lex {cs : List Char} {ts : List Token} (h : lex cs = .ok ts) {t : Token}
    (ht : t ∈ ts) (hk : t.kind ≠ .finish) :
    ∃ next lexeme, IsLexeme next t.kind t.text lexeme ∧ lexeme <:+: cs := by
  obtain ⟨-, hts⟩ := lex_eq_ok_iff.mp h
  obtain ⟨rest, hrest, htiles, -⟩ := scan_tiles [] cs
  rw [hts] at ht
  have hbody := (List.mem_append.mp ht).resolve_right fun hlast => by
    rw [List.mem_singleton.mp hlast] at hk
    exact hk rfl
  obtain ⟨next, lexeme, hlexeme, hfront⟩ := htiles.lexeme_of_mem t hbody
  have hprefix : spellings (scan cs).pieces <+: cs := ⟨rest, hrest⟩
  exact ⟨next, lexeme, hlexeme, hfront.trans hprefix.isInfix⟩

/-- The tokens of a text tile it, each at its place, and the mark of the end alone follows them. Where a
    text has no tokens it is tiled up to the reported place, and there it goes on with something that
    is neither a blank nor a token. -/
theorem lex_tiles (cs : List Char) :
    match lex cs with
    | .ok ts => ∃ body, ts = body ++ [⟨.finish, "EOF", Pos.behind cs⟩] ∧ Tiles [] cs [] body ∧
        ∀ t ∈ body, t.kind ≠ .finish
    | .error e => ∃ front rest body, cs = front ++ rest ∧ Tiles [] front rest body ∧
        e.pos = Pos.behind front ∧ Blocks rest e.cause e.text := by
  obtain ⟨rest, hrest, htiles, hend⟩ := scan_tiles [] cs
  unfold lex
  split at hend
  · next hnone =>
    subst hend
    rw [List.append_nil] at hrest
    simp only [hnone]
    rw [hrest] at htiles ⊢
    rw [Pos.after_start]
    exact ⟨_, rfl, htiles, place_kind_ne_finish (scan_sound cs)⟩
  · next o hsome =>
    simp only [hsome]
    exact ⟨_, rest, _, hrest.symm, htiles, Pos.after_start _, hend⟩

end Tariff.Source
