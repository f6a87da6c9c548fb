/-
  Every token can be written, and is read back. A lexeme is what its front of the text is cut into
  whatever stands behind it (`readLexeme_of_isLexeme`), so a text has the tokens that tile it and no
  others (`lex_eq_ok_iff_tiles`). A word, a number or a quoted text, written with its escapes, is a
  lexeme in front of a blank and at the end, and so tokens with blanks between them are read as they
  were written (`lex_spelled`).
-/
import Tariff.Proofs.Source.Margins

namespace Tariff.Source

/-! ## Lexemes are read -/

theorem Longest.eq {P : List Char → Prop} {v w text : List Char} (hv : Longest P v text)
    (hw : Longest P w text) : v = w := by
  have hle := hw.length_le v hv.is_front hv.holds
  have hge := hv.length_le w hw.is_front hw.holds
  exact (List.prefix_of_prefix_length_le hv.is_front hw.is_front hle).eq_of_length
    (Nat.le_antisymm hle hge)

/-- What stands between quotes means one text only. -/
theorem Quoted.unescape_eq {quote : Char} {body content : List Char}
    (h : Quoted quote body content) : unescape body = content := by
  induction h with
  | nil => rfl
  | plain hback _ _ _ ih => rw [unescape_cons hback, ih]
  | @escape c d _ _ hc _ ih =>
    have hmeans : unescapeChar c = [d] := by
      rcases unescapeChar_cases c with ⟨e, he, hmeans⟩ | ⟨hnot, -⟩
      · simp only [escapes, List.mem_cons, Prod.mk.injEq, List.not_mem_nil, or_false] at hc
        rcases hc with ⟨rfl, rfl⟩ | ⟨rfl, rfl⟩ | ⟨rfl, rfl⟩ | ⟨rfl, rfl⟩ | ⟨rfl, rfl⟩ <;> rfl
      · exact absurd (List.mem_map_of_mem hc) hnot
    rw [unescape, hmeans, ih]
    rfl
  | @kept c _ _ hc _ _ ih =>
    have hmeans : unescapeChar c = ['\\', c] := by
      rcases unescapeChar_cases c with ⟨e, he, -⟩ | ⟨-, hmeans⟩
      · exact absurd (List.mem_map_of_mem he) hc
      · exact hmeans
    rw [unescape, hmeans, ih]
    rfl

theorem readWord_of_longest {c : Char} {cs w next : List Char} (h : Longest IsWord w (w ++ next))
    (heq : c :: cs = w ++ next) :
    readLexeme c cs = .ok (.token (wordKind w) (String.ofList w) w, next) := by
  have hstart := h.holds.startsWord heq
  rw [← heq] at h
  obtain rfl := (longest_readWord hstart cs).eq h
  have hrest := readWord_append c cs
  rw [heq] at hrest
  rw [readLexeme_word hstart, ← List.append_cancel_left hrest]
  rfl

theorem readLexeme_number {c : Char} {cs : List Char} (h : startsNumber c cs = true) :
    readLexeme c cs = .ok (readNumber c cs) := by
  have hmarks : c ∉ marks := by
    intro hmem
    have hfalse : ∀ d ∈ marks, d.isDigit = false ∧ d ≠ '-' := by simp [marks]
    rcases startsNumber_cases h with hdigit | ⟨hminus, -⟩
    · rw [(hfalse c hmem).1] at hdigit
      cases hdigit
    · exact (hfalse c hmem).2 hminus
  rw [readLexeme_of_not_mem_marks hmarks, if_pos h]

theorem readNumber_of_longest {c : Char} {cs w next : List Char}
    (h : Longest IsNumber w (w ++ next)) (heq : c :: cs = w ++ next) :
    readLexeme c cs = .ok (.token .number (String.ofList w) w, next) := by
  have hstart := h.holds.startsNumber heq
  rw [← heq] at h
  obtain rfl := (longest_readNumber hstart).eq h
  have hrest := readNumber_append c cs
  rw [heq] at hrest
  rw [readLexeme_number hstart, ← List.append_cancel_left hrest]
  rfl

theorem readQuoted_of_quoted {quote : Char} {body content : List Char}
    (hquote : quote ∈ ['\'', '"']) (h : Quoted quote body content) (next : List Char) :
    readLexeme quote (body ++ quote :: next) =
      .ok (.token .str (String.ofList content) (quote :: body ++ [quote]), next) := by
  have hread : readLexeme quote (body ++ quote :: next) = readQuoted quote (body ++ quote :: next) := by
    rcases List.mem_pair.mp hquote with rfl | rfl <;> rfl
  rw [hread, readQuoted, h.splitQuoted_eq hquote]
  dsimp only
  rw [h.unescape_eq]

/-- A lexeme is read in front of what makes it one. -/
theorem readLexeme_of_isLexeme {kind : Token.Kind} {text : String} {lexeme next cs : List Char}
    {c : Char} (h : IsLexeme next kind text lexeme) (heq : c :: cs = lexeme ++ next) :
    readLexeme c cs = .ok (.token kind text lexeme, next) := by
  cases h with
  | lineBreak | dot | comma | leftParen | rightParen =>
    obtain ⟨rfl, rfl⟩ := List.cons.inj heq
    rfl
  | yes h => exact readWord_of_longest h heq
  | no h => exact readWord_of_longest h heq
  | ident h hyes hno =>
    have hkind : wordKind lexeme = .ident := by rw [wordKind, if_neg hyes, if_neg hno]
    rw [readWord_of_longest h heq, hkind]
  | number h => exact readNumber_of_longest h heq
  | str hquote h =>
    rw [List.append_assoc, List.singleton_append, List.cons_append] at heq
    obtain ⟨rfl, rfl⟩ := List.cons.inj heq
    exact readQuoted_of_quoted hquote h next

/-! ## A tiled text has the tokens that tile it -/

theorem IsWord.ne_nil {w : List Char} (h : IsWord w) : w ≠ [] := by
  rintro rfl
  cases h

theorem IsNumber.ne_nil {w : List Char} (h : IsNumber w) : w ≠ [] := by
  rcases h with h | ⟨u, rfl, -⟩
  · exact h.ne_nil
  · exact List.cons_ne_nil _ _

theorem IsLexeme.ne_nil {next : List Char} {kind : Token.Kind} {text : String} {lexeme : List Char}
    (h : IsLexeme next kind text lexeme) : lexeme ≠ [] := by
  cases h with
  | ident h => exact h.holds.ne_nil
  | number h => exact h.holds.ne_nil
  | _ => exact List.cons_ne_nil _ _

theorem scan_of_tiles {before front rest : List Char} {ts : List Token}
    (h : Tiles before front rest ts) (hrest : rest = []) :
    (scan front).obstacle = none ∧ place (Pos.behind before) (scan front).pieces = ts := by
  have hmove : ∀ before cs, (Pos.behind before).after cs = Pos.behind (before ++ cs) := by
    intro before cs
    rw [← Pos.after_start, ← Pos.after_start, Pos.after_append]
  induction h with
  | nil => rw [scan]; exact ⟨rfl, rfl⟩
  | @blank before front rest c ts hc _ ih =>
    obtain ⟨hnone, hplace⟩ := ih hrest
    rw [scan_cons_ok (readLexeme_gap (isGap_iff.mpr hc) front)]
    refine ⟨hnone, ?_⟩
    rw [← hplace, ← hmove]
    rfl
  | @token before front rest lexeme kind text ts hlexeme _ ih =>
    obtain ⟨hnone, hplace⟩ := ih hrest
    rw [hrest, List.append_nil] at hlexeme
    obtain ⟨c, cs, hcs⟩ := List.exists_cons_of_ne_nil hlexeme.ne_nil
    have heq : c :: (cs ++ front) = lexeme ++ front := by
      rw [hcs]
      rfl
    have hscan := scan_cons_ok (readLexeme_of_isLexeme hlexeme heq)
    rw [← List.cons_append, ← hcs] at hscan
    rw [hscan]
    refine ⟨hnone, ?_⟩
    rw [← hplace, ← hmove]
    rfl

/-- The tokens of a text are those that tile it, and the mark of its end. -/
theorem lex_eq_ok_iff_tiles {cs : List Char} {ts : List Token} :
    lex cs = .ok ts ↔ ∃ body, ts = body ++ [.finishAt (Pos.behind cs)] ∧ Tiles [] cs [] body := by
  constructor
  · intro h
    have htiles := lex_tiles cs
    rw [h] at htiles
    obtain ⟨body, rfl, htiles, -⟩ := htiles
    exact ⟨body, rfl, htiles⟩
  · rintro ⟨body, rfl, htiles⟩
    obtain ⟨hnone, hplace⟩ := scan_of_tiles htiles rfl
    rw [lex_eq_ok_iff, spellings_eq hnone, Pos.after_start]
    exact ⟨hnone, hplace ▸ rfl⟩

/-! ## Tokens to be written -/

/-- A token to be written: a name is a word that is no literal, and a text is any text, with the quote
    that it is written between. -/
inductive Spelling
  | lineBreak
  | dot
  | comma
  | leftParen
  | rightParen
  | yes
  | no
  | ident (w : List Char) (hword : IsWord w) (hyes : w ≠ "true".toList) (hno : w ≠ "false".toList)
  | number (w : List Char) (hnumber : IsNumber w)
  | str (quote : Char) (content : List Char) (hquote : quote ∈ ['\'', '"'])

namespace Spelling

def kind : Spelling → Token.Kind
  | lineBreak => .lineBreak
  | dot => .dot
  | comma => .comma
  | leftParen => .leftParen
  | rightParen => .rightParen
  | yes => .yes
  | no => .no
  | ident .. => .ident
  | number .. => .number
  | str .. => .str

def text : Spelling → String
  | lineBreak => "\\n"
  | dot => "."
  | comma => ","
  | leftParen => "("
  | rightParen => ")"
  | yes => "true"
  | no => "false"
  | ident w .. | number w .. => String.ofList w
  | str _ content _ => String.ofList content

/-- The characters that the token is written with. In a text the backslashes, the quotes of its kind and
    the line breaks are escaped. -/
def chars : Spelling → List Char
  | lineBreak => ['\n']
  | dot => ['.']
  | comma => [',']
  | leftParen => ['(']
  | rightParen => [')']
  | yes => "true".toList
  | no => "false".toList
  | ident w .. | number w .. => w
  | str quote content _ => quote :: escapeIn quote content ++ [quote]

end Spelling

/-! ## Where words and numbers end -/

/-- A text that reaches as far as it can does so whatever stands behind `r`, if it cannot go on with
    it. -/
theorem Longest.of_stop {P : List Char → Prop} {goesOn : Char → Prop} {w r next next' : List Char}
    (htail : ∀ c cs, P (c :: cs) → ∀ d ∈ cs, goesOn d) (hne : w ≠ [])
    (h : Longest P w (w ++ (r ++ next))) (hnext : ∀ c ∈ next'.head?, ¬ goesOn c) :
    Longest P w (w ++ (r ++ next')) := by
  refine ⟨List.prefix_append _ _, h.holds, fun v hv hP => ?_⟩
  rw [← List.append_assoc] at h hv
  rcases List.prefix_or_prefix_of_prefix hv (List.prefix_append (w ++ r) next') with hshort | hlong
  · exact h.length_le v (hshort.trans (List.prefix_append _ _)) hP
  · obtain ⟨more, rfl⟩ := hlong
    rw [List.prefix_append_right_inj] at hv
    cases more with
    | nil =>
      rw [List.append_nil] at hP ⊢
      exact h.length_le _ (List.prefix_append _ _) hP
    | cons d more =>
      obtain ⟨c, cs, rfl⟩ := List.exists_cons_of_ne_nil hne
      obtain ⟨rest, rfl⟩ := hv
      exact absurd (htail c _ hP d (by simp)) (hnext d rfl)

theorem longest_self {P : List Char → Prop} {w : List Char} (h : P w) : Longest P w (w ++ []) := by
  rw [List.append_nil]
  exact ⟨List.prefix_refl w, h, fun v hv _ => hv.length_le⟩

/-- Digits and a point. -/
def isNumberPart (c : Char) : Bool := c.isDigit || c = '.'

theorem IsUnsigned.parts {w : List Char} (h : IsUnsigned w) : ∀ d ∈ w, isNumberPart d = true := by
  have hpart : ∀ {ds : List Char}, Text.isDigits ds = true → ∀ d ∈ ds, isNumberPart d = true := by
    intro ds hds d hd
    rw [isNumberPart, (digits_of_isDigits hds).2 d hd]
    rfl
  obtain ⟨whole, fraction, rfl, hwhole, hfraction⟩ := h
  rw [List.forall_mem_append]
  refine ⟨hpart hwhole, ?_⟩
  rcases hfraction with rfl | ⟨ds, rfl, hds⟩
  · exact List.forall_mem_nil _
  · exact List.forall_mem_cons.mpr ⟨by decide, hpart hds⟩

theorem IsNumber.tail {c : Char} {cs : List Char} (h : IsNumber (c :: cs)) :
    ∀ d ∈ cs, isNumberPart d = true := by
  rcases h with h | ⟨u, heq, h⟩
  · exact fun d hd => h.parts d (List.mem_cons_of_mem _ hd)
  · obtain ⟨-, rfl⟩ := List.cons.inj heq
    exact h.parts

/-- A lexeme stays one when something else that ends words and numbers comes to stand behind it, or
    behind what follows it. -/
theorem IsLexeme.of_stop {r next next' : List Char} {kind : Token.Kind} {text : String}
    {lexeme : List Char} (h : IsLexeme (r ++ next) kind text lexeme)
    (hnext : ∀ c ∈ next'.head?, Ends c) : IsLexeme (r ++ next') kind text lexeme := by
  have hword : ∀ {v}, Longest IsWord v (v ++ (r ++ next)) → Longest IsWord v (v ++ (r ++ next')) :=
    fun hv => hv.of_stop (fun c cs h => h.2) hv.holds.ne_nil fun c hc => by simp [(hnext c hc).notWord]
  cases h with
  | lineBreak => exact .lineBreak
  | dot => exact .dot
  | comma => exact .comma
  | leftParen => exact .leftParen
  | rightParen => exact .rightParen
  | yes hv => exact .yes (hword hv)
  | no hv => exact .no (hword hv)
  | ident hv hyes hno => exact .ident (hword hv) hyes hno
  | number hv =>
    refine .number (hv.of_stop (fun c cs => IsNumber.tail) hv.holds.ne_nil fun c hc => ?_)
    simp [isNumberPart, (hnext c hc).notDigit, (hnext c hc).notDot]
  | str hquote hbody => exact .str hquote hbody

/-- A token as it is written is a lexeme at the end of a text, -/
theorem Spelling.isLexeme_nil (w : Spelling) : IsLexeme [] w.kind w.text w.chars := by
  cases w with
  | lineBreak => exact .lineBreak
  | dot => exact .dot
  | comma => exact .comma
  | leftParen => exact .leftParen
  | rightParen => exact .rightParen
  | yes =>
    have htrue : IsWord ['t', 'r', 'u', 'e'] := ⟨by decide, by simp [isWordPart]⟩
    exact .yes (longest_self htrue)
  | no =>
    have hfalse : IsWord ['f', 'a', 'l', 's', 'e'] := ⟨by decide, by simp [isWordPart]⟩
    exact .no (longest_self hfalse)
  | ident v hv hyes hno => exact .ident (longest_self hv) hyes hno
  | number v hv => exact .number (longest_self hv)
  | str quote content hquote =>
    have hbody := quoted_of_splitQuoted (splitQuoted_escapeIn (isQuote_iff.mpr hquote) content [])
    rw [unescape_escapeIn (isQuote_iff.mpr hquote)] at hbody
    exact .str hquote hbody

/-- and in front of what ends words and numbers. -/
theorem Spelling.isLexeme (w : Spelling) {next : List Char} (hnext : ∀ c ∈ next.head?, Ends c) :
    IsLexeme next w.kind w.text w.chars := by
  have hlexeme : IsLexeme ([] ++ []) w.kind w.text w.chars := w.isLexeme_nil
  exact hlexeme.of_stop hnext

/-! ## Tokens with blanks between them -/

/-- Blanks that may stand between tokens. -/
structure Gap where
  chars : List Char
  blank : ∀ c ∈ chars, c ∈ [' ', '\t', '\r']

/-- Tokens as they are written in order, each with the blanks behind it. -/
def spelledChars (items : List (Spelling × Gap)) : List Char :=
  items.flatMap fun i => i.1.chars ++ i.2.chars

/-- The tokens of what is written behind `before`. -/
def tokensBehind (before : List Char) : List (Spelling × Gap) → List Token
  | [] => []
  | i :: items =>
    ⟨i.1.kind, i.1.text, Pos.behind before⟩ :: tokensBehind (before ++ i.1.chars ++ i.2.chars) items

theorem map_tokensBehind (before : List Char) (items : List (Spelling × Gap)) :
    (tokensBehind before items).map (fun t => (t.kind, t.text)) =
      items.map fun i => (i.1.kind, i.1.text) := by
  induction items generalizing before with
  | nil => rfl
  | cons i items ih => rw [tokensBehind, List.map_cons, List.map_cons, ih]

theorem Tiles.blanks (gap : Gap) {before front rest : List Char} {ts : List Token}
    (h : Tiles (before ++ gap.chars) front rest ts) : Tiles before (gap.chars ++ front) rest ts := by
  obtain ⟨chars, hblank⟩ := gap
  induction chars generalizing before with
  | nil => rwa [List.append_nil] at h
  | cons c chars ih =>
    rw [List.forall_mem_cons] at hblank
    rw [List.append_cons] at h
    exact .blank hblank.1 (ih hblank.2 h)

theorem ends_of_gap (gap : Gap) (hne : gap.chars ≠ []) (next : List Char) :
    ∀ c ∈ (gap.chars ++ next).head?, Ends c := by
  obtain ⟨g, gs, hgap⟩ := List.exists_cons_of_ne_nil hne
  rw [hgap]
  rintro _ ⟨⟩
  exact ends_of_isGap (isGap_iff.mpr (gap.blank g (hgap ▸ List.mem_cons_self ..)))

/-- Each token ends where the blanks behind it begin, and the last one at the end at the latest. -/
theorem tiles_spelled {items : List (Spelling × Gap)} (h : ∀ i ∈ items.dropLast, i.2.chars ≠ [])
    (before : List Char) : Tiles before (spelledChars items) [] (tokensBehind before items) := by
  induction items generalizing before with
  | nil => exact .nil
  | cons i items ih =>
    have htail : ∀ j ∈ items.dropLast, j.2.chars ≠ [] := by
      intro j hj
      cases items with
      | nil => cases hj
      | cons k items => exact h j (List.mem_cons_of_mem _ hj)
    have hnext : ∀ c ∈ (i.2.chars ++ spelledChars items).head?, Ends c := by
      by_cases hgap : i.2.chars = []
      · cases items with
        | nil =>
          rw [hgap]
          rintro _ ⟨⟩
        | cons k items => exact absurd hgap (h i (List.mem_cons_self ..))
      · exact ends_of_gap i.2 hgap _
    have hlexeme := i.1.isLexeme hnext
    rw [← List.append_nil (i.2.chars ++ _)] at hlexeme
    have hchars : spelledChars (i :: items) = i.1.chars ++ (i.2.chars ++ spelledChars items) := by
      rw [spelledChars, List.flatMap_cons, List.append_assoc]
      rfl
    rw [hchars]
    exact .token hlexeme (.blanks i.2 (ih htail _))

/-- Tokens that are written in order, with blanks between neighbours, are read back: the text has just
    their kinds and texts, each token at its place, and the mark of the end behind them. -/
theorem lex_spelled (lead : Gap) (items : List (Spelling × Gap))
    (h : ∀ i ∈ items.dropLast, i.2.chars ≠ []) :
    lex (lead.chars ++ spelledChars items) = .ok (tokensBehind lead.chars items ++
        [⟨.finish, "EOF", Pos.behind (lead.chars ++ spelledChars items)⟩]) ∧
      (tokensBehind lead.chars items).map (fun t => (t.kind, t.text)) =
        items.map fun i => (i.1.kind, i.1.text) := by
  refine ⟨lex_eq_ok_iff_tiles.mpr ⟨_, rfl, .blanks lead ?_⟩, map_tokensBehind _ _⟩
  exact tiles_spelled h _

/-- A name, two texts that hold backslashes, quotes and a line break, and a number behind a line break. -/
theorem lex_spelled_quotes :
    let blank : Gap := ⟨[' '], by simp⟩
    let items : List (Spelling × Gap) := [
      (.ident ['_', 'a'] ⟨by decide, by simp [isWordPart]⟩ (by simp) (by simp), blank),
      (.str '\'' "it's \"\\".toList (by simp), ⟨['\t', '\r'], by simp⟩),
      (.str '"' "\\\"\n'".toList (by simp), blank), (.lineBreak, blank),
      (.number ['-', '1', '.', '5'] (.inr ⟨_, rfl, ['1'], ['.', '5'], rfl, rfl, .inr ⟨_, rfl, rfl⟩⟩),
        ⟨[], by simp⟩)]
    (∀ i ∈ items.dropLast, i.2.chars ≠ []) ∧
      lex " _a 'it\\'s \"\\\\'\t\r\"\\\\\\\"\\n'\" \n -1.5".toList =
        .ok [⟨.ident, "_a", ⟨1, 2⟩⟩, ⟨.str, "it's \"\\", ⟨1, 5⟩⟩, ⟨.str, "\\\"\n'", ⟨1, 18⟩⟩,
          ⟨.lineBreak, "\\n", ⟨1, 28⟩⟩, ⟨.number, "-1.5", ⟨2, 2⟩⟩, ⟨.finish, "EOF", ⟨2, 6⟩⟩] := by
  intro blank items
  have hbetween : ∀ i ∈ items.dropLast, i.2.chars ≠ [] := by simp [items, blank]
  have hchars : blank.chars ++ spelledChars items =
      " _a 'it\\'s \"\\\\'\t\r\"\\\\\\\"\\n'\" \n -1.5".toList := by decide +kernel
  have hplaces : Pos.behind (blank.chars ++ spelledChars items) = ⟨2, 6⟩ := by decide +kernel
  have htokens : tokensBehind blank.chars items = [⟨.ident, "_a", ⟨1, 2⟩⟩,
      ⟨.str, "it's \"\\", ⟨1, 5⟩⟩, ⟨.str, "\\\"\n'", ⟨1, 18⟩⟩, ⟨.lineBreak, "\\n", ⟨1, 28⟩⟩,
      ⟨.number, "-1.5", ⟨2, 2⟩⟩] := by decide +kernel
  have hlex := (lex_spelled blank items hbetween).1
  rw [hplaces, hchars, htokens] at hlex
  exact ⟨hbetween, hlex⟩

end Tariff.Source
