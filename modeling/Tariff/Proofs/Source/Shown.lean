/-
  What messages repeat of a text. A message consists of fixed text and of pieces of its source
  (`Composed`): stretches of one line as they are written, and what quoted strings mean, with the blanks
  at their ends or without them (`Shown`). The names, the literals and the syntax errors of a text are
  such pieces. A line break gets into a message only by a quoted string in which one is written as an
  escape (`Composed.break_iff`).
-/
import Tariff.Proofs.Source.Refusal
import Tariff.Proofs.Source.Tiling

namespace Tariff.Source

/-! ## Fixed text and pieces of a source -/

/-- Printable characters of ASCII and blanks, as in the fixed parts of messages. -/
def Printable (cs : List Char) : Prop := ∀ c ∈ cs, 32 ≤ c.toNat ∧ c.toNat ≤ 126

instance (cs : List Char) : Decidable (Printable cs) := List.decidableBAll _ cs

/-- What a message repeats of a text. -/
inductive Shown (text : List Char) : List Char → Prop
  | asWritten {cs : List Char} (h : cs <:+: text) (hline : '\n' ∉ cs) : Shown text cs
  | content {quote : Char} {body content : List Char} (hquote : quote ∈ ['\'', '"'])
      (h : Quoted quote body content) (htext : quote :: body ++ [quote] <:+: text) :
      Shown text content
  | trimmed {quote : Char} {body content : List Char} (hquote : quote ∈ ['\'', '"'])
      (h : Quoted quote body content) (htext : quote :: body ++ [quote] <:+: text) :
      Shown text (Text.trim content)

/-- Fixed text and what is shown of a text, one behind the other. -/
inductive Composed (text : List Char) : List Char → Prop
  | fixed {cs : List Char} (h : Printable cs) : Composed text cs
  | shown {cs : List Char} (h : Shown text cs) : Composed text cs
  | append {cs ds : List Char} (h : Composed text cs) (h' : Composed text ds) :
      Composed text (cs ++ ds)

theorem isInfix_trim (cs : List Char) : Text.trim cs <:+: cs :=
  (List.rdropWhile_prefix Text.isBlank (Text.trimStart cs)).isInfix.trans
    (List.dropWhile_suffix Text.isBlank).isInfix

theorem Shown.trim {text cs : List Char} (h : Shown text cs) : Shown text (Text.trim cs) := by
  cases h with
  | asWritten h hline => exact .asWritten ((isInfix_trim cs).trans h) (mt Text.mem_of_mem_trim hline)
  | content hquote h htext => exact .trimmed hquote h htext
  | trimmed hquote h htext =>
    rw [Text.trim_eq_self (Text.trimmed_trim _)]
    exact .trimmed hquote h htext

/-! ## Line breaks -/

/-- The characters that can be taken for line breaks. -/
def breakChars : List Char := ['\n', '\x0b', '\x0c', '\r', '\u0085', '\u2028', '\u2029']

/-- A quoted string of the text has a line break in it, written as an escape, and the message repeats
    what the string means, with the blanks at its ends or without them. -/
def RepeatsBreak (text message : List Char) : Prop :=
  ∃ quote body content shown, quote ∈ ['\'', '"'] ∧ Quoted quote body content ∧
    quote :: body ++ [quote] <:+: text ∧ ['\\', 'n'] <:+: body ∧
      shown ∈ [content, Text.trim content] ∧ '\n' ∈ shown ∧ shown <:+: message

section

variable {text message message' : List Char} {quote : Char} {body content : List Char}

/-- A quoted string means a line break only by an escape. -/
theorem Quoted.escape_of_break (h : Quoted quote body content) (hbreak : '\n' ∈ content) :
    ['\\', 'n'] <:+: body := by
  induction h with
  | nil => cases hbreak
  | plain _ _ hc _ ih =>
    exact List.infix_cons (ih ((List.mem_cons.mp hbreak).resolve_left hc.symm))
  | @escape c d body content hc _ ih =>
    rcases List.mem_cons.mp hbreak with rfl | hbreak
    · have hn : c = 'n' := by simpa [escapes] using hc
      rw [hn]
      exact (List.prefix_append ['\\', 'n'] body).isInfix
    · exact List.infix_cons (List.infix_cons (ih hbreak))
  | @kept c body content _ hline _ ih =>
    have hcontent : '\n' ∈ content := by simpa [hline.symm] using hbreak
    exact List.infix_cons (List.infix_cons (ih hcontent))

/-- No escape means another character that can be taken for a line break. -/
theorem Quoted.mem_body (h : Quoted quote body content) {b : Char} (hb : b ∈ breakChars)
    (hne : b ≠ '\n') (hmem : b ∈ content) : b ∈ body := by
  have hback : b ≠ '\\' := by
    rintro rfl
    exact absurd hb (by decide)
  induction h with
  | nil => cases hmem
  | plain _ _ _ _ ih => exact List.mem_cons.mpr ((List.mem_cons.mp hmem).imp_right ih)
  | @escape c d body content hc _ ih =>
    rcases List.mem_cons.mp hmem with rfl | hmem
    · simp only [escapes, List.mem_cons, List.not_mem_nil, or_false, Prod.mk.injEq] at hc
      rcases hc with ⟨-, rfl⟩ | ⟨-, rfl⟩ | ⟨-, rfl⟩ | ⟨-, rfl⟩ | ⟨-, rfl⟩
      · exact absurd rfl hne
      all_goals exact absurd hb (by decide)
    · exact List.mem_cons_of_mem _ (List.mem_cons_of_mem _ (ih hmem))
  | kept _ _ _ ih =>
    rcases List.mem_cons.mp hmem with rfl | hmem
    · exact absurd rfl hback
    · exact List.mem_cons_of_mem _ (List.mem_cons.mpr ((List.mem_cons.mp hmem).imp_right ih))

theorem Printable.not_mem (h : Printable message) {b : Char} (hb : b ∈ breakChars) :
    b ∉ message := by
  intro hmem
  have hrange := h b hmem
  simp only [breakChars, List.mem_cons, List.not_mem_nil, or_false] at hb
  rcases hb with rfl | rfl | rfl | rfl | rfl | rfl | rfl <;> revert hrange <;> decide

theorem RepeatsBreak.mono (h : RepeatsBreak text message) (hle : message <:+: message') :
    RepeatsBreak text message' := by
  obtain ⟨quote, body, content, shown, hquote, hbody, htext, hescape, hshown, hbreak, hmessage⟩ := h
  exact ⟨quote, body, content, shown, hquote, hbody, htext, hescape, hshown, hbreak,
    hmessage.trans hle⟩

/-- The escape stands in the text. -/
theorem RepeatsBreak.escape (h : RepeatsBreak text message) : ['\\', 'n'] <:+: text := by
  obtain ⟨quote, body, _, _, _, _, htext, hbody, -⟩ := h
  have hinside : body <:+: quote :: body ++ [quote] := ⟨[quote], [quote], rfl⟩
  exact hbody.trans (hinside.trans htext)

theorem Shown.repeatsBreak (h : Shown text message) (hbreak : '\n' ∈ message) :
    RepeatsBreak text message := by
  cases h with
  | asWritten _ hline => exact absurd hbreak hline
  | content hquote h htext =>
    exact ⟨_, _, _, _, hquote, h, htext, h.escape_of_break hbreak, List.mem_cons_self .., hbreak,
      List.infix_rfl⟩
  | trimmed hquote h htext =>
    have hescape := h.escape_of_break (Text.mem_of_mem_trim hbreak)
    exact ⟨_, _, _, _, hquote, h, htext, hescape, List.mem_pair.mpr (Or.inr rfl), hbreak,
      List.infix_rfl⟩

/-- A message breaks its line exactly if it repeats a quoted string with an escaped line break. -/
theorem Composed.break_iff (h : Composed text message) :
    '\n' ∈ message ↔ RepeatsBreak text message := by
  constructor
  · intro hbreak
    induction h with
    | fixed h => exact absurd hbreak (h.not_mem (List.mem_cons_self ..))
    | shown h => exact h.repeatsBreak hbreak
    | append _ _ ih ih' =>
      rcases List.mem_append.mp hbreak with hbreak | hbreak
      · exact (ih hbreak).mono (List.prefix_append _ _).isInfix
      · exact (ih' hbreak).mono (List.suffix_append _ _).isInfix
  · rintro ⟨_, _, _, _, _, _, _, _, _, hbreak, hmessage⟩
    exact hmessage.subset hbreak

/-- All other line breaks of a message are taken from the text as they are. -/
theorem Composed.mem_text (h : Composed text message) {b : Char} (hb : b ∈ breakChars)
    (hne : b ≠ '\n') (hmem : b ∈ message) : b ∈ text := by
  induction h with
  | fixed h => exact absurd hmem (h.not_mem hb)
  | shown h =>
    have hquoted : ∀ {quote : Char} {body content : List Char}, Quoted quote body content →
        quote :: body ++ [quote] <:+: text → b ∈ content → b ∈ text := by
      intro quote body content h htext hmem
      have hbody := h.mem_body hb hne hmem
      exact htext.subset (List.mem_append_left _ (List.mem_cons_of_mem _ hbody))
    cases h with
    | asWritten h _ => exact h.subset hmem
    | content _ h htext => exact hquoted h htext hmem
    | trimmed _ h htext => exact hquoted h htext (Text.mem_of_mem_trim hmem)
  | append _ _ ih ih' => exact (List.mem_append.mp hmem).elim ih ih'

end

/-! ## Syntax errors -/

theorem IsWord.noBreak {w : List Char} (h : IsWord w) : '\n' ∉ w := by
  intro hmem
  cases w with
  | nil => cases hmem
  | cons c cs =>
    rcases List.mem_cons.mp hmem with rfl | hmem
    · exact absurd h.1 (by decide)
    · exact absurd (h.2 _ hmem) (by decide)

theorem IsUnsigned.noBreak {w : List Char} (h : IsUnsigned w) : '\n' ∉ w := by
  obtain ⟨whole, fraction, rfl, hwhole, hfraction⟩ := h
  have hdigits : ∀ {ds : List Char}, Text.isDigits ds = true → '\n' ∉ ds := fun hds hmem =>
    absurd ((digits_of_isDigits hds).2 _ hmem) (by decide)
  intro hmem
  rcases List.mem_append.mp hmem with hmem | hmem
  · exact hdigits hwhole hmem
  · rcases hfraction with rfl | ⟨ds, rfl, hds⟩
    · cases hmem
    · exact hdigits hds ((List.mem_cons.mp hmem).resolve_left (by decide))

theorem IsNumber.noBreak {w : List Char} (h : IsNumber w) : '\n' ∉ w := by
  rcases h with hw | ⟨u, rfl, hu⟩
  · exact hw.noBreak
  · exact fun hmem => hu.noBreak ((List.mem_cons.mp hmem).resolve_left (by decide))

section

variable {cs next lexeme : List Char} {text : String} {ts : List Token} {t : Token}

/-- The texts of names, numbers and strings are shown of the source. -/
theorem IsLexeme.shown {kind : Token.Kind} (h : IsLexeme next kind text lexeme)
    (hk : kind ∈ [.ident, .number, .str]) (hcs : lexeme <:+: cs) : Shown cs text.toList := by
  cases h with
  | ident h =>
    rw [String.toList_ofList]
    exact .asWritten hcs h.holds.noBreak
  | number h =>
    rw [String.toList_ofList]
    exact .asWritten hcs h.holds.noBreak
  | str hquote h =>
    rw [String.toList_ofList]
    exact .content hquote h hcs
  | _ => exact absurd hk (by decide)

theorem IsLexeme.composed {kind : Token.Kind} (h : IsLexeme next kind text lexeme)
    (hcs : lexeme <:+: cs) : Composed cs text.toList := by
  by_cases hk : kind ∈ [.ident, .number, .str]
  · exact .shown (h.shown hk hcs)
  · refine .fixed ?_
    cases h with
    | ident | number | str => exact absurd (by decide) hk
    | _ => decide

theorem composed_of_mem_lex (hlex : lex cs = .ok ts) (ht : t ∈ ts) : Composed cs t.text.toList := by
  by_cases hk : t.kind = .finish
  · obtain ⟨body, p, rfl, hbody⟩ := lex_shape hlex
    rcases List.mem_append.mp ht with hmem | hmem
    · exact absurd hk (hbody t hmem)
    · have hend : Printable "EOF".toList := by decide
      rw [List.mem_singleton.mp hmem]
      exact .fixed hend
  · obtain ⟨next, lexeme, hlexeme, hcs⟩ := lexeme_of_mem_lex hlex ht hk
    exact hlexeme.composed hcs

/-- What stands in the way of tokens is shown as it is written, as far as its line goes. -/
theorem shown_of_blocks {rest : List Char} {cause : SyntaxError.Cause} (h : Blocks rest cause text)
    (hcs : rest <:+: cs) : Shown cs text.toList := by
  cases h with
  | @unknown c tail _ _ hnone =>
    have hline : c ≠ '\n' := by
      rintro rfl
      exact hnone tail _ _ _ .lineBreak rfl
    rw [String.toList_singleton]
    refine .asWritten ((List.prefix_append [c] tail).isInfix.trans hcs) ?_
    exact fun hmem => hline (List.mem_singleton.mp hmem).symm
  | @unterminated quote tail hquote _ =>
    have hfront : quote :: tail.takeWhile (· ≠ '\n') <+: quote :: tail :=
      List.cons_prefix_cons.mpr ⟨rfl, List.takeWhile_prefix _⟩
    rw [String.toList_ofList]
    refine .asWritten (hfront.isInfix.trans hcs) fun hmem => ?_
    rcases List.mem_cons.mp hmem with hmem | hmem
    · exact (quote_ne hquote).2 hmem.symm
    · exact absurd (takeWhile_holds tail _ hmem) (by decide)

theorem shown_of_lex_error {e : SyntaxError} (h : lex cs = .error e) : Shown cs e.text.toList := by
  obtain ⟨rest, hrest, -, hend⟩ := scan_tiles [] cs
  unfold lex at h
  split at hend
  · next hnone =>
    simp only [hnone] at h
    cases h
  · next o hsome =>
    simp only [hsome] at h
    cases h
    have hsuffix : rest <:+ cs := ⟨_, hrest⟩
    exact shown_of_blocks hend hsuffix.isInfix

theorem exists_unexpected_of_parse_error {e : SyntaxError} (hlex : lex cs = .ok ts)
    (h : parse cs = .error e) : ∃ t ∈ ts, e = t.unexpected := by
  unfold parse at h
  rw [hlex] at h
  obtain ⟨us, t, after, hsplit, he, -⟩ := readStatements_refuses (ended_of_lex hlex).skipBreaks h
  obtain ⟨lead, -, hbreaks⟩ := skipBreaks_split ts
  refine ⟨t, ?_, he⟩
  rw [hbreaks, hsplit]
  simp

theorem composed_of_parse_error {e : SyntaxError} (h : parse cs = .error e) :
    Composed cs e.text.toList := by
  cases hlex : lex cs with
  | error e' =>
    rw [parse, hlex] at h
    cases h
    exact .shown (shown_of_lex_error hlex)
  | ok ts =>
    obtain ⟨t, ht, rfl⟩ := exists_unexpected_of_parse_error hlex h
    exact composed_of_mem_lex hlex ht

/-! ## Statements -/

/-- The text of a literal is shown of the source; a flag is none of it. -/
def Literal.ShownIn (cs : List Char) : Literal → Prop
  | .str text | .number text => Shown cs text.toList
  | .flag _ => True

/-- The names and the literals of a statement are shown of the source. -/
structure Statement.ShownIn (cs : List Char) (s : Statement) : Prop where
  names : ∀ c ∈ s.calls, Shown cs c.name.toList
  literals : ∀ l ∈ s.literals, l.ShownIn cs

theorem Literal.ShownIn.composed {l : Literal} (h : l.ShownIn cs) : Composed cs l.text.toList := by
  cases l with
  | str text => exact .shown h
  | number text => exact .shown h
  | flag b => exact .fixed (by cases b <;> decide)

theorem Literal.ShownIn.composed_trim {l : Literal} (h : l.ShownIn cs) :
    Composed cs (Text.trim l.text.toList) := by
  cases l with
  | str text => exact .shown (Shown.trim h)
  | number text => exact .shown (Shown.trim h)
  | flag b => exact .fixed (by cases b <;> decide)

theorem Statement.ShownIn.args {s : Statement} (h : s.ShownIn cs) {c : Call} (hc : c ∈ s.calls) :
    ∀ l ∈ c.args, l.ShownIn cs := by
  intro l hl
  cases s with
  | literal value pos => cases hc
  | chain head rest => exact h.literals l (List.mem_flatMap.mpr ⟨c, hc, hl⟩)

theorem name_shown (hlex : lex cs = .ok ts) (ht : t ∈ ts) {name : String} {p : Pos}
    (hname : t.name? = some (name, p)) : Shown cs name.toList := by
  unfold Token.name? at hname
  rw [Option.ite_none_right_eq_some] at hname
  obtain ⟨hk, heq⟩ := hname
  cases heq
  obtain ⟨next, lexeme, hlexeme, hcs⟩ := lexeme_of_mem_lex hlex ht (by rw [hk]; decide)
  exact hlexeme.shown (by rw [hk]; decide) hcs

theorem literal_shownIn (hlex : lex cs = .ok ts) (ht : t ∈ ts) {l : Literal}
    (hl : t.literal? = some l) : l.ShownIn cs := by
  have htext : t.kind ∈ [.ident, .number, .str] → Shown cs t.text.toList := by
    intro hk
    have hfinish : t.kind ≠ .finish := by
      intro hfinish
      rw [hfinish] at hk
      exact absurd hk (by decide)
    obtain ⟨next, lexeme, hlexeme, hcs⟩ := lexeme_of_mem_lex hlex ht hfinish
    exact hlexeme.shown hk hcs
  cases derivesLiteral_iff.mpr hl with
  | str hk => exact htext (by rw [hk]; decide)
  | number hk => exact htext (by rw [hk]; decide)
  | _ => exact trivial

theorem shownIn_of_parse {p : List Statement} (h : parse cs = .ok p) :
    ∀ s ∈ p, s.ShownIn cs := by
  cases hlex : lex cs with
  | error e =>
    rw [parse, hlex] at h
    cases h
  | ok ts =>
    have hp := (parse_eq_ok_iff hlex).mp h
    intro s hs
    constructor
    · intro c hc
      have hmem : (c.name, c.pos) ∈ ts.filterMap Token.name? := by
        rw [hp.names]
        exact List.mem_map_of_mem (List.mem_flatMap.mpr ⟨s, hs, hc⟩)
      obtain ⟨t, ht, hname⟩ := List.mem_filterMap.mp hmem
      exact name_shown hlex ht hname
    · intro l hl
      have hmem : l ∈ ts.filterMap Token.literal? := by
        rw [hp.literals]
        exact List.mem_flatMap.mpr ⟨s, hs, hl⟩
      obtain ⟨t, ht, hliteral⟩ := List.mem_filterMap.mp hmem
      exact literal_shownIn hlex ht hliteral

end

end Tariff.Source
