/-
  A text read as one statement and as several. Both ways accept the texts of one statement alike; what
  `parseStatement` refuses besides is the token behind the first statement and the line breaks that
  follow it, and `parse` refuses none before that one (`parseStatement_agrees`). Which of two tokens
  stands first is also said of their places, which never go back along a text (`pairwise_lex`).
-/
import Tariff.Proofs.Source.LineStatements
import Tariff.Proofs.Source.Refusal

namespace Tariff.Source

/-! ## The order of places -/

/-- The order in which places come in a text. -/
instance : LE Pos := ⟨fun p q => p.line < q.line ∨ p.line = q.line ∧ p.column ≤ q.column⟩

namespace Pos

theorem le_iff {p q : Pos} :
    p ≤ q ↔ p.line < q.line ∨ p.line = q.line ∧ p.column ≤ q.column := Iff.rfl

theorem le_refl (p : Pos) : p ≤ p := Or.inr ⟨rfl, Nat.le_refl _⟩

theorem le_trans {p q r : Pos} (h : p ≤ q) (h' : q ≤ r) : p ≤ r := by
  rw [le_iff] at h h' ⊢
  omega

theorem le_next (p : Pos) (c : Char) : p ≤ p.next c := by
  rw [le_iff]
  unfold next
  split
  · exact Or.inl (Nat.lt_succ_self _)
  · exact Or.inr ⟨rfl, Nat.le_succ _⟩

theorem le_after (p : Pos) (cs : List Char) : p ≤ p.after cs := by
  induction cs generalizing p with
  | nil => exact le_refl p
  | cons c cs ih => exact le_trans (p.le_next c) (ih _)

end Pos

/-- The tokens of pieces stand one behind the other, none before the place where the pieces begin. -/
theorem pairwise_place (p : Pos) (ps : List Lexeme) :
    (∀ t ∈ place p ps, p ≤ t.pos) ∧ (place p ps).Pairwise fun t u => t.pos ≤ u.pos := by
  fun_induction place p ps with
  | case1 p => exact ⟨List.forall_mem_nil _, List.Pairwise.nil⟩
  | case2 p c ps ih => exact ⟨fun t ht => Pos.le_trans (p.le_next c) (ih.1 t ht), ih.2⟩
  | case3 p kind text spelling ps ih =>
    have hbehind := fun t ht => Pos.le_trans (p.le_after spelling) (ih.1 t ht)
    exact ⟨List.forall_mem_cons.mpr ⟨p.le_refl, hbehind⟩, List.pairwise_cons.mpr ⟨hbehind, ih.2⟩⟩

/-- The places of the tokens of a text do not go back. -/
theorem pairwise_lex {cs : List Char} {ts : List Token} (h : lex cs = .ok ts) :
    ts.Pairwise fun t u => t.pos ≤ u.pos := by
  -- The mark of the end is placed like a piece without characters.
  have hplace := (pairwise_place .start ((scan cs).pieces ++ [.token .finish "EOF" []])).2
  rw [place_append] at hplace
  rw [(lex_eq_ok_iff.mp h).2]
  exact hplace

/-! ## The first statement and what follows it -/

/-- The tokens begin with those of the statement `s`, with line breaks in front of them or not, and go on
    behind further line breaks with `rest`. -/
def FirstThen (ts : List Token) (s : Statement) (rest : List Token) : Prop :=
  ∃ lead us breaks, ts = lead ++ us ++ breaks ++ rest ∧ Breaks lead ∧ DerivesStatement us s ∧
    Breaks breaks ∧ breaks ≠ [] ∧ (current rest).kind ≠ .lineBreak

theorem firstThen_of_readStatement {ts rest : List Token} {s : Statement}
    (h : readStatement (skipBreaks ts) = .ok (s, rest)) (hk : (current rest).kind = .lineBreak) :
    FirstThen ts s (skipBreaks rest) := by
  obtain ⟨lead, hlead, hts⟩ := skipBreaks_split ts
  obtain ⟨us, hus, hsplit⟩ := readStatement_sound h
  obtain ⟨breaks, hbreaks, hrest⟩ := skipBreaks_split rest
  refine ⟨lead, us, breaks, ?_, hlead, hus, hbreaks, ?_, current_skipBreaks rest⟩
  · rw [List.append_assoc, ← hrest, List.append_assoc, ← hsplit]
    exact hts
  · rintro rfl
    rw [List.nil_append] at hrest
    exact current_skipBreaks rest (hrest ▸ hk)

/-- What comes behind the first statement is placed no earlier than its first token. -/
theorem FirstThen.pos_le {cs : List Char} {ts rest : List Token} {s : Statement} {t : Token}
    (h : FirstThen ts s (t :: rest)) (hlex : lex cs = .ok ts) : ∀ u ∈ t :: rest, t.pos ≤ u.pos := by
  obtain ⟨lead, us, breaks, rfl, -⟩ := h
  have hrest := (List.pairwise_append.mp (pairwise_lex hlex)).2.1
  exact List.forall_mem_cons.mpr ⟨t.pos.le_refl, (List.pairwise_cons.mp hrest).1⟩

section

variable {cs : List Char} {ts rest : List Token} {s : Statement} {e : SyntaxError}

theorem parseStatement_error (hlex : lex cs = .ok ts) (h : readStatement (skipBreaks ts) = .error e) :
    parseStatement cs = .error e := by
  simp [parseStatement, hlex, h]

theorem parseStatement_end (hlex : lex cs = .ok ts)
    (h : readStatement (skipBreaks ts) = .ok (s, rest))
    (hnext : (current (skipBreaks rest)).kind = .finish) : parseStatement cs = .ok s := by
  simp [parseStatement, hlex, h, hnext]

theorem parseStatement_refuse (hlex : lex cs = .ok ts)
    (h : readStatement (skipBreaks ts) = .ok (s, rest))
    (hnext : (current (skipBreaks rest)).kind ≠ .finish) :
    parseStatement cs = .error (refuse (skipBreaks rest)) := by
  simp [parseStatement, hlex, h, hnext]

theorem parse_lexed (hlex : lex cs = .ok ts) : parse cs = readStatements (skipBreaks ts) := by
  rw [parse, hlex]

theorem exists_lex_of_parse {p : List Statement} (h : parse cs = .ok p) : ∃ ts, lex cs = .ok ts := by
  cases hlex : lex cs with
  | ok ts => exact ⟨ts, rfl⟩
  | error e =>
    rw [parse, hlex] at h
    cases h

end

/-! ## Both ways of reading -/

section

variable {cs : List Char} {s : Statement}

theorem parseStatement_of_parse (h : parse cs = .ok [s]) : parseStatement cs = .ok s := by
  obtain ⟨ts, hlex⟩ := exists_lex_of_parse h
  rw [parse_lexed hlex] at h
  obtain ⟨s', rest, hread, -, ⟨heq, hend⟩ | ⟨ss, heq, -, hss⟩⟩ := readStatements_cases h
  · cases heq
    exact parseStatement_end hlex hread hend
  · obtain ⟨-, rfl⟩ := List.cons.inj heq
    exact absurd rfl (readStatements_front hss).1

/-- Of several statements, the first token of the second one is refused. -/
theorem parseStatement_of_parse_more {s' : Statement} {ss : List Statement}
    (h : parse cs = .ok (s :: s' :: ss)) :
    ∃ ts t us rest, lex cs = .ok ts ∧ FirstThen ts s (t :: us ++ rest) ∧
      DerivesStatement (t :: us) s' ∧ parseStatement cs = .error t.unexpected := by
  obtain ⟨ts, hlex⟩ := exists_lex_of_parse h
  rw [parse_lexed hlex] at h
  obtain ⟨s₁, rest, hread, -, ⟨heq, -⟩ | ⟨ss', heq, hk, hss⟩⟩ := readStatements_cases h
  · cases heq
  · cases heq
    obtain ⟨us, vs, trail, rest', s₂, ss', heq, hus, -, -, -, hsplit⟩ := readStatements_sound hss
    cases heq
    obtain ⟨t, us, rfl, -⟩ := hus.front
    rw [List.append_assoc, List.append_assoc] at hsplit
    have hfirst := firstThen_of_readStatement hread hk
    have hnext : (current (skipBreaks rest)).kind ≠ .finish := by
      intro hend
      have hfront := (readStatements_front hss).2
      rw [hend] at hfront
      cases hfront
    have hrefuse := parseStatement_refuse hlex hread hnext
    rw [hsplit] at hfirst hrefuse
    exact ⟨ts, t, us, _, hlex, hfirst, hus, hrefuse⟩

/-- Where `parse` fails, `parseStatement` fails with the same error, or before it, behind the first
    statement. -/
theorem parseStatement_of_parse_error {e : SyntaxError} (h : parse cs = .error e) :
    parseStatement cs = .error e ∨
      ∃ ts s t rest, lex cs = .ok ts ∧ FirstThen ts s (t :: rest) ∧
        parseStatement cs = .error t.unexpected ∧ (∃ u ∈ t :: rest, e = u.unexpected) ∧
        t.pos ≤ e.pos := by
  cases hlex : lex cs with
  | error e' =>
    rw [parse, hlex] at h
    cases h
    exact Or.inl (by simp [parseStatement, hlex])
  | ok ts =>
    rw [parse_lexed hlex] at h
    rcases readStatements_error_cases h with herror | ⟨s, rest, hread, hrest⟩
    · exact Or.inl (parseStatement_error hlex herror)
    rcases hrest with ⟨hstray, rfl⟩ | ⟨hk, hnext, herror⟩
    · have hskip : skipBreaks rest = rest := skipBreaks_eq_self (ne_lineBreak_of_not_isBoundary hstray)
      have hfin : (current rest).kind ≠ .finish := by
        intro hfin
        rw [hfin] at hstray
        cases hstray
      rw [← hskip] at hfin
      refine Or.inl ((parseStatement_refuse hlex hread hfin).trans ?_)
      rw [hskip]
    · have hended := (ended_of_lex hlex).skipBreaks
      obtain ⟨us, hus, hsplit⟩ := readStatement_sound hread
      rw [hsplit] at hended
      have hlater := (hended.behind hus.isBoundary_eq_false).skipBreaks
      obtain ⟨vs, u, after, hrefused, rfl, -⟩ := readStatements_refuses hlater herror
      have hu : u ∈ skipBreaks rest := by simp [hrefused]
      have hfirst := firstThen_of_readStatement hread hk
      have hrefuse := parseStatement_refuse hlex hread hnext
      obtain ⟨t, rest', hcons⟩ := List.exists_cons_of_ne_nil hlater.ne_nil
      rw [hcons] at hfirst hrefuse hu
      exact Or.inr ⟨ts, s, t, rest', rfl, hfirst, hrefuse, ⟨u, hu, rfl⟩, hfirst.pos_le hlex u hu⟩

end

/-- A text is read as one statement exactly when it is read as a program of this statement alone. Of a
    text with more statements than one the first token of the second is refused. Where the text is no
    program, it is no statement either: the same token is refused, or one that comes before it or is
    it, the first behind the first statement and the line breaks that follow this. -/
theorem parseStatement_agrees (cs : List Char) :
    (∀ s, parseStatement cs = .ok s ↔ parse cs = .ok [s]) ∧
    (∀ s s' ss, parse cs = .ok (s :: s' :: ss) →
      ∃ ts t us rest, lex cs = .ok ts ∧ FirstThen ts s (t :: us ++ rest) ∧
        DerivesStatement (t :: us) s' ∧ parseStatement cs = .error t.unexpected) ∧
    ∀ e, parse cs = .error e →
      parseStatement cs = .error e ∨
        ∃ ts s t rest, lex cs = .ok ts ∧ FirstThen ts s (t :: rest) ∧
          parseStatement cs = .error t.unexpected ∧ (∃ u ∈ t :: rest, e = u.unexpected) ∧
          t.pos ≤ e.pos :=
  ⟨fun _ => ⟨parse_of_parseStatement, parseStatement_of_parse⟩,
    fun _ _ _ => parseStatement_of_parse_more, fun _ => parseStatement_of_parse_error⟩

/-- One statement between line breaks; two statements; and a second statement that is cut off, where
    `parse` goes on to the end of the text. -/
theorem parseStatement_agrees_cut_off :
    (parse "\na\n".toList = .ok [.chain ⟨"a", [], ⟨2, 1⟩⟩ []] ∧
      parseStatement "\na\n".toList = .ok (.chain ⟨"a", [], ⟨2, 1⟩⟩ [])) ∧
    (parse "1\n\nb".toList = .ok [.literal (.number "1") ⟨1, 1⟩, .chain ⟨"b", [], ⟨3, 1⟩⟩ []] ∧
      ∃ ts t us rest, lex "1\n\nb".toList = .ok ts ∧
        FirstThen ts (.literal (.number "1") ⟨1, 1⟩) (t :: us ++ rest) ∧
        DerivesStatement (t :: us) (.chain ⟨"b", [], ⟨3, 1⟩⟩ []) ∧
        parseStatement "1\n\nb".toList = .error t.unexpected) ∧
    (parse "a\nb.".toList = .error ⟨.token .finish, "EOF", ⟨2, 3⟩⟩ ∧
      ∃ ts s t rest, lex "a\nb.".toList = .ok ts ∧ FirstThen ts s (t :: rest) ∧
        parseStatement "a\nb.".toList = .error t.unexpected ∧ t.pos ≤ ⟨2, 3⟩) := by
  have hone : parse "\na\n".toList = .ok [.chain ⟨"a", [], ⟨2, 1⟩⟩ []] := by decide +kernel
  have htwo : parse "1\n\nb".toList =
      .ok [.literal (.number "1") ⟨1, 1⟩, .chain ⟨"b", [], ⟨3, 1⟩⟩ []] := by decide +kernel
  have hcut : parse "a\nb.".toList = .error ⟨.token .finish, "EOF", ⟨2, 3⟩⟩ := by decide +kernel
  have hother : parseStatement "a\nb.".toList ≠ .error ⟨.token .finish, "EOF", ⟨2, 3⟩⟩ := by
    decide +kernel
  refine ⟨⟨hone, ((parseStatement_agrees _).1 _).mpr hone⟩,
    ⟨htwo, (parseStatement_agrees _).2.1 _ _ _ htwo⟩, hcut, ?_⟩
  obtain hsame | ⟨ts, s, t, rest, hlex, hfirst, hrefuse, -, hle⟩ :=
    (parseStatement_agrees _).2.2 _ hcut
  · exact absurd hsame hother
  · exact ⟨ts, s, t, rest, hlex, hfirst, hrefuse, hle⟩

end Tariff.Source
