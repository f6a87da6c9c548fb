/-
  Where the readers give up. What a reader makes of tokens it makes of those up to some token `t`, and
  nothing behind `t` matters (`Decides`): it finds a derivation in front of `t`, or it refuses `t`, and
  then what stands in front of `t` is the front of a derivation. So an error of `parse` points at the
  first token with which the tokens of the text are no longer the front of a program
  (`parse_error_first`).
-/
import Tariff.Proofs.Source.Derivation

namespace Tariff.Source

/-! ## Deciding by the front -/

/-- Some token marks the end of the source. -/
def Ended (ts : List Token) : Prop := ∃ t ∈ ts, t.kind = .finish

/-- The tokens are the front of a derivation. -/
def Viable {α : Type} (derives : List Token → α → Prop) (ts : List Token) : Prop :=
  ∃ more x, derives (ts ++ more) x

/-- What a reader makes of the tokens, whatever follows `t`: it finds a derivation in front of `t`, or
    it refuses `t`, in front of which stands the front of a derivation. -/
inductive Decides {α : Type} (read : List Token → Read α) (derives : List Token → α → Prop)
    (ts : List Token) : Prop
  | takes (us : List Token) {rest : List Token} {t : Token} {x : α} (hts : ts = us ++ t :: rest)
      (h : derives us x) (hread : ∀ rest, read (us ++ t :: rest) = .ok (x, t :: rest))
  | refuses (us : List Token) {rest : List Token} {t : Token} (hts : ts = us ++ t :: rest)
      (h : Viable derives us) (hread : ∀ rest, read (us ++ t :: rest) = .error t.unexpected)

section

variable {us ts rest : List Token} {t : Token}

theorem Ended.ne_nil (h : Ended ts) : ts ≠ [] := by
  obtain ⟨t, ht, -⟩ := h
  exact List.ne_nil_of_mem ht

/-- The end comes behind tokens none of which can mark it. -/
theorem Ended.behind (h : Ended (us ++ rest)) (hus : ∀ t ∈ us, t.kind.isBoundary = false) :
    Ended rest := by
  obtain ⟨t, ht, hk⟩ := h
  refine ⟨t, (List.mem_append.mp ht).resolve_left fun hmem => ?_, hk⟩
  have hnot := hus t hmem
  rw [hk] at hnot
  cases hnot

theorem ended_of_lex {cs : List Char} (hlex : lex cs = .ok ts) : Ended ts := by
  obtain ⟨body, stop, rfl, -⟩ := lex_shape hlex
  exact ⟨.finishAt stop, by simp, rfl⟩

theorem Ended.tail (h : Ended (t :: ts)) (ht : t.kind.isBoundary = false) : Ended ts :=
  Ended.behind h (show ∀ u ∈ [t], u.kind.isBoundary = false from List.forall_mem_singleton.mpr ht)

/-- What stands in front does not depend on what stands behind any token. -/
theorem head?_append_cons (us rest rest' : List Token) (t : Token) :
    (us ++ t :: rest).head? = (us ++ t :: rest').head? := by
  rw [List.head?_append, List.head?_append]
  rfl

theorem current_of_head? (h : us.head? = ts.head?) : current us = current ts := by
  cases us <;> cases ts <;> simp_all [current]

end

section

variable {α : Type} {read : List Token → Read α} {derives : List Token → α → Prop}
  {ts rest : List Token} {x : α} {e : SyntaxError}

/-- What a reader takes off the front it takes off in front of the same token always. -/
theorem Decides.of_ok (h : Decides read derives ts) (hread : read ts = .ok (x, rest)) :
    ∃ us t rest', ts = us ++ t :: rest' ∧ rest = t :: rest' ∧ derives us x ∧
      ∀ more, read (us ++ t :: more) = .ok (x, t :: more) := by
  cases h with
  | @takes us rest' t x' hts hx hall =>
    rw [hts, hall] at hread
    obtain ⟨rfl, rfl⟩ := Prod.mk.inj (Except.ok.inj hread)
    exact ⟨us, t, rest', hts, rfl, hx, hall⟩
  | @refuses us rest' t hts _ hall =>
    rw [hts, hall] at hread
    cases hread

/-- A reader that fails refuses a token behind the front of a derivation, whatever follows. -/
theorem Decides.of_error (h : Decides read derives ts) (hread : read ts = .error e) :
    ∃ us t rest, ts = us ++ t :: rest ∧ e = t.unexpected ∧ Viable derives us ∧
      ∀ more, read (us ++ t :: more) = .error e := by
  cases h with
  | @takes us rest t x hts _ hall =>
    rw [hts, hall] at hread
    cases hread
  | @refuses us rest t hts hus hall =>
    rw [hts, hall] at hread
    cases hread
    exact ⟨us, t, rest, hts, rfl, hus, hall⟩

/-- A reader that takes some tokens and leaves the rest to another one decides as this one does. -/
theorem Decides.lead {β : Type} {read' : List Token → Read β} {derives' : List Token → β → Prop}
    (h : Decides read derives ts) (pre : List Token) (f : α → β)
    (hderives : ∀ us x, derives us x → derives' (pre ++ us) (f x))
    (hread : ∀ us, us.head? = ts.head? →
      read' (pre ++ us) = (read us).map fun r => (f r.1, r.2)) :
    Decides read' derives' (pre ++ ts) := by
  have hfront : ∀ {us rest t}, ts = us ++ t :: rest → ∀ more,
      read' (pre ++ us ++ t :: more) = (read (us ++ t :: more)).map fun r => (f r.1, r.2) := by
    rintro us rest t rfl more
    rw [List.append_assoc]
    exact hread _ (head?_append_cons us more rest t)
  cases h with
  | @takes us rest t x hts hx hall =>
    refine .takes (pre ++ us) (by rw [hts, List.append_assoc]) (hderives us x hx) fun more => ?_
    rw [hfront hts, hall]
    rfl
  | @refuses us rest t hts hus hall =>
    obtain ⟨more, x, hx⟩ := hus
    have hviable : Viable derives' (pre ++ us) := by
      refine ⟨more, f x, ?_⟩
      rw [List.append_assoc]
      exact hderives _ x hx
    refine .refuses (pre ++ us) (by rw [hts, List.append_assoc]) hviable fun more => ?_
    rw [hfront hts, hall]
    rfl

end

/-! ## Arguments and calls -/

/-- literal ("," literal)* ")" -/
def DerivesClosed (ts : List Token) (ls : List Literal) : Prop :=
  ∃ us right, ts = us ++ [right] ∧ DerivesArgs us ls ∧ right.kind = .rightParen

/-- A literal, a name and a parenthesis that complete derivations. -/
def someLiteral : Token := ⟨.number, "0", .start⟩
def someName : Token := ⟨.ident, "a", .start⟩
def someParen : Token := ⟨.rightParen, ")", .start⟩

theorem derivesLiteral_some : DerivesLiteral someLiteral (.number "0") := .number rfl

theorem derivesCall_some : DerivesCall [someName] ⟨"a", [], .start⟩ := .bare rfl

theorem readArgs_comma {t sep : Token} {l : Literal} (h : t.literal? = some l)
    (hsep : sep.kind = .comma) (ts : List Token) :
    readArgs (t :: sep :: ts) = (readArgs ts).map fun r => (l :: r.1, r.2) := by
  rw [readArgs, h, hsep]
  cases readArgs ts <;> rfl

theorem decides_of_not_literal {t : Token} (h : t.literal? = none) (ts : List Token) :
    Decides readArgs DerivesClosed (t :: ts) := by
  have hviable : Viable DerivesClosed [] :=
    ⟨[someLiteral, someParen], _, [someLiteral], someParen, rfl, .last derivesLiteral_some, rfl⟩
  refine .refuses [] rfl hviable fun rest => ?_
  cases rest <;> simp [readArgs, h]

theorem readArgs_decides {ts : List Token} (h : Ended ts) : Decides readArgs DerivesClosed ts := by
  fun_induction readArgs ts with
  | case1 => exact absurd rfl h.ne_nil
  | case2 t l hl =>
    exact absurd rfl (h.tail (derivesLiteral_iff.mpr hl).isBoundary_eq_false).ne_nil
  | case3 t hl => exact decides_of_not_literal hl _
  | case4 t sep ts hl => exact decides_of_not_literal hl _
  | case5 t sep ts l hl hsep =>
    have hlit := derivesLiteral_iff.mpr hl
    have hts := (h.tail hlit.isBoundary_eq_false).tail (by rw [hsep]; rfl)
    obtain ⟨u, us, rfl⟩ := List.exists_cons_of_ne_nil hts.ne_nil
    refine .takes [t, sep] rfl ⟨[t], sep, rfl, .last hlit, hsep⟩ fun rest => ?_
    simp [readArgs, hl, hsep]
  | case6 t sep ts l hl hsep _ _ _ ih | case7 t sep ts l hl hsep _ _ ih =>
    have hlit := derivesLiteral_iff.mpr hl
    have hts := (h.tail hlit.isBoundary_eq_false).tail (by rw [hsep]; rfl)
    refine (ih hts).lead [t, sep] (l :: ·) ?_ fun us _ => readArgs_comma hl hsep us
    rintro us ls ⟨vs, right, rfl, hvs, hright⟩
    exact ⟨t :: sep :: vs, right, rfl, .more hlit hsep hvs, hright⟩
  | case8 t sep ts l hl hparen hcomma =>
    have hlit := derivesLiteral_iff.mpr hl
    refine .refuses [t] rfl ⟨[someParen], _, [t], someParen, rfl, .last hlit, rfl⟩ fun rest => ?_
    simp [readArgs, hl]

theorem readCall_name {name : Token} (h : name.kind = .ident) (ts : List Token) :
    readCall (name :: ts) =
      (readCallArgs ts).map fun r => (⟨name.text, r.1, name.pos⟩, r.2) := by
  rw [readCall, if_pos h]
  cases readCallArgs ts <;> rfl

theorem readCallArgs_left {left : Token} (h : left.kind = .leftParen) {ts : List Token}
    (hts : (current ts).kind ≠ .rightParen) : readCallArgs (left :: ts) = readArgs ts := by
  rw [readCallArgs, if_pos h, if_neg hts]

theorem readCall_decides {ts : List Token} (h : Ended ts) : Decides readCall DerivesCall ts := by
  obtain ⟨name, us, rfl⟩ := List.exists_cons_of_ne_nil h.ne_nil
  by_cases hname : name.kind = .ident
  · have hus := h.tail (by rw [hname]; rfl)
    obtain ⟨left, vs, rfl⟩ := List.exists_cons_of_ne_nil hus.ne_nil
    by_cases hleft : left.kind = .leftParen
    · have hvs := hus.tail (by rw [hleft]; rfl)
      obtain ⟨right, ws, rfl⟩ := List.exists_cons_of_ne_nil hvs.ne_nil
      by_cases hright : right.kind = .rightParen
      · have hws := hvs.tail (by rw [hright]; rfl)
        obtain ⟨t, ws, rfl⟩ := List.exists_cons_of_ne_nil hws.ne_nil
        refine .takes [name, left, right] rfl (.empty hname hleft hright) fun rest => ?_
        simp [readCall, readCallArgs, current, hname, hleft, hright]
      · refine (readArgs_decides hvs).lead [name, left] (⟨name.text, ·, name.pos⟩) ?_ ?_
        · rintro us ls ⟨ts, close, rfl, hts, hclose⟩
          exact .args hname hleft hts hclose
        · intro us hus
          have hfront : (current us).kind ≠ .rightParen := by rwa [current_of_head? hus]
          show readCall (name :: left :: us) = _
          rw [readCall_name hname, readCallArgs_left hleft hfront]
    · refine .takes [name] rfl (.bare hname) fun rest => ?_
      simp [readCall, readCallArgs, hname, hleft]
  · refine .refuses [] rfl ⟨[someName], _, derivesCall_some⟩ fun rest => ?_
    simp [readCall, hname]

/-! ## Statements -/

theorem readLinks_dot {dot : Token} (h : dot.kind = .dot) {ts rest : List Token} {c : Call}
    (hc : readCall ts = .ok (c, rest)) :
    readLinks (dot :: ts) = (readLinks rest).map fun r => (c :: r.1, r.2) := by
  rw [readLinks, if_pos h]
  split
  · next he => rw [hc] at he; cases he
  · next he =>
    rw [hc] at he
    cases he
    cases readLinks rest <;> rfl

theorem readLinks_dot_error {dot : Token} (h : dot.kind = .dot) {ts : List Token}
    {e : SyntaxError} (hc : readCall ts = .error e) : readLinks (dot :: ts) = .error e := by
  rw [readLinks, if_pos h]
  split
  · next he =>
    rw [hc] at he
    cases he
    rfl
  · next he => rw [hc] at he; cases he

theorem readLinks_decides {ts : List Token} (h : Ended ts) : Decides readLinks DerivesLinks ts := by
  fun_induction readLinks ts with
  | case1 => exact absurd rfl h.ne_nil
  | case2 dot ts hdot e hc =>
    have hts := h.tail (by rw [hdot]; rfl)
    obtain ⟨us, t, rest, rfl, rfl, ⟨more, c, hmore⟩, hall⟩ := (readCall_decides hts).of_error hc
    refine .refuses (dot :: us) rfl ⟨more, [c], ?_⟩ fun rest => ?_
    · have hlinks := DerivesLinks.cons hdot hmore .nil
      rwa [List.append_nil] at hlinks
    · exact readLinks_dot_error hdot (hall rest)
  | case3 dot ts hdot c rest hc _ _ _ _ ih | case4 dot ts hdot c rest hc _ _ _ ih =>
    have hts := h.tail (by rw [hdot]; rfl)
    obtain ⟨us, t, rest', rfl, rfl, hus, hall⟩ := (readCall_decides hts).of_ok hc
    have hrest := ih (hts.behind hus.isBoundary_eq_false)
    refine hrest.lead (dot :: us) (c :: ·) (fun _ _ hcs => .cons hdot hus hcs) fun vs hvs => ?_
    obtain ⟨more, rfl⟩ := List.head?_eq_some_iff.mp hvs
    exact readLinks_dot hdot (hall more)
  | case5 t ts hdot =>
    refine .takes [] rfl .nil fun rest => ?_
    simp [readLinks, hdot]

theorem readStatement_call {ts rest : List Token} {c : Call} (h : (current ts).kind = .ident)
    (hc : readCall ts = .ok (c, rest)) :
    readStatement ts = (readLinks rest).map fun r => (.chain c r.1, r.2) := by
  rw [readStatement, if_pos h, hc]
  dsimp only
  rcases readLinks rest with e | ⟨cs, rest⟩
  · rfl
  · simp [Except.map]

theorem readStatement_call_error {ts : List Token} {e : SyntaxError}
    (h : (current ts).kind = .ident) (hc : readCall ts = .error e) : readStatement ts = .error e := by
  rw [readStatement, if_pos h, hc]

theorem readStatement_decides {ts : List Token} (h : Ended ts) :
    Decides readStatement DerivesStatement ts := by
  by_cases hident : (current ts).kind = .ident
  · cases hc : readCall ts with
    | error e =>
      obtain ⟨us, t, rest, hts, rfl, ⟨more, c, hmore⟩, hall⟩ := (readCall_decides h).of_error hc
      refine .refuses us hts ⟨more, .chain c [], ?_⟩ fun rest' => ?_
      · have hstatement := DerivesStatement.chain hmore .nil
        rwa [List.append_nil] at hstatement
      · rw [hts, current_of_head? (head?_append_cons us rest rest' t)] at hident
        exact readStatement_call_error hident (hall rest')
    | ok r =>
      obtain ⟨us, t, rest, rfl, hr, hus, hall⟩ := (readCall_decides h).of_ok hc
      have hrest := readLinks_decides (h.behind hus.isBoundary_eq_false)
      refine hrest.lead us (.chain r.1) (fun _ _ hcs => .chain hus hcs) fun vs hvs => ?_
      obtain ⟨more, rfl⟩ := List.head?_eq_some_iff.mp hvs
      exact readStatement_call (hus.front _) (hall more)
  · obtain ⟨t, us, rfl⟩ := List.exists_cons_of_ne_nil h.ne_nil
    have hname : t.kind ≠ .ident := hident
    cases hl : t.literal? with
    | none =>
      refine .refuses [] rfl ⟨[someLiteral], _, .literal derivesLiteral_some⟩ fun rest => ?_
      simp [readStatement, readLiteral, current, hname, hl]
    | some l =>
      have hlit := derivesLiteral_iff.mpr hl
      obtain ⟨u, vs, rfl⟩ := List.exists_cons_of_ne_nil (h.tail hlit.isBoundary_eq_false).ne_nil
      refine .takes [t] rfl (.literal hlit) fun rest => ?_
      simp [readStatement, readLiteral, current, hname, hl]

/-! ## Programs -/

/-- Where several statements are refused: in the first of them, right behind it, or in those behind the
    line breaks that follow it. -/
theorem readStatements_error_cases {ts : List Token} {e : SyntaxError}
    (h : readStatements ts = .error e) :
    readStatement ts = .error e ∨
      ∃ s rest, readStatement ts = .ok (s, rest) ∧
        ((current rest).kind.isBoundary = false ∧ e = refuse rest ∨
          (current rest).kind = .lineBreak ∧ (current (skipBreaks rest)).kind ≠ .finish ∧
            readStatements (skipBreaks rest) = .error e) := by
  rw [readStatements] at h
  split at h
  · next he =>
    cases h
    exact Or.inl he
  next s rest hread =>
  refine Or.inr ⟨s, rest, hread, ?_⟩
  split at h
  · cases h
  · next hk =>
    dsimp only at h
    split at h
    · cases h
    · next hnext =>
      split at h
      · cases h
      · next he =>
        cases h
        exact Or.inr ⟨hk, hnext, he⟩
  · next hfinish hbreak =>
    cases h
    refine Or.inl ⟨?_, rfl⟩
    rw [Token.Kind.isBoundary, Bool.or_eq_false_iff, decide_eq_false_iff_not, decide_eq_false_iff_not]
    exact ⟨hbreak, hfinish⟩

theorem readStatements_error {ts : List Token} {e : SyntaxError} (h : readStatement ts = .error e) :
    readStatements ts = .error e := by
  rw [readStatements]
  split
  · next he =>
    rw [h] at he
    exact congrArg Except.error (Except.error.inj he).symm
  · next he => rw [h] at he; cases he

theorem readStatements_stray {ts rest : List Token} {s : Statement}
    (h : readStatement ts = .ok (s, rest)) (hrest : (current rest).kind.isBoundary = false) :
    readStatements ts = .error (refuse rest) := by
  rw [readStatements]
  split
  · next he => rw [h] at he; cases he
  · next he =>
    rw [h] at he
    cases he
    split
    · next hk => rw [hk] at hrest; cases hrest
    · next hk => rw [hk] at hrest; cases hrest
    · rfl

theorem readStatements_later {ts rest : List Token} {s : Statement} {e : SyntaxError}
    (h : readStatement ts = .ok (s, rest)) (hk : (current rest).kind = .lineBreak)
    (hnext : (current (skipBreaks rest)).kind ≠ .finish)
    (hs : readStatements (skipBreaks rest) = .error e) : readStatements ts = .error e := by
  rw [readStatements]
  split
  · next he => rw [h] at he; cases he
  · next he =>
    rw [h] at he
    cases he
    simp [hk, hnext, hs]

section

variable {us bs ts : List Token} {s : Statement} {ss : List Statement}

theorem DerivesStatement.program (h : DerivesStatement us s) :
    DerivesProgram (us ++ [.finishAt .start]) [s] := by
  have hnone : Breaks [] := fun t ht => nomatch ht
  have hfinish : (Token.finishAt .start).kind = .finish := rfl
  have hprogram := DerivesProgram.mk hnone h .nil hnone hfinish
  simpa using hprogram

/-- Line breaks in front of a program belong to it. -/
theorem DerivesProgram.indent (hb : Breaks bs) (h : DerivesProgram ts ss) :
    DerivesProgram (bs ++ ts) ss := by
  cases h with
  | @mk lead us vs trail finish s ss hlead hs hmore htrail hfinish =>
    have hall : Breaks (bs ++ lead) := List.forall_mem_append.mpr ⟨hb, hlead⟩
    have hprogram := DerivesProgram.mk hall hs hmore htrail hfinish
    simpa using hprogram

/-- A statement and line breaks in front of a program make it one of one statement more. -/
theorem DerivesProgram.after (hs : DerivesStatement us s) (hb : Breaks bs) (hne : bs ≠ [])
    (h : DerivesProgram ts ss) : DerivesProgram (us ++ (bs ++ ts)) (s :: ss) := by
  cases h with
  | @mk lead ws vs trail finish s' ss hlead hs' hmore htrail hfinish =>
    have hnone : Breaks [] := fun t ht => nomatch ht
    have hall : Breaks (bs ++ lead) := List.forall_mem_append.mpr ⟨hb, hlead⟩
    have hcons := DerivesMore.cons hall (List.append_ne_nil_of_left_ne_nil hne _) hs' hmore
    have hprogram := DerivesProgram.mk hnone hs hcons htrail hfinish
    simpa using hprogram

end

theorem Ended.skipBreaks {ts : List Token} (h : Ended ts) : Ended (skipBreaks ts) := by
  obtain ⟨bs, hbs, hsplit⟩ := skipBreaks_split ts
  obtain ⟨t, ht, hk⟩ := h
  rw [hsplit] at ht
  exact ⟨t, (List.mem_append.mp ht).resolve_left fun hmem => hbs.kind_ne_finish t hmem hk, hk⟩

/-- Line breaks are skipped up to the same token whatever stands behind it. -/
theorem skipBreaks_append_cons {ts bs us rest : List Token} {t : Token} (hb : Breaks bs)
    (h : skipBreaks ts = us ++ t :: rest) (more : List Token) :
    skipBreaks (bs ++ (us ++ t :: more)) = us ++ t :: more := by
  have hfront := current_skipBreaks ts
  rw [h, current_of_head? (head?_append_cons us rest more t)] at hfront
  rw [skipBreaks_append hb, skipBreaks_eq_self hfront]

/-- Where reading statements fails, some token is refused behind the front of a program, whatever
    follows it. -/
theorem readStatements_refuses {ts : List Token} {e : SyntaxError} (hts : Ended ts)
    (h : readStatements ts = .error e) :
    ∃ us t rest, ts = us ++ t :: rest ∧ e = t.unexpected ∧ Viable DerivesProgram us ∧
      ∀ more, readStatements (us ++ t :: more) = .error e := by
  induction hn : ts.length using Nat.strong_induction_on generalizing ts with
  | _ n ih =>
  rcases readStatements_error_cases h with herror | ⟨s, rest, hread, hrest⟩
  · obtain ⟨us, t, rest, hsplit, he, ⟨more, s, hs⟩, hall⟩ :=
      (readStatement_decides hts).of_error herror
    refine ⟨us, t, rest, hsplit, he, ⟨more ++ [.finishAt .start], [s], ?_⟩, fun more => ?_⟩
    · rw [← List.append_assoc]
      exact hs.program
    · exact readStatements_error (hall more)
  have hless := (skipBreaks_length rest).trans_lt (readStatement_length hread)
  obtain ⟨us, t, rest', rfl, rfl, hus, hall⟩ := (readStatement_decides hts).of_ok hread
  rcases hrest with ⟨hstray, rfl⟩ | ⟨hbreak, hnext, herror⟩
  · refine ⟨us, t, rest', rfl, rfl, ⟨_, _, hus.program⟩, fun more => ?_⟩
    have hrefused : readStatements (us ++ t :: more) = .error (refuse (t :: more)) :=
      readStatements_stray (hall more) hstray
    exact hrefused
  · have hlater := (hts.behind hus.isBoundary_eq_false).skipBreaks
    obtain ⟨vs, u, rest, hsplit, he, ⟨more, ss, hss⟩, hlast⟩ := ih _ (hn ▸ hless) hlater herror rfl
    obtain ⟨bs, hbs, hbreaks⟩ := skipBreaks_split (t :: rest')
    have hne : bs ≠ [] := by
      rintro rfl
      rw [List.nil_append] at hbreaks
      exact current_skipBreaks (t :: rest') (hbreaks ▸ hbreak)
    obtain ⟨b, bs, rfl⟩ := List.exists_cons_of_ne_nil hne
    obtain ⟨rfl, hbreaks⟩ := List.cons.inj hbreaks
    refine ⟨us ++ (t :: bs ++ vs), u, rest, ?_, he, ⟨more, s :: ss, ?_⟩, fun more => ?_⟩
    · rw [hbreaks, hsplit]
      simp
    · rw [List.append_assoc, List.append_assoc]
      exact hss.after hus hbs hne
    · have hskip := skipBreaks_append_cons hbs hsplit more
      rw [hsplit, current_of_head? (head?_append_cons vs rest more u)] at hnext
      have hread := hall (bs ++ (vs ++ u :: more))
      rw [← List.cons_append] at hread
      rw [List.append_assoc, List.append_assoc]
      refine readStatements_later hread hbreak ?_ ?_
      · rwa [hskip]
      · rw [hskip]
        exact hlast more

/-- An error of `parse` on a text that lexes is the kind, the text and the place of one of its tokens.
    The tokens in front of this one can be continued to a program, and with this one they cannot. -/
theorem parse_error_first {cs : List Char} {ts : List Token} {e : SyntaxError}
    (hlex : lex cs = .ok ts) (h : parse cs = .error e) :
    ∃ before t after, ts = before ++ t :: after ∧ e = ⟨.token t.kind, t.text, t.pos⟩ ∧
      (∃ more p, DerivesProgram (before ++ more) p) ∧
      ∀ more p, ¬ DerivesProgram (before ++ t :: more) p := by
  unfold parse at h
  rw [hlex] at h
  obtain ⟨us, t, after, hsplit, he, ⟨more, p, hp⟩, hall⟩ :=
    readStatements_refuses (ended_of_lex hlex).skipBreaks h
  obtain ⟨lead, hlead, hbreaks⟩ := skipBreaks_split ts
  refine ⟨lead ++ us, t, after, ?_, he, ⟨more, p, ?_⟩, fun more p hp => ?_⟩
  · rw [hbreaks, hsplit, List.append_assoc]
  · rw [List.append_assoc]
    exact hp.indent hlead
  · rw [List.append_assoc] at hp
    have hread := readStatements_of_derives hp
    rw [skipBreaks_append_cons hlead hsplit, hall] at hread
    cases hread

/-- A second argument without a comma in front, on the second line. -/
theorem parse_error_first_argument :
    ∃ ts, lex "a\nb.c(1 2)".toList = .ok ts ∧
      parse "a\nb.c(1 2)".toList = .error ⟨.token .number, "2", ⟨2, 7⟩⟩ ∧
      ∃ before after, ts = before ++ ⟨.number, "2", ⟨2, 7⟩⟩ :: after ∧
        (∃ more p, DerivesProgram (before ++ more) p) ∧
        ∀ more p, ¬ DerivesProgram (before ++ ⟨.number, "2", ⟨2, 7⟩⟩ :: more) p := by
  have hlex : lex "a\nb.c(1 2)".toList = .ok
      [⟨.ident, "a", ⟨1, 1⟩⟩, ⟨.lineBreak, "\\n", ⟨1, 2⟩⟩, ⟨.ident, "b", ⟨2, 1⟩⟩,
        ⟨.dot, ".", ⟨2, 2⟩⟩, ⟨.ident, "c", ⟨2, 3⟩⟩, ⟨.leftParen, "(", ⟨2, 4⟩⟩,
        ⟨.number, "1", ⟨2, 5⟩⟩, ⟨.number, "2", ⟨2, 7⟩⟩, ⟨.rightParen, ")", ⟨2, 8⟩⟩,
        ⟨.finish, "EOF", ⟨2, 9⟩⟩] := by decide +kernel
  have herror : parse "a\nb.c(1 2)".toList = .error ⟨.token .number, "2", ⟨2, 7⟩⟩ := by
    decide +kernel
  obtain ⟨before, ⟨kind, text, pos⟩, after, hts, he, hviable, hnone⟩ := parse_error_first hlex herror
  cases he
  exact ⟨_, hlex, herror, before, after, hts, hviable, hnone⟩

end Tariff.Source
