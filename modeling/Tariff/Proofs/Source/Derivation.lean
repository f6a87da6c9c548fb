/-
  The readers against the grammar. Each reader takes a derivation off the front of the tokens
  (`read…_sound`) and takes it off wherever a derivation stands in front of tokens that cannot extend
  it (`read…_complete`). What cannot extend a derivation is said of the token in front of the rest.
  For a text that lexes, `parse` gives `p` exactly when the tokens derive `p`, and no other `p` is
  derived from them.
-/
import Mathlib
import Tariff.Proofs.Source.Grammar
import Tariff.Proofs.Source.Pieces

namespace Tariff.Source

/-! ## Arguments and calls -/

theorem readLiteral_eq_ok_iff {ts rest : List Token} {l : Literal} :
    readLiteral ts = .ok (l, rest) ↔ ∃ t, ts = t :: rest ∧ DerivesLiteral t l := by
  cases ts with
  | nil => simp [readLiteral]
  | cons t ts =>
    rw [readLiteral]
    cases h : t.literal? with
    | none => simp [derivesLiteral_iff, h]
    | some l' =>
      simp only [Except.ok.injEq, Prod.mk.injEq, List.cons.injEq, derivesLiteral_iff]
      constructor
      · rintro ⟨rfl, rfl⟩
        exact ⟨t, ⟨rfl, rfl⟩, h⟩
      · rintro ⟨t', ⟨rfl, rfl⟩, h'⟩
        rw [h] at h'
        exact ⟨Option.some.inj h', rfl⟩

theorem readArgs_sound {ts rest : List Token} {ls : List Literal}
    (h : readArgs ts = .ok (ls, rest)) :
    ∃ us right, DerivesArgs us ls ∧ right.kind = .rightParen ∧ ts = us ++ right :: rest := by
  fun_induction readArgs ts generalizing ls rest with
  | case5 t sep ts l hl hsep =>
    cases h
    exact ⟨[t], sep, .last (derivesLiteral_iff.mpr hl), hsep, rfl⟩
  | case6 t sep ts l hl hsep ls' rest' hr ih =>
    cases h
    obtain ⟨us, right, hus, hright, rfl⟩ := ih hr
    exact ⟨t :: sep :: us, right, .more (derivesLiteral_iff.mpr hl) hsep hus, hright, rfl⟩
  | _ => cases h

theorem readArgs_complete {us rest : List Token} {ls : List Literal} {right : Token}
    (h : DerivesArgs us ls) (hr : right.kind = .rightParen) :
    readArgs (us ++ right :: rest) = .ok (ls, rest) := by
  induction h with
  | last h => simp [readArgs, derivesLiteral_iff.mp h, hr]
  | more h hcomma _ ih => simp [readArgs, derivesLiteral_iff.mp h, hcomma, ih]

theorem readCallArgs_sound {ts rest : List Token} {ls : List Literal} {name : Token}
    (hname : name.kind = .ident) (h : readCallArgs ts = .ok (ls, rest)) :
    ∃ us, DerivesCall (name :: us) ⟨name.text, ls, name.pos⟩ ∧ ts = us ++ rest := by
  unfold readCallArgs at h
  split at h
  · cases h
    exact ⟨[], .bare hname, rfl⟩
  next left ts =>
  split at h
  · next hleft =>
    split at h
    · next hright =>
      cases h
      cases ts with
      | nil => cases hright
      | cons right ts => exact ⟨[left, right], .empty hname hleft hright, rfl⟩
    · obtain ⟨us, right, hus, hright, rfl⟩ := readArgs_sound h
      exact ⟨left :: us ++ [right], .args hname hleft hus hright, by simp⟩
  · cases h
    exact ⟨[], .bare hname, rfl⟩

theorem readCall_sound {ts rest : List Token} {c : Call} (h : readCall ts = .ok (c, rest)) :
    ∃ us, DerivesCall us c ∧ ts = us ++ rest := by
  unfold readCall at h
  split at h
  · cases h
  next name ts =>
  split at h
  · next hname =>
    split at h
    · next hr =>
      cases h
      obtain ⟨us, hus, rfl⟩ := readCallArgs_sound hname hr
      exact ⟨name :: us, hus, rfl⟩
    · cases h
  · cases h

theorem DerivesArgs.front {us : List Token} {ls : List Literal} (h : DerivesArgs us ls)
    (rest : List Token) : (current (us ++ rest)).kind ≠ .rightParen := by
  have hne : ∀ {t l}, DerivesLiteral t l → t.kind ≠ .rightParen := by
    rintro t l (h | h | h | h) <;> rw [h] <;> decide
  cases h with
  | last h => exact hne h
  | more h _ _ => exact hne h

theorem readCall_complete {us rest : List Token} {c : Call} (h : DerivesCall us c)
    (hrest : (current rest).kind ≠ .leftParen) : readCall (us ++ rest) = .ok (c, rest) := by
  cases h with
  | bare h =>
    cases rest with
    | nil => simp [readCall, readCallArgs, h]
    | cons t rest =>
      have ht : t.kind ≠ .leftParen := hrest
      simp [readCall, readCallArgs, h, ht]
  | empty h hl hr => simp [readCall, readCallArgs, current, h, hl, hr]
  | @args name left right ts ls h hl hs hr =>
    have hfront := hs.front (right :: rest)
    have hargs : readArgs (ts ++ right :: rest) = .ok (ls, rest) := readArgs_complete hs hr
    simp [readCall, readCallArgs, h, hl, hfront, hargs]

/-! ## Statements -/

theorem readLinks_sound {ts rest : List Token} {cs : List Call}
    (h : readLinks ts = .ok (cs, rest)) : ∃ us, DerivesLinks us cs ∧ ts = us ++ rest := by
  fun_induction readLinks ts generalizing cs rest with
  | case1 => cases h; exact ⟨[], .nil, rfl⟩
  | case3 t ts hdot c rest' hc _ cs' rest'' hl ih =>
    cases h
    obtain ⟨us, hus, rfl⟩ := readCall_sound hc
    obtain ⟨vs, hvs, rfl⟩ := ih hl
    exact ⟨t :: us ++ vs, .cons hdot hus hvs, by simp⟩
  | case5 => cases h; exact ⟨[], .nil, rfl⟩
  | _ => cases h

/-- The rest of a statement cannot begin with this token. -/
def Stops (rest : List Token) : Prop :=
  (current rest).kind ≠ .leftParen ∧ (current rest).kind ≠ .dot

theorem stops_of_isBoundary {rest : List Token} (h : (current rest).kind.isBoundary = true) :
    Stops rest := by
  constructor <;> intro hk <;> rw [hk] at h <;> cases h

theorem DerivesLinks.front {us rest : List Token} {cs : List Call} (h : DerivesLinks us cs)
    (hrest : Stops rest) : (current (us ++ rest)).kind ≠ .leftParen := by
  cases h with
  | nil => exact hrest.1
  | @cons dot ts us c cs h hc hs =>
    show dot.kind ≠ .leftParen
    rw [h]
    decide

theorem readLinks_complete {us rest : List Token} {cs : List Call} (h : DerivesLinks us cs)
    (hrest : Stops rest) : readLinks (us ++ rest) = .ok (cs, rest) := by
  induction h with
  | nil =>
    cases rest with
    | nil => simp [readLinks]
    | cons t rest =>
      have ht : t.kind ≠ .dot := hrest.2
      simp [readLinks, ht]
  | @cons dot ts us c cs h hc hs ih =>
    have hcall := readCall_complete hc (hs.front hrest)
    rw [List.cons_append, List.cons_append, List.append_assoc, readLinks, if_pos h]
    split
    · next e he => rw [hcall] at he; cases he
    · next he =>
      rw [hcall] at he
      cases he
      simp [ih]

theorem readStatement_sound {ts rest : List Token} {s : Statement}
    (h : readStatement ts = .ok (s, rest)) : ∃ us, DerivesStatement us s ∧ ts = us ++ rest := by
  unfold readStatement at h
  split at h
  · split at h
    · cases h
    · next hc =>
      split at h
      · next hl =>
        cases h
        obtain ⟨us, hus, rfl⟩ := readCall_sound hc
        obtain ⟨vs, hvs, rfl⟩ := readLinks_sound hl
        rw [linkCalls_eq]
        exact ⟨us ++ vs, .chain hus hvs, by simp⟩
      · cases h
  · split at h
    · next hl =>
      cases h
      obtain ⟨t, rfl, ht⟩ := readLiteral_eq_ok_iff.mp hl
      exact ⟨[t], .literal ht, rfl⟩
    · cases h

theorem DerivesCall.front {us : List Token} {c : Call} (h : DerivesCall us c) (rest : List Token) :
    (current (us ++ rest)).kind = .ident := by
  cases h <;> assumption

theorem readStatement_complete {us rest : List Token} {s : Statement} (h : DerivesStatement us s)
    (hrest : Stops rest) : readStatement (us ++ rest) = .ok (s, rest) := by
  cases h with
  | @literal t l h =>
    have hne : t.kind ≠ .ident := by
      rcases h with h | h | h | h <;> rw [h] <;> decide
    have hl : readLiteral (t :: rest) = .ok (l, rest) := readLiteral_eq_ok_iff.mpr ⟨t, rfl, h⟩
    simp [readStatement, current, hne, hl]
  | @chain ts us head calls h hs =>
    have hcall := readCall_complete h (hs.front hrest)
    have hlinks := readLinks_complete hs hrest
    rw [List.append_assoc, readStatement, if_pos (h.front _)]
    simp [hcall, hlinks]

/-! ## Programs -/

theorem DerivesStatement.front {us : List Token} {s : Statement} (h : DerivesStatement us s) :
    ∃ t vs, us = t :: vs ∧ t.pos = s.pos := by
  cases h with
  | literal h => exact ⟨_, _, rfl, rfl⟩
  | chain h hs => cases h <;> exact ⟨_, _, rfl, rfl⟩

theorem skipBreaks_split (ts : List Token) :
    ∃ bs, Breaks bs ∧ ts = bs ++ skipBreaks ts := by
  refine ⟨ts.takeWhile (·.kind = .lineBreak), ?_, List.takeWhile_append_dropWhile.symm⟩
  intro t ht
  have hall := List.all_eq_true.mp (List.all_takeWhile (l := ts)) t ht
  exact of_decide_eq_true hall

theorem current_skipBreaks (ts : List Token) : (current (skipBreaks ts)).kind ≠ .lineBreak := by
  unfold skipBreaks
  cases h : ts.dropWhile (·.kind = .lineBreak) with
  | nil => decide
  | cons t us =>
    have hhead := List.head_dropWhile_not (p := (·.kind = Token.Kind.lineBreak)) (l := ts) (by simp [h])
    have ht : ¬ t.kind = .lineBreak := by simpa [h] using hhead
    exact ht

theorem skipBreaks_eq_self {ts : List Token} (h : (current ts).kind ≠ .lineBreak) :
    skipBreaks ts = ts := by
  cases ts with
  | nil => rfl
  | cons t ts => simp [skipBreaks, show t.kind ≠ .lineBreak from h]

theorem skipBreaks_append {bs ts : List Token} (hb : Breaks bs) :
    skipBreaks (bs ++ ts) = skipBreaks ts := by
  unfold skipBreaks
  rw [List.dropWhile_append_of_pos]
  intro t ht
  simpa using hb t ht

/-- What `readStatements` gives is derived from all tokens up to the one that ends the source. -/
theorem readStatements_sound {ts : List Token} {ss : List Statement}
    (h : readStatements ts = .ok ss) :
    ∃ us vs trail rest s ss', ss = s :: ss' ∧ DerivesStatement us s ∧ DerivesMore vs ss' ∧
      Breaks trail ∧ (current rest).kind = .finish ∧ ts = us ++ vs ++ trail ++ rest := by
  fun_induction readStatements ts generalizing ss with
  | case2 ts s rest hr hk =>
    cases h
    obtain ⟨us, hus, rfl⟩ := readStatement_sound hr
    exact ⟨us, [], [], rest, s, [], rfl, hus, .nil, by simp [Breaks], hk, by simp⟩
  | case3 ts s rest hr hk next =>
    rename_i hn
    cases h
    obtain ⟨us, hus, rfl⟩ := readStatement_sound hr
    obtain ⟨bs, hbs, hsplit⟩ := skipBreaks_split rest
    refine ⟨us, [], bs, skipBreaks rest, s, [], rfl, hus, .nil, hbs, hn, ?_⟩
    rw [List.append_nil, List.append_assoc, ← hsplit]
  | case4 ts s rest hr hk next hn _ _ ss' hss =>
    rename_i ih
    cases h
    obtain ⟨us, hus, rfl⟩ := readStatement_sound hr
    obtain ⟨bs, hbs, hsplit⟩ := skipBreaks_split rest
    obtain ⟨us', vs, trail, rest', s', ss'', rfl, hs', hvs, htrail, hfin, hnext⟩ := ih hss
    have hne : bs ≠ [] := by
      rintro rfl
      rw [List.nil_append] at hsplit
      exact current_skipBreaks rest (hsplit ▸ hk)
    refine ⟨us, bs ++ us' ++ vs, trail, rest', s, s' :: ss'', rfl, hus, .cons hbs hne hs' hvs,
      htrail, hfin, ?_⟩
    rw [hsplit, show skipBreaks rest = us' ++ vs ++ trail ++ rest' from hnext]
    simp only [List.append_assoc]
  | _ => cases h

theorem Breaks.front {bs rest : List Token} (hb : Breaks bs)
    (hrest : (current rest).kind.isBoundary = true) :
    (current (bs ++ rest)).kind.isBoundary = true := by
  cases bs with
  | nil => exact hrest
  | cons b bs =>
    show b.kind.isBoundary = true
    rw [hb b (List.mem_cons_self ..)]
    rfl

theorem DerivesStatement.current_not_isBoundary {us : List Token} {s : Statement}
    (h : DerivesStatement us s) (rest : List Token) :
    (current (us ++ rest)).kind.isBoundary = false := by
  obtain ⟨t, vs, rfl, -⟩ := h.front
  exact h.isBoundary_eq_false t (List.mem_cons_self ..)

theorem readStatements_last {ts rest : List Token} {s : Statement}
    (h : readStatement ts = .ok (s, rest)) (hb : (current rest).kind.isBoundary = true)
    (hend : (current (skipBreaks rest)).kind = .finish) : readStatements ts = .ok [s] := by
  rw [readStatements]
  split
  · next he => rw [h] at he; cases he
  · next he =>
    rw [h] at he
    cases he
    split
    · rfl
    · exact if_pos hend
    · next hf hl =>
      have hk : (current rest).kind = .lineBreak ∨ (current rest).kind = .finish := by
        simpa [Token.Kind.isBoundary] using hb
      rcases hk with hk | hk
      · exact absurd hk hl
      · exact absurd hk hf

theorem readStatements_more {ts rest : List Token} {s : Statement} {ss : List Statement}
    (h : readStatement ts = .ok (s, rest)) (hk : (current rest).kind = .lineBreak)
    (hnext : (current (skipBreaks rest)).kind ≠ .finish)
    (hs : readStatements (skipBreaks rest) = .ok ss) : readStatements ts = .ok (s :: ss) := by
  rw [readStatements]
  split
  · next he => rw [h] at he; cases he
  · next he =>
    rw [h] at he
    cases he
    simp [hk, hnext, hs]

/-- What one statement read by `readStatements` is followed by. -/
theorem readStatements_cases {ts : List Token} {ss : List Statement}
    (h : readStatements ts = .ok ss) :
    ∃ s rest, readStatement ts = .ok (s, rest) ∧ (current rest).kind.isBoundary = true ∧
      (ss = [s] ∧ (current (skipBreaks rest)).kind = .finish ∨
        ∃ ss', ss = s :: ss' ∧ (current rest).kind = .lineBreak ∧
          readStatements (skipBreaks rest) = .ok ss') := by
  rw [readStatements] at h
  split at h
  · cases h
  next s rest hread =>
  refine ⟨s, rest, hread, ?_⟩
  split at h
  · next hk =>
    cases h
    refine ⟨by rw [hk]; rfl, Or.inl ⟨rfl, ?_⟩⟩
    rw [skipBreaks_eq_self (by rw [hk]; decide)]
    exact hk
  · next hk =>
    refine ⟨by rw [hk]; rfl, ?_⟩
    dsimp only at h
    split at h
    · next hfin =>
      cases h
      exact Or.inl ⟨rfl, hfin⟩
    · split at h
      · next ss' hss =>
        cases h
        exact Or.inr ⟨ss', rfl, hk, hss⟩
      · cases h
  · cases h

/-- A derivation in front of the end of the source is read as it is. -/
theorem readStatements_complete {us vs trail rest : List Token} {s : Statement}
    {ss : List Statement} (h : DerivesStatement us s) (hs : DerivesMore vs ss)
    (htrail : Breaks trail) (hrest : (current rest).kind = .finish) :
    readStatements (us ++ vs ++ trail ++ rest) = .ok (s :: ss) := by
  have hend : (current (trail ++ rest)).kind.isBoundary = true :=
    htrail.front (by rw [hrest]; rfl)
  induction hs generalizing us s with
  | nil =>
    rw [List.append_nil, List.append_assoc]
    refine readStatements_last (readStatement_complete h (stops_of_isBoundary hend)) hend ?_
    rw [skipBreaks_append htrail, skipBreaks_eq_self (by rw [hrest]; decide)]
    exact hrest
  | @cons bs us' vs s' ss hb hne h' hs ih =>
    have hlater := h'.current_not_isBoundary (vs ++ trail ++ rest)
    have hskip : skipBreaks (bs ++ us' ++ vs ++ trail ++ rest) = us' ++ vs ++ trail ++ rest := by
      simp only [List.append_assoc] at hlater ⊢
      rw [skipBreaks_append hb, skipBreaks_eq_self]
      intro hk
      rw [hk] at hlater
      cases hlater
    have hfront : (current (bs ++ us' ++ vs ++ trail ++ rest)).kind = .lineBreak := by
      cases bs with
      | nil => exact absurd rfl hne
      | cons b bs => exact hb b (List.mem_cons_self ..)
    have hstops : Stops (bs ++ us' ++ vs ++ trail ++ rest) :=
      stops_of_isBoundary (by rw [hfront]; rfl)
    have hread := readStatement_complete h hstops
    have hassoc : us ++ (bs ++ us' ++ vs) ++ trail ++ rest =
        us ++ (bs ++ us' ++ vs ++ trail ++ rest) := by simp only [List.append_assoc]
    rw [hassoc]
    refine readStatements_more hread hfront ?_ (hskip ▸ ih h')
    rw [hskip]
    intro hk
    simp only [List.append_assoc] at hlater hk
    rw [hk] at hlater
    cases hlater

theorem readStatements_of_derives {ts : List Token} {ss : List Statement}
    (h : DerivesProgram ts ss) : readStatements (skipBreaks ts) = .ok ss := by
  cases h with
  | @mk lead us vs trail finish s ss hlead hus hvs htrail hfinish =>
    have hskip : skipBreaks (lead ++ us ++ vs ++ trail ++ [finish]) =
        us ++ vs ++ trail ++ [finish] := by
      have hfront := hus.current_not_isBoundary (vs ++ trail ++ [finish])
      simp only [List.append_assoc] at hfront ⊢
      rw [skipBreaks_append hlead, skipBreaks_eq_self]
      intro hk
      rw [hk] at hfront
      cases hfront
    rw [hskip]
    exact readStatements_complete hus hvs htrail hfinish

theorem Breaks.kind_ne_finish {ts : List Token} (h : Breaks ts) : ∀ t ∈ ts, t.kind ≠ .finish := by
  intro t ht
  rw [h t ht]
  decide

theorem DerivesStatement.kind_ne_finish {ts : List Token} {s : Statement}
    (h : DerivesStatement ts s) : ∀ t ∈ ts, t.kind ≠ .finish := by
  intro t ht hk
  have hnot := h.isBoundary_eq_false t ht
  rw [hk] at hnot
  cases hnot

theorem DerivesMore.kind_ne_finish {us : List Token} {ss : List Statement}
    (h : DerivesMore us ss) : ∀ t ∈ us, t.kind ≠ .finish := by
  induction h with
  | nil => simp
  | cons hb _ h _ ih =>
    intro t ht
    simp only [List.mem_append] at ht
    rcases ht with (ht | ht) | ht
    · exact hb.kind_ne_finish t ht
    · exact h.kind_ne_finish t ht
    · exact ih t ht

/-- Of the cuts of tokens that end in their only mark, one alone has no mark before it and a mark
    behind it, if anything. -/
theorem eq_of_append_finish {used body rest : List Token} {finish : Token}
    (hfinish : finish.kind = .finish) (hused : ∀ t ∈ used, t.kind ≠ .finish)
    (hbody : ∀ t ∈ body, t.kind ≠ .finish) (hrest : (current rest).kind = .finish)
    (h : used ++ rest = body ++ [finish]) : used = body ∧ rest = [finish] := by
  rcases List.append_eq_append_iff.mp h with ⟨as, rfl, has⟩ | ⟨bs, rfl, hbs⟩
  · cases as with
    | nil => exact ⟨(List.append_nil _).symm, has⟩
    | cons a as =>
      rw [has] at hrest
      exact absurd hrest (hbody a (by simp))
  · cases bs with
    | nil => exact ⟨List.append_nil _, hbs.symm⟩
    | cons b bs =>
      obtain ⟨rfl, -⟩ := List.cons.inj hbs
      exact absurd hfinish (hused finish (by simp))

theorem derives_of_readStatements {body : List Token} {finish : Token} {ss : List Statement}
    (hfinish : finish.kind = .finish) (hbody : ∀ t ∈ body, t.kind ≠ .finish)
    (h : readStatements (skipBreaks (body ++ [finish])) = .ok ss) :
    DerivesProgram (body ++ [finish]) ss := by
  obtain ⟨us, vs, trail, rest, s, ss', rfl, hus, hvs, htrail, hrest, hskip⟩ :=
    readStatements_sound h
  obtain ⟨lead, hlead, hsplit⟩ := skipBreaks_split (body ++ [finish])
  have hall : lead ++ us ++ vs ++ trail ++ rest = body ++ [finish] := by
    rw [hsplit, hskip]
    simp only [List.append_assoc]
  have hused : ∀ t ∈ lead ++ us ++ vs ++ trail, t.kind ≠ .finish := by
    intro t ht
    simp only [List.mem_append] at ht
    rcases ht with ((ht | ht) | ht) | ht
    · exact hlead.kind_ne_finish t ht
    · exact hus.kind_ne_finish t ht
    · exact hvs.kind_ne_finish t ht
    · exact htrail.kind_ne_finish t ht
  obtain ⟨hcut, -⟩ := eq_of_append_finish hfinish hused hbody hrest hall
  rw [← hcut]
  exact .mk hlead hus hvs htrail hfinish

/-- A text that lexes is read as `p` exactly when its tokens derive `p`. -/
theorem parse_eq_ok_iff {cs : List Char} {ts : List Token} {p : List Statement}
    (h : lex cs = .ok ts) : parse cs = .ok p ↔ DerivesProgram ts p := by
  obtain ⟨body, stop, rfl, hbody⟩ := lex_shape h
  rw [parse, h]
  exact ⟨derives_of_readStatements rfl hbody, readStatements_of_derives⟩

theorem DerivesProgram.unique {ts : List Token} {p q : List Statement}
    (hp : DerivesProgram ts p) (hq : DerivesProgram ts q) : p = q :=
  Except.ok.inj ((readStatements_of_derives hp).symm.trans (readStatements_of_derives hq))

theorem DerivesProgram.names {ts : List Token} {p : List Statement} (h : DerivesProgram ts p) :
    ts.filterMap Token.name? = (p.flatMap Statement.calls).map fun c => (c.name, c.pos) := by
  rw [List.map_flatMap]
  exact h.filterMap_eq (fun t ht => Token.name?_of_ne (by rw [ht]; decide))
    (fun t ht => Token.name?_of_ne (by rw [ht]; decide)) fun ts s hs => hs.names

theorem DerivesProgram.literals {ts : List Token} {p : List Statement} (h : DerivesProgram ts p) :
    ts.filterMap Token.literal? = p.flatMap Statement.literals :=
  h.filterMap_eq (fun t ht => Token.literal?_eq_none (by rw [ht]; decide))
    (fun t ht => Token.literal?_eq_none (by rw [ht]; decide)) fun ts s hs => hs.literals

/-- The readers accept the grammar and build its trees: a text that lexes is read as `p` exactly when
    all its tokens, in their order, derive `p`, which is then the only tree they derive. Its calls
    are the names among the tokens, placed as these are, and its literals the literal tokens, nothing
    lost and nothing twice. -/
theorem parse_derives_exactly (cs : List Char) (ts : List Token) (h : lex cs = .ok ts) :
    (∀ p, parse cs = .ok p ↔ DerivesProgram ts p) ∧
      (∀ p q, DerivesProgram ts p → DerivesProgram ts q → p = q) ∧
      ∀ p, DerivesProgram ts p →
        (ts.filterMap Token.name? = (p.flatMap Statement.calls).map fun c => (c.name, c.pos)) ∧
        ts.filterMap Token.literal? = p.flatMap Statement.literals := by
  refine ⟨fun p => parse_eq_ok_iff h, fun p q => DerivesProgram.unique, ?_⟩
  intro p hp
  exact ⟨hp.names, hp.literals⟩

/-- Line breaks in front, between and behind two statements. -/
theorem parse_derives_exactly_mixed :
    ∃ ts, lex "\na.b(1)\n\n true\n".toList = .ok ts ∧
      parse "\na.b(1)\n\n true\n".toList =
        .ok [.chain ⟨"a", [], ⟨2, 1⟩⟩ [⟨"b", [.number "1"], ⟨2, 3⟩⟩], .literal (.flag true) ⟨4, 2⟩] ∧
      ts.filterMap Token.name? = [("a", ⟨2, 1⟩), ("b", ⟨2, 3⟩)] ∧
      ts.filterMap Token.literal? = [.number "1", .flag true] := by
  have hlex : lex "\na.b(1)\n\n true\n".toList = .ok
      [⟨.lineBreak, "\\n", ⟨1, 1⟩⟩, ⟨.ident, "a", ⟨2, 1⟩⟩, ⟨.dot, ".", ⟨2, 2⟩⟩,
        ⟨.ident, "b", ⟨2, 3⟩⟩, ⟨.leftParen, "(", ⟨2, 4⟩⟩, ⟨.number, "1", ⟨2, 5⟩⟩,
        ⟨.rightParen, ")", ⟨2, 6⟩⟩, ⟨.lineBreak, "\\n", ⟨2, 7⟩⟩, ⟨.lineBreak, "\\n", ⟨3, 1⟩⟩,
        ⟨.yes, "true", ⟨4, 2⟩⟩, ⟨.lineBreak, "\\n", ⟨4, 6⟩⟩, ⟨.finish, "EOF", ⟨5, 1⟩⟩] := by cbv
  obtain ⟨hiff, -, hspell⟩ := parse_derives_exactly _ _ hlex
  have ha := @DerivesCall.bare ⟨.ident, "a", ⟨2, 1⟩⟩ rfl
  have hb := @DerivesCall.args ⟨.ident, "b", ⟨2, 3⟩⟩ ⟨.leftParen, "(", ⟨2, 4⟩⟩
    ⟨.rightParen, ")", ⟨2, 6⟩⟩ [⟨.number, "1", ⟨2, 5⟩⟩] [.number "1"] rfl rfl
    (.last (.number rfl)) rfl
  have hchain := DerivesStatement.chain ha (@DerivesLinks.cons ⟨.dot, ".", ⟨2, 2⟩⟩ _ _ _ _ rfl hb .nil)
  have hflag := @DerivesStatement.literal ⟨.yes, "true", ⟨4, 2⟩⟩ _ (.yes rfl)
  have hmore := @DerivesMore.cons [⟨.lineBreak, "\\n", ⟨2, 7⟩⟩, ⟨.lineBreak, "\\n", ⟨3, 1⟩⟩]
    _ _ _ _ (by simp [Breaks]) (by simp) hflag .nil
  have hprogram := @DerivesProgram.mk [⟨.lineBreak, "\\n", ⟨1, 1⟩⟩] _ _
    [⟨.lineBreak, "\\n", ⟨4, 6⟩⟩] ⟨.finish, "EOF", ⟨5, 1⟩⟩ _ _ (by simp [Breaks]) hchain hmore
    (by simp [Breaks]) rfl
  obtain ⟨hnames, hliterals⟩ := hspell _ hprogram
  exact ⟨_, hlex, (hiff _).mpr hprogram, hnames, hliterals⟩

end Tariff.Source
