/-
  Lines of a batch. In a normal form that can be parsed every statement has a line of its own: there are
  as many statements as lines, the statement of a number stands on the line of that number with all its
  calls, and this line is what it was read from. So a batch finds for every statement the line that is
  its key, and none gets the key of another (`statements_own_lines`).
-/
import Tariff.Proofs.Engine.Fetch
import Tariff.Proofs.Source.Margins
import Tariff.Proofs.Source.OneStatement

namespace Tariff

namespace Source

/-! ## Tokens on a line -/

/-- The tokens on line `n`, without what separates statements. -/
def tokensOnLine (n : Nat) (ts : List Token) : List Token :=
  ts.filter fun t => t.pos.line = n && !t.kind.isBoundary

theorem tokensOnLine_append (n : Nat) (ts us : List Token) :
    tokensOnLine n (ts ++ us) = tokensOnLine n ts ++ tokensOnLine n us := List.filter_append ..

theorem tokensOnLine_boundary (n : Nat) {t : Token} (ht : t.kind.isBoundary = true)
    (ts : List Token) : tokensOnLine n (t :: ts) = tokensOnLine n ts := by
  refine List.filter_cons_of_neg ?_
  rw [ht]
  simp

theorem line_of_mem_tokensAt {l : List Char} (h : '\n' ∉ l) (n : Nat) :
    ∀ t ∈ tokensAt ⟨n, 1⟩ l, t.pos.line = n := by
  rw [tokensAt_line h]
  intro t ht
  obtain ⟨u, -, rfl⟩ := List.mem_map.mp ht
  rfl

/-- Back on line 1 the tokens of a line are those that it has alone. -/
theorem tokensAt_onLine_one {l : List Char} (h : '\n' ∉ l) (n : Nat) :
    (tokensAt ⟨n, 1⟩ l).map (·.relocate (Pos.onLine 1)) = tokensAt .start l := by
  have hone : tokensAt .start l = (tokensAt .start l).map (·.relocate (Pos.onLine 1)) :=
    tokensAt_line h 1
  rw [tokensAt_line h, List.map_map]
  exact hone.symm

/-- All tokens of a line stand on it. -/
theorem tokensOnLine_self {l : List Char} (h : '\n' ∉ l) (n : Nat) :
    tokensOnLine n (tokensAt ⟨n, 1⟩ l) = tokensAt ⟨n, 1⟩ l := by
  rw [tokensOnLine, List.filter_eq_self]
  intro t ht
  rw [line_of_mem_tokensAt h n t ht, tokensAt_not_isBoundary h _ t ht]
  simp

/-- Tokens of other lines do not stand on a line. -/
theorem tokensOnLine_of_ne {n : Nat} {ts : List Token} (h : ∀ t ∈ ts, t.pos.line ≠ n) :
    tokensOnLine n ts = [] := by
  rw [tokensOnLine, List.filter_eq_nil_iff]
  intro t ht
  simp [h t ht]

theorem le_line_of_mem_tokensAt {n : Nat} (cs : List Char) :
    ∀ t ∈ tokensAt ⟨n, 1⟩ cs, n ≤ t.pos.line := by
  intro t ht
  have hle := (pairwise_place ⟨n, 1⟩ (scan cs).pieces).1 t ht
  rw [Pos.le_iff] at hle
  dsimp only at hle
  omega

/-- The tokens of joined lines that stand on one of them are those of this line. -/
theorem tokensOnLine_joinLines {ls : List (List Char)} (h : ∀ l ∈ ls, '\n' ∉ l)
    (hread : ∀ l ∈ ls, (scan l).obstacle = none) {k : Nat} {l : List Char} (hl : ls[k]? = some l)
    (n : Nat) :
    tokensOnLine (n + k) (tokensAt ⟨n, 1⟩ (Text.joinLines ls)) = tokensAt ⟨n + k, 1⟩ l := by
  induction ls generalizing k n with
  | nil => cases hl
  | cons first ls ih =>
    rw [List.forall_mem_cons] at h hread
    cases ls with
    | nil =>
      cases k with
      | zero =>
        cases hl
        rw [Text.joinLines_singleton]
        exact tokensOnLine_self h.1 n
      | succ k => cases hl
    | cons second ls =>
      obtain ⟨q, hq⟩ := tokensAt_append_break (Text.joinLines (second :: ls)) h.1 hread.1 n
      rw [Text.joinLines_cons_cons, hq, tokensOnLine_append, tokensOnLine_boundary _ rfl]
      cases k with
      | zero =>
        cases hl
        have hbehind : tokensOnLine n (tokensAt ⟨n + 1, 1⟩ (Text.joinLines (second :: ls))) = [] := by
          refine tokensOnLine_of_ne fun t ht => ?_
          have hle := le_line_of_mem_tokensAt _ t ht
          omega
        rw [Nat.add_zero, hbehind, List.append_nil, tokensOnLine_self h.1]
      | succ k =>
        have hfront : tokensOnLine (n + (k + 1)) (tokensAt ⟨n, 1⟩ first) = [] := by
          refine tokensOnLine_of_ne fun t ht => ?_
          rw [line_of_mem_tokensAt h.1 n t ht]
          omega
        rw [hfront, List.nil_append, show n + (k + 1) = n + 1 + k by omega]
        exact ih h.2 hread.2 hl (n + 1)

/-! ## Statements on their lines -/

theorem getElem?_placeLines (n k : Nat) (sts : List Statement) :
    (placeLines n sts)[k]? = (sts[k]?).map (Statement.onLine (n + k)) := by
  induction sts generalizing n k with
  | nil => rfl
  | cons st sts ih =>
    cases k with
    | zero => rfl
    | succ k =>
      rw [placeLines, List.getElem?_cons_succ, List.getElem?_cons_succ, ih,
        show n + 1 + k = n + (k + 1) by omega]

theorem length_placeLines (n : Nat) (sts : List Statement) : (placeLines n sts).length = sts.length := by
  induction sts generalizing n with
  | nil => rfl
  | cons st sts ih => rw [placeLines, List.length_cons, List.length_cons, ih]

theorem Statement.onLine_onLine (m n : Nat) (st : Statement) :
    (st.onLine m).onLine n = st.onLine n := Statement.relocate_relocate ..

/-- A statement moved to a line stands on it with all its calls. -/
theorem Statement.line_onLine (n : Nat) (st : Statement) :
    (st.onLine n).pos.line = n ∧ ∀ c ∈ (st.onLine n).calls, c.pos.line = n := by
  refine ⟨congrArg Pos.line (Statement.pos_relocate _ st), ?_⟩
  cases st with
  | literal value pos => exact List.forall_mem_nil _
  | chain head rest =>
    show ∀ c ∈ (head :: rest).map (·.relocate (Pos.onLine n)), c.pos.line = n
    rw [List.forall_mem_map]
    exact fun c _ => rfl

/-- The statement owns a line of a text with the tokens `ts`: it stands on line `n` with all its calls
    and is derived from the tokens there. They are those that the line has alone, where it is the same
    statement in the same columns of line 1. -/
structure Statement.Owns (st : Statement) (n : Nat) (ts : List Token) (line : List Char) :
    Prop where
  pos : st.pos.line = n
  calls : ∀ c ∈ st.calls, c.pos.line = n
  derives : DerivesStatement (tokensOnLine n ts) st
  lex : ∃ stop, Source.lex line =
    .ok ((tokensOnLine n ts).map (·.relocate (Pos.onLine 1)) ++ [.finishAt stop])
  alone : parseStatement line = .ok (st.onLine 1)
  same : (st.onLine 1).onLine n = st

theorem owns_of_parseStatement {ls : List (List Char)} {line : List Char} {k : Nat}
    {st : Statement} (hcontent : ∀ l ∈ ls, ContentLine l)
    (hread : ∀ l ∈ ls, (scan l).obstacle = none) (hline : ls[k]? = some line)
    (h : parseStatement line = .ok st) (stop : Pos) :
    (st.onLine (k + 1)).Owns (k + 1) (tokensAt .start (Text.joinLines ls) ++ [.finishAt stop]) line := by
  have hmem := List.mem_of_getElem? hline
  have hl := hcontent line hmem
  have hbreaks : ∀ l ∈ ls, '\n' ∉ l := fun l hl => (hcontent l hl).noBreak
  have htokens : tokensOnLine (k + 1) (tokensAt .start (Text.joinLines ls) ++ [.finishAt stop]) =
      tokensAt ⟨k + 1, 1⟩ line := by
    rw [tokensOnLine_append, tokensOnLine_boundary _ rfl, Nat.add_comm k 1]
    exact (List.append_nil _).trans (tokensOnLine_joinLines hbreaks hread hline 1)
  have hone := onLine_one_of_parseStatement hl h
  obtain ⟨hpos, hcalls⟩ := st.line_onLine (k + 1)
  refine ⟨hpos, hcalls, ?_, ?_, ?_, ?_⟩
  · rw [htokens, tokensAt_line hl.noBreak]
    exact ((parseStatement_eq_ok_iff hl).mp h).2.relocate _
  · rw [htokens, tokensAt_onLine_one hl.noBreak]
    exact ⟨_, lex_line (hread line hmem)⟩
  · rw [Statement.onLine_onLine, hone, h]
  · rw [Statement.onLine_onLine, Statement.onLine_onLine]

/-- In a text of content lines that can be parsed the statement of a number owns the line of that
    number. -/
theorem owns_of_parse {ls : List (List Char)} (hne : ls ≠ [])
    (hcontent : ∀ l ∈ ls, ContentLine l) {sts : List Statement}
    (h : parse (Text.joinLines ls) = .ok sts) :
    sts.length = ls.length ∧
      ∃ ts, Source.lex (Text.joinLines ls) = .ok ts ∧
        ∀ (k : Nat) (st : Statement), sts[k]? = some st →
          ∃ line, ls[k]? = some line ∧ st.Owns (k + 1) ts line := by
  obtain ⟨alone, hall, rfl⟩ := (parse_joinLines hne hcontent).mp h
  have hread := ((forall₂_parseStatement_iff hcontent).mp hall).1
  have hlex := lex_line ((scan_joinLines fun l hl => (hcontent l hl).noBreak).mpr hread)
  refine ⟨?_, _, hlex, ?_⟩
  · rw [length_placeLines, hall.length_eq]
  · intro k st hst
    rw [getElem?_placeLines, Nat.add_comm 1 k] at hst
    obtain ⟨st₀, hst₀, rfl⟩ := Option.map_eq_some_iff.mp hst
    obtain ⟨hk, rfl⟩ := List.getElem?_eq_some_iff.mp hst₀
    have hk' : k < ls.length := hall.length_eq.symm ▸ hk
    have hline : ls[k]? = some ls[k] := List.getElem?_eq_getElem hk'
    exact ⟨_, hline, owns_of_parseStatement hcontent hread hline (hall.get hk' hk) _⟩

/-- Statements that own equal lines differ in the number of the line only. -/
theorem Statement.Owns.onLine_eq {st st' : Statement} {n m : Nat} {ts us : List Token}
    {line : List Char} (h : st.Owns n ts line) (h' : st'.Owns m us line) : st.onLine m = st' := by
  have hone := Except.ok.inj (h.alone.symm.trans h'.alone)
  rw [← h'.same, ← hone, Statement.onLine_onLine]

end Source

namespace Store

open Source

/-- A statement that owns its line is built under this line as its key. -/
theorem buildStatement_own {st : Statement} {k : Nat} {ts : List Token} {line : List Char}
    {ls : List (List Char)} (h : st.Owns (k + 1) ts line) (hline : ls[k]? = some line)
    (policy : DuplicatePolicy) (s : Store) :
    s.buildStatement policy ls st = s.fetch (String.ofList line) (compile policy st) := by
  have hfound : ls[st.pos.line - 1]? = some line := by rw [h.pos, Nat.add_sub_cancel, hline]
  rw [buildStatement, hfound]

/-- Let a normal form be parsed, with the tokens `ts`. There are as many statements as lines, and the
    statement of a number owns the line of that number. A batch builds it under this line, never past
    the cache; and statements with the same key are the same up to the number of the line, so that
    what one of them finds under it is its own. These numbers have no bound here; 32 bits hold them in a
    source of fewer than 2^32 - 1 characters. -/
theorem statements_own_lines {source text : String} {sts : List Statement}
    (hform : normalize source = some text) (hparse : parse text.toList = .ok sts) :
    let ls := Text.lines text.toList
    sts.length = ls.length ∧
    (∃ ts, lex text.toList = .ok ts ∧
      ∀ (k : Nat) (st : Statement), sts[k]? = some st →
        ∃ line, ls[k]? = some line ∧ st.Owns (k + 1) ts line ∧
          ∀ policy s,
            buildStatement policy ls st s = s.fetch (String.ofList line) (compile policy st)) ∧
    ∀ (j k : Nat) (st st' : Statement), sts[j]? = some st → sts[k]? = some st' → ls[j]? = ls[k]? →
      st.onLine (k + 1) = st' := by
  obtain ⟨cs, hcs, rfl⟩ := Option.map_eq_some_iff.mp hform
  rw [String.toList_ofList] at hparse ⊢
  obtain ⟨hne, htext, hcontent⟩ := normalForm?_lines hcs
  intro ls
  rw [htext] at hparse
  obtain ⟨hlength, ts, hlex, howns⟩ := owns_of_parse hne hcontent hparse
  rw [← htext] at hlex
  refine ⟨hlength, ⟨ts, hlex, ?_⟩, ?_⟩
  · intro k st hst
    obtain ⟨line, hline, hown⟩ := howns k st hst
    exact ⟨line, hline, hown, fun policy s => buildStatement_own hown hline policy s⟩
  · intro j k st st' hst hst' hsame
    obtain ⟨line, hline, hown⟩ := howns j st hst
    obtain ⟨line', hline', hown'⟩ := howns k st' hst'
    obtain rfl : line = line' := Option.some.inj (hline.symm.trans (hsame.trans hline'))
    exact hown.onLine_eq hown'

/-- A line that comes again is the same statement on another line. -/
theorem statements_own_lines_repeated :
    normalize "  x \n\n7\nx" = some "x\n7\nx" ∧
    parse "x\n7\nx".toList = .ok [.chain ⟨"x", [], ⟨1, 1⟩⟩ [], .literal (.number "7") ⟨2, 1⟩,
      .chain ⟨"x", [], ⟨3, 1⟩⟩ []] ∧
    (Statement.chain ⟨"x", [], ⟨1, 1⟩⟩ []).onLine 3 = .chain ⟨"x", [], ⟨3, 1⟩⟩ [] := by
  have hform : normalize "  x \n\n7\nx" = some "x\n7\nx" := by cbv
  have hx : parseStatement ['x'] = .ok (.chain ⟨"x", [], ⟨1, 1⟩⟩ []) := by cbv
  have hseven : parseStatement ['7'] = .ok (.literal (.number "7") ⟨1, 1⟩) := by cbv
  obtain ⟨hne, hjoin, hcontent⟩ := normalForm?_lines
    (show normalForm? "x\n7\nx".toList = some "x\n7\nx".toList by cbv)
  have hlines : Text.lines "x\n7\nx".toList = [['x'], ['7'], ['x']] := by cbv
  rw [hlines] at hne hjoin hcontent
  have hparse : parse "x\n7\nx".toList = .ok [.chain ⟨"x", [], ⟨1, 1⟩⟩ [],
      .literal (.number "7") ⟨2, 1⟩, .chain ⟨"x", [], ⟨3, 1⟩⟩ []] := by
    rw [hjoin]
    exact (parse_joinLines hne hcontent).mpr
      ⟨_, .cons hx (.cons hseven (.cons hx .nil)), rfl⟩
  have hsame : (Text.lines "x\n7\nx".toList)[0]? = (Text.lines "x\n7\nx".toList)[2]? := by
    rw [hlines]
    rfl
  exact ⟨hform, hparse, (statements_own_lines hform hparse).2.2 0 2 _ _ rfl rfl hsame⟩

end Store

end Tariff
