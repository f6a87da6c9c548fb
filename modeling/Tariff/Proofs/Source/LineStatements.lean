/-
  Parsing goes line by line. A text is read as a program exactly when each of its lines can be lexed and
  each line with tokens is a statement of its own, at least one; the statements of the program are those
  of the lines in order, each moved to its line (`parse_joinLines_iff`). In a normal form every line has
  tokens, so each of its lines is a statement (`parse_joinLines`).
-/
import Tariff.Proofs.Source.Derivation
import Tariff.Proofs.Source.LineTokens
import Mathlib.Data.List.Forall2
import Mathlib.Tactic.Tauto

namespace Tariff.Source

/-! ## Moved statements -/

/-- The statement in the same columns of line `n`. -/
def Statement.onLine (n : Nat) (s : Statement) : Statement := s.relocate (Pos.onLine n)

/-- Statements on the lines from `n` on, one a line. -/
def placeLines (n : Nat) : List Statement → List Statement
  | [] => []
  | s :: ss => s.onLine n :: placeLines (n + 1) ss

theorem DerivesStatement.unique {ts : List Token} {s s' : Statement} (h : DerivesStatement ts s)
    (h' : DerivesStatement ts s') : s = s' := by
  have hstops : Stops [] := stops_of_isBoundary rfl
  have hread := readStatement_complete h hstops
  rw [readStatement_complete h' hstops] at hread
  exact (congrArg Prod.fst (Except.ok.inj hread)).symm

/-- Tokens moved by `f`, which `g` undoes on them, derive what they derive in place, moved as well. -/
theorem derivesStatement_relocate_iff {f g : Pos → Pos} {ts : List Token}
    (hback : ∀ t ∈ ts, g (f t.pos) = t.pos) {s : Statement} :
    DerivesStatement (ts.map (·.relocate f)) s ↔
      ∃ s', DerivesStatement ts s' ∧ s = s'.relocate f := by
  constructor
  · intro h
    have hundone := h.relocate g
    have hsame : (ts.map (·.relocate f)).map (·.relocate g) = ts := by
      rw [List.map_map]
      refine (List.map_congr_left fun t ht => ?_).trans (List.map_id _)
      show ({ t with pos := g (f t.pos) } : Token) = t
      rw [hback t ht]
    rw [hsame] at hundone
    exact ⟨s.relocate g, hundone, h.unique (hundone.relocate f)⟩
  · rintro ⟨s', h, rfl⟩
    exact h.relocate f

/-- Tokens of line 1, moved to line `n`, derive what they derive on line 1, moved as well. -/
theorem derivesStatement_onLine_iff {ts : List Token} (hts : ∀ t ∈ ts, t.pos.line = 1) (n : Nat)
    {s : Statement} :
    DerivesStatement (ts.map (·.relocate (Pos.onLine n))) s ↔
      ∃ s', DerivesStatement ts s' ∧ s = s'.onLine n := by
  apply derivesStatement_relocate_iff (g := Pos.onLine 1)
  intro t ht
  show (⟨1, t.pos.column⟩ : Pos) = t.pos
  rw [← hts t ht]

/-! ## One line -/

theorem tokensAt_not_isBoundary {l : List Char} (h : '\n' ∉ l) (p : Pos) :
    ∀ t ∈ tokensAt p l, t.kind.isBoundary = false := by
  have hplace : ∀ (ps : List Lexeme) (p : Pos), (∀ piece ∈ ps, piece.Sound) →
      '\n' ∉ spellings ps → ∀ t ∈ place p ps, t.kind.isBoundary = false := by
    intro ps p
    fun_induction place p ps with
    | case1 => simp
    | case2 p c ps ih =>
      intro hsound hfree
      rw [spellings_cons, List.mem_append, not_or] at hfree
      exact ih (fun piece hp => hsound piece (List.mem_cons_of_mem _ hp)) hfree.2
    | case3 p kind text spelling ps ih =>
      intro hsound hfree t ht
      rw [spellings_cons, List.mem_append, not_or] at hfree
      rcases List.mem_cons.mp ht with rfl | ht
      · rcases hsound _ (List.mem_cons_self ..) with ⟨-, hs⟩ | ⟨hl, hf, -⟩
        · exact absurd (by rw [Lexeme.spelling, hs]; exact List.mem_singleton_self _) hfree.1
        · simp [Token.Kind.isBoundary, hl, hf]
      · exact ih (fun piece hp => hsound piece (List.mem_cons_of_mem _ hp)) hfree.2 t ht
  exact hplace _ p (scan_sound l) (noBreak_spellings h)

theorem tokensAt_start_line {l : List Char} (h : '\n' ∉ l) :
    ∀ t ∈ tokensAt .start l, t.pos.line = 1 := by
  intro t ht
  have hline : tokensAt .start l = (tokensAt .start l).map (·.relocate (Pos.onLine 1)) :=
    tokensAt_line h 1
  rw [hline] at ht
  obtain ⟨t', -, rfl⟩ := List.mem_map.mp ht
  rfl

/-- A statement read off a line that a boundary ends either takes the whole line or stops at a token
    of it. -/
theorem readStatement_line {body rest r : List Token} {s : Statement}
    (hbody : ∀ t ∈ body, t.kind.isBoundary = false)
    (hrest : (current rest).kind.isBoundary = true)
    (h : readStatement (body ++ rest) = .ok (s, r)) :
    (DerivesStatement body s ∧ r = rest) ∨ (current r).kind.isBoundary = false := by
  obtain ⟨us, hus, hsplit⟩ := readStatement_sound h
  rcases List.append_eq_append_iff.mp hsplit with ⟨as, rfl, hr⟩ | ⟨bs, rfl, rfl⟩
  · cases as with
    | nil => exact Or.inl ⟨by rwa [List.append_nil] at hus, hr.symm⟩
    | cons a as =>
      rw [hr] at hrest
      have ha := hus.isBoundary_eq_false a (by simp)
      rw [show (current (a :: as ++ r)).kind = a.kind from rfl, ha] at hrest
      cases hrest
  · cases bs with
    | nil => exact Or.inl ⟨by rwa [List.append_nil], rfl⟩
    | cons b bs => exact Or.inr (hbody b (by simp))

theorem ne_lineBreak_of_not_isBoundary {k : Token.Kind} (h : k.isBoundary = false) :
    k ≠ .lineBreak := by
  rintro rfl
  cases h

theorem lex_line {l : List Char} (hread : (scan l).obstacle = none) :
    lex l = .ok (tokensAt .start l ++ [.finishAt (Pos.start.after l)]) := by
  rw [lex_eq_ok_iff]
  refine ⟨hread, ?_⟩
  rw [spellings_eq hread]
  rfl

theorem lex_error {cs : List Char} {o : Obstacle} (h : (scan cs).obstacle = some o) :
    ∃ e, lex cs = .error e := by
  cases hlex : lex cs with
  | error e => exact ⟨e, rfl⟩
  | ok ts =>
    have hnone := (lex_eq_ok_iff.mp hlex).1
    rw [h] at hnone
    cases hnone

theorem current_append {ts : List Token} (hne : ts ≠ []) (us : List Token) :
    current (ts ++ us) ∈ ts := by
  cases ts with
  | nil => exact absurd rfl hne
  | cons t ts => exact List.mem_cons_self ..

theorem skipBreaks_line {body rest : List Token} (hne : body ≠ [])
    (hbody : ∀ t ∈ body, t.kind.isBoundary = false) :
    skipBreaks (body ++ rest) = body ++ rest := by
  exact skipBreaks_eq_self (ne_lineBreak_of_not_isBoundary (hbody _ (current_append hne rest)))

/-- A content line is one statement exactly when it can be lexed and its tokens derive it. -/
theorem parseStatement_eq_ok_iff {l : List Char} (h : ContentLine l) {s : Statement} :
    parseStatement l = .ok s ↔
      (scan l).obstacle = none ∧ DerivesStatement (tokensAt .start l) s := by
  unfold parseStatement
  cases hread : (scan l).obstacle with
  | some o =>
    obtain ⟨e, he⟩ := lex_error hread
    simp [he]
  | none =>
    have hbody := tokensAt_not_isBoundary h.noBreak .start
    rw [lex_line hread]
    dsimp only
    rw [skipBreaks_line (tokensAt_ne_nil h hread _) hbody]
    constructor
    · intro hok
      split at hok
      · cases hok
      · next s' r hs =>
        split at hok
        · next hfin =>
          cases hok
          rcases readStatement_line hbody rfl hs with ⟨hd, -⟩ | hstray
          · exact ⟨rfl, hd⟩
          · -- A stray token is no line break, so it is still in front of the end.
            rw [skipBreaks_eq_self (ne_lineBreak_of_not_isBoundary hstray)] at hfin
            rw [hfin] at hstray
            cases hstray
        · cases hok
    · rintro ⟨-, hd⟩
      have hstops : Stops [Token.finishAt (Pos.start.after l)] := stops_of_isBoundary rfl
      rw [readStatement_complete hd hstops]
      rfl

/-- The statement of a line that stands alone is on line 1. -/
theorem onLine_one_of_parseStatement {l : List Char} (h : ContentLine l) {s : Statement}
    (hs : parseStatement l = .ok s) : s.onLine 1 = s := by
  have hd := ((parseStatement_eq_ok_iff h).mp hs).2
  have hmoved := hd.relocate (Pos.onLine 1)
  have hsame : (tokensAt .start l).map (·.relocate (Pos.onLine 1)) = tokensAt .start l :=
    (tokensAt_line h.noBreak 1).symm
  rw [hsame] at hmoved
  exact hmoved.unique hd

/-! ## All lines -/

/-- What can be read begins a statement. -/
theorem readStatements_front {ts : List Token} {ss : List Statement}
    (h : readStatements ts = .ok ss) : ss ≠ [] ∧ (current ts).kind.isBoundary = false := by
  obtain ⟨us, vs, trail, rest, s, ss', rfl, hus, -, -, -, rfl⟩ := readStatements_sound h
  refine ⟨List.cons_ne_nil _ _, ?_⟩
  simp only [List.append_assoc]
  exact hus.current_not_isBoundary _

/-- Tokens that are read as these statements, or behind whose line breaks the source ends if there
    are none. -/
def Reads (ts : List Token) : List Statement → Prop
  | [] => (current (skipBreaks ts)).kind = .finish
  | s :: ss => readStatements (skipBreaks ts) = .ok (s :: ss)

theorem readStatements_eq_ok_iff {ts : List Token} {ss : List Statement} :
    readStatements (skipBreaks ts) = .ok ss ↔ ss ≠ [] ∧ Reads ts ss := by
  cases ss with
  | nil =>
    constructor
    · exact fun h => absurd rfl (readStatements_front h).1
    · exact fun h => absurd rfl h.1
  | cons s ss => exact (and_iff_right (List.cons_ne_nil s ss)).symm

theorem reads_finish {rest : List Token} (hrest : (current rest).kind = .finish)
    {ss : List Statement} : Reads rest ss ↔ ss = [] := by
  have hskip : skipBreaks rest = rest := skipBreaks_eq_self (by rw [hrest]; decide)
  cases ss with
  | nil => simp [Reads, hskip, hrest]
  | cons s ss =>
    simp only [Reads, hskip, reduceCtorEq, iff_false]
    intro h
    have hfront := (readStatements_front h).2
    rw [hrest] at hfront
    cases hfront

theorem reads_lineBreak {b : Token} (hb : b.kind = .lineBreak) (rest : List Token)
    {ss : List Statement} : Reads (b :: rest) ss ↔ Reads rest ss := by
  have hskip : skipBreaks (b :: rest) = skipBreaks rest :=
    skipBreaks_append (show Breaks [b] by simpa [Breaks] using hb)
  cases ss <;> simp only [Reads, hskip]

/-- The tokens of a line are one statement, and what follows the line is read on its own. -/
theorem readStatements_line_iff {body rest : List Token}
    (hbody : ∀ t ∈ body, t.kind.isBoundary = false)
    (hrest : (current rest).kind.isBoundary = true) {ss : List Statement} :
    readStatements (body ++ rest) = .ok ss ↔
      ∃ s ss', DerivesStatement body s ∧ Reads rest ss' ∧ ss = s :: ss' := by
  constructor
  · intro h
    obtain ⟨s, r, hread, hr, hnext⟩ := readStatements_cases h
    rcases readStatement_line hbody hrest hread with ⟨hd, rfl⟩ | hstray
    · rcases hnext with ⟨rfl, hend⟩ | ⟨ss', rfl, -, hss⟩
      · exact ⟨s, [], hd, hend, rfl⟩
      · exact ⟨s, ss', hd, (readStatements_eq_ok_iff.mp hss).2, rfl⟩
    · rw [hstray] at hr
      cases hr
  · rintro ⟨s, ss', hd, hss, rfl⟩
    have hread := readStatement_complete hd (stops_of_isBoundary hrest)
    cases ss' with
    | nil => exact readStatements_last hread hrest hss
    | cons s' ss' =>
      have hfront := (readStatements_front hss).2
      -- A source that ends here has no further statement.
      have hfin : (current rest).kind ≠ .finish := by
        intro hfin
        cases (reads_finish hfin).mp hss
      have hbreak : (current rest).kind = .lineBreak := by
        simpa [Token.Kind.isBoundary, hfin] using hrest
      refine readStatements_more hread hbreak ?_ hss
      intro hend
      rw [hend] at hfront
      cases hfront

theorem DerivesStatement.ne_nil {ts : List Token} {s : Statement} (h : DerivesStatement ts s) :
    ts ≠ [] := by
  obtain ⟨t, us, rfl, -⟩ := h.front
  exact List.cons_ne_nil t us

/-- A line in front of what follows it has no tokens, or is one statement. -/
theorem reads_line {l : List Char} (h : '\n' ∉ l) (n : Nat) {rest : List Token}
    (hrest : (current rest).kind.isBoundary = true) {ss : List Statement} :
    Reads (tokensAt ⟨n, 1⟩ l ++ rest) ss ↔
      (tokensAt .start l = [] ∧ Reads rest ss) ∨
        ∃ s ss', DerivesStatement (tokensAt .start l) s ∧ Reads rest ss' ∧
          ss = s.onLine n :: ss' := by
  have hbody := tokensAt_not_isBoundary h ⟨n, 1⟩
  have hmove : ∀ {s}, DerivesStatement (tokensAt ⟨n, 1⟩ l) s ↔
      ∃ s', DerivesStatement (tokensAt .start l) s' ∧ s = s'.onLine n := by
    intro s
    rw [tokensAt_line h n]
    exact derivesStatement_onLine_iff (tokensAt_start_line h) n
  by_cases hnil : tokensAt .start l = []
  · have hnone : ∀ s, ¬ DerivesStatement [] s := fun s hs => hs.ne_nil rfl
    rw [tokensAt_line h n, hnil]
    simp [hnone]
  · have hne : tokensAt ⟨n, 1⟩ l ≠ [] := by
      rw [tokensAt_line h n]
      simpa using hnil
    have hskip : skipBreaks (tokensAt ⟨n, 1⟩ l ++ rest) = tokensAt ⟨n, 1⟩ l ++ rest :=
      skipBreaks_line hne hbody
    cases ss with
    | nil =>
      have hfront := hbody _ (current_append hne rest)
      simp only [Reads, hskip, hnil, false_and, false_or, reduceCtorEq, and_false, exists_false,
        iff_false]
      intro hfin
      rw [hfin] at hfront
      cases hfront
    | cons s ss =>
      simp only [Reads, hskip, hnil, false_and, false_or]
      rw [readStatements_line_iff hbody hrest]
      constructor
      · rintro ⟨s', ss', hs, hss, heq⟩
        obtain ⟨s₀, hs₀, rfl⟩ := hmove.mp hs
        exact ⟨s₀, ss', hs₀, hss, heq⟩
      · rintro ⟨s₀, ss', hs₀, hss, heq⟩
        exact ⟨s₀.onLine n, ss', hmove.mpr ⟨s₀, hs₀, rfl⟩, hss, heq⟩

/-- The statements of lines from line `n` on: one for each line with tokens. -/
inductive OnLines : Nat → List (List Char) → List Statement → Prop
  | nil {n : Nat} : OnLines n [] []
  | blank {n : Nat} {l : List Char} {ls : List (List Char)} {ss : List Statement}
      (hl : tokensAt .start l = []) (h : OnLines (n + 1) ls ss) : OnLines n (l :: ls) ss
  | statement {n : Nat} {l : List Char} {ls : List (List Char)} {s : Statement}
      {ss : List Statement} (hl : DerivesStatement (tokensAt .start l) s)
      (h : OnLines (n + 1) ls ss) : OnLines n (l :: ls) (s.onLine n :: ss)

theorem onLines_nil_iff {n : Nat} {ss : List Statement} : OnLines n [] ss ↔ ss = [] := by
  constructor
  · rintro ⟨⟩
    rfl
  · rintro rfl
    exact .nil

theorem onLines_cons_iff {n : Nat} {l : List Char} {ls : List (List Char)} {ss : List Statement} :
    OnLines n (l :: ls) ss ↔
      (tokensAt .start l = [] ∧ OnLines (n + 1) ls ss) ∨
        ∃ s ss', DerivesStatement (tokensAt .start l) s ∧ OnLines (n + 1) ls ss' ∧
          ss = s.onLine n :: ss' := by
  constructor
  · intro h
    cases h with
    | blank hl h => exact Or.inl ⟨hl, h⟩
    | statement hl h => exact Or.inr ⟨_, _, hl, h, rfl⟩
  · rintro (⟨hl, h⟩ | ⟨s, ss', hl, h, rfl⟩)
    · exact .blank hl h
    · exact .statement hl h

theorem onLines_cons_of_nil {n : Nat} {l : List Char} {ls : List (List Char)}
    {ss : List Statement} (hl : tokensAt .start l = []) :
    OnLines n (l :: ls) ss ↔ OnLines (n + 1) ls ss := by
  rw [onLines_cons_iff, and_iff_right hl]
  refine or_iff_left ?_
  rintro ⟨s, ss', hs, -⟩
  exact hs.ne_nil hl

theorem onLines_cons_of_ne_nil {n : Nat} {l : List Char} {ls : List (List Char)}
    {ss : List Statement} (hl : tokensAt .start l ≠ []) :
    OnLines n (l :: ls) ss ↔
      ∃ s ss', DerivesStatement (tokensAt .start l) s ∧ OnLines (n + 1) ls ss' ∧
        ss = s.onLine n :: ss' := by
  rw [onLines_cons_iff]
  exact or_iff_right fun h => hl h.1

theorem reads_joinLines {ls : List (List Char)} (h : ∀ l ∈ ls, '\n' ∉ l)
    (hread : ∀ l ∈ ls, (scan l).obstacle = none) (n : Nat) {rest : List Token}
    (hrest : (current rest).kind = .finish) {ss : List Statement} :
    Reads (tokensAt ⟨n, 1⟩ (Text.joinLines ls) ++ rest) ss ↔ OnLines n ls ss := by
  have hend : (current rest).kind.isBoundary = true := by rw [hrest]; rfl
  induction ls generalizing n ss with
  | nil =>
    have hempty : tokensAt ⟨n, 1⟩ (Text.joinLines []) = [] := by
      simp [tokensAt, Text.joinLines, scan, place]
    rw [hempty, List.nil_append, reads_finish hrest, onLines_nil_iff]
  | cons l ls ih =>
    rw [List.forall_mem_cons] at h hread
    cases ls with
    | nil =>
      rw [Text.joinLines_singleton, reads_line h.1 n hend, onLines_cons_iff]
      simp only [reads_finish hrest, onLines_nil_iff]
    | cons l' ls =>
      obtain ⟨q, hq⟩ := tokensAt_append_break (Text.joinLines (l' :: ls)) h.1 hread.1 n
      rw [Text.joinLines_cons_cons, hq, List.append_assoc, List.cons_append,
        reads_line h.1 n rfl, onLines_cons_iff]
      simp only [reads_lineBreak, ih h.2 hread.2 (n + 1)]

/-- Lines joined to a text have an obstacle exactly when one of them has. -/
theorem scan_joinLines {ls : List (List Char)} (h : ∀ l ∈ ls, '\n' ∉ l) :
    (scan (Text.joinLines ls)).obstacle = none ↔ ∀ l ∈ ls, (scan l).obstacle = none := by
  induction ls with
  | nil => simp [Text.joinLines, scan]
  | cons l ls ih =>
    rw [List.forall_mem_cons] at h
    cases ls with
    | nil => simp [Text.joinLines_singleton]
    | cons l' ls =>
      rw [Text.joinLines_cons_cons, scan_append_break _ h.1, List.forall_mem_cons, ← ih h.2]
      cases (scan l).obstacle <;> simp

/-- A text is read as the statements of its lines, each on its line, when all lines can be lexed and
    there is a statement. -/
theorem parse_joinLines_iff {ls : List (List Char)} (h : ∀ l ∈ ls, '\n' ∉ l)
    {ss : List Statement} :
    parse (Text.joinLines ls) = .ok ss ↔
      (∀ l ∈ ls, (scan l).obstacle = none) ∧ ss ≠ [] ∧ OnLines 1 ls ss := by
  by_cases hread : ∀ l ∈ ls, (scan l).obstacle = none
  · rw [parse, lex_line ((scan_joinLines h).mpr hread)]
    dsimp only
    have hend : (current [.finishAt (Pos.start.after (Text.joinLines ls))]).kind = .finish := rfl
    rw [readStatements_eq_ok_iff, and_iff_right hread, ← reads_joinLines h hread 1 hend]
    rfl
  · refine iff_of_false ?_ fun hok => hread hok.1
    intro hok
    rw [parse] at hok
    split at hok
    · cases hok
    · next hlex => exact hread ((scan_joinLines h).mp (lex_eq_ok_iff.mp hlex).1)

/-! ## Content lines -/

theorem forall₂_parseStatement_iff {ls : List (List Char)} (h : ∀ l ∈ ls, ContentLine l)
    {sts : List Statement} :
    List.Forall₂ (fun l s => parseStatement l = .ok s) ls sts ↔
      (∀ l ∈ ls, (scan l).obstacle = none) ∧
        List.Forall₂ (fun l s => DerivesStatement (tokensAt .start l) s) ls sts := by
  induction ls generalizing sts with
  | nil => simp
  | cons l ls ih =>
    have hl := h l (List.mem_cons_self ..)
    have h' : ∀ k ∈ ls, ContentLine k := fun k hk => h k (List.mem_cons_of_mem _ hk)
    cases sts with
    | nil => simp
    | cons s sts =>
      rw [List.forall₂_cons, List.forall₂_cons, parseStatement_eq_ok_iff hl, ih h',
        List.forall_mem_cons]
      tauto

/-- Where every line has tokens, every line is a statement. -/
theorem onLines_iff_forall₂ {ls : List (List Char)} (h : ∀ l ∈ ls, tokensAt .start l ≠ [])
    (n : Nat) {ss : List Statement} :
    OnLines n ls ss ↔
      ∃ sts, List.Forall₂ (fun l s => DerivesStatement (tokensAt .start l) s) ls sts ∧
        ss = placeLines n sts := by
  induction ls generalizing n ss with
  | nil =>
    rw [onLines_nil_iff]
    simp [placeLines]
  | cons l ls ih =>
    rw [List.forall_mem_cons] at h
    rw [onLines_cons_of_ne_nil h.1]
    simp only [ih h.2]
    constructor
    · rintro ⟨s, ss', hs, ⟨sts, hall, rfl⟩, rfl⟩
      exact ⟨s :: sts, .cons hs hall, rfl⟩
    · rintro ⟨sts, hall, rfl⟩
      cases hall with
      | cons hs hall => exact ⟨_, _, hs, ⟨_, hall, rfl⟩, rfl⟩

/-- A text of content lines is read as the statements that its lines have alone, each on its line;
    it is refused when one of the lines is. -/
theorem parse_joinLines {ls : List (List Char)} (hne : ls ≠ []) (h : ∀ l ∈ ls, ContentLine l)
    {ss : List Statement} :
    parse (Text.joinLines ls) = .ok ss ↔
      ∃ sts, List.Forall₂ (fun l s => parseStatement l = .ok s) ls sts ∧ ss = placeLines 1 sts := by
  rw [parse_joinLines_iff fun l hl => (h l hl).noBreak]
  simp only [forall₂_parseStatement_iff h, and_assoc, exists_and_left]
  refine and_congr_right fun hread => ?_
  rw [onLines_iff_forall₂ fun l hl => tokensAt_ne_nil (h l hl) (hread l hl) _]
  refine and_iff_right_of_imp ?_
  rintro ⟨sts, hall, rfl⟩
  cases hall with
  | nil => exact absurd rfl hne
  | cons _ _ => exact List.cons_ne_nil _ _

/-! ## Texts of one statement -/

theorem parse_of_parseStatement {cs : List Char} {st : Statement}
    (h : parseStatement cs = .ok st) : parse cs = .ok [st] := by
  unfold parseStatement at h
  unfold parse
  cases hlex : lex cs with
  | error e =>
    rw [hlex] at h
    cases h
  | ok ts =>
    rw [hlex] at h
    dsimp only at h ⊢
    cases hread : readStatement (skipBreaks ts) with
    | error e =>
      rw [hread] at h
      cases h
    | ok r =>
      obtain ⟨s, rest⟩ := r
      rw [hread] at h
      dsimp only at h
      split at h
      · next hend =>
        cases h
        apply readStatements_last hread _ hend
        by_contra hb
        have hk : (current rest).kind ≠ .lineBreak := ne_lineBreak_of_not_isBoundary (by simpa using hb)
        rw [skipBreaks_eq_self hk] at hend
        rw [hend] at hb
        exact hb rfl
      · cases h

/-- Content lines that are one statement together are a single line. -/
theorem eq_singleton_of_parseStatement {ls : List (List Char)} (hne : ls ≠ [])
    (h : ∀ l ∈ ls, ContentLine l) {st : Statement}
    (hst : parseStatement (Text.joinLines ls) = .ok st) : ∃ l, ls = [l] := by
  obtain ⟨sts, hall, hsts⟩ := (parse_joinLines hne h).mp (parse_of_parseStatement hst)
  cases hall with
  | nil => exact absurd rfl hne
  | @cons l s ls sts hl hall =>
    cases hall with
    | nil => exact ⟨l, rfl⟩
    | cons _ _ => simp [placeLines] at hsts

end Tariff.Source
