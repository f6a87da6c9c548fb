/-
  A text and its normal form are the same program. Where only blanks that may stand between tokens are
  trimmed off the lines, a text is a program exactly when it has a normal form and this is one, and both
  have the same statements in order (`parse_normalForm`). The normal form has the statement `i` on line
  `i`, and its columns begin where the margin of the original line ends.
-/
import Tariff.Proofs.Source.LineStatements
import Tariff.Proofs.Source.Tiling

namespace Tariff.Text

/-! ## Trimming a line -/

/-- What stands on the lines of a text, between its line breaks. -/
def rows (cs : List Char) : List (List Char) := parts (· == '\n') cs

/-- The white space in front of a line. -/
def margin (l : List Char) : List Char := l.takeWhile isBlank

theorem mem_rtakeWhile_append {p : Char → Bool} {c : Char} {cs : List Char} (ds : List Char)
    (h : c ∈ cs.rtakeWhile p) : c ∈ (ds ++ cs).rtakeWhile p := by
  unfold List.rtakeWhile at h ⊢
  rw [List.mem_reverse] at h ⊢
  rw [List.reverse_append, List.takeWhile_append]
  split
  · exact List.mem_append_left _ ((List.takeWhile_prefix p).subset h)
  · exact h

/-- A line is its margin, its trimmed text, and some of the white space at its end. -/
theorem exists_margin_trim (l : List Char) :
    ∃ trail, l = margin l ++ trim l ++ trail ∧ ∀ c ∈ trail, c ∈ l.rtakeWhile isBlank := by
  have hsplit : margin l ++ trimStart l = l := List.takeWhile_append_dropWhile
  refine ⟨(trimStart l).rtakeWhile isBlank, ?_, ?_⟩
  · rw [List.append_assoc, trim, trimEnd_eq_rdropWhile, List.rdropWhile_append_rtakeWhile, hsplit]
  · intro c hc
    rw [← hsplit]
    exact mem_rtakeWhile_append _ hc

theorem trim_append_return (l : List Char) : trim (l ++ ['\r']) = trim l := by
  have hblank : isBlank '\r' = true := by decide
  unfold trim trimStart
  rw [List.dropWhile_append]
  split
  · next hnil =>
    rw [List.isEmpty_iff.mp hnil, List.dropWhile_cons_of_pos hblank]
    rfl
  · rw [trimEnd_eq_rdropWhile, trimEnd_eq_rdropWhile, List.rdropWhile_concat_pos _ _ _ hblank]

theorem trim_dropReturn (l : List Char) : trim (dropReturn l) = trim l := by
  unfold dropReturn
  split
  · next hlast =>
    obtain ⟨front, rfl⟩ := List.getLast?_eq_some_iff.mp hlast
    rw [List.dropLast_concat, trim_append_return]
  · rfl

end Tariff.Text

namespace Tariff.Source

open Text

/-- The lines that are left of some lines when each is trimmed. -/
def trimmedLines (ls : List (List Char)) : List (List Char) := (ls.map trim).filter (! ·.isEmpty)

theorem contentLines_eq (cs : List Char) : contentLines cs = trimmedLines (rows cs) := by
  have hne : rows cs ≠ [] := parts_ne_nil _ cs
  have hended : ∀ ls : List (List Char), (ls.map dropReturn).map trim = ls.map trim := by
    intro ls
    rw [List.map_map]
    exact List.map_congr_left fun l _ => trim_dropReturn l
  have hrows := List.dropLast_append_getLast hne
  have hlast := List.getLast?_eq_some_getLast hne
  unfold contentLines trimmedLines lines
  conv => rhs; rw [← hrows, List.map_append, List.filter_append]
  dsimp only
  rw [← rows, hlast]
  split
  · next he => cases he
  · next he =>
    -- The empty piece behind a line break at the end of the text is no line.
    rw [Option.some.inj he, hended]
    simp [trim, trimStart, trimEnd]
  · next he =>
    rw [Option.some.inj he, List.map_append, List.filter_append, hended]

/-! ## Blanks in front of a line -/

theorem ends_of_isGap {g : Char} (h : isGap g = true) : Ends g := by
  rcases List.mem_cons.mp (isGap_iff.mp h) with rfl | h
  · constructor <;> decide
  · rcases List.mem_pair.mp h with rfl | rfl <;> constructor <;> decide

theorem not_isGap_of_isQuote {c : Char} (h : isQuote c = true) : ¬ isGap c = true := by
  rcases List.mem_pair.mp (isQuote_iff.mp h) with rfl | rfl <;> decide

theorem readLexeme_gap {g : Char} (h : isGap g = true) (cs : List Char) :
    readLexeme g cs = .ok (.blank g, cs) := by
  have hbreak : g ≠ '\n' := by
    rintro rfl
    exact absurd h (by decide)
  rw [readLexeme, if_neg hbreak, if_pos h]

theorem scan_gaps_append {gaps : List Char} (h : ∀ c ∈ gaps, isGap c = true) (cs : List Char) :
    scan (gaps ++ cs) = ⟨gaps.map .blank ++ (scan cs).pieces, (scan cs).obstacle⟩ := by
  induction gaps with
  | nil => rfl
  | cons g gaps ih =>
    rw [List.forall_mem_cons] at h
    rw [List.cons_append, scan_cons_ok (readLexeme_gap h.1 _), ih h.2]
    rfl

/-! ## Blanks at the end of a line -/

section

variable {g c quote : Char} {cs : List Char}

/-- A blank behind the text closes no string, and a string that is closed stays as it is. -/
theorem splitQuoted_append_gap (hquote : isQuote quote = true) (hg : isGap g = true) :
    splitQuoted quote (cs ++ [g]) =
      (splitQuoted quote cs).map fun (body, rest) => (body, rest ++ [g]) := by
  have hq := isQuote_iff.mp hquote
  cases h : splitQuoted quote cs with
  | some r =>
    have hbody := quoted_of_splitQuoted h
    rw [← splitQuoted_append h, List.append_assoc]
    exact hbody.splitQuoted_eq hq _
  | none =>
    cases h' : splitQuoted quote (cs ++ [g]) with
    | none => rfl
    | some r =>
      obtain ⟨body, rest⟩ := r
      have hbody := quoted_of_splitQuoted h'
      have hcut := splitQuoted_append h'
      rcases List.eq_nil_or_concat rest with rfl | ⟨rest, d, rfl⟩
      · -- The blank is no quote, so it closes nothing.
        have hclose : quote = g := List.singleton_inj.mp (List.append_inj' hcut rfl).2
        rw [← hclose] at hg
        exact absurd hg (not_isGap_of_isQuote hquote)
      · have hfront : (body ++ quote :: rest) ++ [d] = cs ++ [g] := by
          rw [← hcut, List.concat_eq_append, List.append_assoc, List.cons_append]
        have hclosed := hbody.splitQuoted_eq hq rest
        rw [(List.append_inj' hfront rfl).1, h] at hclosed
        cases hclosed

/-- A blank behind the text is left behind what is read. -/
theorem readLexeme_append_gap (hg : isGap g = true) :
    (readLexeme c (cs ++ [g])).toOption = (readLexeme c cs).toOption.map (goOn [g]) := by
  have hends := ends_of_isGap hg
  unfold readLexeme
  rw [startsNumber_append_stop hends, readNumber_append_stop hends, readWord_append_stop hends]
  split
  · rfl
  split
  · rfl
  split
  · rfl
  split
  · next hquote =>
    unfold readQuoted
    rw [splitQuoted_append_gap hquote hg]
    rcases splitQuoted c cs with _ | ⟨body, rest⟩ <;> rfl
  split
  · rfl
  split <;> rfl

end

theorem scan_append_gap {g : Char} (hg : isGap g = true) (cs : List Char) :
    ((scan (cs ++ [g])).obstacle = none ↔ (scan cs).obstacle = none) ∧
      ((scan cs).obstacle = none → (scan (cs ++ [g])).pieces = (scan cs).pieces ++ [.blank g]) := by
  fun_induction scan cs with
  | case1 =>
    rw [List.nil_append, scan_cons_ok (readLexeme_gap hg []), scan]
    exact ⟨Iff.rfl, fun _ => rfl⟩
  | case2 c cs o he =>
    have hread := @readLexeme_append_gap g c cs hg
    rw [he] at hread
    cases he' : readLexeme c (cs ++ [g]) with
    | ok r => rw [he'] at hread; cases hread
    | error o' =>
      rw [List.cons_append, scan_cons_error he']
      simp
  | case3 c cs piece rest he _ tail ih =>
    have hread := @readLexeme_append_gap g c cs hg
    rw [he] at hread
    cases he' : readLexeme c (cs ++ [g]) with
    | error o => rw [he'] at hread; cases hread
    | ok r =>
      rw [he'] at hread
      obtain rfl : r = (piece, rest ++ [g]) := Option.some.inj hread
      rw [List.cons_append, scan_cons_ok he']
      exact ⟨ih.1, fun h => congrArg (piece :: ·) (ih.2 h)⟩

theorem scan_append_gaps {gaps : List Char} (h : ∀ c ∈ gaps, isGap c = true) (cs : List Char) :
    ((scan (cs ++ gaps)).obstacle = none ↔ (scan cs).obstacle = none) ∧
      ((scan cs).obstacle = none →
        (scan (cs ++ gaps)).pieces = (scan cs).pieces ++ gaps.map .blank) := by
  induction gaps generalizing cs with
  | nil => simp
  | cons g gaps ih =>
    rw [List.forall_mem_cons] at h
    obtain ⟨hone, hpiece⟩ := scan_append_gap h.1 cs
    obtain ⟨hmore, hpieces⟩ := ih h.2 (cs ++ [g])
    rw [List.append_assoc, List.singleton_append] at hmore hpieces
    refine ⟨hmore.trans hone, fun hread => ?_⟩
    rw [hpieces (hone.mpr hread), hpiece hread, List.append_assoc]
    rfl

/-! ## One line -/

/-- The line has no white space at its ends but blanks that may stand between tokens. -/
def GapEnds (l : List Char) : Prop := ∀ c ∈ margin l ++ l.rtakeWhile isBlank, isGap c = true

instance : DecidablePred GapEnds := fun l =>
  List.decidableBAll (fun c => isGap c = true) (margin l ++ l.rtakeWhile isBlank)

/-- The place on line `n`, `k` columns further right. -/
def Pos.indent (n k : Nat) (p : Pos) : Pos := ⟨n, p.column + k⟩

theorem Pos.moves_indent (n k : Nat) : Pos.Moves (Pos.indent n k) := by
  intro c hc p
  unfold Pos.next Pos.indent
  rw [if_neg hc, if_neg hc, Nat.add_right_comm]

theorem Pos.after_start_of_noBreak {cs : List Char} (h : '\n' ∉ cs) :
    Pos.start.after cs = Pos.indent 1 cs.length Pos.start := by
  have hall : cs.reverse.takeWhile (· ≠ '\n') = cs.reverse := by
    rw [List.takeWhile_eq_self_iff]
    intro c hc
    rw [List.mem_reverse] at hc
    simpa using fun he : c = '\n' => h (he ▸ hc)
  rw [Pos.after_start, Pos.behind, List.count_eq_zero.mpr h, hall, List.length_reverse]
  rfl

theorem spellings_blanks (gaps : List Char) : spellings (gaps.map .blank) = gaps := by
  induction gaps with
  | nil => rfl
  | cons g gaps ih =>
    rw [List.map_cons, spellings_cons, ih]
    rfl

theorem place_blanks (p : Pos) (gaps : List Char) : place p (gaps.map .blank) = [] := by
  induction gaps generalizing p with
  | nil => rfl
  | cons g gaps ih => exact ih _

variable {l : List Char}

theorem scan_trim (h : GapEnds l) :
    ((scan l).obstacle = none ↔ (scan (trim l)).obstacle = none) ∧
      ((scan (trim l)).obstacle = none → ∃ trail : List Char, (scan l).pieces =
        (margin l).map .blank ++ ((scan (trim l)).pieces ++ trail.map .blank)) := by
  obtain ⟨trail, hl, htrail⟩ := exists_margin_trim l
  have hlead : ∀ c ∈ margin l, isGap c = true := fun c hc => h c (List.mem_append_left _ hc)
  have hgaps : ∀ c ∈ trail, isGap c = true :=
    fun c hc => h c (List.mem_append_right _ (htrail c hc))
  have hscan := scan_gaps_append hlead (trim l ++ trail)
  rw [← List.append_assoc, ← hl] at hscan
  obtain ⟨hnone, hpieces⟩ := scan_append_gaps hgaps (trim l)
  rw [hscan]
  exact ⟨hnone, fun hread => ⟨trail, congrArg ((margin l).map Lexeme.blank ++ ·) (hpieces hread)⟩⟩

/-- The tokens of a line are those of the trimmed line, further right by the margin. -/
theorem tokensAt_trim (h : GapEnds l) (hbreak : '\n' ∉ l)
    (hread : (scan (trim l)).obstacle = none) :
    tokensAt .start l =
      (tokensAt .start (trim l)).map (·.relocate (Pos.indent 1 (margin l).length)) := by
  obtain ⟨trail, hpieces⟩ := (scan_trim h).2 hread
  have hmargin : '\n' ∉ margin l := fun hmem => hbreak ((List.takeWhile_prefix _).subset hmem)
  have hcore : '\n' ∉ trim l := fun hmem => hbreak (mem_of_mem_trim hmem)
  unfold tokensAt
  rw [hpieces, place_append, place_append, place_blanks, place_blanks, spellings_blanks,
    List.nil_append, List.append_nil, Pos.after_start_of_noBreak hmargin]
  exact (Pos.moves_indent 1 _).place (noBreak_spellings hcore) .start

/-- The tokens of a line derive what those of the trimmed line derive, further right by the margin. -/
theorem derivesStatement_trim_iff (h : GapEnds l) (hbreak : '\n' ∉ l)
    (hread : (scan (trim l)).obstacle = none) {s : Statement} :
    DerivesStatement (tokensAt .start l) s ↔
      ∃ s', DerivesStatement (tokensAt .start (trim l)) s' ∧
        s = s'.relocate (Pos.indent 1 (margin l).length) := by
  have hcore : '\n' ∉ trim l := fun hmem => hbreak (mem_of_mem_trim hmem)
  rw [tokensAt_trim h hbreak hread]
  apply derivesStatement_relocate_iff (g := fun p => ⟨1, p.column - (margin l).length⟩)
  intro t ht
  show (⟨1, t.pos.column + (margin l).length - (margin l).length⟩ : Pos) = t.pos
  rw [Nat.add_sub_cancel, ← tokensAt_start_line hcore t ht]

/-! ## All lines -/

theorem Statement.relocate_relocate (f g : Pos → Pos) (s : Statement) :
    (s.relocate f).relocate g = s.relocate fun p => g (f p) := by
  cases s with
  | literal value pos => rfl
  | chain head rest =>
    simp only [Statement.relocate, List.map_map]
    rfl

/-- The second statements are the first ones in order, one on each line from `n` on; on its old line,
    further right by what `width` says of that line, each of them is what it was. -/
inductive Outdented (width : Nat → Nat) : Nat → List Statement → List Statement → Prop
  | nil {n : Nat} : Outdented width n [] []
  | cons {n : Nat} {s s' : Statement} {ss ss' : List Statement} (hline : s'.onLine n = s')
      (hsame : s'.relocate (Pos.indent s.pos.line (width s.pos.line)) = s)
      (h : Outdented width (n + 1) ss ss') : Outdented width n (s :: ss) (s' :: ss')

/-- A statement on line `n` behind a margin, and without it on line `m`. -/
theorem outdented_cons {width : Nat → Nat} {n m k : Nat} (hk : width n = k) (s₀ : Statement)
    {ss ss' : List Statement} (h : Outdented width (m + 1) ss ss') :
    Outdented width m ((s₀.relocate (Pos.indent 1 k)).onLine n :: ss) (s₀.onLine m :: ss') := by
  have hpos : ((s₀.relocate (Pos.indent 1 k)).onLine n).pos.line = n := by
    rw [Statement.onLine, Statement.pos_relocate]
    rfl
  refine .cons ?_ ?_ h
  · exact Statement.relocate_relocate ..
  · rw [hpos, hk, Statement.onLine, Statement.onLine, Statement.relocate_relocate,
      Statement.relocate_relocate]
    rfl

theorem trimmedLines_cons (l : List Char) (ls : List (List Char)) :
    trimmedLines (l :: ls) =
      if trim l = [] then trimmedLines ls else trim l :: trimmedLines ls := by
  unfold trimmedLines
  by_cases hnil : trim l = [] <;> simp [hnil]

theorem contentLine_trim {l : List Char} (hbreak : '\n' ∉ l) (hne : trim l ≠ []) :
    ContentLine (trim l) :=
  ⟨hne, fun hmem => hbreak (mem_of_mem_trim hmem), trimmed_trim l⟩

/-- Lines from line `n` on and their trimmed forms from line `m` on have the same statements. -/
theorem onLines_trimmedLines {width : Nat → Nat} {ls : List (List Char)}
    (hbreak : ∀ l ∈ ls, '\n' ∉ l) (hgaps : ∀ l ∈ ls, GapEnds l)
    (hread : ∀ l ∈ ls, (scan l).obstacle = none) {n : Nat}
    (hwidth : ∀ i l, ls[i]? = some l → width (n + i) = (margin l).length) (m : Nat) :
    (∀ ss, OnLines n ls ss →
      ∃ ss', OnLines m (trimmedLines ls) ss' ∧ Outdented width m ss ss') ∧
    (∀ ss', OnLines m (trimmedLines ls) ss' →
      ∃ ss, OnLines n ls ss ∧ Outdented width m ss ss') := by
  induction ls generalizing n m with
  | nil =>
    constructor
    · rintro ss ⟨⟩
      exact ⟨[], .nil, .nil⟩
    · rintro ss' ⟨⟩
      exact ⟨[], .nil, .nil⟩
  | cons l ls ih =>
    rw [List.forall_mem_cons] at hbreak hgaps hread
    have hcore := (scan_trim hgaps.1).1.mp hread.1
    have hk : width n = (margin l).length := hwidth 0 l rfl
    have hwidth' : ∀ i l', ls[i]? = some l' → width (n + 1 + i) = (margin l').length := by
      intro i l' hl'
      rw [Nat.add_assoc, Nat.add_comm 1 i]
      exact hwidth (i + 1) l' hl'
    have htokens := tokensAt_trim hgaps.1 hbreak.1 hcore
    rw [trimmedLines_cons]
    by_cases hnil : trim l = []
    · -- A line of blanks has no tokens, and its trimmed form is dropped.
      have hblank : tokensAt .start l = [] := by
        rw [htokens, hnil]
        simp [tokensAt, scan, place]
      rw [if_pos hnil]
      simp only [onLines_cons_of_nil hblank]
      exact ih hbreak.2 hgaps.2 hread.2 hwidth' m
    · have hcontent := tokensAt_ne_nil (contentLine_trim hbreak.1 hnil) hcore .start
      have hne : tokensAt .start l ≠ [] := by
        rw [htokens]
        simpa using hcontent
      obtain ⟨hto, hfrom⟩ := ih hbreak.2 hgaps.2 hread.2 hwidth' (m + 1)
      rw [if_neg hnil]
      simp only [onLines_cons_of_ne_nil hne, onLines_cons_of_ne_nil hcontent,
        derivesStatement_trim_iff hgaps.1 hbreak.1 hcore]
      constructor
      · rintro _ ⟨_, ss, ⟨s₀, hs₀, rfl⟩, hss, rfl⟩
        obtain ⟨ss', hss', hout⟩ := hto ss hss
        exact ⟨_, ⟨s₀, ss', hs₀, hss', rfl⟩, outdented_cons hk s₀ hout⟩
      · rintro _ ⟨s₀, ss', hs₀, hss', rfl⟩
        obtain ⟨ss, hss, hout⟩ := hfrom ss' hss'
        exact ⟨_, ⟨_, ss, ⟨s₀, hs₀, rfl⟩, hss, rfl⟩, outdented_cons hk s₀ hout⟩

/-! ## Programs -/

theorem scan_trimmedLines {ls : List (List Char)} (hgaps : ∀ l ∈ ls, GapEnds l) :
    (∀ l ∈ trimmedLines ls, (scan l).obstacle = none) ↔ ∀ l ∈ ls, (scan l).obstacle = none := by
  induction ls with
  | nil => simp [trimmedLines]
  | cons l ls ih =>
    rw [List.forall_mem_cons] at hgaps
    rw [trimmedLines_cons, List.forall_mem_cons, (scan_trim hgaps.1).1, ← ih hgaps.2]
    split
    · next hnil => simp [hnil, scan]
    · exact List.forall_mem_cons

theorem Outdented.ne_nil_iff {width : Nat → Nat} {n : Nat} {ss ss' : List Statement}
    (h : Outdented width n ss ss') : ss ≠ [] ↔ ss' ≠ [] := by
  cases h <;> simp

/-- How far the margin of line `n` of a text reaches. -/
def marginWidth (cs : List Char) (n : Nat) : Nat := (margin ((rows cs)[n - 1]?.getD [])).length

section

variable {cs : List Char}

theorem onLines_contentLines (hgaps : ∀ l ∈ rows cs, GapEnds l)
    (hread : ∀ l ∈ rows cs, (scan l).obstacle = none) :
    (∀ ss, OnLines 1 (rows cs) ss →
      ∃ ss', OnLines 1 (contentLines cs) ss' ∧ Outdented (marginWidth cs) 1 ss ss') ∧
    (∀ ss', OnLines 1 (contentLines cs) ss' →
      ∃ ss, OnLines 1 (rows cs) ss ∧ Outdented (marginWidth cs) 1 ss ss') := by
  rw [contentLines_eq]
  refine onLines_trimmedLines (fun l => noBreak_of_mem_parts) hgaps hread ?_ 1
  intro i l hl
  have hrow : (rows cs)[i]? = some l := hl
  rw [marginWidth, Nat.add_sub_cancel_left, hrow]
  rfl

theorem parse_iff_rows {ss : List Statement} :
    parse cs = .ok ss ↔
      (∀ l ∈ rows cs, (scan l).obstacle = none) ∧ ss ≠ [] ∧ OnLines 1 (rows cs) ss := by
  have hjoin : joinLines (rows cs) = cs := intercalate_parts '\n' cs
  have hbreak : ∀ l ∈ rows cs, '\n' ∉ l := fun l => noBreak_of_mem_parts
  rw [← parse_joinLines_iff hbreak, hjoin]

theorem parse_contentLines_iff (hgaps : ∀ l ∈ rows cs, GapEnds l) {ss : List Statement} :
    parse (joinLines (contentLines cs)) = .ok ss ↔
      (∀ l ∈ rows cs, (scan l).obstacle = none) ∧ ss ≠ [] ∧ OnLines 1 (contentLines cs) ss := by
  rw [parse_joinLines_iff fun l hl => (contentLine_of_mem hl).noBreak, ← scan_trimmedLines hgaps,
    contentLines_eq]

theorem exists_parse_normalForm (hgaps : ∀ l ∈ rows cs, GapEnds l) {ss : List Statement}
    (h : parse cs = .ok ss) :
    ∃ text ss', normalForm? cs = some text ∧ parse text = .ok ss' ∧
      Outdented (marginWidth cs) 1 ss ss' := by
  obtain ⟨hread, hne, hlines⟩ := parse_iff_rows.mp h
  obtain ⟨ss', hlines', hout⟩ := (onLines_contentLines hgaps hread).1 ss hlines
  have hne' := hout.ne_nil_iff.mp hne
  have hcontent : contentLines cs ≠ [] := by
    intro hnil
    rw [hnil, onLines_nil_iff] at hlines'
    exact hne' hlines'
  refine ⟨joinLines (contentLines cs), ss', ?_, ?_, hout⟩
  · unfold normalForm?
    split
    · next hnil => exact absurd hnil hcontent
    · rfl
  · exact (parse_contentLines_iff hgaps).mpr ⟨hread, hne', hlines'⟩

theorem exists_parse_of_normalForm (hgaps : ∀ l ∈ rows cs, GapEnds l) {text : List Char}
    {ss' : List Statement} (htext : normalForm? cs = some text) (h : parse text = .ok ss') :
    ∃ ss, parse cs = .ok ss := by
  obtain ⟨-, rfl⟩ := normalForm?_eq_some htext
  obtain ⟨hread, hne', hlines'⟩ := (parse_contentLines_iff hgaps).mp h
  obtain ⟨ss, hlines, hout⟩ := (onLines_contentLines hgaps hread).2 ss' hlines'
  exact ⟨ss, parse_iff_rows.mpr ⟨hread, hout.ne_nil_iff.mpr hne', hlines⟩⟩

end

/-- Where only blanks that may stand between tokens are trimmed, a text is a program exactly when it has
    a normal form that is one. The normal form has the same statements in the same order, the `i`-th on
    line `i`, each without the margin of its old line. The numbers of lines have no bound here; 32 bits
    hold them in a text of fewer than 2^32 - 1 characters. -/
theorem parse_normalForm (cs : List Char) (hgaps : ∀ l ∈ rows cs, GapEnds l) :
    ((∃ ss, parse cs = .ok ss) ↔
      ∃ text, normalForm? cs = some text ∧ ∃ ss', parse text = .ok ss') ∧
    ∀ text ss ss', normalForm? cs = some text → parse cs = .ok ss → parse text = .ok ss' →
      Outdented (marginWidth cs) 1 ss ss' := by
  refine ⟨⟨?_, ?_⟩, ?_⟩
  · rintro ⟨ss, h⟩
    obtain ⟨text, ss', htext, h', -⟩ := exists_parse_normalForm hgaps h
    exact ⟨text, htext, ss', h'⟩
  · rintro ⟨text, htext, ss', h'⟩
    exact exists_parse_of_normalForm hgaps htext h'
  · intro text ss ss' htext h h'
    obtain ⟨text₁, ss₁, htext₁, h₁, hout⟩ := exists_parse_normalForm hgaps h
    rw [htext, Option.some.injEq] at htext₁
    subst htext₁
    rw [h', Except.ok.injEq] at h₁
    subst h₁
    exact hout

theorem parse_normalForm_margins :
    let cs := "  a('x ').b \r\n\r\n\t 12\t".toList
    let text := "a('x ').b\n12".toList
    let ss : List Statement := [.chain ⟨"a", [.str "x "], ⟨1, 3⟩⟩ [⟨"b", [], ⟨1, 11⟩⟩],
      .literal (.number "12") ⟨3, 3⟩]
    let ss' : List Statement := [.chain ⟨"a", [.str "x "], ⟨1, 1⟩⟩ [⟨"b", [], ⟨1, 9⟩⟩],
      .literal (.number "12") ⟨2, 1⟩]
    (∀ l ∈ rows cs, GapEnds l) ∧ normalForm? cs = some text ∧ parse cs = .ok ss ∧
      parse text = .ok ss' ∧ Outdented (marginWidth cs) 1 ss ss' := by
  intro cs text ss ss'
  have hgaps : ∀ l ∈ rows cs, GapEnds l := by decide +kernel
  have htext : normalForm? cs = some text := by decide +kernel
  have h : parse cs = .ok ss := by decide +kernel
  have h' : parse text = .ok ss' := by decide +kernel
  exact ⟨hgaps, htext, h, h', (parse_normalForm cs hgaps).2 text ss ss' htext h h'⟩

end Tariff.Source
