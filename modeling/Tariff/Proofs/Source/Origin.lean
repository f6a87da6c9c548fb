/-
  Where the normal form comes from. Each piece of the normal form stands in the text too, behind lines
  without text and margins that are not counted: its place in the normal form is a count of what stands
  in front of it in the text (`exists_origin`). White space at the end of a line or of the text is not
  counted either, so it moves line breaks and the end of the source (`exists_end`). Thus an error that
  points into the normal form points at a piece of the text, though not with the line and the column that
  the piece has there.
-/
import Tariff.Proofs.Source.Canonical
import Tariff.Proofs.Source.OneStatement
import Tariff.Proofs.Source.Shown
import Tariff.Proofs.Source.Spelling
import Tariff.Proofs.Text.Words

namespace Tariff.Source

open Text

/-! ## A text line by line -/

/-- A text is one line, or a line and a text below it. -/
@[elab_as_elim]
theorem lines_induction {motive : List Char → Prop} (line : ∀ l, '\n' ∉ l → motive l)
    (below : ∀ l cs, '\n' ∉ l → motive cs → motive (l ++ '\n' :: cs)) (cs : List Char) :
    motive cs := by
  have hrows : ∀ ls : List (List Char), ls ≠ [] → (∀ l ∈ ls, '\n' ∉ l) → motive (joinLines ls) := by
    intro ls hne hfree
    induction ls with
    | nil => exact absurd rfl hne
    | cons l ls ih =>
      obtain ⟨hl, hls⟩ := List.forall_mem_cons.mp hfree
      cases ls with
      | nil => rw [joinLines_singleton]; exact line l hl
      | cons l' ls => rw [joinLines_cons_cons]; exact below l _ hl (ih (List.cons_ne_nil _ _) hls)
  rw [← joinLines_rows cs]
  exact hrows (rows cs) (rows_ne_nil cs) fun _ => noBreak_of_mem_parts

theorem rows_line {l : List Char} (h : '\n' ∉ l) : rows l = [l] :=
  parts_eq_singleton fun _ hc => beq_eq_false_iff_ne.mpr fun he => h (he ▸ hc)

theorem rows_below {l : List Char} (h : '\n' ∉ l) (cs : List Char) :
    rows (l ++ '\n' :: cs) = l :: rows cs := by
  rw [rows_append_break, rows_line h]
  rfl

theorem contentLines_line {l : List Char} (h : '\n' ∉ l) :
    contentLines l = if trim l = [] then [] else [trim l] := by
  rw [contentLines_eq, rows_line h, trimmedLines_cons]
  rfl

theorem contentLines_below {l : List Char} (h : '\n' ∉ l) (cs : List Char) :
    contentLines (l ++ '\n' :: cs) =
      if trim l = [] then contentLines cs else trim l :: contentLines cs := by
  rw [contentLines_eq, rows_below h, trimmedLines_cons, contentLines_eq]

theorem blanks_of_trim_eq_nil {cs : List Char} (h : trim cs = []) : Blanks cs := by
  obtain ⟨lead, trail, hcs, hlead, htrail⟩ := exists_blanks_trim cs
  rw [hcs, h, List.append_nil]
  exact blanks_append.mpr ⟨hlead, htrail⟩

theorem blanks_below {l cs : List Char} (hnil : trim l = []) (h : Blanks cs) :
    Blanks (l ++ '\n' :: cs) := by
  have hbreak : isBlank '\n' = true := by decide
  exact blanks_append.mpr ⟨blanks_of_trim_eq_nil hnil, List.forall_mem_cons.mpr ⟨hbreak, h⟩⟩

theorem blanks_of_contentLines_eq_nil {cs : List Char} (h : contentLines cs = []) : Blanks cs := by
  induction cs using lines_induction with
  | line l hl =>
    rw [contentLines_line hl] at h
    split at h
    · next hnil => exact blanks_of_trim_eq_nil hnil
    · cases h
  | below l cs hl ih =>
    rw [contentLines_below hl] at h
    split at h
    · next hnil => exact blanks_below hnil (ih h)
    · cases h

/-! ## Places -/

/-- The last line of a text. -/
def lastRow (cs : List Char) : List Char := (rows cs).getLast?.getD []

/-- The place behind a text where neither its lines without text nor the margin of its last line are
    counted. -/
def Pos.counted (front : List Char) : Pos :=
  ⟨1 + (trimmedLines (rows front).dropLast).length, 1 + (trimStart (lastRow front)).length⟩

theorem lastRow_line {l : List Char} (h : '\n' ∉ l) : lastRow l = l := by
  rw [lastRow, rows_line h]
  rfl

theorem lastRow_below {l : List Char} (h : '\n' ∉ l) (cs : List Char) :
    lastRow (l ++ '\n' :: cs) = lastRow cs := by
  rw [lastRow, rows_below h, List.getLast?_cons_of_ne_nil (rows_ne_nil cs)]
  rfl

theorem Pos.counted_line {l : List Char} (h : '\n' ∉ l) :
    Pos.counted l = ⟨1, 1 + (trimStart l).length⟩ := by
  rw [Pos.counted, lastRow_line h, rows_line h]
  rfl

theorem Pos.counted_below {l : List Char} (h : '\n' ∉ l) (front : List Char) :
    Pos.counted (l ++ '\n' :: front) =
      ⟨(Pos.counted front).line + if trim l = [] then 0 else 1, (Pos.counted front).column⟩ := by
  have hrows : (rows (l ++ '\n' :: front)).dropLast = l :: (rows front).dropLast := by
    rw [rows_below h, List.dropLast_cons_of_ne_nil (rows_ne_nil front)]
  rw [Pos.counted, lastRow_below h, hrows, trimmedLines_cons, Pos.counted]
  split
  · rfl
  · rw [List.length_cons, Nat.add_assoc]

theorem Pos.behind_line {l : List Char} (h : '\n' ∉ l) : Pos.behind l = ⟨1, 1 + l.length⟩ := by
  rw [← Pos.after_start, Pos.after_start_of_noBreak h, Pos.indent, Pos.start, Nat.add_comm]

theorem Pos.behind_below {l : List Char} (h : '\n' ∉ l) (cs : List Char) :
    Pos.behind (l ++ '\n' :: cs) = ⟨(Pos.behind cs).line + 1, (Pos.behind cs).column⟩ := by
  have hlast : (l ++ '\n' :: cs).reverse.takeWhile (· ≠ '\n') = cs.reverse.takeWhile (· ≠ '\n') := by
    rw [List.reverse_append, List.reverse_cons, List.append_assoc]
    exact takeWhile_append_stop (by decide)
  rw [Pos.behind, Pos.behind, hlast, List.count_append, List.count_eq_zero.mpr h, List.count_cons_self,
    Nat.zero_add, Nat.add_assoc]

theorem Pos.counted_line_le (front : List Char) :
    (Pos.counted front).line ≤ (Pos.behind front).line := by
  induction front using lines_induction with
  | line l hl => rw [Pos.counted_line hl, Pos.behind_line hl]
  | below l cs hl ih =>
    rw [Pos.counted_below hl, Pos.behind_below hl]
    dsimp only
    split <;> omega

/-- Nothing is left out of account where all lines in front hold text and the last one has no margin. -/
theorem Pos.counted_eq_behind_iff (front : List Char) :
    Pos.counted front = Pos.behind front ↔
      (∀ l ∈ (rows front).dropLast, trim l ≠ []) ∧ margin (lastRow front) = [] := by
  induction front using lines_induction with
  | line l hl =>
    have hlength : (margin l).length + (trimStart l).length = l.length := by
      rw [← List.length_append, margin, trimStart, List.takeWhile_append_dropWhile]
    rw [Pos.counted_line hl, Pos.behind_line hl, lastRow_line hl, rows_line hl, Pos.mk.injEq,
      ← List.length_eq_zero_iff]
    constructor
    · rintro ⟨-, hcolumn⟩
      exact ⟨List.forall_mem_nil _, by omega⟩
    · rintro ⟨-, hmargin⟩
      exact ⟨rfl, by omega⟩
  | below l cs hl ih =>
    have hle := Pos.counted_line_le cs
    rw [Pos.counted_below hl, Pos.behind_below hl, lastRow_below hl, rows_below hl,
      List.dropLast_cons_of_ne_nil (rows_ne_nil cs), List.forall_mem_cons, and_assoc, ← ih,
      Pos.mk.injEq]
    by_cases hnil : trim l = []
    · rw [if_pos hnil]
      constructor
      · rintro ⟨hline, -⟩
        omega
      · exact fun h => absurd hnil h.1
    · rw [if_neg hnil, Nat.add_right_cancel_iff]
      exact ⟨fun h => ⟨hnil, Pos.mk.injEq .. ▸ h⟩, fun h => Pos.mk.injEq .. ▸ h.2⟩

/-- What is counted in front of an error: the end of a line and of the source come right behind the last
    character that is no white space. -/
def SyntaxError.Cause.lead : SyntaxError.Cause → List Char → List Char
  | .token .lineBreak, before => trimEnd before
  | .token .finish, before => trimEnd before
  | _, before => before

/-- Errors at the end of a line or of the source. -/
def SyntaxError.Cause.isEnd (cause : SyntaxError.Cause) : Prop :=
  cause = .token .lineBreak ∨ cause = .token .finish

theorem SyntaxError.Cause.lead_of_isEnd {cause : SyntaxError.Cause} (h : cause.isEnd)
    (before : List Char) : cause.lead before = trimEnd before := by
  rcases h with rfl | rfl <;> rfl

theorem SyntaxError.Cause.lead_of_not_isEnd {cause : SyntaxError.Cause} (h : ¬ cause.isEnd)
    (before : List Char) : cause.lead before = before := by
  unfold lead
  split
  · exact absurd (Or.inl rfl) h
  · exact absurd (Or.inr rfl) h
  · rfl

theorem Pos.counted_column_le (front : List Char) :
    (Pos.counted front).column ≤ (Pos.behind front).column := by
  induction front using lines_induction with
  | line l hl =>
    have hle := (List.dropWhile_suffix isBlank (l := l)).length_le
    rw [Pos.counted_line hl, Pos.behind_line hl]
    exact Nat.add_le_add_left hle 1
  | below l cs hl ih =>
    rw [Pos.counted_below hl, Pos.behind_below hl]
    exact ih

/-- Behind white space a text is at a place further on. -/
theorem Pos.behind_append_ne (front : List Char) {gap : List Char} (h : gap ≠ []) :
    (Pos.behind front).line < (Pos.behind (front ++ gap)).line ∨
      (Pos.behind (front ++ gap)).line = (Pos.behind front).line ∧
        (Pos.behind front).column < (Pos.behind (front ++ gap)).column := by
  by_cases hbreak : '\n' ∈ gap
  · left
    have hcount := List.count_pos_iff.mpr hbreak
    simp only [Pos.behind, List.count_append]
    omega
  · right
    have hlength := List.length_pos_iff.mpr h
    rw [← Pos.after_start, ← Pos.after_start, Pos.after_append, Pos.after_noBreak hbreak]
    exact ⟨rfl, Nat.lt_add_of_pos_right hlength⟩

/-- An error names the place that its piece has in the text where all lines in front of the piece hold
    text, its line has no margin and, at the end of a line or of the source, no white space comes before
    it; and nowhere else. -/
theorem Pos.counted_lead_eq_behind_iff (cause : SyntaxError.Cause) (before : List Char) :
    Pos.counted (cause.lead before) = Pos.behind before ↔
      (∀ l ∈ (rows before).dropLast, trim l ≠ []) ∧ margin (lastRow before) = [] ∧
        (cause.isEnd → trimEnd before = before) := by
  by_cases hend : cause.isEnd
  · rw [cause.lead_of_isEnd hend]
    by_cases htrim : trimEnd before = before
    · rw [htrim, Pos.counted_eq_behind_iff]
      simp only [implies_true, and_true]
    · refine iff_of_false (fun heq => ?_) fun h => htrim (h.2.2 hend)
      obtain ⟨gap, hgap⟩ : trimEnd before <+: before := List.rdropWhile_prefix isBlank before
      have hne : gap ≠ [] := by
        rintro rfl
        exact htrim (by rw [List.append_nil] at hgap; exact hgap)
      -- The place that is counted is not behind the place of the trimmed text, which is in front.
      have hline := Pos.counted_line_le (trimEnd before)
      have hcolumn := Pos.counted_column_le (trimEnd before)
      have hfurther := Pos.behind_append_ne (trimEnd before) hne
      rw [hgap, ← heq] at hfurther
      omega
  · rw [cause.lead_of_not_isEnd hend, Pos.counted_eq_behind_iff]
    simp only [hend, false_implies, and_true]

/-- A line break behind two blanks, and the end of a source that ends in blank lines. -/
example :
    Pos.counted (SyntaxError.Cause.lead (.token .lineBreak) "discount.fixed(  ".toList) = ⟨1, 16⟩ ∧
      Pos.behind "discount.fixed(  ".toList = ⟨1, 18⟩ ∧
      Pos.counted (SyntaxError.Cause.lead (.token .finish) "discount.\n\n".toList) = ⟨1, 10⟩ ∧
      Pos.behind "discount.\n\n".toList = ⟨3, 1⟩ := by
  decide

/-! ## The normal form and the text -/

/-- The normal form of a text, empty where there is none. -/
def normalText (cs : List Char) : List Char := joinLines (contentLines cs)

theorem normalText_of_some {cs text : List Char} (h : normalForm? cs = some text) :
    normalText cs = text := (normalForm?_eq_some h).2.symm

theorem getD_normalForm? (cs : List Char) : (normalForm? cs).getD [] = normalText cs := by
  unfold normalForm? normalText
  split
  · next hnil => rw [hnil]; rfl
  · rfl

/-- At one place of a text and of its normal form, both go on with the same rest of the line, and the
    text with white space behind it; then either a line break comes in both, or no more text. -/
inductive Continues : (rest back : List Char) → Prop
  | last {r trail after : List Char} (hr : '\n' ∉ r) (htrail : Blanks trail) (hafter : Blanks after)
      (hend : ∀ c ∈ after.head?, c = '\n') : Continues r (r ++ (trail ++ after))
  | more {r rest trail after : List Char} (hr : '\n' ∉ r) (htrail : Blanks trail) :
      Continues (r ++ '\n' :: rest) (r ++ (trail ++ '\n' :: after))

/-- Behind the margin, a place in a trimmed line is where it is in the line. -/
theorem Pos.counted_margin {l front : List Char} (hl : '\n' ∉ l) (h : front <+: trim l) :
    Pos.counted (margin l ++ front) = Pos.behind front := by
  have hfront : '\n' ∉ front := fun hmem => hl (mem_of_mem_trim (h.subset hmem))
  have hmargin : '\n' ∉ margin l := fun hmem => hl ((List.takeWhile_prefix _).subset hmem)
  have hstart : trimStart (margin l ++ front) = front := by
    rw [trimStart, List.dropWhile_append_of_pos fun c hc => List.mem_takeWhile_imp hc]
    refine trimStart_eq_self fun c hc => (trimmed_trim l).1 c ?_
    obtain ⟨rest, hrest⟩ := h
    rw [← hrest, List.head?_append, hc]
    rfl
  rw [Pos.counted_line (by simp [hmargin, hfront]), Pos.behind_line hfront, hstart]

theorem Continues.line {r trail : List Char} (hr : '\n' ∉ r) (htrail : Blanks trail) :
    Continues r (r ++ trail) := by
  have hlast := Continues.last hr htrail blanks_nil (by rintro _ ⟨⟩)
  rwa [List.append_nil] at hlast

theorem exists_margin_split {l front rest : List Char} (hl : '\n' ∉ l) (h : trim l = front ++ rest) :
    ∃ trail, l = margin l ++ front ++ (rest ++ trail) ∧ Blanks trail ∧ '\n' ∉ rest ∧
      Pos.counted (margin l ++ front) = Pos.behind front := by
  obtain ⟨trail, heq, htrail⟩ := exists_margin_trim l
  refine ⟨trail, ?_, fun c hc => List.mem_rtakeWhile_imp (htrail c hc), ?_,
    Pos.counted_margin hl ⟨rest, h.symm⟩⟩
  · conv => lhs; rw [heq, h]
    simp only [List.append_assoc]
  · exact fun hmem => hl (mem_of_mem_trim (h ▸ List.mem_append_right front hmem))

/-- A place in a text is on its first line or below it. -/
theorem append_break_eq_append {l text front rest : List Char}
    (h : l ++ '\n' :: text = front ++ rest) :
    (∃ inside, l = front ++ inside ∧ rest = inside ++ '\n' :: text) ∨
      ∃ more, front = l ++ '\n' :: more ∧ text = more ++ rest := by
  rcases List.append_eq_append_iff.mp h with ⟨inside, hfront, hbreak⟩ | ⟨inside, hl, hrest⟩
  · rcases List.cons_eq_append_iff.mp hbreak with ⟨rfl, hrest⟩ | ⟨more, rfl, htext⟩
    · exact Or.inl ⟨[], by rw [hfront, List.append_nil, List.append_nil], hrest⟩
    · exact Or.inr ⟨more, hfront, htext⟩
  · exact Or.inl ⟨inside, hl, hrest⟩

/-- Every place of the normal form is a place of the text where it goes on alike, and is counted from
    what stands in front of it in the text. -/
theorem exists_origin {cs front rest : List Char}
    (h : normalText cs = front ++ rest) :
    ∃ before back, cs = before ++ back ∧ Pos.counted before = Pos.behind front ∧
      Continues rest back := by
  unfold normalText at h
  induction cs using lines_induction generalizing front with
  | line l hl =>
    rw [contentLines_line hl] at h
    split at h
    · next hnil =>
      obtain ⟨rfl, rfl⟩ := List.append_eq_nil_iff.mp h.symm
      exact ⟨[], l, rfl, rfl, .line List.not_mem_nil (blanks_of_trim_eq_nil hnil)⟩
    · rw [joinLines_singleton] at h
      obtain ⟨trail, hsplit, htrail, hrest, hplace⟩ := exists_margin_split hl h
      exact ⟨_, _, hsplit, hplace, .line hrest htrail⟩
  | below l cs hl ih =>
    rw [contentLines_below hl] at h
    split at h
    · next hnil =>
      -- A line without text is left out in front of the place.
      obtain ⟨before, back, rfl, hplace, hback⟩ := ih h
      refine ⟨l ++ '\n' :: before, back, by simp, ?_, hback⟩
      rw [Pos.counted_below hl, if_pos hnil, Nat.add_zero, hplace]
    · next hcontent =>
      cases hls : contentLines cs with
      | nil =>
        rw [hls, joinLines_singleton] at h
        obtain ⟨trail, hsplit, htrail, hrest, hplace⟩ := exists_margin_split hl h
        have hbreak : isBlank '\n' = true := by decide
        refine ⟨margin l ++ front, rest ++ (trail ++ '\n' :: cs), ?_, hplace, .last hrest htrail
          (List.forall_mem_cons.mpr ⟨hbreak, blanks_of_contentLines_eq_nil hls⟩) ?_⟩
        · conv => lhs; rw [hsplit]
          simp only [List.append_assoc]
        · rintro _ ⟨⟩
          rfl
      | cons l' ls =>
        rw [hls, joinLines_cons_cons] at h
        rcases append_break_eq_append h with ⟨inside, htrim, rfl⟩ | ⟨more, rfl, htext⟩
        · obtain ⟨trail, hsplit, htrail, hinside, hplace⟩ := exists_margin_split hl htrim
          refine ⟨margin l ++ front, inside ++ (trail ++ '\n' :: cs), ?_, hplace, .more hinside htrail⟩
          conv => lhs; rw [hsplit]
          simp only [List.append_assoc]
        · obtain ⟨before, back, rfl, hplace, hback⟩ := ih (hls ▸ htext)
          have hbreak : '\n' ∉ trim l := fun hmem => hl (mem_of_mem_trim hmem)
          refine ⟨l ++ '\n' :: before, back, by simp, ?_, hback⟩
          rw [Pos.counted_below hl, if_neg hcontent, Pos.behind_below hbreak, hplace]

/-! ## Ends of lines -/

theorem trimEnd_eq_nil_iff {cs : List Char} : trimEnd cs = [] ↔ Blanks cs := by
  rw [trimEnd_eq_rdropWhile, List.rdropWhile_eq_nil_iff]
  rfl

theorem trim_eq_nil_of_blanks {cs : List Char} (h : Blanks cs) : trim cs = [] := by
  have hnil : Trimmed [] := ⟨nofun, nofun⟩
  have htrim := trim_append h blanks_nil hnil
  rwa [List.append_nil, List.append_nil] at htrim

/-- White space is cut off the end alone. -/
theorem trimEnd_append {cs : List Char} (front : List Char) (h : ¬ Blanks cs) :
    trimEnd (front ++ cs) = front ++ trimEnd cs := by
  have hne : cs.reverse.dropWhile isBlank ≠ [] := by
    rw [← trimEnd_eq_nil_iff, trimEnd, List.reverse_eq_nil_iff] at h
    exact h
  rw [trimEnd, List.reverse_append, List.dropWhile_append, if_neg (by simpa using hne),
    List.reverse_append, List.reverse_reverse]
  rfl

theorem trimEnd_below (l : List Char) {cs : List Char} (h : ¬ Blanks cs) :
    trimEnd (l ++ '\n' :: cs) = l ++ '\n' :: trimEnd cs := by
  have hcons := trimEnd_append (l ++ ['\n']) h
  simpa using hcons

theorem trimStart_trimEnd (cs : List Char) : trimStart (trimEnd cs) = trim cs := by
  obtain ⟨lead, trail, hcs, hlead, htrail⟩ := exists_blanks_trim cs
  have htrimmed := trimmed_trim cs
  by_cases hnil : trim cs = []
  · have hblanks : Blanks cs := blanks_of_trim_eq_nil hnil
    rw [trimEnd_eq_nil_iff.mpr hblanks, hnil]
    rfl
  · have hfull : ¬ Blanks (trim cs) := by
      rw [← trimEnd_eq_nil_iff, trimEnd_eq_self htrimmed.2]
      exact hnil
    have hend : trimEnd cs = lead ++ trim cs := by
      conv => lhs; rw [hcs]
      rw [trimEnd_append_blanks htrail, trimEnd_append lead hfull, trimEnd_eq_self htrimmed.2]
    rw [hend, trimStart, List.dropWhile_append_of_pos hlead]
    exact trimStart_eq_self htrimmed.1

/-- The end of a line is counted where its trimmed text ends. -/
theorem Pos.counted_trimEnd {l : List Char} (hl : '\n' ∉ l) :
    Pos.counted (trimEnd l) = Pos.behind (trim l) := by
  have hend : '\n' ∉ trimEnd l := fun hmem =>
    hl ((List.rdropWhile_prefix isBlank l).subset hmem)
  have htrim : '\n' ∉ trim l := fun hmem => hl (mem_of_mem_trim hmem)
  rw [Pos.counted_line hend, Pos.behind_line htrim, trimStart_trimEnd]

/-- A line goes on with a line break nowhere but at its end. -/
theorem eq_nil_of_head_break {l front rest : List Char} (hl : '\n' ∉ l) (h : trim l = front ++ rest)
    (hrest : ∀ c ∈ rest.head?, c = '\n') : rest = [] ∧ front = trim l := by
  cases rest with
  | nil => exact ⟨rfl, by rw [h, List.append_nil]⟩
  | cons c rest =>
    obtain rfl := hrest c rfl
    exact absurd (mem_of_mem_trim (h ▸ by simp)) hl

/-- The end of a line or of the normal form is the end of a line or of the text, counted from what stands
    in front of it without the white space at its end. -/
theorem exists_end {cs front rest : List Char} (h : normalText cs = front ++ rest)
    (hrest : ∀ c ∈ rest.head?, c = '\n') :
    ∃ before back, cs = before ++ back ∧ Pos.counted (trimEnd before) = Pos.behind front ∧
      (rest = [] ∧ back = [] ∨ ∃ below after, rest = '\n' :: below ∧ back = '\n' :: after) ∧
        (Blanks before → contentLines cs = []) := by
  have hbreak : isBlank '\n' = true := by decide
  unfold normalText at h
  -- The last part is carried along: an end below a line of text has text in front of it, so that
  -- trimming there does not reach up into that line.
  induction cs using lines_induction generalizing front with
  | line l hl =>
    rw [contentLines_line hl] at h ⊢
    split at h
    · next hnil =>
      obtain ⟨rfl, rfl⟩ := List.append_eq_nil_iff.mp h.symm
      refine ⟨l, [], (List.append_nil l).symm, ?_, Or.inl ⟨rfl, rfl⟩, fun _ => if_pos hnil⟩
      rw [Pos.counted_trimEnd hl, hnil]
    · next hcontent =>
      rw [joinLines_singleton] at h
      obtain ⟨rfl, rfl⟩ := eq_nil_of_head_break hl h hrest
      refine ⟨l, [], (List.append_nil l).symm, Pos.counted_trimEnd hl, Or.inl ⟨rfl, rfl⟩, fun hblank => ?_⟩
      exact absurd (trim_eq_nil_of_blanks hblank) hcontent
  | below l cs hl ih =>
    rw [contentLines_below hl] at h ⊢
    split at h
    · next hnil =>
      -- A line without text is left out in front of the place.
      obtain ⟨before, back, rfl, hplace, hends, hblanks⟩ := ih h
      refine ⟨l ++ '\n' :: before, back, by simp, ?_, hends, ?_⟩
      · by_cases hbefore : Blanks before
        · rw [trimEnd_eq_nil_iff.mpr hbefore] at hplace
          rw [trimEnd_eq_nil_iff.mpr (blanks_below hnil hbefore), hplace]
        · rw [trimEnd_below l hbefore, Pos.counted_below hl, if_pos hnil, Nat.add_zero, hplace]
      · intro hall
        rw [if_pos hnil]
        exact hblanks (List.forall_mem_cons.mp (blanks_append.mp hall).2).2
    · next hcontent =>
      cases hls : contentLines cs with
      | nil =>
        rw [hls, joinLines_singleton] at h
        obtain ⟨rfl, rfl⟩ := eq_nil_of_head_break hl h hrest
        have hbelow : Blanks ('\n' :: cs) :=
          List.forall_mem_cons.mpr ⟨hbreak, blanks_of_contentLines_eq_nil hls⟩
        refine ⟨l ++ '\n' :: cs, [], (List.append_nil _).symm, ?_, Or.inl ⟨rfl, rfl⟩, fun hblank => ?_⟩
        · rw [trimEnd_append_blanks hbelow, Pos.counted_trimEnd hl]
        · exact absurd (trim_eq_nil_of_blanks (blanks_append.mp hblank).1) hcontent
      | cons l' ls =>
        rw [hls, joinLines_cons_cons] at h
        rcases append_break_eq_append h with ⟨inside, htrim, rfl⟩ | ⟨more, rfl, htext⟩
        · have hinside : ∀ c ∈ inside.head?, c = '\n' := by
            intro c hc
            refine hrest c ?_
            rw [List.head?_append, hc]
            rfl
          obtain ⟨rfl, rfl⟩ := eq_nil_of_head_break hl htrim hinside
          refine ⟨l, '\n' :: cs, rfl, Pos.counted_trimEnd hl, Or.inr ⟨_, _, rfl, rfl⟩, fun hblank => ?_⟩
          exact absurd (trim_eq_nil_of_blanks hblank) hcontent
        · obtain ⟨before, back, rfl, hplace, hends, hblanks⟩ := ih (hls ▸ htext)
          have hnot : '\n' ∉ trim l := fun hmem => hl (mem_of_mem_trim hmem)
          have hbefore : ¬ Blanks before := fun hblank => by
            rw [hblanks hblank] at hls
            cases hls
          refine ⟨l ++ '\n' :: before, back, by simp, ?_, hends, fun hblank => ?_⟩
          · rw [trimEnd_below l hbefore, Pos.counted_below hl, if_neg hcontent, Pos.behind_below hnot,
              hplace]
          · exact absurd (trim_eq_nil_of_blanks (blanks_append.mp hblank).1) hcontent

/-! ## What stands at a place -/

theorem Continues.nil {back : List Char} (h : Continues [] back) :
    ∃ trail after, back = trail ++ after ∧ Blanks trail ∧ Blanks after ∧
      ∀ c ∈ after.head?, c = '\n' := by
  generalize hrest : ([] : List Char) = rest at h
  cases h with
  | last hr htrail hafter hend => exact ⟨_, _, by rw [← hrest]; rfl, htrail, hafter, hend⟩
  | more => simp at hrest

theorem Continues.of_break {rest back : List Char} (h : Continues ('\n' :: rest) back) :
    ∃ trail after, back = trail ++ '\n' :: after ∧ Blanks trail := by
  generalize hrest : '\n' :: rest = line at h
  cases h with
  | last hr => exact absurd (hrest ▸ List.mem_cons_self ..) hr
  | @more r _ trail after hr htrail =>
    cases r with
    | nil => exact ⟨trail, after, rfl, htrail⟩
    | cons c r =>
      obtain ⟨rfl, -⟩ := List.cons.inj hrest
      exact absurd (List.mem_cons_self ..) hr

/-- What stands in the line at a place of the normal form stands in the text too. -/
theorem Continues.drop {piece rest back : List Char} (hpiece : '\n' ∉ piece)
    (h : Continues (piece ++ rest) back) : ∃ back', back = piece ++ back' ∧ Continues rest back' := by
  generalize hline : piece ++ rest = line at h
  cases h with
  | last hr htrail hafter hend =>
    subst hline
    rw [List.mem_append, not_or] at hr
    exact ⟨_, List.append_assoc .., .last hr.2 htrail hafter hend⟩
  | more hr htrail =>
    rcases append_break_eq_append hline.symm with ⟨inside, rfl, rfl⟩ | ⟨more, rfl, -⟩
    · rw [List.mem_append, not_or] at hr
      exact ⟨_, List.append_assoc .., .more hr.2 htrail⟩
    · exact absurd (by simp) hpiece

theorem ends_of_isBlank {c : Char} (h : isBlank c = true) : Ends c := by
  have hpart : isWordPart c = false := by
    rw [Bool.eq_false_iff]
    intro hpart
    rw [isBlank_of_isWordPart hpart] at h
    cases h
  have hnot : c.isAlphanum = false ∧ decide (c = '_') = false := Bool.or_eq_false_iff.mp hpart
  refine ⟨(Bool.or_eq_false_iff.mp hnot.1).2, hpart, ?_⟩
  rintro rfl
  cases h

theorem IsLexeme.continues {kind : Token.Kind} {text : String} {lexeme rest back : List Char}
    (h : IsLexeme rest kind text lexeme) (hback : Continues rest back) :
    IsLexeme back kind text lexeme := by
  cases hback with
  | last hr htrail hafter =>
    rw [← List.append_nil rest] at h
    exact h.of_stop fun c hc =>
      ends_of_isBlank (blanks_append.mpr ⟨htrail, hafter⟩ c (List.mem_of_mem_head? hc))
  | @more r _ trail after hr htrail =>
    refine h.of_stop fun c hc => ?_
    cases trail with
    | nil => cases hc; exact ends_break
    | cons b trail => cases hc; exact ends_of_isBlank (htrail c (List.mem_cons_self ..))

/-- The piece that an error shows stands in front of `back`: a token; nothing, at the end of the source;
    or a character or an open quoted string, which reaches to the white space at the end of its line. -/
inductive Stands : SyntaxError.Cause → String → (piece back : List Char) → Prop
  | token {kind : Token.Kind} {text : String} {piece back : List Char}
      (h : IsLexeme back kind text piece) : Stands (.token kind) text piece back
  | finish : Stands (.token .finish) "EOF" [] []
  | unknown {c : Char} {back : List Char} : Stands .unknown (String.singleton c) [c] back
  | unterminated {quote : Char} {body gap after : List Char} (hquote : quote ∈ ['\'', '"'])
      (hbody : '\n' ∉ body) (hgap : Blanks gap) (hafter : ∀ c ∈ after.head?, c = '\n') :
      Stands .unterminated (String.ofList (quote :: body)) (quote :: body) (gap ++ after)

/-- The error shows a piece of the text. Its place is counted from what stands in front of the piece, and
    it is the place of the piece in the normal form. -/
def PointsInto (cs : List Char) (e : SyntaxError) : Prop :=
  ∃ before piece back, cs = before ++ piece ++ back ∧ Stands e.cause e.text piece back ∧
    e.pos = Pos.counted (e.cause.lead before) ∧
    ∃ front rest, normalText cs = front ++ piece ++ rest ∧ e.pos = Pos.behind front

section

variable {cs : List Char} {e : SyntaxError}

theorem IsLexeme.noBreak {next : List Char} {kind : Token.Kind} {text : String} {lexeme : List Char}
    (h : IsLexeme next kind text lexeme) (hk : kind ≠ .lineBreak) : '\n' ∉ lexeme := by
  cases h with
  | lineBreak => exact absurd rfl hk
  | dot | comma | leftParen | rightParen => decide
  | yes h | no h | ident h => exact h.holds.noBreak
  | number h => exact h.holds.noBreak
  | str hquote h =>
    have hbody := splitQuoted_noBreak (h.splitQuoted_eq hquote [])
    have hne := (quote_ne hquote).2.symm
    simp [hbody, hne]

theorem pointsInto_of_mem_lex {ts : List Token} {t : Token}
    (hlex : lex (normalText cs) = .ok ts) (ht : t ∈ ts) :
    PointsInto cs t.unexpected := by
  obtain ⟨body, rfl, htiles⟩ := lex_eq_ok_iff_tiles.mp hlex
  rcases List.mem_append.mp ht with ht | ht
  · obtain ⟨front, lexeme, rest, hform, hlexeme, hpos⟩ := htiles.split_of_mem t ht
    rw [List.append_nil] at hlexeme
    have hsplit := hform
    rw [List.append_assoc] at hsplit
    obtain ⟨kind, text, pos⟩ := t
    obtain rfl : pos = Pos.behind front := hpos
    by_cases hk : kind = .lineBreak
    · subst hk
      cases hlexeme
      obtain ⟨before, back, rfl, hplace, hends, -⟩ := exists_end hsplit (by rintro _ ⟨⟩; rfl)
      rcases hends with ⟨hnil, -⟩ | ⟨_, after, -, rfl⟩
      · cases hnil
      · exact ⟨before, ['\n'], after, by simp, .token .lineBreak, hplace.symm, front, rest, hform, rfl⟩
    · obtain ⟨before, back, rfl, hplace, hback⟩ := exists_origin hsplit
      obtain ⟨back, rfl, hrest⟩ := hback.drop (hlexeme.noBreak hk)
      have hplain : ¬ (SyntaxError.Cause.token kind).isEnd := by
        rintro (heq | heq)
        · exact hk (SyntaxError.Cause.token.inj heq)
        · rw [SyntaxError.Cause.token.inj heq] at hlexeme
          cases hlexeme
      refine ⟨before, lexeme, back, by simp, .token (hlexeme.continues hrest), ?_, front, rest, hform, rfl⟩
      show Pos.behind front = Pos.counted ((SyntaxError.Cause.token kind).lead before)
      rw [SyntaxError.Cause.lead_of_not_isEnd hplain, hplace]
  · rw [List.mem_singleton.mp ht]
    obtain ⟨before, back, rfl, hplace, hends, -⟩ :=
      exists_end (List.append_nil (normalText cs)).symm (by rintro _ ⟨⟩)
    rcases hends with ⟨-, rfl⟩ | ⟨_, _, hnil, -⟩
    · exact ⟨before, [], [], by simp, .finish, hplace.symm, _, [], by simp, rfl⟩
    · cases hnil

theorem pointsInto_of_lex_error (hlex : lex (normalText cs) = .error e) :
    PointsInto cs e := by
  have htiles := lex_tiles (normalText cs)
  rw [hlex] at htiles
  obtain ⟨front, rest, body, hform, -, hpos, hblocks⟩ := htiles
  obtain ⟨before, back, hcs, hplace, hback⟩ := exists_origin hform
  obtain ⟨cause, text, pos⟩ := e
  obtain rfl : pos = Pos.behind front := hpos
  cases hblocks with
  | @unknown c rest _ _ hnone =>
    have hbreak : '\n' ∉ [c] := by
      rw [List.mem_singleton]
      rintro rfl
      exact hnone rest _ _ _ .lineBreak rfl
    have hline : Continues ([c] ++ rest) back := hback
    obtain ⟨back, rfl, -⟩ := hline.drop hbreak
    exact ⟨before, [c], back, by simp [hcs], .unknown, hplace.symm, front, rest, by simp [hform], rfl⟩
  | @unterminated quote rest hquote _ =>
    have hbody : '\n' ∉ rest.takeWhile (· ≠ '\n') := not_mem_takeWhile (by decide) rest
    have hbreak : '\n' ∉ quote :: rest.takeWhile (· ≠ '\n') := by
      rw [List.mem_cons, not_or]
      exact ⟨(quote_ne hquote).2.symm, hbody⟩
    have hrest : quote :: rest =
        (quote :: rest.takeWhile (· ≠ '\n')) ++ rest.dropWhile (· ≠ '\n') := by
      rw [List.cons_append, List.takeWhile_append_dropWhile]
    rw [hrest] at hback hform
    obtain ⟨back, rfl, hend⟩ := hback.drop hbreak
    -- The piece reaches to the end of its line in the normal form.
    have hstands : Stands .unterminated (String.ofList (quote :: rest.takeWhile (· ≠ '\n')))
        (quote :: rest.takeWhile (· ≠ '\n')) back := by
      have hstop := List.head?_dropWhile_not (· ≠ '\n') rest
      cases hdrop : rest.dropWhile (· ≠ '\n') with
      | nil =>
        rw [hdrop] at hend
        obtain ⟨trail, after, rfl, htrail, -, hafter⟩ := hend.nil
        exact .unterminated hquote hbody htrail hafter
      | cons d ds =>
        rw [hdrop] at hend hstop
        obtain rfl : d = '\n' := by simpa using hstop
        obtain ⟨trail, after, rfl, htrail⟩ := hend.of_break
        exact .unterminated hquote hbody htrail (by rintro _ ⟨⟩; rfl)
    exact ⟨before, _, back, by rw [hcs, List.append_assoc], hstands, hplace.symm, front, _,
      by rw [hform, List.append_assoc], rfl⟩

/-! ## Errors and calls -/

theorem exists_unexpected_of_parseStatement_error {ts : List Token} (hlex : lex cs = .ok ts)
    (h : parseStatement cs = .error e) : ∃ t ∈ ts, e = t.unexpected := by
  cases hparse : parse cs with
  | ok ss =>
    match ss, hparse with
    | [], hparse =>
      rw [parse_lexed hlex] at hparse
      exact absurd rfl (readStatements_front hparse).1
    | [s], hparse =>
      rw [parseStatement_of_parse hparse] at h
      cases h
    | s :: s' :: ss, hparse =>
      obtain ⟨ts', t, us, rest, hlex', ⟨lead, vs, breaks, hts, -⟩, -, herror⟩ :=
        parseStatement_of_parse_more hparse
      rw [hlex, Except.ok.injEq] at hlex'
      rw [herror, Except.error.injEq] at h
      exact ⟨t, by simp [hlex', hts], h.symm⟩
  | error e' =>
    rcases parseStatement_of_parse_error hparse with
      hsame | ⟨ts', s, t, rest, hlex', ⟨lead, vs, breaks, hts, -⟩, herror, -⟩
    · rw [hsame, Except.error.injEq] at h
      exact h ▸ exists_unexpected_of_parse_error hlex hparse
    · rw [hlex, Except.ok.injEq] at hlex'
      rw [herror, Except.error.injEq] at h
      exact ⟨t, by simp [hlex', hts], h.symm⟩

/-- An error points into the text if it shows a token of the normal form where this has tokens, and says
    why it has none where it has not. -/
theorem pointsInto_of_lexed (hlexed : ∀ ts, lex (normalText cs) = .ok ts → ∃ t ∈ ts, e = t.unexpected)
    (hfailed : ∀ e', lex (normalText cs) = .error e' → e' = e) : PointsInto cs e := by
  cases hlex : lex (normalText cs) with
  | error e' => exact hfailed e' hlex ▸ pointsInto_of_lex_error hlex
  | ok ts =>
    obtain ⟨t, ht, rfl⟩ := hlexed ts hlex
    exact pointsInto_of_mem_lex hlex ht

theorem pointsInto_of_parse_error (h : parse (normalText cs) = .error e) : PointsInto cs e := by
  refine pointsInto_of_lexed (fun ts hlex => exists_unexpected_of_parse_error hlex h) fun e' hlex => ?_
  rw [parse, hlex] at h
  exact Except.error.inj h

theorem pointsInto_of_parseStatement_error (h : parseStatement (normalText cs) = .error e) :
    PointsInto cs e := by
  refine pointsInto_of_lexed (fun ts hlex => exists_unexpected_of_parseStatement_error hlex h)
    fun e' hlex => ?_
  rw [parseStatement, hlex] at h
  exact Except.error.inj h

/-- An error that shows the name of a call, at the place of the call, points into the text. -/
theorem pointsInto_of_call {sts : List Statement} {st : Statement} {c : Call}
    (h : parse (normalText cs) = .ok sts) (hst : st ∈ sts) (hc : c ∈ st.calls) :
    PointsInto cs ⟨.token .ident, c.name, c.pos⟩ := by
  obtain ⟨ts, hlex⟩ := exists_lex_of_parse h
  have hmem : (c.name, c.pos) ∈ ts.filterMap Token.name? := by
    rw [((parse_eq_ok_iff hlex).mp h).names]
    exact List.mem_map_of_mem (List.mem_flatMap.mpr ⟨st, hst, hc⟩)
  obtain ⟨t, ht, hname⟩ := List.mem_filterMap.mp hmem
  unfold Token.name? at hname
  rw [Option.ite_none_right_eq_some, Option.some.injEq, Prod.mk.injEq] at hname
  obtain ⟨hk, hname, hpos⟩ := hname
  have hpoints := pointsInto_of_mem_lex hlex ht
  rwa [Token.unexpected, hk, hname, hpos] at hpoints

end

end Tariff.Source
