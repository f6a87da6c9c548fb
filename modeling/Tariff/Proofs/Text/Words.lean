/-
  The words of a text. A text has no words if it is white space, and else a first word: a stretch without
  white space that begins behind the white space in front and ends at the next one or with the text
  (`words_eq_cons_iff`). So a text of one word, or of two, is these words with white space around and
  between them, which trimming cuts off both ends.
-/
import Tariff.Proofs.Source.Margins
import Tariff.Proofs.Text.Digits

namespace Tariff.Text

/-- The text is white space. -/
def Blanks (cs : List Char) : Prop := ∀ c ∈ cs, isBlank c = true

theorem blanks_append {cs ds : List Char} : Blanks (cs ++ ds) ↔ Blanks cs ∧ Blanks ds :=
  List.forall_mem_append

theorem blanks_nil : Blanks [] := List.forall_mem_nil _

/-! ## Trimming -/

/-- A text is its trimmed text with white space around it. -/
theorem exists_blanks_trim (cs : List Char) :
    ∃ lead trail, cs = lead ++ trim cs ++ trail ∧ Blanks lead ∧ Blanks trail := by
  obtain ⟨trail, hcs, htrail⟩ := exists_margin_trim cs
  refine ⟨margin cs, trail, hcs, ?_, fun c hc => List.mem_rtakeWhile_imp (htrail c hc)⟩
  exact fun c hc => List.mem_takeWhile_imp hc

theorem trimEnd_append_blanks {cs trail : List Char} (htrail : Blanks trail) :
    trimEnd (cs ++ trail) = trimEnd cs := by
  have hreverse : ∀ c ∈ trail.reverse, isBlank c = true := fun c hc => htrail c (List.mem_reverse.mp hc)
  rw [trimEnd, List.reverse_append, List.dropWhile_append_of_pos hreverse]
  rfl

/-- White space around a text is trimmed off, and nothing else. -/
theorem trim_append {lead core trail : List Char} (hlead : Blanks lead) (htrail : Blanks trail)
    (hcore : Trimmed core) : trim (lead ++ core ++ trail) = core := by
  have hstart : trimEnd (trimStart (core ++ trail)) = core := by
    cases core with
    | nil =>
      have hnil : trimStart trail = [] := by
        rw [trimStart, List.dropWhile_eq_nil_iff]
        exact htrail
      rw [List.nil_append, hnil]
      rfl
    | cons c core =>
      have hkept : trimStart (c :: core ++ trail) = c :: core ++ trail := trimStart_eq_self hcore.1
      rw [hkept, trimEnd_append_blanks htrail, trimEnd_eq_self hcore.2]
  rw [trim, List.append_assoc, trimStart, List.dropWhile_append_of_pos hlead]
  exact hstart

/-! ## The first word -/

theorem words_append_blanks {lead : List Char} (h : Blanks lead) (cs : List Char) :
    words (lead ++ cs) = words cs := by
  induction lead with
  | nil => rfl
  | cons b lead ih =>
    obtain ⟨hb, hlead⟩ := List.forall_mem_cons.mp h
    rw [← ih hlead, List.cons_append, words, parts, if_pos hb]
    rfl

theorem words_of_blanks {cs : List Char} (h : Blanks cs) : words cs = [] := by
  have hwords := words_append_blanks h []
  rw [List.append_nil] at hwords
  exact hwords

/-- White space behind a stretch without any ends the word. -/
theorem words_append_break {w : List Char} {b : Char} (hne : w ≠ []) (hw : Solid w)
    (hb : isBlank b = true) (cs : List Char) : words (w ++ b :: cs) = w :: words cs := by
  rw [words, parts_append_sep hb hw, List.filter_cons_of_pos (by simpa using hne)]
  rfl

/-- A text behind a word goes on with white space, unless it is empty. -/
def Breaks (rest : List Char) : Prop := ∀ c ∈ rest.head?, isBlank c = true

theorem words_append {w rest : List Char} (hne : w ≠ []) (hw : Solid w) (hrest : Breaks rest) :
    words (w ++ rest) = w :: words rest := by
  cases rest with
  | nil => rw [List.append_nil, words_solid hne hw]; rfl
  | cons b rest =>
    have hb := hrest b rfl
    rw [words_append_break hne hw hb, ← words_append_blanks (List.forall_mem_singleton.mpr hb) rest]
    rfl

/-- A text is white space, or it has a first word. -/
theorem blanks_or_word (cs : List Char) :
    Blanks cs ∨ ∃ lead w rest, cs = lead ++ w ++ rest ∧ Blanks lead ∧ w ≠ [] ∧ Solid w ∧ Breaks rest := by
  have hlead : Blanks (cs.takeWhile isBlank) := fun c hc => List.mem_takeWhile_imp hc
  have hcs : cs.takeWhile isBlank ++ trimStart cs = cs := List.takeWhile_append_dropWhile
  have hhead := isBlank_head_trimStart cs
  cases hstart : trimStart cs with
  | nil =>
    rw [hstart, List.append_nil] at hcs
    exact Or.inl (hcs ▸ hlead)
  | cons c ds =>
    rw [hstart] at hcs hhead
    have hc : isBlank c = false := hhead c rfl
    refine Or.inr ⟨cs.takeWhile isBlank, (c :: ds).takeWhile (! isBlank ·),
      (c :: ds).dropWhile (! isBlank ·), ?_, hlead, ?_, ?_, ?_⟩
    · rw [List.append_assoc, List.takeWhile_append_dropWhile, hcs]
    · rw [List.takeWhile_cons_of_pos (by simp [hc])]
      exact List.cons_ne_nil _ _
    · intro d hd
      simpa using List.mem_takeWhile_imp hd
    · intro d hd
      have hne : (c :: ds).dropWhile (! isBlank ·) ≠ [] := by
        intro hnil
        rw [hnil] at hd
        cases hd
      have hstop := List.head_dropWhile_not _ hne
      rw [List.head?_eq_some_head hne] at hd
      cases hd
      simpa using hstop

theorem words_eq_nil_iff {cs : List Char} : words cs = [] ↔ Blanks cs := by
  constructor
  · intro h
    rcases blanks_or_word cs with hblanks | ⟨lead, w, rest, rfl, hlead, hne, hw, hrest⟩
    · exact hblanks
    · rw [List.append_assoc, words_append_blanks hlead, words_append hne hw hrest] at h
      cases h
  · exact words_of_blanks

/-- The first word of a text and the words behind it. -/
theorem words_eq_cons_iff {cs w : List Char} {ws : List (List Char)} :
    words cs = w :: ws ↔ ∃ lead rest, cs = lead ++ w ++ rest ∧ Blanks lead ∧ w ≠ [] ∧ Solid w ∧
      Breaks rest ∧ words rest = ws := by
  constructor
  · intro h
    rcases blanks_or_word cs with hblanks | ⟨lead, v, rest, rfl, hlead, hne, hv, hrest⟩
    · rw [words_of_blanks hblanks] at h
      cases h
    · rw [List.append_assoc, words_append_blanks hlead, words_append hne hv hrest] at h
      obtain ⟨rfl, hws⟩ := List.cons.inj h
      exact ⟨lead, rest, rfl, hlead, hne, hv, hrest, hws⟩
  · rintro ⟨lead, rest, rfl, hlead, hne, hw, hrest, rfl⟩
    rw [List.append_assoc, words_append_blanks hlead, words_append hne hw hrest]

/-! ## One word and two words -/

theorem Blanks.breaks {cs : List Char} (h : Blanks cs) : Breaks cs :=
  fun c hc => h c (List.mem_of_mem_head? hc)

theorem words_eq_singleton_iff {cs w : List Char} :
    words cs = [w] ↔ ∃ lead trail, cs = lead ++ w ++ trail ∧ Blanks lead ∧ Blanks trail ∧ w ≠ [] ∧
      Solid w := by
  rw [words_eq_cons_iff]
  constructor
  · rintro ⟨lead, rest, hcs, hlead, hne, hw, -, hrest⟩
    exact ⟨lead, rest, hcs, hlead, words_eq_nil_iff.mp hrest, hne, hw⟩
  · rintro ⟨lead, trail, hcs, hlead, htrail, hne, hw⟩
    exact ⟨lead, trail, hcs, hlead, hne, hw, htrail.breaks, words_of_blanks htrail⟩

theorem words_eq_pair_iff {cs w v : List Char} :
    words cs = [w, v] ↔ ∃ lead gap trail, cs = lead ++ w ++ gap ++ v ++ trail ∧ Blanks lead ∧
      Blanks gap ∧ gap ≠ [] ∧ Blanks trail ∧ (w ≠ [] ∧ Solid w) ∧ v ≠ [] ∧ Solid v := by
  rw [words_eq_cons_iff]
  simp only [words_eq_singleton_iff]
  constructor
  · rintro ⟨lead, _, rfl, hlead, hne, hw, hbreaks, gap, trail, rfl, hgap, htrail, hne', hv⟩
    refine ⟨lead, gap, trail, by simp, hlead, hgap, ?_, htrail, ⟨hne, hw⟩, hne', hv⟩
    -- The second word begins with no white space, so some stands between the two.
    rintro rfl
    obtain ⟨c, v, rfl⟩ := List.exists_cons_of_ne_nil hne'
    have hblank : isBlank c = true := hbreaks c rfl
    rw [hv c (List.mem_cons_self ..)] at hblank
    cases hblank
  · rintro ⟨lead, gap, trail, rfl, hlead, hgap, hgapne, htrail, ⟨hne, hw⟩, hne', hv⟩
    refine ⟨lead, gap ++ v ++ trail, by simp, hlead, hne, hw, ?_, gap, trail, rfl, hgap, htrail, hne', hv⟩
    obtain ⟨b, gap, rfl⟩ := List.exists_cons_of_ne_nil hgapne
    rintro _ ⟨⟩
    exact hgap b (List.mem_cons_self ..)

end Tariff.Text
