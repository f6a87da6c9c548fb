/-
  The lines of a normal form. Each of them is a content line: not empty, without a line break, and
  with no white space at its ends. Joining content lines and cutting the text into lines again gives
  them back (`lines_joinLines`), so a normal form has exactly its content lines as lines, and each of
  them is a normal form of its own.
-/
import Tariff.Source.NormalForm
import Mathlib.Data.List.DropRight

namespace Tariff.Text

/-! ## Trimming -/

theorem trimEnd_eq_rdropWhile (cs : List Char) : trimEnd cs = cs.rdropWhile isBlank := rfl

/-- No white space stands at the ends of the text. -/
def Trimmed (cs : List Char) : Prop :=
  (∀ c ∈ cs.head?, isBlank c = false) ∧ ∀ c ∈ cs.getLast?, isBlank c = false

theorem trimStart_eq_self {cs : List Char} (h : ∀ c ∈ cs.head?, isBlank c = false) :
    trimStart cs = cs := by
  cases cs with
  | nil => rfl
  | cons c cs => exact List.dropWhile_cons_of_neg (by simp [h c rfl])

theorem trimEnd_eq_self {cs : List Char} (h : ∀ c ∈ cs.getLast?, isBlank c = false) :
    trimEnd cs = cs := by
  rw [trimEnd_eq_rdropWhile, List.rdropWhile_eq_self_iff]
  intro hne
  rw [h _ (List.getLast?_eq_some_getLast hne)]
  decide

theorem trim_eq_self {cs : List Char} (h : Trimmed cs) : trim cs = cs := by
  rw [trim, trimStart_eq_self h.1, trimEnd_eq_self h.2]

theorem isBlank_head_trimStart (cs : List Char) :
    ∀ c ∈ (trimStart cs).head?, isBlank c = false := by
  intro c hc
  have hne : trimStart cs ≠ [] := by
    intro h
    rw [h] at hc
    cases hc
  have hhead := List.head_dropWhile_not (p := isBlank) (l := cs) hne
  rw [List.head?_eq_some_head hne] at hc
  cases hc
  exact hhead

theorem trimmed_trim (cs : List Char) : Trimmed (trim cs) := by
  constructor
  · -- What is cut off the end leaves the head as it is, unless nothing is left.
    intro c hc
    apply isBlank_head_trimStart cs c
    obtain ⟨t, ht⟩ := List.rdropWhile_prefix isBlank (trimStart cs)
    have hhead : (trim cs).head? = some c := hc
    rw [← ht, List.head?_append]
    rw [trim, trimEnd_eq_rdropWhile] at hhead
    rw [hhead]
    rfl
  · intro c hc
    have hne : trim cs ≠ [] := by
      intro h
      rw [h] at hc
      cases hc
    rw [List.getLast?_eq_some_getLast hne] at hc
    cases hc
    have hlast := List.rdropWhile_last_not isBlank (trimStart cs) hne
    exact Bool.eq_false_iff.mpr hlast

theorem mem_of_mem_trim {c : Char} {cs : List Char} (h : c ∈ trim cs) : c ∈ cs := by
  have hfront := List.rdropWhile_prefix isBlank (trimStart cs)
  exact (List.dropWhile_suffix isBlank).subset (hfront.subset h)

/-! ## Cutting a text into lines -/

/-- The parts of two texts with a separator between them are those of the one and those of the other. -/
theorem parts_append {p : Char → Bool} {sep : Char} (hsep : p sep = true) (l cs : List Char) :
    parts p (l ++ sep :: cs) = parts p l ++ parts p cs := by
  induction l with
  | nil =>
    show parts p (sep :: cs) = [] :: parts p cs
    rw [parts, if_pos hsep]
  | cons c l ih =>
    rw [List.cons_append, parts, parts, ih]
    split
    · rfl
    · cases hl : parts p l with
      | nil => exact absurd hl (parts_ne_nil p l)
      | cons a as => rfl

theorem parts_eq_singleton {p : Char → Bool} {l : List Char} (h : ∀ c ∈ l, p c = false) :
    parts p l = [l] := by
  induction l with
  | nil => rfl
  | cons c l ih =>
    have hc := h c (List.mem_cons_self ..)
    rw [parts, if_neg (by simp [hc]), ih fun d hd => h d (List.mem_cons_of_mem _ hd)]
    rfl

theorem parts_append_sep {p : Char → Bool} {sep : Char} (hsep : p sep = true) {l : List Char}
    (h : ∀ c ∈ l, p c = false) (cs : List Char) : parts p (l ++ sep :: cs) = l :: parts p cs := by
  rw [parts_append hsep, parts_eq_singleton h]
  rfl

theorem length_parts (sep : Char) (cs : List Char) :
    (parts (· == sep) cs).length = cs.count sep + 1 := by
  induction cs with
  | nil => rfl
  | cons c cs ih =>
    rw [parts, List.count_cons]
    split
    · rw [List.length_cons, ih]
    · rw [List.length_modifyHead, ih, Nat.add_zero]

theorem dropReturn_eq_self {l : List Char} (h : l.getLast? ≠ some '\r') : dropReturn l = l := if_neg h

theorem joinLines_singleton (l : List Char) : joinLines [l] = l := List.intercalate_singleton

theorem joinLines_cons_cons (l l' : List Char) (ls : List (List Char)) :
    joinLines (l :: l' :: ls) = l ++ '\n' :: joinLines (l' :: ls) := by
  simp [joinLines, List.intercalate_cons_cons]

theorem parts_joinLines {ls : List (List Char)} (hne : ls ≠ []) (h : ∀ l ∈ ls, '\n' ∉ l) :
    parts (· == '\n') (joinLines ls) = ls := by
  have hfree : ∀ {l : List Char}, '\n' ∉ l → ∀ c ∈ l, (c == '\n') = false := by
    intro l hl c hc
    rw [beq_eq_false_iff_ne]
    rintro rfl
    exact hl hc
  induction ls with
  | nil => exact absurd rfl hne
  | cons l ls ih =>
    have hl := hfree (h l (List.mem_cons_self ..))
    cases ls with
    | nil => rw [joinLines_singleton, parts_eq_singleton hl]
    | cons l' ls =>
      rw [joinLines_cons_cons, parts_append_sep (by decide) hl,
        ih (List.cons_ne_nil _ _) fun l hl => h l (List.mem_cons_of_mem _ hl)]

theorem noBreak_of_mem_parts {cs l : List Char} (h : l ∈ parts (· == '\n') cs) : '\n' ∉ l := by
  induction cs generalizing l with
  | nil =>
    rw [List.mem_singleton.mp h]
    exact List.not_mem_nil
  | cons c cs ih =>
    rw [parts] at h
    split at h
    · rcases List.mem_cons.mp h with rfl | h
      · exact List.not_mem_nil
      · exact ih h
    · next hc =>
      cases hp : parts (· == '\n') cs with
      | nil => exact absurd hp (parts_ne_nil _ _)
      | cons a as =>
        rw [hp] at h ih
        rcases List.mem_cons.mp h with rfl | h
        · rw [List.mem_cons, not_or]
          exact ⟨fun he => hc (beq_iff_eq.mpr he.symm), ih (List.mem_cons_self ..)⟩
        · exact ih (List.mem_cons_of_mem _ h)

theorem noBreak_of_mem_lines {cs l : List Char} (h : l ∈ lines cs) : '\n' ∉ l := by
  have hended : ∀ l ∈ (parts (· == '\n') cs).dropLast.map dropReturn, '\n' ∉ l := by
    intro l hl
    obtain ⟨piece, hpiece, rfl⟩ := List.mem_map.mp hl
    have hfree := noBreak_of_mem_parts (List.dropLast_subset _ hpiece)
    unfold dropReturn
    split
    · exact fun hmem => hfree (List.dropLast_subset _ hmem)
    · exact hfree
  rw [lines] at h
  split at h
  · exact hended l h
  · exact hended l h
  · next last _ hlast =>
    rcases List.mem_append.mp h with h | h
    · exact hended l h
    · rw [List.mem_singleton.mp h]
      exact noBreak_of_mem_parts (List.mem_of_getLast? hlast)

end Tariff.Text

namespace Tariff.Source

open Text

/-- A line of a normal form: some text on one line, without white space at its ends. -/
structure ContentLine (l : List Char) : Prop where
  ne_nil : l ≠ []
  noBreak : '\n' ∉ l
  trimmed : Trimmed l

theorem contentLine_of_mem {cs l : List Char} (h : l ∈ contentLines cs) : ContentLine l := by
  obtain ⟨hmem, hne⟩ := List.mem_filter.mp h
  obtain ⟨line, hline, rfl⟩ := List.mem_map.mp hmem
  refine ⟨?_, fun hbreak => noBreak_of_mem_lines hline (mem_of_mem_trim hbreak), trimmed_trim line⟩
  intro hnil
  rw [hnil] at hne
  cases hne

theorem ContentLine.dropReturn_eq_self {l : List Char} (h : ContentLine l) : dropReturn l = l := by
  apply Text.dropReturn_eq_self
  intro hlast
  have hblank := h.trimmed.2 _ hlast
  cases hblank

theorem map_eq_self {f : List Char → List Char} {ls : List (List Char)}
    (h : ∀ l ∈ ls, f l = l) : ls.map f = ls :=
  (List.map_congr_left h).trans (List.map_id _)

/-- Content lines are the lines of the text they are joined to. -/
theorem lines_joinLines {ls : List (List Char)} (hne : ls ≠ []) (h : ∀ l ∈ ls, ContentLine l) :
    lines (joinLines ls) = ls := by
  rw [lines, parts_joinLines hne fun l hl => (h l hl).noBreak]
  have hended : ls.dropLast.map dropReturn = ls.dropLast :=
    map_eq_self fun l hl => (h l (List.dropLast_subset _ hl)).dropReturn_eq_self
  have hlast : ls.getLast? = some (ls.getLast hne) := List.getLast?_eq_some_getLast hne
  have hnil := (h _ (List.getLast_mem hne)).ne_nil
  rw [hended, hlast]
  split
  · next he => cases he
  · next he => exact absurd (Option.some.inj he) hnil
  · next he =>
    rw [← Option.some.inj he]
    exact List.dropLast_append_getLast hne

theorem contentLines_joinLines {ls : List (List Char)} (hne : ls ≠ [])
    (h : ∀ l ∈ ls, ContentLine l) : contentLines (joinLines ls) = ls := by
  rw [contentLines, lines_joinLines hne h, map_eq_self fun l hl => trim_eq_self (h l hl).trimmed]
  apply List.filter_eq_self.mpr
  intro l hl
  simpa using (h l hl).ne_nil

theorem normalForm?_eq_some {cs text : List Char} (h : normalForm? cs = some text) :
    contentLines cs ≠ [] ∧ text = joinLines (contentLines cs) := by
  unfold normalForm? at h
  split at h
  · cases h
  · next hne => exact ⟨fun hnil => hne hnil, (Option.some.inj h).symm⟩

theorem normalForm?_joinLines {ls : List (List Char)} (hne : ls ≠ [])
    (h : ∀ l ∈ ls, ContentLine l) : normalForm? (joinLines ls) = some (joinLines ls) := by
  unfold normalForm?
  rw [contentLines_joinLines hne h]
  split
  · exact absurd rfl hne
  · rfl

/-- A normal form is its own normal form. -/
theorem normalForm?_idem {cs text : List Char} (h : normalForm? cs = some text) :
    normalForm? text = some text := by
  obtain ⟨hne, rfl⟩ := normalForm?_eq_some h
  exact normalForm?_joinLines hne fun l => contentLine_of_mem

/-- A content line is a normal form. -/
theorem ContentLine.normalForm?_eq {l : List Char} (h : ContentLine l) :
    normalForm? l = some l := by
  have hsingle := normalForm?_joinLines (List.cons_ne_nil l []) fun l' hl' =>
    List.mem_singleton.mp hl' ▸ h
  rwa [joinLines_singleton] at hsingle

/-- The lines of a normal form are the content lines it was joined from. -/
theorem normalForm?_lines {cs text : List Char} (h : normalForm? cs = some text) :
    lines text ≠ [] ∧ text = joinLines (lines text) ∧ ∀ l ∈ lines text, ContentLine l := by
  obtain ⟨hne, rfl⟩ := normalForm?_eq_some h
  have hcontent : ∀ l ∈ contentLines cs, ContentLine l := fun l => contentLine_of_mem
  rw [lines_joinLines hne hcontent]
  exact ⟨hne, rfl, hcontent⟩

end Tariff.Source
