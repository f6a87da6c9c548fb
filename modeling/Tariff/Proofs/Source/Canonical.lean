/-
  The normal form is a canonical form. It has lines that are not empty and have no white space at their
  ends, and a text like that is its own normal form. The lines of two texts below each other are those
  of the one and those of the other, so the normal form goes through a text part by part: formulas that
  are given one by one have the normal form that their normal forms make up (`normalize_canonical`).
-/
import Tariff.Command.Run
import Tariff.Proofs.Source.Margins

namespace Tariff.Source

open Text

/-! ## Canonical texts -/

/-- A text of lines that are not empty and have no white space at their ends. The lines stand between the
    line breaks, so there is no break at an end of the text. -/
structure Canonical (cs : List Char) : Prop where
  ne_nil : cs ≠ []
  lines : ∀ l ∈ rows cs, l ≠ [] ∧ Trimmed l

theorem Canonical.contentLine {cs : List Char} (h : Canonical cs) : ∀ l ∈ rows cs, ContentLine l :=
  fun l hl => ⟨(h.lines l hl).1, noBreak_of_mem_parts hl, (h.lines l hl).2⟩

theorem rows_ne_nil (cs : List Char) : rows cs ≠ [] := parts_ne_nil _ cs

theorem joinLines_rows (cs : List Char) : joinLines (rows cs) = cs := intercalate_parts '\n' cs

theorem Canonical.lines_eq {cs : List Char} (h : Canonical cs) : Text.lines cs = rows cs := by
  have hlines := lines_joinLines (rows_ne_nil cs) h.contentLine
  rwa [joinLines_rows] at hlines

theorem Canonical.normalForm? {cs : List Char} (h : Canonical cs) :
    Source.normalForm? cs = some cs := by
  have hform := normalForm?_joinLines (rows_ne_nil cs) h.contentLine
  rwa [joinLines_rows] at hform

theorem canonical_joinLines {ls : List (List Char)} (hne : ls ≠ []) (h : ∀ l ∈ ls, ContentLine l) :
    Canonical (joinLines ls) := by
  have hrows : rows (joinLines ls) = ls := parts_joinLines hne fun l hl => (h l hl).noBreak
  refine ⟨?_, fun l hl => ?_⟩
  · intro hnil
    rw [hnil] at hrows
    have hline := h [] (hrows ▸ List.mem_singleton_self [])
    exact hline.ne_nil rfl
  · rw [hrows] at hl
    exact ⟨(h l hl).ne_nil, (h l hl).trimmed⟩

theorem canonical_normalForm? {cs text : List Char} (h : normalForm? cs = some text) :
    Canonical text := by
  obtain ⟨hne, rfl⟩ := normalForm?_eq_some h
  exact canonical_joinLines hne fun l => contentLine_of_mem

/-! ## Texts below each other -/

theorem rows_append_break (a b : List Char) : rows (a ++ '\n' :: b) = rows a ++ rows b :=
  parts_append (by decide) a b

theorem trimmedLines_append (ls ms : List (List Char)) :
    trimmedLines (ls ++ ms) = trimmedLines ls ++ trimmedLines ms := by
  rw [trimmedLines, List.map_append, List.filter_append]
  rfl

/-- The content lines of two texts below each other are those of the one and those of the other, with
    whatever white space the texts end and begin. -/
theorem contentLines_append_break (a b : List Char) :
    contentLines (a ++ '\n' :: b) = contentLines a ++ contentLines b := by
  simp only [contentLines_eq, rows_append_break, trimmedLines_append]

theorem joinLines_append {ls ms : List (List Char)} (hls : ls ≠ []) (hms : ms ≠ []) :
    joinLines (ls ++ ms) = joinLines ls ++ '\n' :: joinLines ms := by
  induction ls with
  | nil => exact absurd rfl hls
  | cons l ls ih =>
    cases ls with
    | nil =>
      obtain ⟨m, ms, rfl⟩ := List.exists_cons_of_ne_nil hms
      rw [List.singleton_append, joinLines_cons_cons, joinLines_singleton]
    | cons l' ls =>
      rw [List.cons_append, List.cons_append, joinLines_cons_cons, ← List.cons_append,
        ih (List.cons_ne_nil _ _), joinLines_cons_cons, List.append_assoc]
      rfl

theorem normalForm?_append_break (a b : List Char) :
    normalForm? (a ++ '\n' :: b) =
      (normalForm? a).merge (fun s t => s ++ '\n' :: t) (normalForm? b) := by
  unfold normalForm?
  rw [contentLines_append_break]
  cases ha : contentLines a with
  | nil => cases contentLines b <;> rfl
  | cons l ls =>
    cases hb : contentLines b with
    | nil => rw [List.append_nil]; rfl
    | cons m ms =>
      have hjoin := joinLines_append (List.cons_ne_nil l ls) (List.cons_ne_nil m ms)
      exact congrArg some hjoin

/-! ## Source texts -/

/-- A text, a line break, and a further text. -/
def below (s t : String) : String := s ++ "\n" ++ t

theorem normalize_below (a b : String) :
    normalize (below a b) = (normalize a).merge below (normalize b) := by
  have hchars : (below a b).toList = a.toList ++ '\n' :: b.toList := by simp [below]
  unfold normalize
  rw [hchars, normalForm?_append_break]
  cases normalForm? a.toList with
  | none => cases normalForm? b.toList <;> rfl
  | some s =>
    cases normalForm? b.toList with
    | none => rfl
    | some t =>
      show some (String.ofList (s ++ '\n' :: t)) = some (below (String.ofList s) (String.ofList t))
      have hjoin : String.ofList (s ++ '\n' :: t) = below (String.ofList s) (String.ofList t) := by
        rw [← String.toList_inj]
        simp [below]
      rw [hjoin]

/-- The texts one below the other, if there are any. -/
def stacked? : List String → Option String
  | [] => none
  | ts => some ("\n".intercalate ts)

theorem stacked?_cons (t : String) (ts : List String) :
    stacked? (t :: ts) = (some t).merge below (stacked? ts) := by
  cases ts with
  | nil => exact congrArg some String.intercalate_singleton
  | cons u us => exact congrArg some String.intercalate_cons_cons

/-- Texts one below the other normalize to their normal forms one below the other. -/
theorem normalize_intercalate (ts : List String) :
    normalize ("\n".intercalate ts) = stacked? (ts.filterMap normalize) := by
  have hnil : normalize "" = none := by decide
  have hcons : ∀ t ts, stacked? ((t :: ts).filterMap normalize) =
      (normalize t).merge below (stacked? (ts.filterMap normalize)) := by
    intro t ts
    rw [List.filterMap_cons]
    cases normalize t with
    | none => exact Option.merge_none_left.symm
    | some s => exact stacked?_cons s _
  induction ts with
  | nil => rw [String.intercalate_nil, hnil]; rfl
  | cons t ts ih =>
    rw [hcons, ← ih]
    cases ts with
    | nil =>
      rw [String.intercalate_singleton, String.intercalate_nil, hnil]
      cases normalize t <;> rfl
    | cons u us =>
      rw [String.intercalate_cons_cons]
      exact normalize_below t _

theorem canonical_normalize {a t : String} (h : normalize a = some t) : Canonical t.toList := by
  obtain ⟨text, htext, rfl⟩ := Option.map_eq_some_iff.mp h
  rw [String.toList_ofList]
  exact canonical_normalForm? htext

theorem normalize_eq_self {t : String} (h : Canonical t.toList) : normalize t = some t := by
  rw [normalize, h.normalForm?, Option.map_some, String.ofList_toList]

/-- The normal form of a text, if there is one, is canonical, and every canonical text is a normal form,
    its own. Normal forms go below each other as their texts do, a text without one leaving nothing, and
    so the formulas of a command line normalize to the join of their normal forms. -/
theorem normalize_canonical :
    (∀ a t, normalize a = some t → Canonical t.toList ∧ lines t.toList = rows t.toList) ∧
    (∀ t : String, Canonical t.toList → normalize t = some t) ∧
    (∀ a, (normalize a).bind normalize = normalize a) ∧
    (∀ a b, normalize (below a b) = (normalize a).merge below (normalize b)) ∧
    ∀ (ctx : Command.Context) (texts : List String), ∃ source,
      ctx.textOf (.words texts) = .ok source ∧
        normalize source = stacked? (texts.filterMap normalize) := by
  refine ⟨?_, fun t => normalize_eq_self, ?_, normalize_below, ?_⟩
  · intro a t h
    have hcanonical := canonical_normalize h
    exact ⟨hcanonical, hcanonical.lines_eq⟩
  · intro a
    cases h : normalize a with
    | none => rfl
    | some t => exact normalize_eq_self (canonical_normalize h)
  · exact fun ctx texts => ⟨_, rfl, normalize_intercalate texts⟩

/-- A text of lines that end in different ways, and behind it a text of white space alone, which Unicode
    counts the next line character among. -/
theorem normalize_canonical_margins :
    let a := "\r\n\t x \r\n\n\u2003y('z ')\r"
    normalize a = some "x\ny('z ')" ∧ Canonical "x\ny('z ')".toList ∧
      normalize "x\ny('z ')" = some "x\ny('z ')" ∧
      normalize (below a " \n\u0085") = some "x\ny('z ')" := by
  intro a
  obtain ⟨hcanonical, hself, -, hbelow, -⟩ := normalize_canonical
  have ha : normalize a = some "x\ny('z ')" := by decide +kernel
  have hblank : normalize " \n\u0085" = none := by decide +kernel
  have htext := (hcanonical _ _ ha).1
  refine ⟨ha, htext, hself _ htext, ?_⟩
  rw [hbelow, ha, hblank]
  rfl

end Tariff.Source
