/-
  What a cache keeps. Let a property hold of whatever a line compiles to, under the line as key. Then it
  holds of all that a store builds and of all entries of its cache, provided it held of the entries
  that were there: a hit hands out an entry, and an entry comes from a line that was compiled. So from a
  sound cache too, a batch is what the statements of its source compile to (`compile_of_buildAll`).
-/
import Tariff.Proofs.Engine.Memo

namespace Tariff

open Source (ContentLine Statement contentLines normalForm? parse parseStatement placeLines)

/-- Whatever one of these lines compiles to has the property under the line as key. -/
def Yields (policy : DuplicatePolicy) (P : String → Formula → Prop) (ls : List (List Char)) : Prop :=
  ∀ l ∈ ls, ∀ f, compileText policy l = .ok f → P (String.ofList l) f

variable {policy : DuplicatePolicy} {P : String → Formula → Prop}

/-- A normal form that compiles as one statement is the only line of its text. -/
theorem contentLines_of_compileText {cs text : List Char} {f : Formula}
    (hform : normalForm? cs = some text) (h : compileText policy text = .ok f) :
    contentLines cs = [text] := by
  obtain ⟨hne, htext⟩ := Source.normalForm?_eq_some hform
  cases hst : parseStatement text with
  | error e =>
    unfold compileText at h
    rw [hst] at h
    cases h
  | ok st =>
    rw [htext] at hst
    obtain ⟨l, hl⟩ :=
      Source.eq_singleton_of_parseStatement hne (fun l => Source.contentLine_of_mem) hst
    rw [hl, Text.joinLines_singleton] at htext
    rw [hl, htext]

namespace Store

variable {s : Store}

theorem fetch_keeps {key : String} {x : Except CompileError Formula} (h : s.cache.Keeps P)
    (hx : ∀ f, x = .ok f → P key f) :
    (s.fetch key x).2.cache.Keeps P ∧ ∀ i, (s.fetch key x).1 = .ok i → P key i.formula := by
  rcases s.fetch_cases key x with ⟨i, hget, hi⟩ | ⟨-, ⟨e, -, he⟩ | ⟨f, hf, hnew⟩⟩
  · rw [hi]
    refine ⟨h, ?_⟩
    rintro _ ⟨⟩
    exact h.get? hget
  · rw [he]
    exact ⟨h, fun i hi => nomatch hi⟩
  · rw [hnew]
    refine ⟨h.insert (hx f hf), ?_⟩
    rintro _ ⟨⟩
    exact hx f hf

theorem build_keeps {source : String} (h : s.cache.Keeps P)
    (hP : Yields policy P (contentLines source.toList)) :
    (s.build policy source).2.cache.Keeps P ∧ ∀ i, (s.build policy source).1 = .ok i →
      ∃ text, normalForm? source.toList = some text ∧ P (String.ofList text) i.formula := by
  cases hform : normalForm? source.toList with
  | none =>
    unfold build
    rw [hform]
    exact ⟨h, fun i hi => nomatch hi⟩
  | some text =>
    rw [build_of_normalForm? hform]
    have hx : ∀ f, compileText policy text = .ok f → P (String.ofList text) f := by
      intro f hf
      apply hP text _ f hf
      rw [contentLines_of_compileText hform hf]
      exact List.mem_singleton_self text
    obtain ⟨hkeeps, hbuilt⟩ := fetch_keeps h hx
    exact ⟨hkeeps, fun i hi => ⟨text, rfl, hbuilt i hi⟩⟩

/-! ## Batches -/

theorem buildLines_keeps {ls : List (List Char)} (hls : ∀ l ∈ ls, ContentLine l)
    (h : s.cache.Keeps P) (hP : Yields policy P ls) :
    let r := s.buildLines policy (ls.map String.ofList)
    r.store.cache.Keeps P ∧
      (r.error = none → List.Forall₂ (fun l i => P (String.ofList l) i.formula) ls r.built) := by
  induction ls generalizing s with
  | nil => exact ⟨h, fun _ => .nil⟩
  | cons l ls ih =>
    have hl := hls l (List.mem_cons_self ..)
    obtain ⟨hkeeps, hbuilt⟩ := fetch_keeps h (hP l (List.mem_cons_self ..))
    rw [← build_line hl] at hkeeps hbuilt
    rw [List.map_cons]
    rcases hbuild : s.build policy (String.ofList l) with ⟨e | i, s'⟩
    · rw [hbuild] at hkeeps
      rw [buildLines_error hbuild]
      exact ⟨hkeeps, fun hnone => nomatch hnone⟩
    · rw [hbuild] at hkeeps hbuilt
      rw [buildLines_ok hbuild]
      obtain ⟨hstore, hrest⟩ := ih (fun k hk => hls k (List.mem_cons_of_mem _ hk)) hkeeps
        fun k hk => hP k (List.mem_cons_of_mem _ hk)
      exact ⟨hstore, fun hnone => .cons (hbuilt i rfl) (hrest hnone)⟩

theorem buildText_keeps {cs text : List Char} (hform : normalForm? cs = some text)
    (h : s.cache.Keeps P) (hP : Yields policy P (contentLines cs)) :
    (s.buildText policy text).2.cache.Keeps P ∧ ∀ is, (s.buildText policy text).1 = .ok is →
      List.Forall₂ (fun l i => P (String.ofList l) i.formula) (contentLines cs) is := by
  cases hparse : parse text with
  | error e =>
    rw [buildText_error hparse]
    exact ⟨h, fun is his => nomatch his⟩
  | ok ss =>
    obtain ⟨hne, htext, hcontent⟩ := Source.normalForm?_lines hform
    have hlines : Text.lines text = contentLines cs := by
      obtain ⟨hcs, hjoin⟩ := Source.normalForm?_eq_some hform
      rw [hjoin]
      exact Source.lines_joinLines hcs fun l => Source.contentLine_of_mem
    rw [htext] at hparse
    obtain ⟨sts, hsts, -⟩ := (Source.parse_joinLines hne hcontent).mp hparse
    rw [buildText_parsed hne htext hcontent hsts, hlines]
    rw [hlines] at hcontent
    obtain ⟨hstore, hbuilt⟩ := buildLines_keeps hcontent h hP
    refine ⟨hstore, ?_⟩
    intro is his
    unfold LineBuilds.outcome at his
    split at his
    · next hnone =>
      cases his
      exact hbuilt hnone
    · cases his

theorem buildAll_keeps {source : String} (h : s.cache.Keeps P)
    (hP : Yields policy P (contentLines source.toList)) :
    (s.buildAll policy source).2.cache.Keeps P ∧ ∀ is, (s.buildAll policy source).1 = .ok is →
      List.Forall₂ (fun l i => P (String.ofList l) i.formula) (contentLines source.toList) is := by
  cases hform : normalForm? source.toList with
  | none =>
    unfold buildAll
    rw [hform]
    exact ⟨h, fun is his => nomatch his⟩
  | some text =>
    rw [buildAll_of_normalForm? hform]
    exact buildText_keeps hform h hP

theorem validate_keeps {source : String} (h : s.cache.Keeps P)
    (hP : Yields policy P (contentLines source.toList)) :
    (s.validate policy source).2.cache.Keeps P ∧ ((s.validate policy source).1 = none →
      ∃ is, List.Forall₂ (fun (l : List Char) (i : Instance) => P (String.ofList l) i.formula)
        (contentLines source.toList) is) := by
  cases hform : normalForm? source.toList with
  | none =>
    obtain ⟨e, he⟩ := parse_nil
    unfold validate
    rw [hform, Option.getD_none, buildText_error he]
    exact ⟨h, fun hnone => nomatch hnone⟩
  | some text =>
    obtain ⟨hstore, hnone⟩ := validate_of_normalForm? hform policy s
    obtain ⟨hkeeps, hbuilt⟩ := buildAll_keeps h hP
    rw [hstore, hnone]
    refine ⟨hkeeps, ?_⟩
    rintro ⟨is, his⟩
    exact ⟨is, hbuilt is his⟩

/-! ## Statements -/

theorem compileSource_line {l : List Char} (hl : ContentLine l) (policy : DuplicatePolicy) :
    compileSource policy (String.ofList l) = compileText policy l := by
  apply compileSource_of_normalForm?
  rw [String.toList_ofList]
  exact hl.normalForm?_eq

/-- Statements on the lines from `n` on compile to what their lines do. -/
theorem compile_placeLines {ls : List (List Char)} {sts : List Statement} {is : List Instance}
    (hls : ∀ l ∈ ls, ContentLine l)
    (hsts : List.Forall₂ (fun l st => parseStatement l = .ok st) ls sts)
    (his : List.Forall₂ (fun l i => compileSource policy (String.ofList l) = .ok i.formula) ls is)
    (n : Nat) :
    List.Forall₂ (fun st f => compile policy st = .ok f) (placeLines n sts)
      (is.map Instance.formula) := by
  induction hsts generalizing is n with
  | nil =>
    cases his
    exact .nil
  | @cons l st ls sts hst _ ih =>
    rw [List.forall_mem_cons] at hls
    cases his with
    | @cons _ i _ is hi his =>
      rw [compileSource_line hls.1, compileText_of_ok hst] at hi
      have hmoved : compile policy (st.onLine n) = .ok i.formula := by
        unfold Statement.onLine
        rw [compile_relocate, hi]
        rfl
      exact .cons hmoved (ih hls.2 his (n + 1))

/-- Where the cache is sound, a batch that builds is what the statements of its source compile to. -/
theorem compile_of_buildAll {source : String} {is : List Instance} (h : s.cache.Sound policy)
    (his : (s.buildAll policy source).1 = .ok is) :
    ∃ text sts, normalForm? source.toList = some text ∧ parse text = .ok sts ∧
      List.Forall₂ (fun st f => compile policy st = .ok f) sts (is.map Instance.formula) := by
  have hyields : Yields policy (fun key f => compileSource policy key = .ok f)
      (contentLines source.toList) := by
    intro l hl f hf
    rw [compileSource_line (Source.contentLine_of_mem hl)]
    exact hf
  have hbuilt := (buildAll_keeps (Cache.sound_iff_keeps.mp h) hyields).2 is his
  cases hform : normalForm? source.toList with
  | none =>
    unfold buildAll at his
    rw [hform] at his
    cases his
  | some text =>
    rw [buildAll_of_normalForm? hform] at his
    cases hparse : parse text with
    | error e =>
      rw [buildText_error hparse] at his
      cases his
    | ok sts =>
      obtain ⟨hne, htext⟩ := Source.normalForm?_eq_some hform
      have hcontent : ∀ l ∈ contentLines source.toList, ContentLine l := fun l =>
        Source.contentLine_of_mem
      have hjoined := hparse
      rw [htext] at hjoined
      obtain ⟨sts', hsts, rfl⟩ := (Source.parse_joinLines hne hcontent).mp hjoined
      exact ⟨text, _, rfl, hparse, compile_placeLines hcontent hsts hbuilt 1⟩

end Store

end Tariff
