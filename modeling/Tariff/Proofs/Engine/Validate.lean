/-
  The message that `validate` answers with. Whatever the store holds, it is composed of fixed text and of
  what it shows of the source, since the error of a batch is that of its source or of one of its
  statements. So it is a single line, unless it repeats a quoted string of the source in which a line
  break is written as an escape (`validate_breaks`).
-/
import Tariff.Proofs.Compile.Message
import Tariff.Proofs.Engine.Fetch

namespace Tariff.Store

open Source

section

variable {policy : DuplicatePolicy} {s s' : Store} {e : CompileError}

/-! ## The error of a batch -/

theorem buildStatement_error {lines : List (List Char)} {st : Statement}
    (h : s.buildStatement policy lines st = (.error e, s')) : compile policy st = .error e := by
  unfold buildStatement at h
  split at h
  · exact (fetch_error h).2
  · split at h
    · next he =>
      cases h
      exact he
    · cases h

/-- Of several statements, one that fails to compile decides, whatever the store holds. -/
theorem buildStatements_error {lines : List (List Char)} {sts : List Statement}
    (h : s.buildStatements policy lines sts = (.error e, s')) :
    ∃ st ∈ sts, compile policy st = .error e := by
  induction sts generalizing s with
  | nil => cases h
  | cons st sts ih =>
    rw [buildStatements] at h
    split at h
    · next hst =>
      cases h
      exact ⟨st, List.mem_cons_self .., buildStatement_error hst⟩
    · split at h
      · next hsts =>
        cases h
        obtain ⟨st', hmem, he⟩ := ih hsts
        exact ⟨st', List.mem_cons_of_mem _ hmem, he⟩
      · cases h

theorem composedOf_buildText {text : List Char} (h : s.buildText policy text = (.error e, s')) :
    e.ComposedOf text := by
  unfold buildText at h
  split at h
  · next hparse =>
    cases h
    exact List.forall_mem_singleton.mpr (composed_of_parse_error hparse)
  · next sts hparse =>
    obtain ⟨st, hst, he⟩ := buildStatements_error h
    exact composedOf_compile (shownIn_of_parse hparse st hst) he

/-! ## The message -/

theorem composed_validate {source m : String} (h : (s.validate policy source).1 = some m) :
    Composed ((normalForm? source.toList).getD []) m.toList := by
  unfold validate at h
  split at h
  · next hbuild =>
    cases h
    exact composed_message (composedOf_buildText hbuild)
  · cases h

end

/-- The message for a source, if there is one, breaks its line exactly if it repeats what a quoted string
    of the normal form means in which a line break is written as an escape. All other characters in it
    that can be taken for line breaks stand in the source as they are. -/
theorem validate_breaks (policy : DuplicatePolicy) (source : String) (s : Store) (m : String)
    (h : (s.validate policy source).1 = some m) :
    ('\n' ∈ m.toList ↔ RepeatsBreak ((normalForm? source.toList).getD []) m.toList) ∧
      ∀ b ∈ breakChars, b ≠ '\n' → b ∈ m.toList → b ∈ (normalForm? source.toList).getD [] :=
  ⟨(composed_validate h).break_iff, fun _ hb hne => (composed_validate h).mem_text hb hne⟩

/-- A source without the escape has a message of one line. -/
theorem validate_line {policy : DuplicatePolicy} {source m : String} {s : Store}
    (h : (s.validate policy source).1 = some m)
    (hescape : ¬ ['\\', 'n'] <:+: (normalForm? source.toList).getD []) : '\n' ∉ m.toList :=
  fun hbreak => hescape ((composed_validate h).break_iff.mp hbreak).escape

/-- The message for an argument that no discount has, with its line break written as an escape. -/
theorem validate_breaks_argument :
    (Store.validate .lastWins "discount.fixed('a\\nb')" ⟨.absent, 0⟩).1 =
        some "Invalid value for \"fixed\" : a\nb" ∧
      RepeatsBreak "discount.fixed('a\\nb')".toList "Invalid value for \"fixed\" : a\nb".toList := by
  have hmessage : (Store.validate .lastWins "discount.fixed('a\\nb')" ⟨.absent, 0⟩).1 =
      some "Invalid value for \"fixed\" : a\nb" := by decide +kernel
  have hform : normalForm? "discount.fixed('a\\nb')".toList =
      some "discount.fixed('a\\nb')".toList := by decide +kernel
  have hbreaks := (validate_breaks _ _ _ _ hmessage).1.mp (by decide +kernel)
  rw [hform] at hbreaks
  exact ⟨hmessage, hbreaks⟩

/-- Messages of two lines: of a token that cannot stand where it stands, of an argument that is no
    discount, and of a statement that is no formula. -/
theorem validate_two_lines :
    (∃ m ∈ (Store.validate .lastWins "discount 'a\\nb'" ⟨.absent, 0⟩).1, '\n' ∈ m.toList) ∧
      (∃ m ∈ (Store.validate .lastWins "discount.fixed('a\\nb')" ⟨.absent, 0⟩).1, '\n' ∈ m.toList) ∧
      ∃ m ∈ (Store.validate .lastWins "'a\\nb'" ⟨.absent, 0⟩).1, '\n' ∈ m.toList := by
  have htoken : (Store.validate .lastWins "discount 'a\\nb'" ⟨.absent, 0⟩).1 =
      some "Unexpected token \"a\nb\" (STRING) at line 1 and column 10" := by decide +kernel
  have hargument : (Store.validate .lastWins "discount.fixed('a\\nb')" ⟨.absent, 0⟩).1 =
      some "Invalid value for \"fixed\" : a\nb" := by decide +kernel
  have hliteral : (Store.validate .lastWins "'a\\nb'" ⟨.absent, 0⟩).1 =
      some "Formula run returned unexpected result : a\nb" := by decide +kernel
  exact ⟨⟨_, htoken, by decide +kernel⟩, ⟨_, hargument, by decide +kernel⟩, _, hliteral,
    by decide +kernel⟩

end Tariff.Store
