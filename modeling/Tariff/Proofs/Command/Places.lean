/-
  The places that errors name. Source is compiled in its normal form, and this is where the places of
  errors are: a line is counted among the lines that hold text, and a column from the first character of
  its line that is no white space; a line break and the end of the source come right behind the last
  character that is none. So an error names the place of the piece that it is about as the source has it
  exactly where no line without text comes before the piece, its line has no margin and, if the piece is
  the end of a line or of the source, no white space comes right before it (`error_places`).
-/
import Tariff.Proofs.Command.Reports
import Tariff.Proofs.Compile.Culprit
import Tariff.Proofs.Engine.Validate

namespace Tariff

open Source (normalText getD_normalForm? normalForm? normalText_of_some)

namespace Store

variable {policy : DuplicatePolicy} {s s' : Store} {source m : String} {cs : List Char}
  {e : CompileError}

theorem placed_of_build (h : (s.build policy source).1 = .error e) : e.Placed policy source.toList := by
  unfold build at h
  split at h
  · cases h
    rintro _ ⟨⟩
  · next text hform =>
    rw [← normalText_of_some hform] at h
    exact placed_of_compileText (fetch_error (Prod.ext h rfl)).2

theorem placed_of_buildText (h : s.buildText policy (normalText cs) = (.error e, s')) :
    e.Placed policy cs := by
  unfold buildText at h
  split at h
  · next hparse =>
    cases h
    exact placed_of_parse_error hparse
  · next sts hparse =>
    obtain ⟨st, hst, he⟩ := buildStatements_error h
    exact placed_of_compile hparse hst he

theorem placed_of_buildAll (h : (s.buildAll policy source).1 = .error e) :
    e.Placed policy source.toList := by
  unfold buildAll at h
  split at h
  · cases h
    rintro _ ⟨⟩
  · next text hform =>
    rw [← normalText_of_some hform] at h
    exact placed_of_buildText (Prod.ext h rfl)

theorem placed_of_validate (h : (s.validate policy source).1 = some m) :
    ∃ e : CompileError, m = e.message ∧ e.Placed policy source.toList := by
  unfold validate at h
  rw [getD_normalForm?] at h
  split at h
  · next e _ hbuild =>
    cases h
    exact ⟨e, rfl, placed_of_buildText hbuild⟩
  · cases h

end Store

namespace Command

section

variable {w : World} {args : List String} {i : Invocation} {ctx : Context} {t : FormulaText}
  {source : String}

theorem run_of_context (hread : read args = .ok i) (hctx : i.context w = .ok ctx) :
    run w args = i.run w ∧ i.answer w = ctx.act i.action := by
  rw [run, hread, Invocation.answer, hctx]
  exact ⟨rfl, rfl⟩

/-- A build that fails reports an error that is placed in the source. -/
theorem placed_of_run_build (hread : read args = .ok i) (hctx : i.context w = .ok ctx)
    (hsource : ctx.textOf t = .ok source) (haction : i.action = some (.build t))
    (hcode : (run w args).code ≠ 0) :
    ∃ e, (∀ log, (run w args).errorStream log = i.logText log ++ (Failure.formula e).report i.json) ∧
      e.Placed ctx.settings.formula.duplicates source.toList := by
  obtain ⟨hrun, hanswer⟩ := run_of_context hread hctx
  have hact : (i.answer w).1 = ctx.build t := by
    rw [hanswer, haction]
    rfl
  rw [hrun] at hcode ⊢
  unfold Context.build at hact
  rw [hsource] at hact
  dsimp only at hact
  split at hact
  · next e hbuild =>
    obtain ⟨-, -, hreport⟩ := Invocation.run_of_error hact
    exact ⟨e, hreport, Store.placed_of_buildAll hbuild⟩
  · exact absurd (Invocation.run_of_ok hact).1 hcode

/-- A validation that finds an error shows it, and it is placed in the source. -/
theorem placed_of_run_validate (hread : read args = .ok i) (hctx : i.context w = .ok ctx)
    (hsource : ctx.textOf t = .ok source) (haction : i.action = some (.validate t))
    (hcode : (run w args).code ≠ 0) :
    ∃ e : CompileError, (run w args).stdout = ctx.showVerdict (some e.message) ∧
      e.Placed ctx.settings.formula.duplicates source.toList := by
  obtain ⟨hrun, hanswer⟩ := run_of_context hread hctx
  have hact : (i.answer w).1 = ctx.validate t := by
    rw [hanswer, haction]
    rfl
  rw [hrun] at hcode ⊢
  unfold Context.validate at hact
  rw [hsource] at hact
  dsimp only at hact
  obtain ⟨hanswered, hshown⟩ := Invocation.run_of_ok hact
  rw [hanswered] at hcode
  rw [hshown]
  cases hmessage : (Store.validate ctx.settings.formula.duplicates source
      ctx.settings.formula.newStore).1 with
  | none =>
    rw [hmessage] at hcode
    exact absurd rfl hcode
  | some m =>
    obtain ⟨e, rfl, hplaced⟩ := Store.placed_of_validate hmessage
    exact ⟨e, rfl, hplaced⟩

end

/-- An error of `build`, `buildAll` or `validate` that names a place, and one that a run reports for a
    file or for words, names the place of the piece of the source that it is about, counted without the
    lines that hold no text, without the margin of its line and, for the end of a line or of the source,
    without the white space right before it. This is the place that the piece has in the source exactly
    where there is none of all that. -/
theorem error_places (policy : DuplicatePolicy) (source : String) (s : Store) :
    (∀ e, (s.build policy source).1 = .error e → e.Placed policy source.toList) ∧
    (∀ e, (s.buildAll policy source).1 = .error e → e.Placed policy source.toList) ∧
    (∀ m, (s.validate policy source).1 = some m →
      ∃ e : CompileError, m = e.message ∧ e.Placed policy source.toList) ∧
    (∀ (w : World) (args : List String) (i : Invocation) (ctx : Context) (t : FormulaText),
      read args = .ok i → i.context w = .ok ctx → ctx.textOf t = .ok source →
        (run w args).code ≠ 0 →
        (i.action = some (.build t) → ∃ e,
          (∀ log, (run w args).errorStream log =
            i.logText log ++ (Failure.formula e).report i.json) ∧
          e.Placed ctx.settings.formula.duplicates source.toList) ∧
        (i.action = some (.validate t) → ∃ e : CompileError,
          (run w args).stdout = ctx.showVerdict (some e.message) ∧
            e.Placed ctx.settings.formula.duplicates source.toList)) ∧
    ∀ (cause : Source.SyntaxError.Cause) (before : List Char),
      Source.Pos.counted (cause.lead before) = Source.Pos.behind before ↔
        (∀ l ∈ (Text.rows before).dropLast, Text.trim l ≠ []) ∧
          Text.margin (Source.lastRow before) = [] ∧
          (cause.isEnd → Text.trimEnd before = before) := by
  refine ⟨fun e => Store.placed_of_build, fun e => Store.placed_of_buildAll,
    fun m => Store.placed_of_validate, ?_, Source.Pos.counted_lead_eq_behind_iff⟩
  intro w args i ctx t hread hctx hsource hcode
  exact ⟨fun haction => placed_of_run_build hread hctx hsource haction hcode,
    fun haction => placed_of_run_validate hread hctx hsource haction hcode⟩

/-- An addon behind a line without text and a margin, which are not counted, and a modifier on the second
    of two words, where the first is empty. -/
theorem error_places_margins :
    let source := "installment\n \n\u2003\tdiscount.b(1)"
    let w : World := ⟨⟨[], []⟩, [], ⟨"linux", "x86_64"⟩⟩
    let args := ["build", "", " foo"]
    (Store.buildAll .lastWins source ⟨.absent, 0⟩).1 = .error (.unknownAddon "discount" "b" ⟨2, 10⟩) ∧
      (CompileError.unknownAddon "discount" "b" ⟨2, 10⟩).Locates .lastWins source.toList
        ⟨.token .ident, "b", ⟨2, 10⟩⟩ ∧
      (run w args).stderr = "Error: Unknown modifier \"foo\" at line 1 and column 1\n" ∧
      ∃ e, (∀ log, (run w args).errorStream log = (Failure.formula e).report false) ∧
        e.Placed .lastWins "\n foo".toList := by
  intro source w args
  let t : FormulaText := .words ["", " foo"]
  let i : Invocation := ⟨none, false, false, false, some (.build t)⟩
  let ctx : Context := ⟨w, none, ⟨{}, ⟨false⟩⟩, false, false⟩
  have hread : read args = .ok i := by decide +kernel
  have hpath : i.settingsPath w = none := by decide +kernel
  have hload : Config.load w none = .ok ⟨{}, ⟨false⟩⟩ := by decide +kernel
  have hctx : i.context w = .ok ctx := by
    rw [Invocation.context, hpath, hload]
    rfl
  have hsource : ctx.textOf t = .ok "\n foo" := by decide +kernel
  have hbuild : (Store.buildAll .lastWins source ⟨.absent, 0⟩).1 =
      .error (.unknownAddon "discount" "b" ⟨2, 10⟩) := by decide +kernel
  have hplaced := (error_places .lastWins source ⟨.absent, 0⟩).2.1 _ hbuild
  have hrun := (error_places .lastWins "\n foo" ⟨.absent, 0⟩).2.2.2.1 w args i ctx t hread hctx hsource
    (by decide +kernel)
  exact ⟨hbuild, hplaced _ rfl, by decide +kernel, hrun.1 rfl⟩

/-- The place that is named need not be the place in the source as it was given: there the only name
    stands on the third line, and no piece of the source that shows like it stands where the error says. -/
theorem error_places_not_as_given :
    (Store.build .lastWins "\n\n  foo" ⟨.absent, 0⟩).1 = .error (.unknownModifier "foo" ⟨1, 1⟩) ∧
      (Store.buildAll .lastWins "\n\n  foo" ⟨.absent, 0⟩).1 = .error (.unknownModifier "foo" ⟨1, 1⟩) ∧
      (Store.validate .lastWins "\n\n  foo" ⟨.absent, 0⟩).1 =
        some "Unknown modifier \"foo\" at line 1 and column 1" ∧
      (run ⟨⟨[], []⟩, [], ⟨"linux", "x86_64"⟩⟩ ["build", "", "", "  foo"]).stderr =
        "Error: Unknown modifier \"foo\" at line 1 and column 1\n" ∧
      Source.lex "\n\n  foo".toList = .ok [⟨.lineBreak, "\\n", ⟨1, 1⟩⟩, ⟨.lineBreak, "\\n", ⟨2, 1⟩⟩,
        ⟨.ident, "foo", ⟨3, 3⟩⟩, ⟨.finish, "EOF", ⟨3, 6⟩⟩] ∧
      ¬ ∃ before piece back, "\n\n  foo".toList = before ++ piece ++ back ∧
        Source.Stands (.token .ident) "foo" piece back ∧ Source.Pos.behind before = ⟨1, 1⟩ := by
  refine ⟨by decide +kernel, by decide +kernel, by decide +kernel, by decide +kernel,
    by decide +kernel, ?_⟩
  rintro ⟨before, piece, back, hsource, hstands, hplace⟩
  have hcs : '\n' :: "\n  foo".toList = before ++ piece ++ back := hsource
  cases before with
  | nil =>
    -- The source begins with a line break, where no name begins.
    cases hstands with
    | token hlexeme =>
      generalize "foo" = name at hlexeme
      cases hlexeme with
      | ident hword =>
        have hstart := hword.holds.startsWord hcs
        cases hstart
  | cons c before =>
    obtain ⟨rfl, -⟩ := List.cons.inj hcs
    have hline := congrArg Source.Pos.line hplace
    simp [Source.Pos.behind] at hline

end Command

end Tariff
