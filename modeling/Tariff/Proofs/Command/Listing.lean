/-
  What `build` prints. Formulas that are shown as text stand one on a line, each in its compact form, with
  its number in front if there are several (`lines_showFormulas`). That holds unless a reason has line
  breaks in it: each of these makes one line more. So a run that builds prints as many lines as its
  source has statements, and on top of them as many as the reasons have line breaks, all of which are
  escapes in strings of the source (`run_build_lines`).
-/
import Tariff.Command.Run
import Tariff.Proofs.Compile.Compact
import Tariff.Proofs.Engine.Keeps

namespace Tariff

open Source (RepeatsBreak Statement breakChars normalForm? parse)

/-! ## Texts that are ended by line breaks -/

namespace Text

/-- Texts with a line break behind each have their lines one after the other. -/
theorem lines_ended (ls : List (List Char)) :
    lines (ls.flatMap (· ++ ['\n'])) = (ls.flatMap (parts (· == '\n'))).map dropReturn := by
  have hparts : parts (· == '\n') (ls.flatMap (· ++ ['\n'])) =
      ls.flatMap (parts (· == '\n')) ++ [[]] := by
    induction ls with
    | nil => rfl
    | cons l ls ih =>
      rw [List.flatMap_cons, List.flatMap_cons, List.append_assoc, List.singleton_append,
        parts_append (by decide), ih, List.append_assoc]
  rw [lines, hparts, List.dropLast_concat, List.getLast?_concat]

theorem length_lines_ended (ls : List (List Char)) :
    (lines (ls.flatMap (· ++ ['\n']))).length = ls.length + ls.flatten.count '\n' := by
  rw [lines_ended, List.length_map]
  induction ls with
  | nil => rfl
  | cons l ls ih =>
    rw [List.flatMap_cons, List.length_append, ih, length_parts, List.flatten_cons, List.count_append,
      List.length_cons]
    omega

/-- They are lines themselves exactly if they have no line breaks in them. -/
theorem lines_ended_eq_self_iff {ls : List (List Char)} (h : ∀ l ∈ ls, l.getLast? ≠ some '\r') :
    lines (ls.flatMap (· ++ ['\n'])) = ls ↔ ∀ l ∈ ls, '\n' ∉ l := by
  constructor
  · intro hlines l hl
    rw [← hlines] at hl
    exact noBreak_of_mem_lines hl
  · intro hfree
    have hself : ∀ l ∈ ls, parts (· == '\n') l = [l] := by
      intro l hl
      refine parts_eq_singleton fun c hc => ?_
      rw [beq_eq_false_iff_ne]
      rintro rfl
      exact hfree l hl hc
    rw [lines_ended, List.flatMap_congr hself, List.flatMap_singleton',
      Source.map_eq_self fun l hl => dropReturn_eq_self (h l hl)]

end Text

namespace Command

/-! ## Lists of formulas -/

/-- What stands in front of the text at index `i` when so many texts are listed. -/
def lineLabel (count i : Nat) : String := if 1 < count then aligned (i + 1) ++ ". " else ""

/-- Compact forms as they are listed, each with its label. -/
def listing (fs : List Formula) : List (List Char) :=
  fs.mapIdx fun i f => (lineLabel fs.length i ++ f.text).toList

theorem simple_lineLabel (count i : Nat) : Text.Simple (lineLabel count i).toList := by
  unfold lineLabel
  split
  · have hblanks : Text.Simple (List.replicate (3 - (Nat.toDigits 10 (i + 1)).length) ' ') := by
      intro c hc
      rw [List.eq_of_mem_replicate hc]
      decide
    rw [String.toList_append, Text.simple_append, aligned, String.toList_ofList, List.leftpad,
      Text.simple_append]
    exact ⟨⟨hblanks, (Text.digits_toDigits _).simple⟩, by decide⟩
  · exact List.forall_mem_nil _

section

variable {fs : List Formula}

theorem length_listing (fs : List Formula) : (listing fs).length = fs.length := List.length_mapIdx

theorem map_numbered (fs : List Formula) :
    (numbered (fs.map Formula.text)).map String.toList = listing fs := by
  unfold numbered listing lineLabel
  rw [List.length_map]
  split
  all_goals
    apply List.ext_getElem
    · simp
    · intro i hi hi'
      simp [Nat.add_comm]

theorem toList_showFormulas {ctx : Context} (h : ctx.json = false) (fs : List Formula) :
    (ctx.showFormulas fs).toList = (listing fs).flatMap (· ++ ['\n']) := by
  have hjoin : ctx.showFormulas fs = String.join ((numbered (fs.map Formula.text)).map line) := by
    rw [Context.showFormulas, h]
    rfl
  rw [hjoin, String.toList_join, ← map_numbered, List.flatMap_map, List.flatMap_map]
  simp [line]

theorem mem_listing {l : List Char} (h : l ∈ listing fs) :
    ∃ f ∈ fs, ∃ label, Text.Simple label ∧ l = label ++ f.text.toList := by
  obtain ⟨i, hi, rfl⟩ := List.mem_mapIdx.mp h
  exact ⟨fs[i], List.getElem_mem hi, _, simple_lineLabel fs.length i, String.toList_append⟩

theorem exists_mem_listing {f : Formula} (h : f ∈ fs) : ∃ l ∈ listing fs, f.text.toList <:+ l := by
  obtain ⟨i, hi, rfl⟩ := List.mem_iff_getElem.mp h
  refine ⟨_, List.mem_mapIdx.mpr ⟨i, hi, rfl⟩, ?_⟩
  rw [String.toList_append]
  exact List.suffix_append _ _

/-- Compact forms behind simple labels break their lines where the reasons do. -/
theorem count_break_labelled {label : Nat → String} (hlabel : ∀ i, Text.Simple (label i).toList)
    (h : ∀ f ∈ fs, f.Sound) :
    (fs.mapIdx fun i f => (label i ++ f.text).toList).flatten.count '\n' =
      (fs.flatMap Formula.reasonChars).count '\n' := by
  induction fs generalizing label with
  | nil => rfl
  | cons f fs ih =>
    rw [List.forall_mem_cons] at h
    have hfront : (label 0).toList.count '\n' = 0 :=
      List.count_eq_zero.mpr ((hlabel 0).not_mem (by decide))
    have hrest := ih (fun i => hlabel (i + 1)) h.2
    rw [List.mapIdx_cons, List.flatten_cons, List.count_append, hrest, String.toList_append,
      List.count_append, hfront, Nat.zero_add, Formula.count_break_text h.1, List.flatMap_cons,
      List.count_append]

/-- Formulas that are shown as text make a line each, and one more for each line break in a reason. Only
    without such breaks are the lines just the compact forms with their labels. -/
theorem lines_showFormulas {ctx : Context} (hjson : ctx.json = false) (h : ∀ f ∈ fs, f.Sound) :
    (Text.lines (ctx.showFormulas fs).toList).length =
        fs.length + (fs.flatMap Formula.reasonChars).count '\n' ∧
      (Text.lines (ctx.showFormulas fs).toList = listing fs ↔ ∀ f ∈ fs, '\n' ∉ f.text.toList) := by
  have hreturn : ∀ l ∈ listing fs, l.getLast? ≠ some '\r' := by
    intro l hl
    obtain ⟨f, hf, label, -, rfl⟩ := mem_listing hl
    obtain ⟨c, hc, hne⟩ := Formula.getLast?_text (h f hf)
    rw [List.getLast?_append, hc]
    exact fun heq => hne (Option.some.inj heq)
  rw [toList_showFormulas hjson, Text.length_lines_ended, length_listing,
    Text.lines_ended_eq_self_iff hreturn]
  refine ⟨congrArg _ (count_break_labelled (simple_lineLabel fs.length) h), ?_⟩
  constructor
  · intro hfree f hf
    obtain ⟨l, hl, hsuffix⟩ := exists_mem_listing hf
    exact fun hbreak => hfree l hl (hsuffix.subset hbreak)
  · intro hfree l hl
    obtain ⟨f, hf, label, hlabel, rfl⟩ := mem_listing hl
    rw [List.mem_append, not_or]
    exact ⟨hlabel.not_mem (by decide), hfree f hf⟩

end

/-! ## Runs -/

theorem sound_newStore (o : EngineOptions) (policy : DuplicatePolicy) :
    o.newStore.cache.Sound policy := by
  unfold EngineOptions.newStore
  cases o.cache with
  | false => trivial
  | true => exact List.forall_mem_nil _

theorem Context.of_build {ctx : Context} {t : FormulaText} {a : Answer} (h : ctx.build t = .ok a) :
    ∃ source is, ctx.textOf t = .ok source ∧
      (Store.buildAll ctx.settings.formula.duplicates source ctx.settings.formula.newStore).1 = .ok is ∧
      a = ⟨ctx.showFormulas (is.map (·.formula)), 0⟩ := by
  unfold Context.build at h
  split at h
  · cases h
  · next source hsource =>
    dsimp only at h
    split at h
    · cases h
    · next is his =>
      cases h
      exact ⟨source, is, hsource, his, rfl⟩

/-- Where a run exits with 0, its action has an answer, and this is what it prints. -/
theorem Invocation.of_code {i : Invocation} {w : World} {ctx : Context} (hctx : i.context w = .ok ctx)
    (h : (i.run w).code = 0) : ∃ a, (ctx.act i.action).1 = .ok a ∧ (i.run w).stdout = a.stdout := by
  have hanswer : i.answer w = ctx.act i.action := by
    unfold answer
    rw [hctx]
  unfold run at h ⊢
  rw [hanswer] at h ⊢
  split at h
  · next a disk hact => exact ⟨a, by rw [hact], rfl⟩
  · cases h

/-- A run of `build` that succeeds in text mode prints what the statements of its source compile to. It
    prints a line for each statement, and on top of that one for each line break in a reason; the lines
    are the compact forms of the formulas, numbered if there are several, unless one of these has a line
    break in it. And a compact form has one only where the reason repeats what a string of the source
    means in which a line break is written as an escape, so that a source without the escape makes a line
    for each statement; all other characters in it that can be taken for line breaks stand in the source
    as they are. -/
theorem run_build_lines {w : World} {args : List String} {i : Invocation} {t : FormulaText}
    {ctx : Context} (hread : read args = .ok i) (haction : i.action = some (.build t))
    (hctx : i.context w = .ok ctx) (hjson : ctx.json = false) (hcode : (run w args).code = 0) :
    ∃ source text sts fs, ctx.textOf t = .ok source ∧ normalForm? source.toList = some text ∧
      parse text = .ok sts ∧
      List.Forall₂ (fun st f => compile ctx.settings.formula.duplicates st = .ok f) sts fs ∧
      (Text.lines (run w args).stdout.toList).length =
        sts.length + (fs.flatMap Formula.reasonChars).count '\n' ∧
      (Text.lines (run w args).stdout.toList = listing fs ↔ ∀ f ∈ fs, '\n' ∉ f.text.toList) ∧
      (¬ ['\\', 'n'] <:+: text → Text.lines (run w args).stdout.toList = listing fs) ∧
      ∀ f ∈ fs, ('\n' ∈ f.text.toList ↔ ∃ r ∈ f.addons.reason, RepeatsBreak text r.toList) ∧
        ∀ b ∈ breakChars, b ≠ '\n' → b ∈ f.text.toList → b ∈ text := by
  have hrun : run w args = i.run w := by
    rw [run, hread]
  rw [hrun] at hcode ⊢
  obtain ⟨a, hanswer, hout⟩ := Invocation.of_code hctx hcode
  rw [haction] at hanswer
  obtain ⟨source, is, hsource, hbuilt, rfl⟩ := Context.of_build hanswer
  obtain ⟨text, sts, hform, hparse, hcompile⟩ :=
    Store.compile_of_buildAll (sound_newStore _ _) hbuilt
  have horigin := exists_mem_of_forall₂ hcompile
  have hsound : ∀ f ∈ is.map Instance.formula, f.Sound := by
    intro f hf
    obtain ⟨st, -, hst⟩ := horigin f hf
    exact sound_of_compile hst
  have hbreak : ∀ f ∈ is.map Instance.formula,
      ('\n' ∈ f.text.toList ↔ ∃ r ∈ f.addons.reason, RepeatsBreak text r.toList) ∧
        ∀ b ∈ breakChars, b ≠ '\n' → b ∈ f.text.toList → b ∈ text := by
    intro f hf
    obtain ⟨st, hmem, hst⟩ := horigin f hf
    have hshown := Source.shownIn_of_parse hparse st hmem
    exact ⟨break_text_iff hshown hst, fun _ hb hne => (composed_text hshown hst).mem_text hb hne⟩
  obtain ⟨hcount, hlines⟩ := lines_showFormulas hjson hsound
  rw [hout]
  refine ⟨source, text, sts, is.map Instance.formula, hsource, hform, hparse, hcompile, ?_, hlines, ?_,
    hbreak⟩
  · rw [hcompile.length_eq]
    exact hcount
  · intro hescape
    refine hlines.mpr fun f hf hmem => ?_
    obtain ⟨r, -, hrepeats⟩ := (hbreak f hf).1.mp hmem
    exact hescape hrepeats.escape

/-- Two statements, the second with a line break in its reason, make three lines. -/
theorem run_build_lines_two :
    let w : World := ⟨⟨[], []⟩, [], ⟨"linux", "x86_64"⟩⟩
    let args := ["build", "installment", "installment.reason('a\\nb')"]
    let text := "installment\ninstallment.reason('a\\nb')".toList
    (run w args).stdout = "  1. installment\n  2. installment (a\nb)\n" ∧
      ∃ sts fs, parse text = .ok sts ∧
        List.Forall₂ (fun st f => compile .lastWins st = .ok f) sts fs ∧
        3 = sts.length + (fs.flatMap Formula.reasonChars).count '\n' ∧
        ∀ f ∈ fs, '\n' ∈ f.text.toList ↔ ∃ r ∈ f.addons.reason, RepeatsBreak text r.toList := by
  intro w args text
  let t : FormulaText := .words ["installment", "installment.reason('a\\nb')"]
  let i : Invocation := ⟨none, false, false, false, some (.build t)⟩
  let ctx : Context := ⟨w, none, ⟨{}, ⟨false⟩⟩, false, false⟩
  have hread : read args = .ok i := by decide +kernel
  have hpath : i.settingsPath w = none := by decide +kernel
  have hload : Config.load w none = .ok ⟨{}, ⟨false⟩⟩ := by decide +kernel
  have hctx : i.context w = .ok ctx := by
    rw [Invocation.context, hpath, hload]
    rfl
  have hout : (run w args).stdout = "  1. installment\n  2. installment (a\nb)\n" := by decide +kernel
  obtain ⟨source, form, sts, fs, hsource, hform, hparse, hcompile, hcount, -, -, hbreaks⟩ :=
    run_build_lines hread rfl hctx rfl (by decide +kernel)
  have htext : ctx.textOf t = .ok (String.ofList text) := by decide +kernel
  obtain rfl : String.ofList text = source := Except.ok.inj (htext.symm.trans hsource)
  have hnormal : normalForm? (String.ofList text).toList = some text := by decide +kernel
  obtain rfl : text = form := Option.some.inj (hnormal.symm.trans hform)
  have hthree : (Text.lines (run w args).stdout.toList).length = 3 := by
    rw [hout]
    decide +kernel
  exact ⟨hout, sts, fs, hparse, hcompile, hthree.symm.trans hcount, fun f hf => (hbreaks f hf).1⟩

/-- One statement, two lines: the reason has a line break. -/
theorem run_build_broken :
    let w : World := ⟨⟨[], []⟩, [], ⟨"linux", "x86_64"⟩⟩
    let args := ["build", "installment.reason('a\\nb')"]
    (run w args).code = 0 ∧
      (parse "installment.reason('a\\nb')".toList).map List.length = .ok 1 ∧
      Text.lines (run w args).stdout.toList = ["installment (a".toList, "b)".toList] := by
  decide +kernel

end Command

end Tariff
