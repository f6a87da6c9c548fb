/-
  The settings file of a run. It is the one that `--config` names; without the option, the one that the
  variable names, as long as there is a file; and else the nearest file of the usual name, from the
  working directory upwards (`Config.Chosen`). A file on the command line is never passed over: where it
  is missing, the run fails (`settings_file_of_run`). A variable that leads to no file is
  (`missing_variable_passed_over`). The file is read on the way from the root, so it has to be in reach
  there too (`Config.InReach`).
-/
import Tariff.Proofs.Command.Reports
import Tariff.Proofs.Config.Load
import Mathlib.Data.List.Infix

namespace Tariff

namespace Config

/-! ## From a directory upwards -/

theorem upwards_concat (l : Location) (name : String) :
    upwards (l ++ [name]) = (l ++ [name]) :: upwards l := by
  unfold upwards
  rw [List.length_append, List.length_singleton, List.range_succ_eq_map, List.map_cons, List.map_map]
  congr 1
  · simp
  · refine List.map_congr_left fun k _ => ?_
    show (l ++ [name]).take (l.length + 1 - (k + 1)) = _
    rw [Nat.add_sub_add_right, List.take_append_of_le_length (Nat.sub_le ..)]

/-- On the way from the root down to `l`, `dir` has the property and nothing further down has it. -/
def Lowest (p : Location → Bool) (l dir : Location) : Prop :=
  dir <+: l ∧ p dir = true ∧ ∀ below, dir <+: below → below <+: l → below ≠ dir → p below = false

theorem mem_upwards {l dir : Location} : dir ∈ upwards l ↔ dir <+: l := by
  induction l using List.reverseRecOn with
  | nil =>
    have hroot : upwards [] = [[]] := by decide
    rw [hroot, List.mem_singleton, List.prefix_nil]
  | append_singleton l name ih =>
    rw [upwards_concat, List.mem_cons, ih, List.prefix_concat_iff]

theorem find?_upwards_eq_none {p : Location → Bool} {l : Location} :
    (upwards l).find? p = none ↔ ∀ dir, dir <+: l → p dir = false := by
  simp only [List.find?_eq_none, mem_upwards, Bool.not_eq_true]

theorem lowest_of_find?_upwards {p : Location → Bool} {l dir : Location}
    (h : (upwards l).find? p = some dir) : Lowest p l dir := by
  induction l using List.reverseRecOn with
  | nil =>
    have hroot := List.mem_of_find?_eq_some h
    rw [mem_upwards, List.prefix_nil] at hroot
    subst hroot
    refine ⟨List.prefix_refl _, List.find?_some h, ?_⟩
    intro below _ hbelow hne
    exact absurd (List.prefix_nil.mp hbelow) hne
  | append_singleton l name ih =>
    rw [upwards_concat, List.find?_cons] at h
    split at h
    · next hhere =>
      cases h
      refine ⟨List.prefix_refl _, hhere, ?_⟩
      intro below hdir hbelow hne
      exact absurd (hbelow.eq_of_length_le hdir.length_le) hne
    · next hhere =>
      obtain ⟨hdir, hp, hlower⟩ := ih h
      refine ⟨hdir.trans (List.prefix_append ..), hp, ?_⟩
      intro below hle hbelow hne
      rcases List.prefix_concat_iff.mp hbelow with rfl | hbelow
      · exact hhere
      · exact hlower below hle hbelow hne

theorem Lowest.unique {p : Location → Bool} {l dir dir' : Location} (h : Lowest p l dir)
    (h' : Lowest p l dir') : dir = dir' := by
  by_contra hne
  rcases List.prefix_or_prefix_of_prefix h.1 h'.1 with hle | hle
  · have hfalse := h.2.2 dir' hle h'.1 (Ne.symm hne)
    rw [h'.2.1] at hfalse
    cases hfalse
  · have hfalse := h'.2.2 dir hle h.1 hne
    rw [h.2.1] at hfalse
    cases hfalse

theorem find?_upwards_of_lowest {p : Location → Bool} {l dir : Location} (h : Lowest p l dir) :
    (upwards l).find? p = some dir := by
  cases hfind : (upwards l).find? p with
  | none =>
    have hfalse := find?_upwards_eq_none.mp hfind dir h.1
    rw [h.2.1] at hfalse
    cases hfalse
  | some dir' => rw [(lowest_of_find?_upwards hfind).unique h]

/-! ## The choice -/

/-- The file of the usual name in a directory is there. -/
def holds (d : Disk) (dir : Location) : Bool := d.isFile (Route.ofText (pathIn dir))

/-- The variable names no file: it is not set, or there is no file at its path. -/
def NamesNoFile (w : World) : Prop :=
  ∀ path, w.environment.lookup fileVariable = some path → w.disk.isFile (Route.ofText path) = false

/-- The path of the working directory is one that the disk takes. -/
def Short (d : Disk) : Prop := d.here.text.utf8ByteSize ≤ Route.pathLimit

/-- The settings file of a run that has the option with some path or without it. Without it none is looked
    for in a working directory that is gone, and none upwards from a path that is too long. -/
inductive Chosen (w : World) : Option String → Option String → Prop
  | named (path : String) : Chosen w (some path) (some path)
  | lost (hhere : w.disk.hasHere = false) : Chosen w none none
  | fromVariable (hhere : w.disk.hasHere = true) (path : String)
      (hset : w.environment.lookup fileVariable = some path)
      (hfile : w.disk.isFile (Route.ofText path) = true) : Chosen w none (some path)
  | nearest (hhere : w.disk.hasHere = true) (hvariable : NamesNoFile w)
      (hshort : Short w.disk) (dir : Location) (hdir : Lowest (holds w.disk) w.disk.here dir) :
      Chosen w none (some (pathIn dir))
  | absent (hhere : w.disk.hasHere = true) (hvariable : NamesNoFile w)
      (hnone : Short w.disk → ∀ dir, dir <+: w.disk.here → holds w.disk dir = false) :
      Chosen w none none

theorem get?_here {d : Disk} (h : d.hasHere = true) : d.get? d.here = some .directory := by
  simpa [Disk.hasHere] using h

/-- The working directory is found when it is there. -/
theorem find_here {d : Disk} (h : d.hasHere = true) :
    d.find (Route.ofText ".") = .ok (d.here, .directory) := by
  have hroute : Route.ofText "." = ["."] := by decide
  have hfault : Route.fault? ["."] = none := by decide
  have hlocate : d.locate ["."] = d.walkOut d.here ["."] := by
    simp only [Disk.locate, hfault]
    rfl
  have hplace : d.locate ["."] = .ok d.here := by
    rw [hlocate]
    simp [Disk.walkOut, Disk.walk, Disk.step, get?_here h]
  rw [hroute, Disk.find, hplace]
  dsimp only
  rw [get?_here h]

theorem nearestFile?_here {d : Disk} (h : d.hasHere = true) :
    nearestFile? d (Route.ofText ".") =
      if Route.pathLimit < d.here.text.utf8ByteSize then none
      else ((upwards d.here).find? (holds d)).map pathIn := by
  rw [nearestFile?, find_here h]
  dsimp only
  rw [List.find?_map]
  rfl

theorem namedFile?_eq_none {w : World} : namedFile? w = none ↔ NamesNoFile w := by
  unfold namedFile? NamesNoFile
  rw [Option.filter_eq_none_iff]
  simp

theorem namedFile?_eq_some {w : World} {path : String} : namedFile? w = some path ↔
    w.environment.lookup fileVariable = some path ∧ w.disk.isFile (Route.ofText path) = true := by
  unfold namedFile?
  rw [Option.filter_eq_some_iff]

/-- From a working directory that is there, the file of the variable comes first. -/
theorem discover?_here {w : World} (h : w.disk.hasHere = true) :
    discover? w "." = (namedFile? w).or
      (if Route.pathLimit < w.disk.here.text.utf8ByteSize then none
        else ((upwards w.disk.here).find? (holds w.disk)).map pathIn) := by
  rw [discover?, nearestFile?_here h]
  cases namedFile? w <;> rfl

/-- A file that is found and not named is there. -/
theorem Chosen.isFile {w : World} {file : Option String} (h : Chosen w none file) :
    ∀ path ∈ file, w.disk.isFile (Route.ofText path) = true := by
  rintro path hpath
  cases h with
  | lost => cases hpath
  | absent => cases hpath
  | fromVariable hhere path' hset hfile =>
    cases hpath
    exact hfile
  | nearest hhere hvariable hshort dir hdir =>
    cases hpath
    exact hdir.2.1

end Config

namespace Command

open Config

namespace Invocation

variable {i : Invocation} {w : World}

theorem chosen_settingsPath (i : Invocation) (w : World) : Chosen w i.config (i.settingsPath w) := by
  unfold settingsPath
  cases i.config with
  | some path => exact .named path
  | none =>
    dsimp only
    split
    · next hhere =>
      rw [discover?_here hhere]
      cases hnamed : namedFile? w with
      | some path =>
        obtain ⟨hset, hfile⟩ := namedFile?_eq_some.mp hnamed
        exact .fromVariable hhere path hset hfile
      | none =>
        have hvariable := namedFile?_eq_none.mp hnamed
        rw [Option.none_or]
        split
        · next hlong => exact .absent hhere hvariable fun hshort => absurd hlong (Nat.not_lt.mpr hshort)
        · next hshort =>
          cases hfind : (upwards w.disk.here).find? (holds w.disk) with
          | none => exact .absent hhere hvariable fun _ => find?_upwards_eq_none.mp hfind
          | some dir =>
            exact .nearest hhere hvariable (Nat.not_lt.mp hshort) dir (lowest_of_find?_upwards hfind)
    · next hhere => exact .lost (by simpa using hhere)

theorem settingsPath_of_chosen {flag file : Option String} (h : Chosen w flag file)
    (hflag : i.config = flag) : i.settingsPath w = file := by
  unfold settingsPath
  rw [hflag]
  cases h with
  | named path => rfl
  | lost hhere => exact if_neg (by simp [hhere])
  | fromVariable hhere path hset hfile =>
    have hnamed := namedFile?_eq_some.mpr ⟨hset, hfile⟩
    dsimp only
    rw [if_pos hhere, discover?_here hhere, hnamed, Option.some_or]
  | nearest hhere hvariable hshort dir hdir =>
    have hnamed := namedFile?_eq_none.mpr hvariable
    dsimp only
    rw [if_pos hhere, discover?_here hhere, hnamed, Option.none_or, if_neg (Nat.not_lt.mpr hshort),
      find?_upwards_of_lowest hdir, Option.map_some]
  | absent hhere hvariable hnone =>
    have hnamed := namedFile?_eq_none.mpr hvariable
    dsimp only
    rw [if_pos hhere, discover?_here hhere, hnamed, Option.none_or]
    split
    · rfl
    · next hshort =>
      rw [find?_upwards_eq_none.mpr (hnone (Nat.not_lt.mp hshort)), Option.map_none]

/-- The settings file of an invocation is the chosen one, and no other is chosen. -/
theorem settingsPath_eq_iff {file : Option String} :
    i.settingsPath w = file ↔ Chosen w i.config file := by
  refine ⟨?_, fun h => settingsPath_of_chosen h rfl⟩
  rintro rfl
  exact chosen_settingsPath i w

theorem context_eq (i : Invocation) (w : World) :
    i.context w = ((Config.load w (i.settingsPath w)).map fun s =>
      ⟨w, i.settingsPath w, s, i.json || s.output.json, i.quiet⟩).mapError .config := by
  unfold context
  dsimp only
  cases Config.load w (i.settingsPath w) <;> rfl

theorem run_of_load_error {e : ConfigError} (h : Config.load w (i.settingsPath w) = .error e) :
    i.run w = ⟨1, "", (Failure.config e).report i.json, i.verbose, w.disk⟩ := by
  have hanswer : i.answer w = (.error (.config e), w.disk) := by
    rw [answer, context_eq, h]
    rfl
  rw [run, hanswer]

theorem load_of_context {ctx : Context} (h : i.context w = .ok ctx) :
    ctx.path = i.settingsPath w ∧ Config.load w ctx.path = .ok ctx.settings := by
  rw [context_eq] at h
  cases hload : Config.load w (i.settingsPath w) with
  | error e =>
    rw [hload] at h
    cases h
  | ok s =>
    rw [hload] at h
    cases h
    exact ⟨rfl, hload⟩

end Invocation

/-- The settings file of a run is the chosen one: the one that `--config` names last, else the one that
    the variable names if it is there, else the nearest file of the usual name, else none. Where there is
    no file at the path of the option, the run fails and reports this path, and nothing else comes of it;
    without the option no file is missing. The settings that a run works with are those that the text of
    the chosen file makes, if it is in reach, whatever else the disk holds. -/
theorem settings_file_of_run {args : List String} {i : Invocation} (hread : read args = .ok i)
    (w : World) :
    let flag := (Opt.config.valuesIn args).getLast?
    (∀ file, i.settingsPath w = file ↔ Chosen w flag file) ∧
    (∀ path, flag = some path → w.disk.isFile (Route.ofText path) = false →
      run w args = ⟨1, "", (Failure.config (.notFound path)).report i.json, i.verbose, w.disk⟩) ∧
    (flag = none → ∀ path, i.context w ≠ .error (.config (.notFound path))) ∧
    ∀ ctx, i.context w = .ok ctx → ctx.path = i.settingsPath w ∧
      ((∀ path ∈ ctx.path, InReach w.disk path) →
        settings w.environment
          (ctx.path.bind fun path => (w.disk.readText (Route.ofText path)).toOption) =
            .ok ctx.settings) := by
  intro flag
  have hflag : i.config = flag := config_of_read hread
  refine ⟨fun file => hflag ▸ Invocation.settingsPath_eq_iff, ?_, ?_, ?_⟩
  · intro path hnamed hmissing
    have hpath : i.settingsPath w = some path := by
      rw [Invocation.settingsPath_eq_iff, hflag, hnamed]
      exact .named path
    have hrun : run w args = i.run w := by rw [run, hread]
    rw [hrun]
    apply Invocation.run_of_load_error
    rw [hpath, load_missing hmissing]
  · intro hnone path herror
    have hchosen : Chosen w none (i.settingsPath w) := by
      rw [← hnone, ← hflag]
      exact Invocation.settingsPath_eq_iff.mp rfl
    rw [Invocation.context_eq] at herror
    have hload := load_ne_notFound hchosen.isFile path
    cases hloaded : Config.load w (i.settingsPath w) with
    | ok s =>
      rw [hloaded] at herror
      cases herror
    | error e =>
      rw [hloaded] at herror
      cases herror
      exact hload hloaded
  · intro ctx hctx
    obtain ⟨hpath, hload⟩ := Invocation.load_of_context hctx
    exact ⟨hpath, fun hreach => settings_of_load hreach hload⟩

/-- A directory of the usual name is passed over on the way up, and a file that the command line names is
    not replaced by the one that is found there. -/
theorem settings_file_of_run_missing :
    let file : Entry := .file "formula:\n  duplicate_addons: reject\n"
    let w : World := ⟨⟨[(["work"], .directory), (["work", "billing.yaml"], file),
      (["work", "deep"], .directory), (["work", "deep", "billing.yaml"], .directory)],
      ["work", "deep"]⟩, [], ⟨"linux", "x86_64"⟩⟩
    Chosen w none (some "/work/billing.yaml") ∧
      run w ["build", "--config", "a.yaml", "installment"] =
        ⟨1, "", "Error: config file not found: a.yaml\n", false, w.disk⟩ := by
  intro file w
  let i (config : Option String) : Invocation :=
    ⟨config, false, false, false, some (.build (.words ["installment"]))⟩
  have hplain : read ["build", "installment"] = .ok (i none) := by decide +kernel
  have hnamed : read ["build", "--config", "a.yaml", "installment"] = .ok (i (some "a.yaml")) := by
    decide +kernel
  have hchosen := ((settings_file_of_run hplain w).1 (some "/work/billing.yaml")).mp (by decide +kernel)
  have hrun := (settings_file_of_run hnamed w).2.1 "a.yaml" (by decide +kernel) (by decide +kernel)
  have hflag : (Opt.config.valuesIn ["build", "installment"]).getLast? = none := by decide +kernel
  rw [hflag] at hchosen
  exact ⟨hchosen, hrun⟩

/-- A variable that leads to no file is passed over: the run works with the file of the usual name. -/
theorem missing_variable_passed_over :
    let file : Entry := .file "formula:\n  duplicate_addons: reject\n"
    let w : World := ⟨⟨[(["work"], .directory), (["work", "billing.yaml"], file)], ["work"]⟩,
      [("BILLING_CONFIG", "missing.yaml")], ⟨"linux", "x86_64"⟩⟩
    let args := ["build", "installment"]
    let i : Invocation := ⟨none, false, false, false, some (.build (.words ["installment"]))⟩
    read args = .ok i ∧
      w.environment.lookup fileVariable = some "missing.yaml" ∧
      w.disk.isFile (Route.ofText "missing.yaml") = false ∧
      (∃ ctx, i.context w = .ok ctx ∧ ctx.path = some "/work/billing.yaml" ∧
        ctx.settings.formula.duplicates = .reject) ∧
      (run w args).code = 0 ∧ (run w args).stdout = "installment\n" := by
  intro file w args i
  have hpath : i.settingsPath w = some "/work/billing.yaml" := by decide +kernel
  have hload : load w (some "/work/billing.yaml") = .ok ⟨⟨true, .reject⟩, ⟨false⟩⟩ := by decide +kernel
  have hctx : i.context w =
      .ok ⟨w, some "/work/billing.yaml", ⟨⟨true, .reject⟩, ⟨false⟩⟩, false, false⟩ := by
    rw [Invocation.context_eq, hpath, hload]
    rfl
  exact ⟨by decide +kernel, by decide +kernel, by decide +kernel, ⟨_, hctx, rfl, rfl⟩,
    by decide +kernel, by decide +kernel⟩

end Command

end Tariff
