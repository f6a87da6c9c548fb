/-
  What a failing run reports. When the command line asks for JSON, the report is one JSON object, and
  its only field has the message whatever stands in it (`run_reports_json`); a run that got as far as
  its settings shows results as JSON as well. Nothing but log lines stands in front of a report, and these
  only when the command line asks for them. Settings that ask for JSON do not change reports
  (`run_reports_plain`).
-/
import Tariff.Command.Run
import Tariff.Proofs.Command.Flags
import Tariff.Proofs.Json

namespace Tariff.Command

/-- A report as JSON has a string that reads as the message. -/
theorem Failure.report_json (f : Failure) :
    ∃ text, f.report true = "\x7b\n  \"error\": " ++ text ++ "\n\x7d\n" ∧
      Json.readString? text = some f.message := by
  refine ⟨Json.quoted f.message, ?_, Json.readString?_quoted _⟩
  have hkey : "\x7b\n  " ++ Json.quoted "error" ++ ": " = "\x7b\n  \"error\": " := by decide
  have hend : "\n\x7d" ++ "\n" = "\n\x7d\n" := by decide
  rw [report, if_pos rfl, Json.text_obj_str, hkey, ← hend, String.append_assoc]

namespace Invocation

variable {i : Invocation} {w : World} {f : Failure}

/-- The log lines of an invocation that asks for them, as they stand on standard error. -/
def logText (i : Invocation) (log : List String) : String :=
  if i.verbose then String.join (log.map line) else ""

/-- What a run comes to whose action fails, or whose settings do not load. -/
theorem run_of_error (h : (i.answer w).1 = .error f) :
    (i.run w).code = 1 ∧ (i.run w).stdout = "" ∧
      ∀ log, (i.run w).errorStream log = i.logText log ++ f.report i.json := by
  unfold run
  split
  · next a disk heq =>
    rw [heq] at h
    cases h
  · next f' disk heq =>
    rw [heq] at h
    cases h
    exact ⟨rfl, rfl, fun _ => rfl⟩

/-- What a run comes to whose action answers. -/
theorem run_of_ok {a : Answer} (h : (i.answer w).1 = .ok a) :
    (i.run w).code = a.code ∧ (i.run w).stdout = a.stdout := by
  unfold run
  split
  · next a' disk heq =>
    rw [heq] at h
    cases h
    exact ⟨rfl, rfl⟩
  · next f disk heq =>
    rw [heq] at h
    cases h

/-- Results are JSON for an invocation with the flag. -/
theorem json_of_context {ctx : Context} (h : i.context w = .ok ctx) (hjson : i.json = true) :
    ctx.json = true := by
  unfold context at h
  dsimp only at h
  split at h
  · cases h
  · cases h
    show (i.json || _) = true
    rw [hjson, Bool.true_or]

end Invocation

/-- When `--json` stands among the arguments, in front of any `--`, a run that fails for whatever reason
    exits with 1, writes nothing to standard output, and writes to standard error, behind the log lines if
    it is asked for them, an object whose only field, the error, is a string that reads as the message.
    Once settings are loaded, the mode that results are shown in is JSON too. -/
theorem run_reports_json {w : World} {args : List String} {i : Invocation} {f : Failure}
    (hflag : "--json" ∈ args.takeWhile (· ≠ "--")) (hread : read args = .ok i)
    (hfail : (i.answer w).1 = .error f) :
    (run w args).code = 1 ∧ (run w args).stdout = "" ∧
      (∃ text, (∀ log, (run w args).errorStream log =
          i.logText log ++ ("\x7b\n  \"error\": " ++ text ++ "\n\x7d\n")) ∧
        Json.readString? text = some f.message) ∧
      ∀ ctx, i.context w = .ok ctx → ctx.json = true := by
  have hjson : i.json = true := (json_of_read hread).mpr hflag
  have hrun : run w args = i.run w := by
    rw [run, hread]
  obtain ⟨hcode, hout, herr⟩ := Invocation.run_of_error hfail
  obtain ⟨text, hreport, hmessage⟩ := f.report_json
  rw [hjson, hreport] at herr
  rw [hrun]
  exact ⟨hcode, hout, ⟨text, herr, hmessage⟩, fun ctx hctx => Invocation.json_of_context hctx hjson⟩

/-- A modifier that is not known is reported with its quotes escaped, behind the log lines. -/
theorem run_reports_json_escaped :
    let w : World := ⟨⟨[], []⟩, [], ⟨"linux", "x86_64"⟩⟩
    let args := ["build", "-v", "--json", "foo"]
    (run w args).code = 1 ∧
      ∃ text, (run w args).errorStream ["loaded", "invalid"] =
          "loaded\ninvalid\n\x7b\n  \"error\": " ++ text ++ "\n\x7d\n" ∧
        Json.readString? text = some "Unknown modifier \"foo\" at line 1 and column 1" := by
  intro w args
  let i : Invocation := ⟨none, true, false, true, some (.build (.words ["foo"]))⟩
  let f : Failure := .formula (.unknownModifier "foo" ⟨1, 1⟩)
  have hread : read args = .ok i := by decide +kernel
  have hfail : (i.answer w).1 = .error f := by
    refine of_map_eq_error (f := Answer.stdout) ?_
    decide +kernel
  obtain ⟨hcode, -, ⟨text, herr, hmessage⟩, -⟩ := run_reports_json (by decide) hread hfail
  have hlog : i.logText ["loaded", "invalid"] = "loaded\ninvalid\n" := by decide
  have hstart : "loaded\ninvalid\n\x7b\n  \"error\": " =
      "loaded\ninvalid\n" ++ "\x7b\n  \"error\": " := by decide
  refine ⟨hcode, text, ?_, hmessage⟩
  rw [herr, hlog, hstart]
  simp only [String.append_assoc]

/-- Where a variable asks for JSON, results are JSON, and yet a failure is reported as a plain line. -/
theorem run_reports_plain :
    let w : World := ⟨⟨[], []⟩, [("BILLING_OUTPUT__JSON", "true")], ⟨"linux", "x86_64"⟩⟩
    let args := ["build", "foo"]
    let i : Invocation := ⟨none, false, false, false, some (.build (.words ["foo"]))⟩
    let f : Failure := .formula (.unknownModifier "foo" ⟨1, 1⟩)
    read args = .ok i ∧
      (∃ ctx, i.context w = .ok ctx ∧ ctx.json = true ∧ (ctx.act i.action).1 = .error f) ∧
      (run w args).code = 1 ∧
      ∀ log, (run w args).errorStream log = "Error: " ++ f.message ++ "\n" := by
  intro w args i f
  have hpath : i.settingsPath w = none := by decide +kernel
  have hload : Config.load w none = .ok ⟨{}, ⟨true⟩⟩ := by decide +kernel
  let ctx : Context := ⟨w, none, ⟨{}, ⟨true⟩⟩, true, false⟩
  have hctx : i.context w = .ok ctx := by
    rw [Invocation.context, hpath, hload]
    rfl
  have hfail : (ctx.act i.action).1 = .error f := by
    refine of_map_eq_error (f := Answer.stdout) ?_
    decide +kernel
  have hanswer : (i.answer w).1 = .error f := by
    rw [Invocation.answer, hctx]
    exact hfail
  have hread : read args = .ok i := by decide +kernel
  obtain ⟨hcode, -, herr⟩ := Invocation.run_of_error hanswer
  rw [run, hread]
  exact ⟨rfl, ⟨ctx, hctx, rfl, hfail⟩, hcode, herr⟩

end Tariff.Command
