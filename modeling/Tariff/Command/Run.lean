/-
  Runs of the program. A run reads its command line, loads the settings and acts; it comes to an exit
  code, what it writes to the two output streams, and the disk as it leaves it. Settings that do not load
  are reported whatever the action is. Results are JSON when the command line or the settings ask for it,
  reports of failures when the command line does. When the command line asks for log lines, they stand on
  standard error in front of the report; they tell times, and what they say is left open.
-/
import Tariff.Command.Help
import Tariff.Command.Line
import Tariff.Config.Discovery
import Tariff.Config.File
import Tariff.Engine.Store

namespace Tariff.Command

open Config (ConfigError)

/-- A line of output. -/
def line (text : String) : String := text ++ "\n"

/-- What a run comes to. Standard error has `stderr` at its end, behind log lines if there are `logs`. -/
structure Outcome where
  code : Nat
  stdout : String
  stderr : String
  logs : Bool
  disk : Disk

/-- All that a run writes to standard error when these lines are logged meanwhile. -/
def Outcome.errorStream (o : Outcome) (log : List String) : String :=
  (if o.logs then String.join (log.map line) else "") ++ o.stderr

/-- What an action answers unless it fails. -/
structure Answer where
  stdout : String
  code : Nat := 0

/-- Why a run fails. -/
inductive Failure
  | config (e : ConfigError)
  | unreadable (path : String) (e : DiskError)
  | formula (e : CompileError)
  | occupied (path : String)
deriving DecidableEq

def Failure.message : Failure → String
  | .config e => e.report
  | .unreadable path e => "failed to read formula file: " ++ path ++ ": " ++ e.message
  | .formula e => e.message
  | .occupied path => path ++ " already exists (use --force to overwrite)"

/-- How a failure is reported. -/
def Failure.report (json : Bool) (f : Failure) : String :=
  if json then (Json.obj [("error", .str f.message)]).text ++ "\n"
  else "Error: " ++ f.message ++ "\n"

/-- What an action works with: the settings, the path they were read from, whether results are JSON, and
    whether to leave out what is not asked for. -/
structure Context where
  world : World
  path : Option String
  settings : Settings
  json : Bool
  quiet : Bool

/-- The number of the version and the name of the build. -/
def versionNumber : String := "0.1.0"

def buildName : String := "dev"

def jsonLines (j : Json) : String := line j.text

/-- The text of a number, right-aligned to three places. -/
def aligned (n : Nat) : String := String.ofList ((Nat.toDigits 10 n).leftpad 3 ' ')

/-- Lines with their numbers in front, unless there is only one. -/
def numbered (texts : List String) : List String :=
  if texts.length > 1 then
    (texts.zipIdx 1).map fun (text, n) => aligned n ++ ". " ++ text
  else texts

namespace Context

/-- Reads formula text. Words are lines. -/
def textOf (ctx : Context) : FormulaText → Except Failure String
  | .words texts => .ok ("\n".intercalate texts)
  | .file path =>
    match ctx.world.disk.readText (Route.ofText path) with
    | .ok text => .ok text
    | .error e => .error (.unreadable path e)

/-- What is shown of formulas. -/
def showFormulas (ctx : Context) (fs : List Formula) : String :=
  if ctx.json then jsonLines (.arr (fs.map Formula.toJson))
  else String.join ((numbered (fs.map Formula.text)).map line)

/-- Builds formulas and shows them. -/
def build (ctx : Context) (t : FormulaText) : Except Failure Answer :=
  match ctx.textOf t with
  | .error f => .error f
  | .ok source =>
    let options := ctx.settings.formula
    match (Store.buildAll options.duplicates source options.newStore).1 with
    | .error e => .error (.formula e)
    | .ok is => .ok ⟨ctx.showFormulas (is.map (·.formula)), 0⟩

/-- What is shown of a source whose first error, if any, has this message. -/
def showVerdict (ctx : Context) (message : Option String) : String :=
  if ctx.json then
    jsonLines (.obj [("error", Json.ofText? message), ("valid", .bool message.isNone)])
  else
    match message with
    | some text => line text
    | none => if ctx.quiet then "" else line "OK"

/-- Looks for the first error of formulas. Finding one makes the exit code 1, but is no failure. -/
def validate (ctx : Context) (t : FormulaText) : Except Failure Answer :=
  match ctx.textOf t with
  | .error f => .error f
  | .ok source =>
    let options := ctx.settings.formula
    let message := (Store.validate options.duplicates source options.newStore).1
    .ok ⟨ctx.showVerdict message, if message.isSome then 1 else 0⟩

/-- Shows the normal form of a text, if it has one. -/
def normalize (ctx : Context) (text : String) : String :=
  let normal := Source.normalize text
  if ctx.json then jsonLines (.obj [("normalized", Json.ofText? normal)])
  else (normal.map line).getD ""

/-- Shows the settings and where they come from. -/
def showSettings (ctx : Context) : String :=
  let s := ctx.settings
  if ctx.json then jsonLines s.toJson
  else
    line ("config file:               " ++ ctx.path.getD "(defaults)")
      ++ line ("formula.cache:             " ++ Settings.flagText s.formula.cache)
      ++ line ("formula.duplicate_addons:  " ++ s.formula.duplicates.name)
      ++ line ("output.json:               " ++ Settings.flagText s.output.json)

/-- What is shown when the settings have been written. -/
def showWritten (ctx : Context) (path : String) : String :=
  if ctx.json then jsonLines (.obj [("path", .str path)])
  else if ctx.quiet then ""
  else line ("Wrote " ++ path)

/-- Writes the settings to a file, over something that is there only by force. -/
def writeSettings (ctx : Context) (path : String) (force : Bool) : Except Failure Answer × Disk :=
  let disk := ctx.world.disk
  if disk.has (Route.ofText path) ∧ force = false then (.error (.occupied path), disk)
  else
    match Config.save disk path ctx.settings with
    | (.ok (), disk) => (.ok ⟨ctx.showWritten path, 0⟩, disk)
    | (.error e, disk) => (.error (.config e), disk)

/-- Shows the version and the platform. -/
def showVersion (ctx : Context) : String :=
  let p := ctx.world.platform
  if ctx.json then
    jsonLines (.obj [("arch", .str p.arch), ("build", .str buildName), ("os", .str p.os),
      ("version", .str versionNumber)])
  else
    line ("billing version " ++ versionNumber ++ " (" ++ buildName ++ ") " ++ p.os ++ "/" ++ p.arch)

/-- Acts; without an action, shows help. Yields the disk as the action leaves it. -/
def act (ctx : Context) : Option Action → Except Failure Answer × Disk
  | none => (.ok ⟨line Level.program.help, 0⟩, ctx.world.disk)
  | some (.build t) => (ctx.build t, ctx.world.disk)
  | some (.validate t) => (ctx.validate t, ctx.world.disk)
  | some (.normalize text) => (.ok ⟨ctx.normalize text, 0⟩, ctx.world.disk)
  | some .showSettings => (.ok ⟨ctx.showSettings, 0⟩, ctx.world.disk)
  | some (.writeSettings path force) => ctx.writeSettings path force
  | some (.complete s) => (.ok ⟨s.script, 0⟩, ctx.world.disk)
  | some .version => (.ok ⟨ctx.showVersion, 0⟩, ctx.world.disk)

end Context

namespace Invocation

/-- The settings file of a run: the one that the command line names, or else the one that is found, as
    long as the working directory is there. -/
def settingsPath (i : Invocation) (w : World) : Option String :=
  match i.config with
  | some path => some path
  | none => if w.disk.hasHere then Config.discover? w "." else none

/-- Loads the settings that a run works with. -/
def context (i : Invocation) (w : World) : Except Failure Context :=
  let path := i.settingsPath w
  match Config.load w path with
  | .error e => .error (.config e)
  | .ok s => .ok ⟨w, path, s, i.json || s.output.json, i.quiet⟩

/-- Loads the settings and acts. -/
def answer (i : Invocation) (w : World) : Except Failure Answer × Disk :=
  match i.context w with
  | .error f => (.error f, w.disk)
  | .ok ctx => ctx.act i.action

/-- Runs an invocation. -/
def run (i : Invocation) (w : World) : Outcome :=
  match i.answer w with
  | (.ok a, disk) => ⟨a.code, a.stdout, "", i.verbose, disk⟩
  | (.error f, disk) => ⟨1, "", f.report i.json, i.verbose, disk⟩

end Invocation

/-- Runs the program with these arguments. -/
def run (w : World) (args : List String) : Outcome :=
  match read args with
  | .ok i => i.run w
  | .error (.help l) => ⟨0, l.help, "", false, w.disk⟩
  | .error (.version l) => ⟨0, line (l.name ++ " " ++ versionNumber), "", false, w.disk⟩
  | .error (.usage e) => ⟨2, "", line ("error: " ++ e.message), false, w.disk⟩

end Tariff.Command
