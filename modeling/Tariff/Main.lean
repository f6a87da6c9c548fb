/-
  The program. What a run may look at is read off the real disk first; what the run changed is written
  back to it afterwards. Nothing is logged.
-/
import Tariff.Command.Run

namespace Tariff

open Command

/-- The paths that an invocation names. -/
def Command.Invocation.paths (i : Invocation) : List String :=
  i.config.toList ++ match i.action with
    | some (.build (.file path)) => [path]
    | some (.validate (.file path)) => [path]
    | some (.writeSettings path _) => [path]
    | _ => []

/-- The places that a route may pass, seen from a working directory. -/
def Route.places (here : Location) (r : Route) : List Location :=
  let go (l : Location) (name : String) : Location :=
    if name = "" ∨ name = "." then l else if name = ".." then l.dropLast else l ++ [name]
  let places (start : Location) (names : List String) : List Location :=
    (List.range (names.length + 1)).map fun k => (names.take k).foldl go start
  match r with
  | "" :: names => places [] names
  | names => places here names

/-- The places that a run may look at. -/
def placesOf (here : Location) (environment : Config.Environment) (args : List String) :
    List Location :=
  let named := match read args with
    | .ok i => i.paths
    | .error _ => []
  let byVariable := (environment.lookup Config.fileVariable).toList
  let found := (Config.upwards here).flatMap fun l => [l, l ++ [Config.fileName]]
  let routes := (named ++ byVariable).flatMap fun path =>
    let r := Route.ofText path
    if r.isAbsolute then [r] else r :: (Config.upwards here).map r.below
  (found ++ routes.flatMap fun r => r.places here).eraseDups

/-- What stands at a place of the real disk. -/
def look (l : Location) : IO (Option Entry) := do
  try
    return some (.file (← IO.FS.readFile l.text))
  catch
    | .inappropriateType _ 21 _ => return some .directory
    | _ => return none

/-- The parts of the real disk at these places. -/
def snapshot (here : Location) (places : List Location) : IO Disk := do
  let entries ← places.filterMapM fun l => do
    return (← look l).map fun e => (l, e)
  return ⟨entries, here⟩

/-- Brings the real disk from the first state to the second. -/
def writeBack (before after : Disk) : IO Unit := do
  for (l, e) in after.entries.reverse do
    unless before.entries.contains (l, e) do
      match e with
      | .directory => IO.FS.createDirAll l.text
      | .file text => IO.FS.writeFile l.text text

/-- The environment of the process. -/
def processEnvironment : IO Config.Environment := do
  let text ← IO.FS.readFile "/proc/self/environ"
  return (Text.parts (· == '\x00') text.toList).filterMap fun cs =>
    if cs.isEmpty then none
    else some (String.ofList (cs.takeWhile (· ≠ '=')),
      String.ofList ((cs.dropWhile (· ≠ '=')).drop 1))

/-- A line that the system says about itself. -/
def systemName (path : String) : IO String := do
  try
    return String.ofList ((Text.trim (← IO.FS.readFile path).toList).map Char.toLower)
  catch _ => return "unknown"

end Tariff

open Tariff in
def main (args : List String) : IO UInt32 := do
  let here := (Route.ofText (← IO.currentDir).toString).filter (· ≠ "")
  let environment ← processEnvironment
  let platform : Platform :=
    ⟨← systemName "/proc/sys/kernel/ostype", ← systemName "/proc/sys/kernel/arch"⟩
  let disk ← snapshot here (placesOf here environment args)
  let outcome := Command.run ⟨disk, environment, platform⟩ args
  writeBack disk outcome.disk
  IO.print outcome.stdout
  IO.eprint outcome.stderr
  return UInt32.ofNat outcome.code
