/-
  Where the settings file is: at the path that a variable names, as long as there is a file, or else in
  the nearest directory, from some start upwards, that holds a file of the usual name.
-/
import Tariff.World

namespace Tariff.Config

/-- The usual name of the settings file. -/
def fileName : String := "billing.yaml"

/-- The variable that names the settings file. -/
def fileVariable : String := "BILLING_CONFIG"

/-- A place, then those above it up to the root. -/
def upwards (l : Location) : List Location :=
  (List.range (l.length + 1)).map fun k => l.take (l.length - k)

/-- The path in the variable, provided that it leads to a file. -/
def namedFile? (w : World) : Option String :=
  (w.environment.lookup fileVariable).filter fun path => w.disk.isFile (Route.ofText path)

/-- The path of the file of the usual name in a directory. -/
def pathIn (dir : Location) : String := Location.text (dir ++ [fileName])

/-- The path of the nearest file of the usual name, from what a route leads to upwards. Nothing is found
    from a place whose own path is too long. -/
def nearestFile? (d : Disk) (start : Route) : Option String :=
  match d.find start with
  | .ok (l, _) =>
    if Route.pathLimit < l.text.utf8ByteSize then none
    else ((upwards l).map pathIn).find? fun path => d.isFile (Route.ofText path)
  | .error _ => none

/-- The path of the settings file for a start. -/
def discover? (w : World) (start : String) : Option String :=
  match namedFile? w with
  | some path => some path
  | none => nearestFile? w.disk (Route.ofText start)

end Tariff.Config
