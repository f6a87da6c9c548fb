/-
  Settings on disk. Loaded settings have three layers: the defaults, the file if there is one, and the
  environment. A file that holds anything but a group is invalid, as are settings of the wrong type in
  whatever layer they stand uppermost. The file has to be there, and is then looked for once more: a
  relative path is followed from the root, through the working directory or else through one above it, and
  a file that is not found again counts for nothing.
-/
import Tariff.Config.Discovery
import Tariff.Config.Settings
import Tariff.Config.Yaml
import Tariff.World

namespace Tariff.Config

/-- Why settings cannot be loaded or saved. -/
inductive ConfigError
  | notFound (path : String)
  | invalid
  | unwritten (e : DiskError)
deriving DecidableEq

def ConfigError.message : ConfigError → String
  | .notFound path => "config file not found: " ++ path
  | .invalid => "invalid configuration: a layer does not read or sets a value of the wrong type"
  | .unwritten e => "failed to write config file: " ++ e.message

/-- The message with that of its cause behind it. -/
def ConfigError.report : ConfigError → String
  | .unwritten e => (ConfigError.unwritten e).message ++ ": " ++ e.message
  | e => e.message

/-- The layer that the text of a file makes up. -/
def layerOfText (text : String) : Except ConfigError Node :=
  match Yaml.fields? text.toList with
  | some fields => .ok (.group fields)
  | none => .error .invalid

/-- The routes on which a file is looked for. A relative one leads through the working directory, if that
    is there, and then through the directories above it. -/
def routes (d : Disk) (r : Route) : List Route :=
  if r.isAbsolute then [r]
  else if d.hasHere then (upwards d.here).map r.below
  else []

/-- The text of the file at a path, if it is found again on one of its routes. -/
def fileText? (d : Disk) (path : String) : Except ConfigError (Option String) :=
  let r := Route.ofText path
  if d.isFile r then .ok (((routes d r).find? d.isFile).bind fun r => (d.readText r).toOption)
  else .error (.notFound path)

/-- The settings that the text of a file makes, if there is one, over the defaults and under the
    environment. -/
def settings (env : Environment) (text : Option String) : Except ConfigError Settings :=
  match (text.map layerOfText).getD (.ok (.group [])) with
  | .error e => .error e
  | .ok file =>
    let layers := ((Settings.toNode {}).merge file).merge env.layer
    match Settings.ofNode? .ignored layers with
    | some s => .ok s
    | none => .error .invalid

/-- Loads the settings of the file at a path, or of no file. -/
def load (w : World) : Option String → Except ConfigError Settings
  | none => settings w.environment none
  | some path =>
    match fileText? w.disk path with
    | .error e => .error e
    | .ok text => settings w.environment text

/-- Writes settings to the file at a path, whose directory is made if need be. -/
def write (d : Disk) (path : String) (s : Settings) : Except DiskError Unit × Disk :=
  let r := Route.ofText path
  match d.makeDirectories (r.parent?.getD []) with
  | (.ok (), d) => d.settle (d.writeText r s.toYaml)
  | failed => failed

/-- Saves settings to the file at a path. -/
def save (d : Disk) (path : String) (s : Settings) : Except ConfigError Unit × Disk :=
  match write d path s with
  | (.ok (), d) => (.ok (), d)
  | (.error e, d) => (.error (.unwritten e), d)

end Tariff.Config
