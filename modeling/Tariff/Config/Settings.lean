/-
  The settings of the program: how formulas are compiled, and how output looks. They can be read from a
  layer, turned into one, and written as YAML or JSON.
-/
import Tariff.Config.Node
import Tariff.Engine.Store

namespace Tariff

open Config (Node Surplus)

/-- Reads the settings of an engine; what is not set has its default. -/
def EngineOptions.ofNode? (s : Surplus) (n : Node) : Option EngineOptions := do
  let standard : EngineOptions := {}
  let cache ← n.read? 0 "cache" standard.cache Node.flag?
  let duplicates ← n.read? 1 "duplicate_addons" standard.duplicates fun v =>
    (v.choice? s).bind DuplicatePolicy.ofName?
  if n.fits s 2 then some ⟨cache, duplicates⟩ else none

def EngineOptions.toNode (o : EngineOptions) : Node :=
  .group [("cache", .flag o.cache), ("duplicate_addons", .text o.duplicates.name)]

def EngineOptions.toJson (o : EngineOptions) : Json :=
  .obj [("cache", .bool o.cache), ("duplicate_addons", .str o.duplicates.name)]

/-- How output looks. -/
structure OutputOptions where
  json : Bool := false
deriving DecidableEq

def OutputOptions.ofNode? (s : Surplus) (n : Node) : Option OutputOptions := do
  let json ← n.read? 0 "json" false Node.flag?
  if n.fits s 1 then some ⟨json⟩ else none

structure Settings where
  formula : EngineOptions := {}
  output : OutputOptions := {}
deriving DecidableEq

namespace Settings

def ofNode? (s : Surplus) (n : Node) : Option Settings := do
  let formula ← n.read? 0 "formula" {} (EngineOptions.ofNode? s)
  let output ← n.read? 1 "output" {} (OutputOptions.ofNode? s)
  if n.fits s 2 then some ⟨formula, output⟩ else none

def toNode (s : Settings) : Node :=
  .group [("formula", s.formula.toNode), ("output", .group [("json", .flag s.output.json)])]

def toJson (s : Settings) : Json :=
  .obj [("formula", s.formula.toJson), ("output", .obj [("json", .bool s.output.json)])]

/-- The text of a flag. -/
def flagText (b : Bool) : String := if b then "true" else "false"

/-- The settings as YAML, the form in which they are saved. -/
def toYaml (s : Settings) : String :=
  "formula:\n  cache: " ++ flagText s.formula.cache
    ++ "\n  duplicate_addons: " ++ s.formula.duplicates.name
    ++ "\noutput:\n  json: " ++ flagText s.output.json ++ "\n"

end Settings

end Tariff
