/-
  Settings from YAML text. A text holds one document, and that is a map, or nothing and then an empty one.
  Of two fields with one key the later one counts. Maps and lists stand in one another 128 deep at most,
  what aliases stand for included, and a text of `n` parts may have aliases followed `100 * n` times.
  Below the root a local tag puts a value under its name, and a map may hold what it stands for in a field.
-/
import Tariff.Config.Yaml.Scan
import Tariff.Config.Yaml.Schema
import Tariff.Config.Yaml.Tree

namespace Tariff.Config.Yaml

/-- How deep maps and lists may stand in one another. -/
def deepest : Nat := 128

/-- How many aliases may be followed for each part of a text. -/
def aliasesPerPart : Nat := 100

namespace Tree

mutual

/-- A tree and all trees in it, in the order in which they start, and others behind them. -/
def innerThen : Tree → List Tree → List Tree
  | .list marks items, ts => .list marks items :: innerOfItems items ts
  | .map marks fields, ts => .map marks fields :: innerOfFields fields ts
  | t, ts => t :: ts

def innerOfItems : List Tree → List Tree → List Tree
  | [], ts => ts
  | item :: items, ts => item.innerThen (innerOfItems items ts)

def innerOfFields : List (Tree × Tree) → List Tree → List Tree
  | [], ts => ts
  | (key, value) :: fields, ts => key.innerThen (value.innerThen (innerOfFields fields ts))

end

def marks : Tree → Marks
  | .scalar m _ _ => m
  | .list m _ => m
  | .map m _ => m
  | .reference _ => {}

/-- The number of parts that a tree adds to those of the trees in it: a map and a list have an end. -/
def parts : Tree → Nat
  | .list .. => 2
  | .map .. => 2
  | _ => 1

end Tree

/-- Trees by the numbers of their anchors. Of two with one number the first counts. -/
abbrev Targets := List (Nat × Tree)

/-- Among trees in the order in which they start, the last one with a number counts. -/
def Targets.ofTrees (ts : List Tree) : Targets :=
  (ts.filterMap fun t => t.marks.number.map (·, t)).reverse

/-- Results that take a number of aliases to follow, of which there are only so many. -/
abbrev Following := StateT Nat Option

/-- What an alias stands for, and any other tree itself. -/
def target (targets : Targets) : Tree → Following Tree
  | .reference number => fun left =>
    if left = 0 then none else (targets.lookup number).map (·, left - 1)
  | t => pure t

/-- The keys that a value is put under. -/
def Marks.path (m : Marks) : List String := ((m.tag.bind Octets.localName?).map keysOfName).getD []

/-- The text of a key, which is a scalar; its tag does not count. -/
def keyText (targets : Targets) (key : Tree) : Following String := do
  match ← target targets key with
  | .scalar _ text _ => return String.ofList text
  | _ => failure

/-- The fields of a map, with their values by `read`. -/
def fieldsBy (targets : Targets) (read : String → Tree → Following Node) (fields : List (Tree × Tree)) :
    Following Fields :=
  fields.foldlM (fun above (key, value) => do
    let key ← keyText targets key
    return above.set key (← read key value)) []

/-- The key in a map of the value that the map stands for. -/
def standInKey : String := "___figment_value_value"

/-- The key in a map of the number that the map has, which is a count and no part of the map. -/
def numberKey : String := "___figment_value_id"

/-- The value of a scalar that is a count and has no name for a tag. -/
def countOf (targets : Targets) (t : Tree) : Following Node := do
  match ← target targets t with
  | .scalar m text plain =>
    if (m.tag.bind Octets.localName?).isNone && (ScalarType.of m.tag plain).isCount text then
      return .text (String.ofList text)
    else failure
  | _ => failure

/-- What a map with some fields stands for. -/
def groupOf (fields : Fields) : Node :=
  (fields.lookup standInKey).getD (.group (fields.filter fun (key, _) => key != numberKey))

/-- The value of a tree, in which maps and lists may still stand so many deep. -/
def valueOf (targets : Targets) : Nat → Tree → Following Node
  | depth, t => do
    match depth, ← target targets t with
    | _, .scalar m text plain =>
      let value ← ((ScalarType.of m.tag plain).value? (String.ofList text) : Option Node)
      return .nest m.path value
    | depth + 1, .list m items =>
      return .nest m.path (.list (← items.mapM (valueOf targets depth)))
    | depth + 1, .map m fields =>
      let read key := if key = numberKey then countOf targets else valueOf targets depth
      return .nest m.path (groupOf (← fieldsBy targets read fields))
    | _, _ => failure

/-- The fields of the map that a whole tree is, whatever its tag. -/
def Tree.fields? (t : Tree) : Option Fields :=
  match t with
  | .map _ fields =>
    let ts := t.innerThen []
    let targets := Targets.ofTrees ts
    let aliases := aliasesPerPart * ts.foldl (fun n t => n + t.parts) 0
    ((fieldsBy targets (fun _ => valueOf targets (deepest - 1)) fields).run aliases).map (·.1)
  | .scalar _ [] true => some []
  | _ => none

/-- The fields that a text describes, `none` when it does not read. -/
def fields? (cs : List Char) : Option Fields := do
  let ts ← tokens? (← Glyph.ofChars? cs)
  (← Tree.ofTokens? ts).fields?

end Tariff.Config.Yaml
