/-
  Layers of settings. A layer is a tree of groups, lists, texts and flags, whatever it was read from; a
  number is kept as its text, since no setting is a number. A later layer is merged over an earlier one
  key by key, and anything but a group replaces what was there.
-/
namespace Tariff.Config

inductive Node
  | nothing
  | flag (b : Bool)
  | text (s : String)
  | list (items : List Node)
  | group (fields : List (String × Node))
deriving Inhabited

/-- Fields with distinct keys. -/
abbrev Fields := List (String × Node)

/-- Sets a field, in the place of an earlier one with its key if there is one. -/
def Fields.set (key : String) (value : Node) : Fields → Fields
  | [] => [(key, value)]
  | (k, v) :: fields => if k = key then (k, value) :: fields else (k, v) :: set key value fields

/-- Whether more may stand in a list or a choice than its reader asks for. -/
inductive Surplus
  | ignored | refused
deriving DecidableEq

namespace Node

mutual

/-- The second layer over the first. -/
def merge : Node → Node → Node
  | .group below, .group above =>
    .group (mergeFields below above ++ above.filter fun (k, _) => (below.lookup k).isNone)
  | _, above => above

/-- The fields of the lower layer with what the upper one makes of them. -/
def mergeFields : List (String × Node) → List (String × Node) → List (String × Node)
  | [], _ => []
  | (k, v) :: below, above =>
    (k, match above.lookup k with
      | some w => merge v w
      | none => v) :: mergeFields below above

end

/-- The node that a path of keys leads to, as a tree of groups. -/
def nest (path : List String) (leaf : Node) : Node :=
  path.foldr (fun key inner => .group [(key, inner)]) leaf

/-- Whether a list has no more items than a reader asks for, or may have them. -/
def fits (s : Surplus) (count : Nat) : Node → Bool
  | .list items => s = .ignored || items.length ≤ count
  | _ => true

/-- The entry of a group by its key. A list gives the entries of a group in order. `none` when there
    are no entries to look among. -/
def item? (position : Nat) (key : String) : Node → Option (Option Node)
  | .group fields => some (fields.lookup key)
  | .list items => some items[position]?
  | _ => none

/-- Reads an entry, or takes the default when it is not there. -/
def read? {α : Type} (n : Node) (position : Nat) (key : String) (default : α)
    (read : Node → Option α) : Option α :=
  match n.item? position key with
  | none => none
  | some none => some default
  | some (some v) => read v

def flag? : Node → Option Bool
  | .flag b => some b
  | _ => none

/-- The field whose key comes first by code points. -/
def firstField? (fields : Fields) : Option (String × Node) :=
  fields.foldl (fun first field =>
    match first with
    | none => some field
    | some f => if field.1 < f.1 then some field else some f) none

/-- The name of a choice: a text, or the first key of a group, which has nothing as its value. -/
def choice? (s : Surplus) : Node → Option String
  | .text name => some name
  | .group fields =>
    match firstField? fields with
    | some (name, .nothing) => if s = .refused ∧ 1 < fields.length then none else some name
    | _ => none
  | _ => none

end Node

end Tariff.Config
