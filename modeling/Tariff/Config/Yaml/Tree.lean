/-
  From the tokens of a YAML text to the tree of its one document. Anchors are numbered while they are read
  and aliases hold the numbers, so that what they stand for can be looked up in the whole tree.
-/
import Tariff.Config.Yaml.Token

namespace Tariff.Config.Yaml

/-- What stands in front of a value: its tag, and the number of its anchor. -/
structure Marks where
  tag : Option Octets := none
  number : Option Nat := none
deriving DecidableEq

/-- A value as it is written. -/
inductive Tree
  | scalar (marks : Marks) (text : List Char) (plain : Bool)
  | list (marks : Marks) (items : List Tree)
  | map (marks : Marks) (fields : List (Tree × Tree))
  | reference (number : Nat)

/-- Nothing, where a value might stand. -/
def Tree.void : Tree := .scalar {} [] true

/-- What a reader of tokens works on. -/
structure Pending where
  tokens : List Token
  /-- The names of anchors with their numbers, each name once. -/
  names : List (List Char × Nat) := []
  /-- The handles of tags with what they stand for, the one that counts first. -/
  handles : List (List Char × Octets)

/-- Readers of tokens. -/
abbrev Reader := StateT Pending Option

namespace Reader

/-- The next token. -/
def peek : Reader (Option Token) := return (← get).tokens.head?

def skip : Reader Unit := modify fun p => { p with tokens := p.tokens.drop 1 }

/-- Whether the next token is one of some tokens. -/
def nextIn (ts : List Token) : Reader Bool := return (← peek).any ts.contains

/-- Whether the next token is a given one, which is skipped then. -/
def accept (t : Token) : Reader Bool := do
  if ← nextIn [t] then
    skip
    return true
  else return false

def expect (t : Token) : Reader Unit := do
  if !(← accept t) then failure

/-- Numbers an anchor by how many names there are. A name that comes again gets a new number, and keeps
    its one place among the names. -/
def number (name : List Char) : Reader Nat := do
  let names := (← get).names
  let n := names.length
  modify fun p => { p with names := (name, n) :: names.filter (·.1 != name) }
  return n

/-- The number of the anchor that an alias names. -/
def numberOf (name : List Char) : Reader Nat := do
  match (← get).names.lookup name with
  | some n => return n
  | none => failure

/-- What a tag stands for, with the meaning of its handle in front. -/
def meaning (t : Tag) : Reader Octets := do
  if t.handle.isEmpty then return t.suffix
  match (← get).handles.lookup t.handle with
  | some meaning => return meaning ++ t.suffix
  | none => failure

/-- Reads an anchor if there is one. -/
def anchor? : Reader (Option Nat) := do
  match ← peek with
  | some (.anchor name) =>
    skip
    return some (← number name)
  | _ => return none

/-- Reads a tag if there is one. -/
def tag? : Reader (Option Octets) := do
  match ← peek with
  | some (.tag t) =>
    skip
    return some (← meaning t)
  | _ => return none

/-- Reads an anchor and a tag, in whatever order. -/
def marks : Reader Marks := do
  match ← anchor? with
  | some n => return ⟨← tag?, some n⟩
  | none =>
    let tag ← tag?
    return ⟨tag, ← anchor?⟩

mutual

/-- Reads a value. In a block it may be a block itself, and as a key or below one it may be a list whose
    dashes stand in the column of the key. The first argument bounds the steps. -/
def tree : Nat → (inBlock belowKey : Bool) → Reader Tree
  | 0, _, _ => failure
  | fuel + 1, inBlock, belowKey => do
    match ← peek with
    | some (.reference name) =>
      skip
      return .reference (← numberOf name)
    | _ =>
      let m ← marks
      match inBlock, belowKey, ← peek with
      | _, true, some .dash => return .list m (← dashes fuel)
      | _, _, some (.scalar text plain) =>
        skip
        return .scalar m text plain
      | _, _, some .flowList =>
        skip
        return .list m (← items fuel true)
      | _, _, some .flowMap =>
        skip
        return .map m (← entries fuel true)
      | true, _, some .blockList =>
        skip
        let read ← dashes fuel
        expect .blockEnd
        return .list m read
      | true, _, some .blockMap =>
        skip
        return .map m (← fields fuel)
      | _, _, _ => if m = {} then failure else return .scalar m [] true

/-- Reads a value in a block, or nothing when one of some tokens follows. -/
def treeUnless : Nat → (belowKey : Bool) → List Token → Reader Tree
  | 0, _, _ => failure
  | fuel + 1, belowKey, ends => do
    if ← nextIn ends then return .void else tree fuel true belowKey

/-- Reads a value in a flow collection, or nothing when one of some tokens follows. -/
def flowUnless : Nat → List Token → Reader Tree
  | 0, _ => failure
  | fuel + 1, ends => do
    if ← nextIn ends then return .void else tree fuel false false

/-- Reads items behind dashes. -/
def dashes : Nat → Reader (List Tree)
  | 0 => failure
  | fuel + 1 => do
    if ← accept .dash then
      let item ← treeUnless fuel false [.dash, .key, .value, .blockEnd]
      return item :: (← dashes fuel)
    else return []

/-- Reads the fields of a block map and its end. -/
def fields : Nat → Reader (List (Tree × Tree))
  | 0 => failure
  | fuel + 1 => do
    if ← accept .blockEnd then return []
    expect .key
    let key ← treeUnless fuel true [.key, .value, .blockEnd]
    let value ←
      if ← accept .value then treeUnless fuel true [.key, .value, .blockEnd] else pure .void
    return (key, value) :: (← fields fuel)

/-- Reads the items of a flow list and its end. -/
def items : Nat → (first : Bool) → Reader (List Tree)
  | 0, _ => failure
  | fuel + 1, first => do
    if ← accept .flowListEnd then return []
    if !first then expect .comma
    if ← accept .flowListEnd then return []
    let item ← if ← accept .key then pair fuel else tree fuel false false
    return item :: (← items fuel false)

/-- Reads a map of one field that is an item of a flow list, behind the mark of its key. Where there is
    no key, the token that shows it is lost. -/
def pair : Nat → Reader Tree
  | 0 => failure
  | fuel + 1 => do
    let ends := [.comma, .flowListEnd]
    let keyless ← nextIn (.value :: ends)
    let key ← flowUnless fuel (.value :: ends)
    if keyless then skip
    let value ← if ← accept .value then flowUnless fuel ends else pure .void
    return .map {} [(key, value)]

/-- Reads the entries of a flow map and its end. -/
def entries : Nat → (first : Bool) → Reader (List (Tree × Tree))
  | 0, _ => failure
  | fuel + 1, first => do
    if ← accept .flowMapEnd then return []
    if !first then expect .comma
    if ← accept .flowMapEnd then return []
    let ends := [.comma, .flowMapEnd]
    let marked ← accept .key
    let key ← if marked then flowUnless fuel (.value :: ends) else tree fuel false false
    let hasValue ← if marked then accept .value else pure false
    let value ← if hasValue then flowUnless fuel ends else pure .void
    return (key, value) :: (← entries fuel false)

end

/-- What handles stand for unless a directive tells otherwise. -/
def usualHandles : List (List Char × Octets) :=
  [(['!'], asciiOctets ['!']), (['!', '!'], asciiOctets "tag:yaml.org,2002:".toList)]

/-- Reads the directives in front of a document, and tells whether there are any. The version comes once
    and is 1.1 or 1.2, and no handle comes twice. The flag tells whether there has been a version. -/
def directives : Nat → (versioned : Bool) → Reader Bool
  | 0, _ => failure
  | fuel + 1, versioned => do
    match ← peek with
    | some (.version major minor) =>
      if versioned || major != 1 || !(minor = 1 || minor = 2) then failure
      skip
      let _ ← directives fuel true
      return true
    | some (.handle handle meaning) =>
      let handles := (← get).handles
      if (handles.lookup handle).isSome then failure
      modify fun p => { p with handles := handles ++ [(handle, meaning)] }
      skip
      let _ ← directives fuel versioned
      return true
    | _ =>
      modify fun p => { p with handles := p.handles ++ usualHandles }
      return false

/-- Reads a whole text. A document has a marker in front if it has directives, and only marks of its end
    may follow it. A text without a document holds nothing. -/
def text (fuel : Nat) : Reader Tree := do
  if (← peek).isNone then return .void
  let directed ← directives fuel false
  let marked ← accept .documentStart
  if directed && !marked then failure
  let ended := (← peek).isNone || (← nextIn [.documentEnd])
  let root ← if marked && ended then pure Tree.void else tree fuel true false
  if (← get).tokens.all (· = .documentEnd) then return root else failure

end Reader

/-- The tree of a text by its tokens. -/
def Tree.ofTokens? (ts : List Token) : Option Tree :=
  ((Reader.text (4 * ts.length + 4)).run ⟨ts, [], []⟩).map (·.1)

end Tariff.Config.Yaml
