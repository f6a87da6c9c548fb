/-
  The vocabulary of chains. The head of a chain names a modifier, every further call an addon that the
  modifier knows. An addon reads its one argument into a setting, and every setting fills a slot.
-/
import Tariff.Compile.Error
import Tariff.Formula.Basic
import Tariff.Source.Statement

namespace Tariff

open Source (Call Literal)

/-- The modifiers. -/
inductive Modifier
  | discount | installment
deriving DecidableEq

def Modifier.name : Modifier → String
  | .discount => "discount"
  | .installment => "installment"

def Modifier.ofName? (name : String) : Option Modifier :=
  [Modifier.discount, .installment].find? (·.name = name)

/-- The addons of all modifiers. -/
inductive Addon
  | fixed | lasts | reason | relative | since | till
deriving DecidableEq

def Addon.name : Addon → String
  | .fixed => "fixed"
  | .lasts => "lasts"
  | .reason => "reason"
  | .relative => "relative"
  | .since => "since"
  | .till => "till"

/-- The addons a modifier knows, ordered by name. -/
def Modifier.addons : Modifier → List Addon
  | .discount => [.fixed, .reason, .relative, .since, .till]
  | .installment => [.lasts, .reason, .since, .till]

def Modifier.addon? (m : Modifier) (name : String) : Option Addon :=
  m.addons.find? (·.name = name)

/-- The places of a formula that addons fill. -/
inductive Slot
  | value | term | since | till | reason
deriving DecidableEq

def Slot.name : Slot → String
  | .value => "value"
  | .term => "term"
  | .since => "since"
  | .till => "till"
  | .reason => "reason"

/-- What an addon call sets. -/
inductive Setting
  | value (v : DiscountValue)
  | term (p : Period)
  | since (m : Moment)
  | till (m : Moment)
  | reason (text : String)
deriving DecidableEq

def Setting.slot : Setting → Slot
  | .value _ => .value
  | .term _ => .term
  | .since _ => .since
  | .till _ => .till
  | .reason _ => .reason

/-- The literal of a call that has exactly one. -/
def Source.Call.onlyArg (c : Call) : Except CompileError Literal :=
  match c.args with
  | [l] => .ok l
  | ls => .error (.argumentCount c.name 1 ls.length)

/-- Reads the text `raw` of an argument, or reports it as it stands. -/
def readArg {α : Type} (c : Call) (raw : List Char) (read : List Char → Option α) :
    Except CompileError α :=
  match read raw with
  | some a => .ok a
  | none => .error (.invalidArgument c.name (String.ofList raw))

/-- Reads the trimmed text of a string; other literals are invalid. -/
def readDate (c : Call) (l : Literal) : Except CompileError Moment :=
  match l with
  | .str text =>
    readArg c (Text.trim text.toList) fun raw => (Date.parse? raw).map Moment.midnight
  | other => .error (.invalidArgument c.name other.text)

/-- Reads the trimmed text of a string or a number; other literals are invalid. -/
def readValue (c : Call) (l : Literal) (read : List Char → Option DiscountValue) :
    Except CompileError DiscountValue :=
  match l with
  | .str text | .number text => readArg c (Text.trim text.toList) read
  | other => .error (.invalidArgument c.name other.text)

/-- Reads the text of a string; other literals are invalid. -/
def readTerm (c : Call) (l : Literal) : Except CompileError Period :=
  match l with
  | .str text => readArg c text.toList Period.parse?
  | other => .error (.invalidArgument c.name other.text)

/-- Takes the text of a string as it is; other literals are invalid. -/
def readReason (c : Call) (l : Literal) : Except CompileError String :=
  match l with
  | .str text => .ok text
  | other => .error (.invalidArgument c.name other.text)

/-- What a call of this addon sets. -/
def Addon.read (a : Addon) (c : Call) : Except CompileError Setting := do
  let l ← c.onlyArg
  match a with
  | .fixed => return .value (← readValue c l DiscountValue.parse?)
  | .relative => return .value (← readValue c l DiscountValue.parseRelative?)
  | .lasts => return .term (← readTerm c l)
  | .since => return .since (← readDate c l)
  | .till => return .till (← readDate c l)
  | .reason => return .reason (← readReason c l)

end Tariff
