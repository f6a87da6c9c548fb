/-
  From statements to formulas. The calls of a chain are taken from left to right and fill the slots of a
  draft; a policy says what a second call for a slot does. The first call that fails decides.
-/
import Tariff.Compile.Addon

namespace Tariff

open Source (Call Pos Statement)

/-- What a second call for one slot does: it wins, or the chain is refused. -/
inductive DuplicatePolicy
  | lastWins | reject
deriving DecidableEq

def DuplicatePolicy.name : DuplicatePolicy → String
  | .lastWins => "last-wins"
  | .reject => "reject"

def DuplicatePolicy.ofName? (name : String) : Option DuplicatePolicy :=
  [DuplicatePolicy.lastWins, .reject].find? (·.name = name)

/-- A formula in the making: the slots filled so far. -/
structure Draft where
  value : Option DiscountValue := none
  term : Option Period := none
  since : Option Moment := none
  till : Option Moment := none
  reason : Option String := none
deriving DecidableEq

namespace Draft

/-- Whether a slot is filled. -/
def filled (d : Draft) : Slot → Bool
  | .value => d.value.isSome
  | .term => d.term.isSome
  | .since => d.since.isSome
  | .till => d.till.isSome
  | .reason => d.reason.isSome

/-- Fills the slot of a setting. -/
def set (d : Draft) : Setting → Draft
  | .value v => { d with value := some v }
  | .term p => { d with term := some p }
  | .since m => { d with since := some m }
  | .till m => { d with till := some m }
  | .reason r => { d with reason := some r }

/-- Fills the slot of a setting that the call `c` made, as the policy allows. -/
def apply (policy : DuplicatePolicy) (d : Draft) (c : Call) (s : Setting) : Except CompileError Draft :=
  if d.filled s.slot ∧ policy = .reject then .error (.duplicateAddon c.name c.pos)
  else .ok (d.set s)

/-- The formula of a finished draft. A discount needs a value; slots that the modifier has no place for
    are left out. -/
def finish (d : Draft) : Modifier → Except CompileError Formula
  | .discount =>
    match d.value with
    | some v => .ok (.discount v ⟨d.since, d.till, d.reason⟩)
    | none => .error (.unexpectedResult Modifier.discount.name)
  | .installment => .ok (.installment d.term ⟨d.since, d.till, d.reason⟩)

end Draft

/-- Takes one addon call into a draft. -/
def Draft.call (policy : DuplicatePolicy) (m : Modifier) (d : Draft) (c : Call) :
    Except CompileError Draft :=
  match m.addon? c.name with
  | none => .error (.unknownAddon m.name c.name c.pos)
  | some addon =>
    match addon.read c with
    | .error e => .error e
    | .ok setting => d.apply policy c setting

/-- Takes addon calls into a draft, from left to right. -/
def Draft.calls (policy : DuplicatePolicy) (m : Modifier) (d : Draft) :
    List Call → Except CompileError Draft
  | [] => .ok d
  | c :: cs =>
    match d.call policy m c with
    | .error e => .error e
    | .ok d => d.calls policy m cs

/-- The modifier that the head of a chain names; a head takes no arguments. -/
def readHead (head : Call) : Except CompileError Modifier :=
  match Modifier.ofName? head.name with
  | none => .error (.unknownModifier head.name head.pos)
  | some m =>
    if head.args.isEmpty then .ok m else .error (.argumentCount head.name 0 head.args.length)

/-- The formula of a chain. -/
def compileChain (policy : DuplicatePolicy) (head : Call) (rest : List Call) :
    Except CompileError Formula :=
  match readHead head with
  | .error e => .error e
  | .ok m =>
    match Draft.calls policy m {} rest with
    | .error e => .error e
    | .ok d => d.finish m

/-- The formula of a statement. A bare literal is none. -/
def compile (policy : DuplicatePolicy) : Statement → Except CompileError Formula
  | .literal value _ => .error (.unexpectedResult value.text)
  | .chain head rest => compileChain policy head rest

end Tariff
