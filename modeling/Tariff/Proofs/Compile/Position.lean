/-
  Positions and compilation. Moving a statement moves the positions in the error it compiles to and
  changes nothing else; in particular the formula is the same wherever the statement stands.
-/
import Tariff.Compile.Chain
import Tariff.Proofs.Except
import Tariff.Proofs.Source.Grammar

namespace Tariff

open Source (Call Literal Pos Statement)

/-- The error with its positions moved. -/
def CompileError.relocate (f : Pos → Pos) : CompileError → CompileError
  | .emptyFormula => .emptyFormula
  | .parse e => .parse { e with pos := f e.pos }
  | .unknownModifier name pos => .unknownModifier name (f pos)
  | .unknownAddon modifier name pos => .unknownAddon modifier name (f pos)
  | .argumentCount call expected found => .argumentCount call expected found
  | .invalidArgument call raw => .invalidArgument call raw
  | .duplicateAddon name pos => .duplicateAddon name (f pos)
  | .unexpectedResult printed => .unexpectedResult printed

variable (f : Pos → Pos)

/-! ## Arguments name no position -/

theorem onlyArg_mapError (c : Call) : c.onlyArg.mapError (·.relocate f) = c.onlyArg := by
  unfold Source.Call.onlyArg
  split <;> rfl

theorem readArg_mapError {α : Type} (c : Call) (raw : List Char) (read : List Char → Option α) :
    (readArg c raw read).mapError (·.relocate f) = readArg c raw read := by
  unfold readArg
  split <;> rfl

theorem readDate_mapError (c : Call) (l : Literal) :
    (readDate c l).mapError (·.relocate f) = readDate c l := by
  unfold readDate
  split
  · exact readArg_mapError f c _ _
  · rfl

theorem readValue_mapError (c : Call) (l : Literal) (read : List Char → Option DiscountValue) :
    (readValue c l read).mapError (·.relocate f) = readValue c l read := by
  unfold readValue
  split
  · exact readArg_mapError f c _ _
  · exact readArg_mapError f c _ _
  · rfl

theorem readTerm_mapError (c : Call) (l : Literal) :
    (readTerm c l).mapError (·.relocate f) = readTerm c l := by
  unfold readTerm
  split
  · exact readArg_mapError f c _ _
  · rfl

theorem readReason_mapError (c : Call) (l : Literal) :
    (readReason c l).mapError (·.relocate f) = readReason c l := by
  unfold readReason
  split <;> rfl

theorem Addon.read_mapError (a : Addon) (c : Call) :
    (a.read c).mapError (·.relocate f) = a.read c := by
  unfold Addon.read
  rw [mapError_bind, onlyArg_mapError]
  congr
  funext l
  cases a
  case fixed => dsimp only; rw [mapError_bind, readValue_mapError]; rfl
  case lasts => dsimp only; rw [mapError_bind, readTerm_mapError]; rfl
  case reason => dsimp only; rw [mapError_bind, readReason_mapError]; rfl
  case relative => dsimp only; rw [mapError_bind, readValue_mapError]; rfl
  case since => dsimp only; rw [mapError_bind, readDate_mapError]; rfl
  case till => dsimp only; rw [mapError_bind, readDate_mapError]; rfl

theorem Addon.read_relocate (a : Addon) (c : Call) : a.read (c.relocate f) = a.read c := by
  cases a <;> rfl

/-! ## Chains -/

theorem Draft.apply_relocate (policy : DuplicatePolicy) (d : Draft) (c : Call) (s : Setting) :
    d.apply policy (c.relocate f) s = (d.apply policy c s).mapError (·.relocate f) := by
  unfold Draft.apply
  split <;> rfl

theorem Draft.call_relocate (policy : DuplicatePolicy) (m : Modifier) (d : Draft) (c : Call) :
    d.call policy m (c.relocate f) = (d.call policy m c).mapError (·.relocate f) := by
  unfold Draft.call
  rw [show (c.relocate f).name = c.name from rfl]
  cases m.addon? c.name with
  | none => rfl
  | some addon =>
    have herror := addon.read_mapError f c
    dsimp only
    rw [addon.read_relocate f c]
    cases hread : addon.read c with
    | error e =>
      rw [hread] at herror
      have he : e.relocate f = e := Except.error.inj herror
      show Except.error e = Except.error (e.relocate f)
      rw [he]
    | ok setting => exact d.apply_relocate f policy c setting

theorem Draft.calls_relocate (policy : DuplicatePolicy) (m : Modifier) (d : Draft)
    (cs : List Call) :
    d.calls policy m (cs.map (·.relocate f)) = (d.calls policy m cs).mapError (·.relocate f) := by
  induction cs generalizing d with
  | nil => rfl
  | cons c cs ih =>
    rw [List.map_cons, Draft.calls, Draft.calls, Draft.call_relocate]
    cases d.call policy m c with
    | error e => rfl
    | ok d' => exact ih d'

theorem readHead_relocate (head : Call) :
    readHead (head.relocate f) = (readHead head).mapError (·.relocate f) := by
  unfold readHead
  rw [show (head.relocate f).name = head.name from rfl,
    show (head.relocate f).args = head.args from rfl]
  split
  · rfl
  · split <;> rfl

theorem Draft.finish_mapError (d : Draft) (m : Modifier) :
    (d.finish m).mapError (·.relocate f) = d.finish m := by
  cases m with
  | discount =>
    unfold Draft.finish
    dsimp only
    split <;> rfl
  | installment => rfl

/-- Moving a statement moves the positions in its error and leaves its formula as it is. -/
theorem compile_relocate (policy : DuplicatePolicy) (s : Statement) :
    compile policy (s.relocate f) = (compile policy s).mapError (·.relocate f) := by
  cases s with
  | literal value pos => rfl
  | chain head rest =>
    show compileChain policy (head.relocate f) (rest.map (·.relocate f)) =
      (compileChain policy head rest).mapError (·.relocate f)
    unfold compileChain
    rw [readHead_relocate]
    cases readHead head with
    | error e => rfl
    | ok m =>
      dsimp only [Except.mapError]
      rw [Draft.calls_relocate]
      cases Draft.calls policy m {} rest with
      | error e => rfl
      | ok d => exact (d.finish_mapError f m).symm

end Tariff
