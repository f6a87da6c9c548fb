/-
  The engine: source in, instances out. A store is a cache with the serial of the next instance. What is
  built is looked up under its normal form first; only what is missing is compiled, and only what
  compiles is kept. A batch is built line by line and stops at the first line that fails; the lines
  before it stay in the cache.
-/
import Tariff.Compile.Chain
import Tariff.Engine.Cache
import Tariff.Source.NormalForm
import Tariff.Source.Program

namespace Tariff

open Source

structure Store where
  cache : Cache
  nextSerial : Nat

/-- The settings of an engine. -/
structure EngineOptions where
  cache : Bool := true
  duplicates : DuplicatePolicy := .lastWins
deriving DecidableEq

/-- A store without entries, with a memory or not. -/
def EngineOptions.newStore (o : EngineOptions) : Store :=
  ⟨if o.cache then .empty else .absent, 0⟩

/-- The formula of a text that holds one statement. -/
def compileText (policy : DuplicatePolicy) (text : List Char) : Except CompileError Formula :=
  match parseStatement text with
  | .error e => .error (.parse e)
  | .ok statement => compile policy statement

namespace Store

/-- Makes an instance of a formula. -/
def mint (s : Store) (f : Formula) : Instance × Store :=
  (⟨s.nextSerial, f⟩, { s with nextSerial := s.nextSerial + 1 })

/-- Offers an instance to the cache; returns the one that the key has now. -/
def keep (s : Store) (key : String) (i : Instance) : Instance × Store :=
  let (kept, cache) := s.cache.insert key i
  (kept, { s with cache := cache })

/-- The instance under a key, or else a new one of what its source compiles to. -/
def fetch (s : Store) (key : String) (compiled : Except CompileError Formula) :
    Except CompileError Instance × Store :=
  match s.cache.get? key with
  | some i => (.ok i, s)
  | none =>
    match compiled with
    | .error e => (.error e, s)
    | .ok f =>
      let (i, s) := s.mint f
      let (i, s) := s.keep key i
      (.ok i, s)

/-- Builds the one formula of a source. -/
def build (policy : DuplicatePolicy) (source : String) (s : Store) :
    Except CompileError Instance × Store :=
  match normalForm? source.toList with
  | none => (.error .emptyFormula, s)
  | some text => s.fetch (String.ofList text) (compileText policy text)

/-- Builds a statement that stands on one of `lines`. The line is its key; a statement on no line is
    built past the cache. -/
def buildStatement (policy : DuplicatePolicy) (lines : List (List Char)) (st : Statement) (s : Store) :
    Except CompileError Instance × Store :=
  match lines[st.pos.line - 1]? with
  | some line => s.fetch (String.ofList line) (compile policy st)
  | none =>
    match compile policy st with
    | .error e => (.error e, s)
    | .ok f =>
      let (i, s) := s.mint f
      (.ok i, s)

/-- Builds statements in order up to the first that fails. -/
def buildStatements (policy : DuplicatePolicy) (lines : List (List Char)) :
    List Statement → Store → Except CompileError (List Instance) × Store
  | [], s => (.ok [], s)
  | st :: sts, s =>
    match s.buildStatement policy lines st with
    | (.error e, s) => (.error e, s)
    | (.ok i, s) =>
      match buildStatements policy lines sts s with
      | (.error e, s) => (.error e, s)
      | (.ok is, s) => (.ok (i :: is), s)

/-- Builds all statements of a text. -/
def buildText (policy : DuplicatePolicy) (text : List Char) (s : Store) :
    Except CompileError (List Instance) × Store :=
  match parse text with
  | .error e => (.error (.parse e), s)
  | .ok sts => buildStatements policy (Text.lines text) sts s

/-- Builds all formulas of a source, one for each line of its normal form. -/
def buildAll (policy : DuplicatePolicy) (source : String) (s : Store) :
    Except CompileError (List Instance) × Store :=
  match normalForm? source.toList with
  | none => (.error .emptyFormula, s)
  | some text => s.buildText policy text

/-- The message of the first error in a source, `none` when all of it builds. A source without text
    ends too early. -/
def validate (policy : DuplicatePolicy) (source : String) (s : Store) : Option String × Store :=
  match s.buildText policy ((normalForm? source.toList).getD []) with
  | (.error e, s) => (some e.message, s)
  | (.ok _, s) => (none, s)

end Store

end Tariff
