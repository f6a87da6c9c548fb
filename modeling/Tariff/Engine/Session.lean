/-
  Sessions: several engines at work on several caches, which they may share. A step addresses an engine
  or a cache by its number and yields a reply. Serials run through the whole session, so instances can
  be told apart wherever they come from; `Roster` renumbers them in the order in which they are shown.
-/
import Tariff.Engine.Store

namespace Tariff

/-- An engine works on the cache of this number. -/
structure Engine where
  cache : Nat
  options : EngineOptions

structure Session where
  engines : List Engine
  caches : List Cache
  nextSerial : Nat := 0

namespace Session

/-- What can be asked for. -/
inductive Step
  | build (engine : Nat) (source : String)
  | buildAll (engine : Nat) (source : String)
  | validate (engine : Nat) (source : String)
  | normalize (engine : Nat) (source : String)
  | describe (engine : Nat)
  | get (cache : Nat) (key : String)
  | insert (cache : Nat) (key source : String)

/-- What comes back. An unknown number of an engine or cache is missing. -/
inductive Reply
  | built (i : Instance)
  | builtAll (is : List Instance)
  | refused (e : CompileError)
  | validated (message : Option String)
  | normalized (text : Option String)
  | described (options : EngineOptions) (isEmpty : Bool)
  | got (i : Option Instance)
  | inserted (i : Instance) (isNew : Bool)
  | missing

/-- The reply to a build. -/
def Reply.ofBuild : Except CompileError Instance → Reply
  | .ok i => .built i
  | .error e => .refused e

def Reply.ofBuildAll : Except CompileError (List Instance) → Reply
  | .ok is => .builtAll is
  | .error e => .refused e

/-- Lets an operation work on the cache of this number. -/
def onCache {α : Type} (s : Session) (cache : Nat) (op : Store → α × Store) (reply : α → Reply) :
    Reply × Session :=
  match s.caches[cache]? with
  | none => (.missing, s)
  | some c =>
    let (a, store) := op ⟨c, s.nextSerial⟩
    (reply a, { s with caches := s.caches.set cache store.cache, nextSerial := store.nextSerial })

/-- Lets an operation work for the engine of this number. -/
def onEngine {α : Type} (s : Session) (engine : Nat) (op : EngineOptions → Store → α × Store)
    (reply : α → Reply) : Reply × Session :=
  match s.engines[engine]? with
  | none => (.missing, s)
  | some e => s.onCache e.cache (op e.options) reply

/-- Compiles a source with default options and offers the new instance to the cache. -/
def offer (key source : String) (store : Store) : Reply × Store :=
  match Store.build .lastWins source ⟨.empty, store.nextSerial⟩ with
  | (.error e, _) => (.refused e, store)
  | (.ok new, fresh) =>
    let (kept, store) := { store with nextSerial := fresh.nextSerial }.keep key new
    (.inserted kept (kept.serial = new.serial), store)

/-- Takes one step. -/
def step (s : Session) : Step → Reply × Session
  | .build engine source =>
    s.onEngine engine (fun o => Store.build o.duplicates source) .ofBuild
  | .buildAll engine source =>
    s.onEngine engine (fun o => Store.buildAll o.duplicates source) .ofBuildAll
  | .validate engine source =>
    s.onEngine engine (fun o => Store.validate o.duplicates source) .validated
  | .normalize engine source =>
    s.onEngine engine (fun _ store => (Source.normalize source, store)) .normalized
  | .describe engine =>
    s.onEngine engine (fun o store => ((o, store.cache.size == 0), store)) fun (o, isEmpty) =>
      .described o isEmpty
  | .get cache key => s.onCache cache (fun store => (store.cache.get? key, store)) .got
  | .insert cache key source => s.onCache cache (offer key source) id

/-- The number of entries in each cache. -/
def sizes (s : Session) : List Nat := s.caches.map Cache.size

end Session

/-- The serials of the instances shown so far, in order of first appearance. -/
abbrev Roster := List Nat

/-- The number under which an instance is shown. -/
def Roster.number (r : Roster) (i : Instance) : Nat × Roster :=
  match r.idxOf? i.serial with
  | some n => (n, r)
  | none => (r.length, r ++ [i.serial])

end Tariff
