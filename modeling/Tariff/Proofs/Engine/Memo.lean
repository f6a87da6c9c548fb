/-
  Keeping compiled formulas changes no answer. A cache is sound when each of its entries is what its key
  compiles to. A store with a sound cache answers a request as a store without memory does, and its
  cache stays sound; so a run of requests by engines that share a cache is answered as each request
  alone would be. Only the serials that tell instances apart depend on the cache.
-/
import Tariff.Engine.Session
import Tariff.Proofs.Engine.Batch

namespace Tariff

open Source (Input Statement normalForm? parse parseStatement)

/-- The formula of a source, with no cache in between. -/
def compileSource (policy : DuplicatePolicy) (source : String) : Except CompileError Formula :=
  match normalForm? source.toList with
  | none => .error .emptyFormula
  | some text => compileText policy text

theorem compileSource_of_normalForm? {source : String} {text : List Char}
    (h : normalForm? source.toList = some text) (policy : DuplicatePolicy) :
    compileSource policy source = compileText policy text := by
  unfold compileSource
  rw [h]

/-- A normal form compiles to what its source does. -/
theorem compileSource_ofList {source : String} {text : List Char}
    (h : normalForm? source.toList = some text) (policy : DuplicatePolicy) :
    compileSource policy (String.ofList text) = compileText policy text := by
  apply compileSource_of_normalForm?
  rw [String.toList_ofList]
  exact Source.normalForm?_idem h

/-! ## Sound caches -/

namespace Cache

/-- Every entry is what its key compiles to. -/
def Sound (policy : DuplicatePolicy) : Cache → Prop
  | .memory entries => ∀ p ∈ entries, compileSource policy p.1 = .ok p.2.formula
  | .absent => True

def hasMemory : Cache → Bool
  | .memory _ => true
  | .absent => false

variable {policy : DuplicatePolicy} {c : Cache} {key : String} {i : Instance}

theorem sound_iff_keeps :
    c.Sound policy ↔ c.Keeps fun key f => compileSource policy key = .ok f := by
  cases c <;> rfl

theorem Sound.get? (h : c.Sound policy) (hget : c.get? key = some i) :
    compileSource policy key = .ok i.formula :=
  (sound_iff_keeps.mp h).get? hget

theorem Sound.insert (h : c.Sound policy) (hkey : compileSource policy key = .ok i.formula) :
    (c.insert key i).2.Sound policy :=
  sound_iff_keeps.mpr ((sound_iff_keeps.mp h).insert hkey)

theorem hasMemory_insert (c : Cache) (key : String) (i : Instance) :
    (c.insert key i).2.hasMemory = c.hasMemory := by
  cases c with
  | absent => rfl
  | memory entries =>
    unfold Cache.insert
    dsimp only
    split <;> rfl

end Cache

namespace Store

/-- What every operation preserves: the cache is sound and has memory as it had before. -/
structure Faithful (policy : DuplicatePolicy) (memory : Bool) (s : Store) : Prop where
  sound : s.cache.Sound policy
  hasMemory : s.cache.hasMemory = memory

section

variable {policy : DuplicatePolicy} {m m' : Bool} {s t : Store}

theorem Faithful.fetch {key : String} {x : Except CompileError Formula}
    (hs : s.Faithful policy m) (hkey : compileSource policy key = x) :
    (s.fetch key x).1.map Instance.formula = x ∧ (s.fetch key x).2.Faithful policy m := by
  rcases s.fetch_cases key x with ⟨i, hget, hi⟩ | ⟨hget, ⟨e, rfl, he⟩ | ⟨f, rfl, hf⟩⟩
  · rw [hi, ← hkey, hs.sound.get? hget]
    exact ⟨rfl, hs⟩
  · rw [he]
    exact ⟨rfl, hs⟩
  · rw [hf]
    refine ⟨rfl, ?_, ?_⟩
    · exact hs.sound.insert hkey
    · exact (Cache.hasMemory_insert ..).trans hs.hasMemory

theorem Faithful.build (hs : s.Faithful policy m) (source : String) :
    (s.build policy source).1.map Instance.formula = compileSource policy source ∧
      (s.build policy source).2.Faithful policy m := by
  cases hform : normalForm? source.toList with
  | none =>
    unfold Store.build compileSource
    rw [hform]
    exact ⟨rfl, hs⟩
  | some text =>
    rw [build_of_normalForm? hform, compileSource_of_normalForm? hform]
    exact hs.fetch (compileSource_ofList hform policy)

/-! ## Batches -/

theorem Faithful.buildLines (hs : s.Faithful policy m) (ls : List String) :
    (s.buildLines policy ls).store.Faithful policy m := by
  induction ls generalizing s with
  | nil => exact hs
  | cons l ls ih =>
    have hl := (hs.build l).2
    rcases hbuild : s.build policy l with ⟨e | i, s'⟩
    · rw [hbuild] at hl
      rw [buildLines_error hbuild]
      exact hl
    · rw [hbuild] at hl
      rw [buildLines_ok hbuild]
      exact ih hl

/-- Lines are built into the same formulas, up to the same error, from all faithful stores. -/
theorem Faithful.buildLines_eq (hs : s.Faithful policy m) (ht : t.Faithful policy m')
    (ls : List String) :
    (s.buildLines policy ls).built.map Instance.formula =
        (t.buildLines policy ls).built.map Instance.formula ∧
      (s.buildLines policy ls).error = (t.buildLines policy ls).error := by
  induction ls generalizing s t with
  | nil => exact ⟨rfl, rfl⟩
  | cons l ls ih =>
    obtain ⟨hvalue, hs'⟩ := hs.build l
    obtain ⟨hvalue', ht'⟩ := ht.build l
    rw [← hvalue'] at hvalue
    -- The values agree, so both stores fail on this line, or neither does.
    rcases hbuild : s.build policy l with ⟨e | i, s'⟩ <;>
      rcases hbuild' : t.build policy l with ⟨e' | j, t'⟩ <;>
      rw [hbuild, hbuild'] at hvalue
    · rw [buildLines_error hbuild, buildLines_error hbuild']
      cases hvalue
      exact ⟨rfl, rfl⟩
    · cases hvalue
    · cases hvalue
    · rw [hbuild] at hs'
      rw [hbuild'] at ht'
      rw [buildLines_ok hbuild, buildLines_ok hbuild']
      obtain ⟨hbuilt, herror⟩ := ih hs' ht'
      have hformula : i.formula = j.formula := Except.ok.inj hvalue
      refine ⟨?_, herror⟩
      rw [List.map_cons, List.map_cons, hbuilt, hformula]

theorem outcome_eq {r r' : LineBuilds} (n : Nat)
    (hbuilt : r.built.map Instance.formula = r'.built.map Instance.formula)
    (herror : r.error = r'.error) :
    (r.outcome n).map (·.map Instance.formula) = (r'.outcome n).map (·.map Instance.formula) := by
  have hlength : r.built.length = r'.built.length := by
    rw [← List.length_map Instance.formula, hbuilt, List.length_map]
  unfold LineBuilds.outcome
  rw [herror, hlength]
  cases r'.error with
  | none => exact congrArg Except.ok hbuilt
  | some e => rfl

/-- A text without lines ends before its first statement. -/
theorem parse_nil : ∃ e, parse [] = .error e := ⟨_, by cbv⟩

/-- What may reach the parser: a normal form, or the empty text of a source that has none. -/
theorem Faithful.buildText {source : String} {text : List Char}
    (hs : s.Faithful policy m) (ht : t.Faithful policy m')
    (htext : text = (normalForm? source.toList).getD []) :
    (s.buildText policy text).1.map (·.map Instance.formula) =
        (t.buildText policy text).1.map (·.map Instance.formula) ∧
      (s.buildText policy text).2.Faithful policy m := by
  cases hform : normalForm? source.toList with
  | none =>
    rw [hform, Option.getD_none] at htext
    obtain ⟨e, he⟩ := parse_nil
    rw [htext, buildText_error he, buildText_error he]
    exact ⟨rfl, hs⟩
  | some cs =>
    rw [hform, Option.getD_some] at htext
    obtain ⟨hne, hjoin, hcontent⟩ := Source.normalForm?_lines hform
    rw [← htext] at hne hjoin hcontent
    cases hparse : parse text with
    | error e =>
      rw [buildText_error hparse, buildText_error hparse]
      exact ⟨rfl, hs⟩
    | ok ss =>
      rw [hjoin] at hparse
      obtain ⟨sts, hsts, -⟩ := (Source.parse_joinLines hne hcontent).mp hparse
      rw [buildText_parsed hne hjoin hcontent hsts, buildText_parsed hne hjoin hcontent hsts]
      obtain ⟨hbuilt, herror⟩ := hs.buildLines_eq ht ((Text.lines text).map String.ofList)
      exact ⟨outcome_eq 1 hbuilt herror, hs.buildLines _⟩

theorem Faithful.buildAll (hs : s.Faithful policy m) (ht : t.Faithful policy m')
    (source : String) :
    (s.buildAll policy source).1.map (·.map Instance.formula) =
        (t.buildAll policy source).1.map (·.map Instance.formula) ∧
      (s.buildAll policy source).2.Faithful policy m := by
  cases hform : normalForm? source.toList with
  | none =>
    unfold Store.buildAll
    rw [hform]
    exact ⟨rfl, hs⟩
  | some text =>
    rw [buildAll_of_normalForm? hform, buildAll_of_normalForm? hform]
    apply hs.buildText ht
    rw [hform, Option.getD_some]

theorem validate_eq (policy : DuplicatePolicy) (source : String) (s : Store) :
    s.validate policy source =
      let r := s.buildText policy ((normalForm? source.toList).getD [])
      ((match r.1.map (·.map Instance.formula) with
        | .error e => some e.message
        | .ok _ => none), r.2) := by
  unfold validate
  rcases s.buildText policy ((normalForm? source.toList).getD []) with ⟨e | is, s'⟩
  · rfl
  · rfl

theorem Faithful.validate (hs : s.Faithful policy m) (ht : t.Faithful policy m')
    (source : String) :
    (s.validate policy source).1 = (t.validate policy source).1 ∧
      (s.validate policy source).2.Faithful policy m := by
  obtain ⟨hvalue, hstore⟩ := hs.buildText ht (rfl : _ = (normalForm? source.toList).getD [])
  rw [validate_eq, validate_eq]
  dsimp only
  rw [hvalue]
  exact ⟨rfl, hstore⟩

end

end Store

/-! ## Runs -/

namespace Session

/-- What an engine is asked to do with an input. -/
inductive Request
  | build (input : Input)
  | buildAll (input : Input)
  | validate (input : Input)
  | normalize (input : Input)

/-- The request as a step of the engine of this number. -/
def Request.toStep (engine : Nat) : Request → Step
  | .build input => .build engine input.toText
  | .buildAll input => .buildAll engine input.toText
  | .validate input => .validate engine input.toText
  | .normalize input => .normalize engine input.toText

/-- Takes steps in order; yields their replies. -/
def run (s : Session) : List Step → List Reply × Session
  | [] => ([], s)
  | a :: as =>
    let (reply, s) := s.step a
    let (replies, s) := s.run as
    (reply :: replies, s)

theorem run_cons {s s' : Session} {a : Step} {reply : Reply} (h : s.step a = (reply, s'))
    (as : List Step) : s.run (a :: as) = (reply :: (s'.run as).1, (s'.run as).2) := by
  rw [run, h]

/-- The reply without the serials: what is left of an instance is its formula. -/
def Reply.unnumbered : Reply → Reply
  | .built i => .built ⟨0, i.formula⟩
  | .builtAll is => .builtAll (is.map fun i => ⟨0, i.formula⟩)
  | .got i => .got (i.map fun i => ⟨0, i.formula⟩)
  | .inserted i isNew => .inserted ⟨0, i.formula⟩ isNew
  | reply => reply

/-- The reply of a fresh engine without memory. -/
def Request.replyAlone (policy : DuplicatePolicy) (q : Request) : Reply :=
  ((⟨[⟨0, ⟨false, policy⟩⟩], [.absent], 0⟩ : Session).step (q.toStep 0)).1

/-- What a request does to a store. -/
def Request.serve (policy : DuplicatePolicy) (s : Store) : Request → Reply × Store
  | .build input => (.ofBuild (s.build policy input.toText).1, (s.build policy input.toText).2)
  | .buildAll input =>
    (.ofBuildAll (s.buildAll policy input.toText).1, (s.buildAll policy input.toText).2)
  | .validate input =>
    (.validated (s.validate policy input.toText).1, (s.validate policy input.toText).2)
  | .normalize input => (.normalized (Source.normalize input.toText), s)

theorem Reply.unnumbered_ofBuild {x y : Except CompileError Instance}
    (h : x.map Instance.formula = y.map Instance.formula) :
    (ofBuild x).unnumbered = (ofBuild y).unnumbered := by
  have hread : ∀ z, (ofBuild z).unnumbered =
      ofBuild ((z.map Instance.formula).map fun f => ⟨0, f⟩) := by
    intro z
    cases z <;> rfl
  rw [hread, hread, h]

theorem Reply.unnumbered_ofBuildAll {x y : Except CompileError (List Instance)}
    (h : x.map (·.map Instance.formula) = y.map (·.map Instance.formula)) :
    (ofBuildAll x).unnumbered = (ofBuildAll y).unnumbered := by
  have hread : ∀ z, (ofBuildAll z).unnumbered =
      ofBuildAll ((z.map (·.map Instance.formula)).map (·.map fun f => ⟨0, f⟩)) := by
    intro z
    cases z with
    | error e => rfl
    | ok is =>
      dsimp only [Except.map, ofBuildAll, unnumbered]
      rw [List.map_map]
      rfl
  rw [hread, hread, h]

section

variable {policy : DuplicatePolicy} {m m' : Bool}

/-- One request: faithful stores answer it alike and stay faithful. -/
theorem Request.serve_faithful {s t : Store} (hs : s.Faithful policy m) (ht : t.Faithful policy m')
    (q : Request) :
    (q.serve policy s).1.unnumbered = (q.serve policy t).1.unnumbered ∧
      (q.serve policy s).2.Faithful policy m := by
  cases q with
  | build input =>
    obtain ⟨hvalue, hstore⟩ := hs.build input.toText
    exact ⟨Reply.unnumbered_ofBuild (hvalue.trans (ht.build input.toText).1.symm), hstore⟩
  | buildAll input =>
    obtain ⟨hvalue, hstore⟩ := hs.buildAll ht input.toText
    exact ⟨Reply.unnumbered_ofBuildAll hvalue, hstore⟩
  | validate input =>
    obtain ⟨hvalue, hstore⟩ := hs.validate ht input.toText
    exact ⟨congrArg (fun v => (Reply.validated v).unnumbered) hvalue, hstore⟩
  | normalize input => exact ⟨rfl, hs⟩

/-- In a session with one cache, a step is the request served by the store of that cache. -/
theorem step_toStep {engines : List Engine} {engine : Nat} {e : Engine}
    (he : engines[engine]? = some e) (hcache : e.cache = 0) (c : Cache) (serial : Nat)
    (q : Request) :
    (⟨engines, [c], serial⟩ : Session).step (q.toStep engine) =
      ((q.serve e.options.duplicates ⟨c, serial⟩).1,
        ⟨engines, [(q.serve e.options.duplicates ⟨c, serial⟩).2.cache],
          (q.serve e.options.duplicates ⟨c, serial⟩).2.nextSerial⟩) := by
  cases q <;> simp [step, Request.toStep, Request.serve, onEngine, onCache, he, hcache]

theorem Request.replyAlone_eq (policy : DuplicatePolicy) (q : Request) :
    q.replyAlone policy = (q.serve policy ⟨.absent, 0⟩).1 := by
  unfold Request.replyAlone
  rw [step_toStep (e := ⟨0, ⟨false, policy⟩⟩) rfl rfl]

/-- A run of requests by engines on one cache: every reply is what its request yields alone, and the
    cache that is left is as faithful as the one that was there. -/
theorem run_toStep {engines : List Engine}
    (hengines : ∀ e ∈ engines, e.cache = 0 ∧ e.options.duplicates = policy)
    {calls : List (Nat × Request)} (hcalls : ∀ q ∈ calls, q.1 < engines.length)
    {s : Store} (hs : s.Faithful policy m) :
    let r := run ⟨engines, [s.cache], s.nextSerial⟩ (calls.map fun q => q.2.toStep q.1)
    r.1.map Reply.unnumbered = calls.map (fun q => (q.2.replyAlone policy).unnumbered) ∧
      ∃ s' : Store, s'.Faithful policy m ∧ r.2.caches = [s'.cache] := by
  induction calls generalizing s with
  | nil => exact ⟨rfl, s, hs, rfl⟩
  | cons q calls ih =>
    have hq := hcalls q (List.mem_cons_self ..)
    obtain ⟨hcache, hpolicy⟩ := hengines _ (List.getElem_mem hq)
    have hstep := step_toStep (List.getElem?_eq_getElem hq) hcache s.cache s.nextSerial q.2
    have halone : (⟨.absent, 0⟩ : Store).Faithful policy false := ⟨trivial, rfl⟩
    obtain ⟨hreply, hs'⟩ := q.2.serve_faithful hs halone
    obtain ⟨hreplies, hrest⟩ := ih (fun q hq => hcalls q (List.mem_cons_of_mem _ hq)) hs'
    rw [hpolicy] at hstep
    dsimp only
    rw [List.map_cons, run_cons hstep]
    refine ⟨?_, hrest⟩
    rw [List.map_cons, List.map_cons, hreplies, hreply, Request.replyAlone_eq]

/-- Engines with one policy share a memory that is empty at first. Whatever they are asked, in whatever
    order, they reply as a fresh engine without memory would, and each entry of the memory is what its
    key compiles to there. -/
theorem run_shared_memory (policy : DuplicatePolicy) (engines : List Engine)
    (hengines : ∀ e ∈ engines, e.cache = 0 ∧ e.options.duplicates = policy)
    (calls : List (Nat × Request)) (hcalls : ∀ q ∈ calls, q.1 < engines.length) :
    let r := run ⟨engines, [.empty], 0⟩ (calls.map fun q => q.2.toStep q.1)
    r.1.map Reply.unnumbered = calls.map (fun q => (q.2.replyAlone policy).unnumbered) ∧
      ∃ entries, r.2.caches = [.memory entries] ∧ ∀ key i, (key, i) ∈ entries →
        ((Request.build (.text key)).replyAlone policy).unnumbered = .built ⟨0, i.formula⟩ := by
  have hempty : (⟨.empty, 0⟩ : Store).Faithful policy true :=
    ⟨by simp [Cache.empty, Cache.Sound], rfl⟩
  obtain ⟨hreplies, s, hs, hcaches⟩ := run_toStep hengines hcalls hempty
  refine ⟨hreplies, ?_⟩
  obtain ⟨cache, serial⟩ := s
  have hmemory := hs.hasMemory
  cases cache with
  | absent => cases hmemory
  | memory entries =>
    refine ⟨entries, hcaches, ?_⟩
    intro key i hmem
    have halone : (⟨.absent, 0⟩ : Store).Faithful policy false := ⟨trivial, rfl⟩
    have hsound : compileSource policy key = .ok i.formula := hs.sound (key, i) hmem
    have hbuild := (halone.build key).1
    rw [hsound] at hbuild
    rw [Request.replyAlone_eq]
    have hreply : (Reply.ofBuild (Store.build policy key ⟨.absent, 0⟩).1).unnumbered =
        (Reply.ofBuild (.ok i)).unnumbered := Reply.unnumbered_ofBuild hbuild
    exact hreply

/-- The second engine finds in the memory what the first one left there. -/
theorem run_shared_memory_hit :
    (run ⟨[⟨0, ⟨true, .lastWins⟩⟩, ⟨0, ⟨false, .lastWins⟩⟩], [.empty], 0⟩
      [.build 0 "installment", .validate 0 ".", .build 1 " installment"]).1.map Reply.unnumbered =
      [.built ⟨0, .installment none ⟨none, none, none⟩⟩,
        ((Request.validate (.text ".")).replyAlone .lastWins).unnumbered,
        .built ⟨0, .installment none ⟨none, none, none⟩⟩] := by
  have hfirst : ((Request.build (.text "installment")).replyAlone .lastWins).unnumbered =
      .built ⟨0, .installment none ⟨none, none, none⟩⟩ := by cbv
  have hsecond : ((Request.build (.text " installment")).replyAlone .lastWins).unnumbered =
      .built ⟨0, .installment none ⟨none, none, none⟩⟩ := by cbv
  have hrun := (run_shared_memory .lastWins [⟨0, ⟨true, .lastWins⟩⟩, ⟨0, ⟨false, .lastWins⟩⟩]
    (by simp) [(0, .build (.text "installment")), (0, .validate (.text ".")),
      (1, .build (.text " installment"))] (by simp)).1
  simp only [List.map_cons, List.map_nil, hfirst, hsecond] at hrun
  exact hrun

end

end Session

end Tariff
