/-
  Building a formula again from its source. Every instance that a session hands out came from a line
  that was compiled, so its formula is sound (`run_keeps`). Its source is one line, and building it
  yields the same formula under every policy, on a cache without entries as on the caches of the
  session.
-/
import Tariff.Proofs.Compile.Rebuild
import Tariff.Proofs.Engine.Keeps

namespace Tariff

open Source (contentLines)

/-! ## Compiled lines -/

/-- A line that some policy compiles to this formula. -/
def Compiled (line : String) (f : Formula) : Prop :=
  ∃ policy, compileText policy line.toList = .ok f

/-- The property holds of whatever a line compiles to, whatever the policy. -/
def HoldsOfLines (P : String → Formula → Prop) : Prop :=
  ∀ policy l f, compileText policy l = .ok f → P (String.ofList l) f

theorem holdsOfLines_compiled : HoldsOfLines Compiled := by
  intro policy l f hf
  refine ⟨policy, ?_⟩
  rwa [String.toList_ofList]

theorem sound_of_compileText {policy : DuplicatePolicy} {l : List Char} {f : Formula}
    (h : compileText policy l = .ok f) : f.Sound := by
  unfold compileText at h
  split at h
  · cases h
  · exact sound_of_compile h

theorem holdsOfLines_sound : HoldsOfLines fun _ f => f.Sound :=
  fun _ _ _ => sound_of_compileText

/-! ## Instances that are handed out -/

variable {P : String → Formula → Prop}

namespace Session

/-- The instances that a reply hands out. -/
def Reply.instances : Reply → List Instance
  | .built i => [i]
  | .builtAll is => is
  | .got i => i.toList
  | .inserted i _ => [i]
  | _ => []

/-- Puts an instance into a cache by hand, under a key of any kind. -/
def Step.Inserts : Step → Prop
  | .insert _ _ _ => True
  | _ => False

/-- All caches keep the property. -/
def Keeps (P : String → Formula → Prop) (s : Session) : Prop := ∀ c ∈ s.caches, c.Keeps P

/-- The property holds of all instances in the reply. -/
def Reply.Shows (P : String → Formula → Prop) (r : Reply) : Prop :=
  ∀ i ∈ r.instances, ∃ key, P key i.formula

variable {s : Session} {α : Type}

theorem onCache_keeps {op : Store → α × Store} {reply : α → Reply} (n : Nat) (hs : s.Keeps P)
    (hop : ∀ store : Store, store.cache.Keeps P →
      (op store).2.cache.Keeps P ∧ (reply (op store).1).Shows P) :
    (s.onCache n op reply).2.Keeps P ∧ (s.onCache n op reply).1.Shows P := by
  unfold onCache
  split
  · exact ⟨hs, fun i hi => nomatch hi⟩
  · next c hc =>
    obtain ⟨hkeeps, hshows⟩ := hop ⟨c, s.nextSerial⟩ (hs c (List.mem_of_getElem? hc))
    refine ⟨?_, hshows⟩
    intro c' hc'
    rcases List.mem_or_eq_of_mem_set hc' with hc' | rfl
    · exact hs c' hc'
    · exact hkeeps

theorem onEngine_keeps {op : EngineOptions → Store → α × Store} {reply : α → Reply} (n : Nat)
    (hs : s.Keeps P) (hop : ∀ o, ∀ store : Store, store.cache.Keeps P →
      (op o store).2.cache.Keeps P ∧ (reply (op o store).1).Shows P) :
    (s.onEngine n op reply).2.Keeps P ∧ (s.onEngine n op reply).1.Shows P := by
  unfold onEngine
  split
  · exact ⟨hs, fun i hi => nomatch hi⟩
  · next e he => exact onCache_keeps e.cache hs (hop e.options)

/-- Offering a formula under any key keeps a property that does not depend on keys. -/
theorem offer_keeps (hlines : HoldsOfLines P) (hkeys : ∀ key key' f, P key f → P key' f)
    (key source : String) (store : Store) (h : store.cache.Keeps P) :
    (offer key source store).2.cache.Keeps P ∧ (offer key source store).1.Shows P := by
  have hyields : Yields .lastWins P (contentLines source.toList) := fun l _ f => hlines .lastWins l f
  have hbuild := Store.build_keeps (s := ⟨.empty, store.nextSerial⟩) (Cache.keeps_of_size rfl) hyields
  unfold offer
  rcases hresult : Store.build .lastWins source ⟨.empty, store.nextSerial⟩ with ⟨e | new, fresh⟩
  · exact ⟨h, fun i hi => nomatch hi⟩
  · rw [hresult] at hbuild
    obtain ⟨text, -, hnew⟩ := hbuild.2 new rfl
    have hkey := hkeys _ key _ hnew
    dsimp only
    rw [Store.keep_eq]
    refine ⟨h.insert hkey, ?_⟩
    rintro _ (_ | ⟨_, ⟨⟩⟩)
    exact ⟨key, h.insert_fst hkey⟩

/-- One step keeps a property that holds of compiled lines, and shows only what has it. Where the step
    inserts by hand, the property must not depend on keys. -/
theorem step_keeps (hlines : HoldsOfLines P) (a : Step)
    (ha : a.Inserts → ∀ key key' f, P key f → P key' f) (hs : s.Keeps P) :
    (s.step a).2.Keeps P ∧ (s.step a).1.Shows P := by
  have hyields : ∀ policy ls, Yields policy P ls := fun policy ls l _ f => hlines policy l f
  cases a with
  | build engine source =>
    apply onEngine_keeps engine hs
    intro o store h
    obtain ⟨hkeeps, hbuilt⟩ := Store.build_keeps h (hyields o.duplicates (contentLines source.toList))
    refine ⟨hkeeps, ?_⟩
    cases hresult : (store.build o.duplicates source).1 with
    | error e => exact fun i hi => nomatch hi
    | ok i =>
      rintro _ (_ | ⟨_, ⟨⟩⟩)
      obtain ⟨text, -, hi⟩ := hbuilt i hresult
      exact ⟨_, hi⟩
  | buildAll engine source =>
    apply onEngine_keeps engine hs
    intro o store h
    obtain ⟨hkeeps, hbuilt⟩ :=
      Store.buildAll_keeps h (hyields o.duplicates (contentLines source.toList))
    refine ⟨hkeeps, ?_⟩
    cases hresult : (store.buildAll o.duplicates source).1 with
    | error e => exact fun i hi => nomatch hi
    | ok is =>
      intro i hi
      obtain ⟨l, hl⟩ := exists_forall₂_iff.mp ⟨_, (hbuilt is hresult).flip⟩ i hi
      exact ⟨_, hl⟩
  | validate engine source =>
    apply onEngine_keeps engine hs
    intro o store h
    exact ⟨(Store.validate_keeps h (hyields o.duplicates _)).1, fun i hi => nomatch hi⟩
  | normalize engine source =>
    exact onEngine_keeps engine hs fun o store h => ⟨h, fun i hi => nomatch hi⟩
  | describe engine =>
    exact onEngine_keeps engine hs fun o store h => ⟨h, fun i hi => nomatch hi⟩
  | get cache key =>
    apply onCache_keeps cache hs
    intro store h
    refine ⟨h, ?_⟩
    intro i hi
    exact ⟨key, h.get? (Option.mem_toList.mp hi)⟩
  | insert cache key source =>
    exact onCache_keeps cache hs (offer_keeps hlines (ha trivial) key source)

/-- A run keeps such a property, and shows only what has it. -/
theorem run_keeps (hlines : HoldsOfLines P) (steps : List Step)
    (hsteps : ∀ a ∈ steps, a.Inserts → ∀ key key' f, P key f → P key' f) (hs : s.Keeps P) :
    (s.run steps).2.Keeps P ∧ ∀ reply ∈ (s.run steps).1, reply.Shows P := by
  induction steps generalizing s with
  | nil => exact ⟨hs, fun reply hr => nomatch hr⟩
  | cons a steps ih =>
    obtain ⟨hkeeps, hshows⟩ := step_keeps hlines a (hsteps a (List.mem_cons_self ..)) hs
    obtain ⟨hrun, hreplies⟩ := ih (fun b hb => hsteps b (List.mem_cons_of_mem _ hb)) hkeeps
    rw [run_cons rfl]
    refine ⟨hrun, ?_⟩
    intro reply hr
    rcases List.mem_cons.mp hr with rfl | hr
    · exact hshows
    · exact hreplies reply hr

end Session

/-! ## Building a source -/

/-- The source of a sound formula builds to this formula where nothing else is kept under it. -/
theorem Store.build_source {f : Formula} (h : f.Sound) (policy : DuplicatePolicy) (s : Store)
    (hkept : ∀ i, s.cache.get? f.source = some i → i.formula = f) :
    ∃ j, (s.build policy f.source).1 = .ok j ∧ j.formula = f := by
  have hbuild := build_line (Formula.contentLine_source h) policy s
  rw [String.ofList_toList, Formula.compileText_source h] at hbuild
  rw [hbuild]
  rcases s.fetch_cases f.source (.ok f) with ⟨i, hget, hi⟩ | ⟨-, ⟨e, he, -⟩ | ⟨g, hg, hnew⟩⟩
  · rw [hi]
    exact ⟨i, rfl, hkept i hget⟩
  · cases he
  · cases hg
    rw [hnew]
    exact ⟨_, rfl, rfl⟩

/-- What compiled lines leave in a cache under the source of a sound formula is this formula. -/
theorem Cache.Keeps.get?_source {c : Cache} {f : Formula} {i : Instance} (hc : c.Keeps Compiled)
    (h : f.Sound) (hget : c.get? f.source = some i) : i.formula = f := by
  obtain ⟨policy, hi⟩ := hc.get? hget
  rw [Formula.compileText_source h] at hi
  exact (Except.ok.inj hi).symm

namespace Session

/-- Let the caches be without entries at first, and take any steps. Whatever instance is handed out,
    the source of its formula is one line, and building it yields this formula again under every
    policy: on a cache without entries, and on every cache of the session after these steps if none of
    them was an insertion by hand. -/
theorem run_build_source (engines : List Engine) (caches : List Cache) (serial : Nat)
    (hcaches : ∀ c ∈ caches, c.size = 0) (steps : List Step) (reply : Reply)
    (hreply : reply ∈ (run ⟨engines, caches, serial⟩ steps).1) (i : Instance)
    (hi : i ∈ reply.instances) (policy : DuplicatePolicy) (s : Store)
    (hs : s.cache.size = 0 ∨ (∀ a ∈ steps, ¬ a.Inserts) ∧
      s.cache ∈ (run ⟨engines, caches, serial⟩ steps).2.caches) :
    '\n' ∉ i.formula.source.toList ∧
      ∃ j, (s.build policy i.formula.source).1 = .ok j ∧ j.formula = i.formula := by
  have hempty : ∀ P, (⟨engines, caches, serial⟩ : Session).Keeps P :=
    fun P c hc => Cache.keeps_of_size (hcaches c hc)
  have hsound : i.formula.Sound := by
    obtain ⟨-, hshows⟩ := run_keeps holdsOfLines_sound steps (fun a _ _ _ _ _ h => h)
      (hempty fun _ f => f.Sound)
    obtain ⟨-, h⟩ := hshows reply hreply i hi
    exact h
  have hkept : s.cache.Keeps Compiled := by
    rcases hs with hsize | ⟨hnone, hmem⟩
    · exact Cache.keeps_of_size hsize
    · obtain ⟨hkeeps, -⟩ := run_keeps holdsOfLines_compiled steps
        (fun a ha hinserts => absurd hinserts (hnone a ha)) (hempty Compiled)
      exact hkeeps _ hmem
  exact ⟨(Formula.contentLine_source hsound).noBreak,
    s.build_source hsound policy fun k => hkept.get?_source hsound⟩

/-- A signed amount, a signed year and a reason on two lines, written down anew after they were built. -/
theorem run_build_source_signed :
    '\n' ∉ "discount.fixed('-2.50 EUR').till('+12024-02-29').reason('it\\'s\\n')".toList ∧
      ∃ j, (Store.build .reject
          "discount.fixed('-2.50 EUR').till('+12024-02-29').reason('it\\'s\\n')" ⟨.empty, 0⟩).1 = .ok j ∧
        j.formula = .discount (.absolute ⟨-250, 2, by decide, by decide⟩ (some "EUR"))
          ⟨none, some (.midnight ⟨12024, 2, 29, by decide, by decide, by decide⟩), some "it's\n"⟩ := by
  have hsource : (Formula.discount (.absolute ⟨-250, 2, by decide, by decide⟩ (some "EUR"))
      ⟨none, some (.midnight ⟨12024, 2, 29, by decide, by decide, by decide⟩), some "it's\n"⟩).source =
      "discount.fixed('-2.50 EUR').till('+12024-02-29').reason('it\\'s\\n')" := by decide +kernel
  have hbuild : (Store.build .lastWins
      "discount.reason(\"it's\\n\").fixed('-2.50 eur').till('+12024-2-29')" ⟨.empty, 0⟩).1 =
      .ok ⟨0, .discount (.absolute ⟨-250, 2, by decide, by decide⟩ (some "EUR"))
        ⟨none, some (.midnight ⟨12024, 2, 29, by decide, by decide, by decide⟩), some "it's\n"⟩⟩ := by
    decide +kernel
  have hrun : (run ⟨[⟨0, ⟨true, .lastWins⟩⟩], [.empty], 0⟩
      [.build 0 "discount.reason(\"it's\\n\").fixed('-2.50 eur').till('+12024-2-29')"]).1 =
      [Reply.ofBuild _] := congrArg (fun r => [Reply.ofBuild r]) hbuild
  have h := run_build_source [⟨0, ⟨true, .lastWins⟩⟩] [.empty] 0 (by simp [Cache.size, Cache.empty])
    [.build 0 "discount.reason(\"it's\\n\").fixed('-2.50 eur').till('+12024-2-29')"] _
    (hrun ▸ List.mem_singleton_self _) _ (List.mem_singleton_self _) .reject ⟨.empty, 0⟩ (Or.inl rfl)
  rwa [hsource] at h

end Session

end Tariff
