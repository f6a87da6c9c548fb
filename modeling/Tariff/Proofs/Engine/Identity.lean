/-
  Which instances are one. On a shared memory an instance stands for a line of normal form: what is
  handed out for a line is the entry of that line, and entries differ in their serials. `Interned` is
  the invariant: the memory has one entry for each line that was compiled so far and no other, all with
  serials of their own. Which lines these are is said without any cache (`Session.compiledLines`).
-/
import Tariff.Proofs.Engine.Policy
import Tariff.Proofs.Engine.Rebuild

namespace Tariff

open Source (ContentLine contentLines normalForm? parseStatement)

/-! ## The lines that are compiled -/

/-- The policy compiles the line. -/
def Compiles (policy : DuplicatePolicy) (line : String) : Prop :=
  ∃ f, compileText policy line.toList = .ok f

instance (policy : DuplicatePolicy) (line : String) : Decidable (Compiles policy line) :=
  match h : compileText policy line.toList with
  | .ok f => isTrue ⟨f, h⟩
  | .error _ => isFalse fun ⟨_, hf⟩ => nomatch h.symm.trans hf

/-- The line is a statement. -/
def Parses (line : String) : Prop := ∃ st, parseStatement line.toList = .ok st

instance (line : String) : Decidable (Parses line) :=
  match h : parseStatement line.toList with
  | .ok st => isTrue ⟨st, h⟩
  | .error _ => isFalse fun ⟨_, hst⟩ => nomatch h.symm.trans hst

/-- The lines compiled so far, after some more were asked for in order. What was compiled before is not
    compiled again, and the first line that neither was nor can be compiled ends the batch. -/
def compileLines (policy : DuplicatePolicy) (known : Finset String) : List String → Finset String
  | [] => known
  | l :: ls =>
    if l ∈ known ∨ Compiles policy l then compileLines policy (insert l known) ls else known

namespace Session

/-- The lines of normal form that a request asks for: the whole source as one, or each line of it. -/
def Request.sources : Request → List String
  | .build input => (normalForm? input.toText.toList).toList.map String.ofList
  | .buildAll input | .validate input => (contentLines input.toText.toList).map String.ofList
  | .normalize _ => []

/-- The lines compiled so far, after the request. A batch with a line that is no statement compiles
    nothing. -/
def Request.compiled (policy : DuplicatePolicy) (known : Finset String) (q : Request) :
    Finset String :=
  match q with
  | .build _ => compileLines policy known q.sources
  | .buildAll _ | .validate _ =>
    if ∀ l ∈ q.sources, Parses l then compileLines policy known q.sources else known
  | .normalize _ => known

/-- The lines compiled so far, after one call of an engine. -/
def compiledByCall (engines : List Engine) (known : Finset String) (call : Nat × Request) :
    Finset String :=
  match engines[call.1]? with
  | none => known
  | some e => call.2.compiled e.options.duplicates known

/-- The lines that some calls compile, one after the other, none being compiled before. -/
def compiledLines (engines : List Engine) (calls : List (Nat × Request)) : Finset String :=
  calls.foldl (compiledByCall engines) ∅

/-- The instances in a reply, each with the line it was built from. -/
def Request.shown (q : Request) (reply : Reply) : List (String × Instance) :=
  q.sources.zip reply.instances

/-- The instances that the replies to some calls hand out, each with its line. -/
def shown (calls : List (Nat × Request)) (replies : List Reply) : List (String × Instance) :=
  (calls.zip replies).flatMap fun p => p.1.2.shown p.2

/-- What engines do that share a memory which is empty at first. -/
def share (engines : List Engine) (calls : List (Nat × Request)) : List Reply × Session :=
  run ⟨engines, [.empty], 0⟩ (calls.map fun q => q.2.toStep q.1)

end Session

/-! ## Entries -/

namespace Cache

variable {c c' c'' : Cache} {key : String} {i : Instance}

/-- Each entry of the first cache is one of the second. -/
def Within (c c' : Cache) : Prop := ∀ key i, c.get? key = some i → c'.get? key = some i

theorem Within.refl (c : Cache) : c.Within c := fun _ _ h => h

theorem Within.trans (h : c.Within c') (h' : c'.Within c'') : c.Within c'' :=
  fun key i hi => h' key i (h key i hi)

theorem get?_insert (hmemory : c.hasMemory = true) (hnew : c.get? key = none) (k : String) :
    (c.insert key i).2.get? k = if k = key then some i else c.get? k := by
  cases c with
  | absent => cases hmemory
  | memory entries =>
    have hlookup : entries.lookup key = none := hnew
    unfold insert
    dsimp only
    rw [hlookup]
    show (entries ++ [(key, i)]).lookup k = if k = key then some i else entries.lookup k
    rw [List.lookup_append, List.lookup_cons, List.lookup_nil]
    by_cases hk : k = key
    · rw [hk, hlookup, beq_self_eq_true, if_pos rfl]
      rfl
    · rw [beq_eq_false_iff_ne.mpr hk, if_neg hk, Option.or_none]

theorem size_insert (hmemory : c.hasMemory = true) (hnew : c.get? key = none) :
    (c.insert key i).2.size = c.size + 1 := by
  cases c with
  | absent => cases hmemory
  | memory entries =>
    have hlookup : entries.lookup key = none := hnew
    unfold insert
    dsimp only
    rw [hlookup]
    exact List.length_append

end Cache

namespace Store

variable {policy : DuplicatePolicy} {known : Finset String} {s : Store} {key : String}

/-- A memory with one entry for each of these lines, told apart by serials that were given out. -/
structure Interned (known : Finset String) (s : Store) : Prop where
  hasMemory : s.cache.hasMemory = true
  mem_iff : ∀ key, key ∈ known ↔ ∃ i, s.cache.get? key = some i
  size_eq : s.cache.size = known.card
  serial_lt : ∀ key i, s.cache.get? key = some i → i.serial < s.nextSerial
  key_eq : ∀ key key' i i', s.cache.get? key = some i → s.cache.get? key' = some i' →
    i.serial = i'.serial → key = key'

theorem interned_empty : (⟨.empty, 0⟩ : Store).Interned ∅ where
  hasMemory := rfl
  mem_iff key := by
    rw [iff_false_left (Finset.notMem_empty key)]
    rintro ⟨i, hi⟩
    cases hi
  size_eq := rfl
  serial_lt key i hi := nomatch hi
  key_eq key key' i i' hi := nomatch hi

theorem Interned.get?_eq_none (h : s.Interned known) (hkey : key ∉ known) :
    s.cache.get? key = none := by
  rw [Option.eq_none_iff_forall_ne_some]
  intro i hi
  exact hkey ((h.mem_iff key).mpr ⟨i, hi⟩)

/-- A new instance for a new line. -/
theorem Interned.mint (h : s.Interned known) (hkey : key ∉ known) (f : Formula) :
    (⟨(s.cache.insert key ⟨s.nextSerial, f⟩).2, s.nextSerial + 1⟩ : Store).Interned
      (insert key known) := by
  have hget := fun k =>
    Cache.get?_insert (i := ⟨s.nextSerial, f⟩) h.hasMemory (h.get?_eq_none hkey) k
  -- An entry is the new one, or it was there and has a smaller serial.
  have hcases : ∀ k i, (s.cache.insert key ⟨s.nextSerial, f⟩).2.get? k = some i →
      (k = key ∧ i.serial = s.nextSerial) ∨
        (s.cache.get? k = some i ∧ i.serial < s.nextSerial) := by
    intro k i hi
    rw [hget] at hi
    split at hi
    · next hk =>
      cases hi
      exact Or.inl ⟨hk, rfl⟩
    · exact Or.inr ⟨hi, h.serial_lt k i hi⟩
  refine ⟨(Cache.hasMemory_insert ..).trans h.hasMemory, ?_, ?_, ?_, ?_⟩
  · intro k
    dsimp only
    rw [Finset.mem_insert, hget, h.mem_iff]
    by_cases hk : k = key
    · simp [hk]
    · simp [hk]
  · rw [Cache.size_insert h.hasMemory (h.get?_eq_none hkey), h.size_eq,
      Finset.card_insert_of_notMem hkey]
  · intro k i hi
    show i.serial < s.nextSerial + 1
    rcases hcases k i hi with ⟨-, hserial⟩ | ⟨-, hserial⟩ <;> omega
  · intro k k' i i' hi hi' hserial
    rcases hcases k i hi with ⟨hk, hnew⟩ | ⟨hold, hlt⟩ <;>
      rcases hcases k' i' hi' with ⟨hk', hnew'⟩ | ⟨hold', hlt'⟩
    · rw [hk, hk']
    · omega
    · omega
    · exact h.key_eq k k' i i' hold hold' hserial

/-! ## What an operation leaves -/

/-- A line that was compiled, or can be, is handed out as the entry it has from then on. -/
theorem Interned.fetch_ok (h : s.Interned known) (hkey : key ∈ known ∨ Compiles policy key) :
    ∃ i s', s.fetch key (compileText policy key.toList) = (.ok i, s') ∧
      s'.Interned (insert key known) ∧ s.cache.Within s'.cache ∧
      s'.cache.get? key = some i := by
  by_cases hknown : key ∈ known
  · obtain ⟨i, hi⟩ := (h.mem_iff key).mp hknown
    refine ⟨i, s, ?_, ?_, Cache.Within.refl _, hi⟩
    · unfold fetch
      rw [hi]
    · rwa [Finset.insert_eq_of_mem hknown]
  · obtain ⟨f, hf⟩ := hkey.resolve_left hknown
    have hnone := h.get?_eq_none hknown
    have hget := fun k => Cache.get?_insert (i := ⟨s.nextSerial, f⟩) h.hasMemory hnone k
    rcases s.fetch_cases key (compileText policy key.toList) with
      ⟨i, hi, -⟩ | ⟨-, ⟨e, he, -⟩ | ⟨g, hg, hnew⟩⟩
    · rw [hnone] at hi
      cases hi
    · rw [hf] at he
      cases he
    · rw [hf] at hg
      cases hg
      refine ⟨_, _, hnew, h.mint hknown f, ?_, ?_⟩
      · intro k i hi
        dsimp only
        rw [hget, if_neg ?_]
        · exact hi
        · rintro rfl
          rw [hnone] at hi
          cases hi
      · dsimp only
        rw [hget, if_pos rfl]

theorem Interned.fetch_error (h : s.Interned known) (hkey : ¬ (key ∈ known ∨ Compiles policy key)) :
    ∃ e, s.fetch key (compileText policy key.toList) = (.error e, s) := by
  rw [not_or] at hkey
  have hnone := h.get?_eq_none hkey.1
  rcases s.fetch_cases key (compileText policy key.toList) with
    ⟨i, hi, -⟩ | ⟨-, ⟨e, -, he⟩ | ⟨f, hf, -⟩⟩
  · rw [hnone] at hi
    cases hi
  · exact ⟨e, he⟩
  · exact absurd ⟨f, hf⟩ hkey.2

/-- What any operation leaves: a memory of the lines compiled so far, with all entries it had. -/
structure Leaves (known : Finset String) (s s' : Store) : Prop where
  interned : s'.Interned known
  within : s.cache.Within s'.cache

theorem Interned.leaves_self (h : s.Interned known) : Leaves known s s := ⟨h, Cache.Within.refl _⟩

/-- The instances are the entries of the lines, one by one. -/
def HandsOut (s : Store) (ls : List String) (is : List Instance) : Prop :=
  List.Forall₂ (fun l i => s.cache.get? l = some i) ls is

theorem Interned.buildLines {ls : List (List Char)} (h : s.Interned known)
    (policy : DuplicatePolicy) (hls : ∀ l ∈ ls, ContentLine l) :
    let r := s.buildLines policy (ls.map String.ofList)
    Leaves (compileLines policy known (ls.map String.ofList)) s r.store ∧
      (r.error = none → r.store.HandsOut (ls.map String.ofList) r.built) := by
  induction ls generalizing s known with
  | nil => exact ⟨h.leaves_self, fun _ => .nil⟩
  | cons l ls ih =>
    have hbuild := build_line (hls l (List.mem_cons_self ..)) policy s
    rw [← String.toList_ofList (l := l), String.ofList_toList] at hbuild
    rw [List.map_cons, compileLines]
    by_cases hl : String.ofList l ∈ known ∨ Compiles policy (String.ofList l)
    · obtain ⟨i, s', hfetch, hs', hwithin, hentry⟩ := h.fetch_ok hl
      rw [hfetch] at hbuild
      obtain ⟨hrest, hhands⟩ := ih hs' fun k hk => hls k (List.mem_cons_of_mem _ hk)
      rw [buildLines_ok hbuild, if_pos hl]
      refine ⟨⟨hrest.interned, hwithin.trans hrest.within⟩, ?_⟩
      intro hnone
      exact .cons (hrest.within _ _ hentry) (hhands hnone)
    · obtain ⟨e, hfetch⟩ := h.fetch_error hl
      rw [hfetch] at hbuild
      rw [buildLines_error hbuild, if_neg hl]
      exact ⟨h.leaves_self, fun hnone => nomatch hnone⟩

/-! ## Batches -/

/-- A batch whose lines all parse is its lines built in order, any other fails and changes nothing. -/
theorem buildText_cases (policy : DuplicatePolicy) {cs text : List Char}
    (hform : normalForm? cs = some text) (s : Store) :
    let ls := (contentLines cs).map String.ofList
    ((∀ l ∈ ls, Parses l) ∧ s.buildText policy text =
        ((s.buildLines policy ls).outcome 1, (s.buildLines policy ls).store)) ∨
      ((¬ ∀ l ∈ ls, Parses l) ∧ ∃ e, s.buildText policy text = (.error e, s)) := by
  intro ls
  obtain ⟨hne, hjoin⟩ := Source.normalForm?_eq_some hform
  have hlines : Text.lines text = contentLines cs := by
    rw [hjoin]
    exact Source.lines_joinLines hne fun l => Source.contentLine_of_mem
  obtain ⟨hne, hjoin, hcontent⟩ := Source.normalForm?_lines hform
  have hparses : (∀ l ∈ ls, Parses l) ↔ ∀ l ∈ Text.lines text, ∃ st, parseStatement l = .ok st := by
    simp only [ls, Parses, List.forall_mem_map, String.toList_ofList, hlines]
  by_cases hall : ∀ l ∈ ls, Parses l
  · obtain ⟨sts, hsts⟩ := exists_forall₂_iff.mpr (hparses.mp hall)
    have hbuild := buildText_parsed hne hjoin hcontent hsts policy s
    rw [hlines] at hbuild
    exact Or.inl ⟨hall, hbuild⟩
  · refine Or.inr ⟨hall, ?_⟩
    rw [hparses] at hall
    push Not at hall
    obtain ⟨l, hl, hnot⟩ := hall
    cases hst : parseStatement l with
    | ok st => exact absurd hst (hnot st)
    | error e =>
      obtain ⟨e, he⟩ := buildText_unparsed hne hjoin hcontent hl hst policy s
      exact ⟨_, he⟩

theorem contentLines_of_normalForm?_eq_none {cs : List Char} (h : normalForm? cs = none) :
    contentLines cs = [] := by
  unfold normalForm? at h
  split at h
  · assumption
  · cases h

/-- The text of a batch: the memory takes in what it compiles, and the instances are the entries of its
    lines. A source without text compiles nothing. -/
theorem Interned.buildText (h : s.Interned known) (policy : DuplicatePolicy) (cs : List Char) :
    let ls := (contentLines cs).map String.ofList
    let r := s.buildText policy ((normalForm? cs).getD [])
    Leaves (if ∀ l ∈ ls, Parses l then compileLines policy known ls else known) s r.2 ∧
      ∀ is, r.1 = .ok is → r.2.HandsOut ls is := by
  intro ls r
  cases hform : normalForm? cs with
  | none =>
    obtain ⟨e, he⟩ := parse_nil
    have hempty : ls = [] := congrArg _ (contentLines_of_normalForm?_eq_none hform)
    have hbuild : r = (.error (.parse e), s) := by
      simp only [r, hform, Option.getD_none]
      exact buildText_error he policy s
    rw [hempty, if_pos (fun l hl => nomatch hl), hbuild]
    exact ⟨h.leaves_self, fun is his => nomatch his⟩
  | some text =>
    have hr : r = s.buildText policy text := by
      simp only [r, hform, Option.getD_some]
    rw [hr]
    rcases buildText_cases policy hform s with ⟨hall, hbuild⟩ | ⟨hnot, e, hbuild⟩
    · have hcontent : ∀ l ∈ contentLines cs, ContentLine l := fun l => Source.contentLine_of_mem
      obtain ⟨hleaves, hhands⟩ := h.buildLines policy hcontent
      rw [if_pos hall, hbuild]
      refine ⟨hleaves, ?_⟩
      intro is his
      unfold LineBuilds.outcome at his
      split at his
      · next hnone =>
        cases his
        exact hhands hnone
      · cases his
    · rw [if_neg hnot, hbuild]
      exact ⟨h.leaves_self, fun is his => nomatch his⟩

end Store

/-! ## Requests -/

namespace Session

variable {engines : List Engine} {policy : DuplicatePolicy} {known : Finset String} {s : Store}

/-- One request: the memory takes in what the request compiles, and the instances in the reply are the
    entries of the lines asked for. -/
theorem Request.serve_interned (q : Request) (h : s.Interned known) :
    let r := q.serve policy s
    s.Leaves (q.compiled policy known) r.2 ∧
      (r.1.instances = [] ∨ r.2.HandsOut q.sources r.1.instances) := by
  cases q with
  | build input =>
    cases hform : normalForm? input.toText.toList with
    | none =>
      have hbuild : s.build policy input.toText = (.error .emptyFormula, s) := by
        unfold Store.build
        rw [hform]
      simp only [serve, compiled, sources, hform, hbuild]
      exact ⟨h.leaves_self, Or.inl rfl⟩
    | some text =>
      have hbuild := Store.build_of_normalForm? hform policy s
      rw [← String.toList_ofList (l := text), String.ofList_toList] at hbuild
      simp only [serve, compiled, sources, hform, Option.toList_some, List.map_cons, List.map_nil,
        compileLines]
      by_cases hl : String.ofList text ∈ known ∨ Compiles policy (String.ofList text)
      · obtain ⟨i, s', hfetch, hs', hwithin, hentry⟩ := h.fetch_ok hl
        rw [if_pos hl, hbuild, hfetch]
        exact ⟨⟨hs', hwithin⟩, Or.inr (.cons hentry .nil)⟩
      · obtain ⟨e, hfetch⟩ := h.fetch_error hl
        rw [if_neg hl, hbuild, hfetch]
        exact ⟨h.leaves_self, Or.inl rfl⟩
  | buildAll input =>
    obtain ⟨hleaves, hhands⟩ := h.buildText policy input.toText.toList
    cases hform : normalForm? input.toText.toList with
    | none =>
      have hbuild : s.buildAll policy input.toText = (.error .emptyFormula, s) := by
        unfold Store.buildAll
        rw [hform]
      have hempty := Store.contentLines_of_normalForm?_eq_none hform
      simp only [serve, compiled, sources, hempty, hbuild]
      exact ⟨h.leaves_self, Or.inl rfl⟩
    | some text =>
      rw [hform, Option.getD_some, ← Store.buildAll_of_normalForm? hform] at hleaves hhands
      refine ⟨hleaves, ?_⟩
      unfold serve
      dsimp only
      cases hresult : (s.buildAll policy input.toText).1 with
      | error e => exact Or.inl rfl
      | ok is => exact Or.inr (hhands is hresult)
  | validate input =>
    obtain ⟨hleaves, -⟩ := h.buildText policy input.toText.toList
    refine ⟨?_, Or.inl rfl⟩
    unfold serve
    dsimp only
    rw [Store.validate_eq]
    exact hleaves
  | normalize input => exact ⟨h.leaves_self, Or.inl rfl⟩

/-- A reply without instances, or with one for each line, shows all of them. -/
theorem Request.map_snd_shown {q : Request} {reply : Reply}
    (h : reply.instances = [] ∨ s.HandsOut q.sources reply.instances) :
    (q.shown reply).map Prod.snd = reply.instances := by
  unfold shown
  rcases h with hnil | hhands
  · rw [hnil, List.zip_nil_right, List.map_nil]
  · exact List.map_snd_zip (List.Forall₂.length_eq hhands).ge

theorem Request.entry_of_mem_shown {q : Request} {reply : Reply}
    (h : reply.instances = [] ∨ s.HandsOut q.sources reply.instances) {p : String × Instance}
    (hp : p ∈ q.shown reply) : s.cache.get? p.1 = some p.2 := by
  unfold shown at hp
  rcases h with hnil | hhands
  · rw [hnil, List.zip_nil_right] at hp
    cases hp
  · exact List.forall₂_zip hhands hp

/-! ## Runs -/

/-- One call, of an engine that is there or not. -/
theorem step_interned (hengines : ∀ e ∈ engines, e.cache = 0) (call : Nat × Request)
    (h : s.Interned known) :
    let r := (⟨engines, [s.cache], s.nextSerial⟩ : Session).step (call.2.toStep call.1)
    ∃ s' : Store, r.2 = ⟨engines, [s'.cache], s'.nextSerial⟩ ∧
      s.Leaves (compiledByCall engines known call) s' ∧
      (r.1.instances = [] ∨ s'.HandsOut call.2.sources r.1.instances) := by
  obtain ⟨n, q⟩ := call
  unfold compiledByCall
  cases he : engines[n]? with
  | none =>
    dsimp only
    rw [step_toStep_none he]
    exact ⟨s, rfl, h.leaves_self, Or.inl rfl⟩
  | some e =>
    dsimp only
    rw [step_toStep he (hengines e (List.mem_of_getElem? he))]
    exact ⟨_, rfl, q.serve_interned h⟩

/-- A run of requests by engines on one memory: it takes in the lines that are compiled, keeps every
    entry it had, and each instance handed out is the entry of its line. -/
theorem run_interned (hengines : ∀ e ∈ engines, e.cache = 0) (calls : List (Nat × Request))
    (h : s.Interned known) :
    let r := run ⟨engines, [s.cache], s.nextSerial⟩ (calls.map fun q => q.2.toStep q.1)
    ∃ s' : Store, r.2 = ⟨engines, [s'.cache], s'.nextSerial⟩ ∧
      s.Leaves (calls.foldl (compiledByCall engines) known) s' ∧
      ∀ p ∈ calls.zip r.1, p.2.instances = [] ∨ s'.HandsOut p.1.2.sources p.2.instances := by
  induction calls generalizing s known with
  | nil => exact ⟨s, rfl, h.leaves_self, by simp⟩
  | cons call calls ih =>
    obtain ⟨s', hstep, hfirst, hreply⟩ := step_interned hengines call h
    obtain ⟨s'', hrun, hleaves, hreplies⟩ := ih hfirst.interned
    rw [← hstep] at hrun hreplies
    rw [List.map_cons, run_cons rfl, List.foldl_cons]
    refine ⟨s'', hrun, ⟨hleaves.interned, hfirst.within.trans hleaves.within⟩, ?_⟩
    intro p hp
    rcases List.mem_cons.mp hp with rfl | hp
    · exact hreply.imp_right fun hhands => hhands.imp fun l i => hleaves.within l i
    · exact hreplies p hp

theorem share_append (engines : List Engine) (before after : List (Nat × Request)) :
    (share engines (before ++ after)).2 =
      ((share engines before).2.run (after.map fun q => q.2.toStep q.1)).2 := by
  unfold share
  rw [List.map_append, run_append]

/-- Engines share a memory that is empty at first, whatever their options and whatever they are asked.
    Each instance in a reply was built from a line, and two of them, wherever they are handed out, are
    one just when their lines are equal. After any of the calls the memory has as many entries as lines
    were compiled until then, and it has all of them ever after. -/
theorem run_instances_by_line (engines : List Engine) (hengines : ∀ e ∈ engines, e.cache = 0)
    (before after : List (Nat × Request)) :
    let calls := before ++ after
    let replies := (share engines calls).1
    (∀ p ∈ calls.zip replies, (p.1.2.shown p.2).map Prod.snd = p.2.instances) ∧
    (∀ p ∈ shown calls replies, ∀ p' ∈ shown calls replies,
      (p.2.serial = p'.2.serial ↔ p.1 = p'.1) ∧ (p.1 = p'.1 → p.2 = p'.2)) ∧
    ∃ kept last, (share engines before).2.caches = [kept] ∧ (share engines calls).2.caches = [last] ∧
      kept.size = (compiledLines engines before).card ∧
      last.size = (compiledLines engines calls).card ∧
      ∀ key i, kept.get? key = some i → last.get? key = some i := by
  intro calls replies
  obtain ⟨s, hbefore, hs, -⟩ := run_interned hengines before Store.interned_empty
  obtain ⟨s', hafter, hs', -⟩ := run_interned hengines after hs.interned
  obtain ⟨last, hcalls, hlast, hreplies⟩ := run_interned hengines calls Store.interned_empty
  have hsame : s'.cache = last.cache := by
    have hjoin := share_append engines before after
    unfold share at hjoin
    rw [hbefore, hafter, hcalls] at hjoin
    exact (List.head_eq_of_cons_eq (congrArg Session.caches hjoin)).symm
  have hentries : ∀ p ∈ shown calls replies, last.cache.get? p.1 = some p.2 := by
    intro p hp
    obtain ⟨c, hc, hpc⟩ := List.mem_flatMap.mp hp
    exact Request.entry_of_mem_shown (hreplies c hc) hpc
  refine ⟨fun p hp => Request.map_snd_shown (hreplies p hp), ?_, s.cache, last.cache,
    congrArg Session.caches hbefore, congrArg Session.caches hcalls, hs.interned.size_eq,
    hlast.interned.size_eq, hsame ▸ hs'.within⟩
  intro p hp p' hp'
  have hone := hentries p hp
  have hother := hentries p' hp'
  have heq : p.1 = p'.1 → p.2 = p'.2 := by
    intro hline
    rw [hline] at hone
    exact Option.some.inj (hone.symm.trans hother)
  refine ⟨⟨hlast.interned.key_eq _ _ _ _ hone hother, ?_⟩, heq⟩
  intro hline
  rw [heq hline]

/-- The line that a failing batch compiled is found again by another engine, and one compiled while
    validating by a batch. -/
theorem run_instances_by_line_failing :
    let engines : List Engine := [⟨0, ⟨true, .lastWins⟩⟩, ⟨0, ⟨false, .reject⟩⟩]
    let before : List (Nat × Request) := [(0, .buildAll (.text "installment \nx"))]
    let after : List (Nat × Request) := [(1, .build (.text " installment")),
      (0, .validate (.text "installment.lasts('1 month')")),
      (1, .buildAll (.text "installment\n\n\tinstallment.lasts('1 month')"))]
    let instances := shown (before ++ after) (share engines (before ++ after)).1
    (∀ e ∈ engines, e.cache = 0) ∧
    instances.map Prod.fst = ["installment", "installment", "installment.lasts('1 month')"] ∧
    (∀ p ∈ instances, ∀ p' ∈ instances, p.2.serial = p'.2.serial ↔ p.1 = p'.1) ∧
    ∃ kept last, (share engines before).2.caches = [kept] ∧
      (share engines (before ++ after)).2.caches = [last] ∧ kept.size = 1 ∧ last.size = 2 := by
  intro engines before after instances
  have hengines : ∀ e ∈ engines, e.cache = 0 := by decide
  have hlines : instances.map Prod.fst =
      ["installment", "installment", "installment.lasts('1 month')"] := by decide +kernel
  have hkept : (compiledLines engines before).card = 1 := by decide +kernel
  have hlast : (compiledLines engines (before ++ after)).card = 2 := by decide +kernel
  obtain ⟨-, hsame, kept, last, hbefore, hafter, hsize, hsize', -⟩ :=
    run_instances_by_line engines hengines before after
  exact ⟨hengines, hlines, fun p hp p' hp' => (hsame p hp p' hp').1, kept, last, hbefore, hafter,
    hsize.trans hkept, hsize'.trans hlast⟩

end Session

end Tariff
