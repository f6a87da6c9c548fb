/-
  What becomes of the policy `reject` on a shared memory. A hit is handed out without a look at the
  chain it came from, so an engine with this policy accepts a chain that fills a slot twice once an
  engine that lets it pass was asked for it. Only then: the lines kept that fill a slot twice are lines
  that such an engine was asked for (`run_mayKeep`).
-/
import Tariff.Proofs.Compile.Slots
import Tariff.Proofs.Engine.Keeps

namespace Tariff

open Source (ContentLine Input contentLines normalForm? parseStatement)

/-- A line whose chain fills a slot twice. -/
def LineFillsTwice (l : List Char) : Prop := ∃ st, parseStatement l = .ok st ∧ st.FillsTwice

theorem compileText_reject_of_fillsTwice {l : List Char} (h : LineFillsTwice l) (f : Formula) :
    compileText .reject l ≠ .ok f := by
  obtain ⟨st, hst, htwice⟩ := h
  rw [Store.compileText_of_ok hst]
  exact fun hf => not_fillsTwice_of_compile hf htwice

/-- A text whose normal form is a single line has just this line. -/
theorem contentLines_of_contentLine {cs text : List Char} (hform : normalForm? cs = some text)
    (h : ContentLine text) : contentLines cs = [text] := by
  obtain ⟨hne, htext⟩ := Source.normalForm?_eq_some hform
  have hlines := Source.contentLines_joinLines hne fun l => Source.contentLine_of_mem
  have hsingle := Source.contentLines_joinLines (List.cons_ne_nil text []) fun l hl =>
    List.mem_singleton.mp hl ▸ h
  rw [← htext] at hlines
  rw [Text.joinLines_singleton] at hsingle
  exact hlines.symm.trans hsingle

namespace Session

def Request.input : Request → Input
  | .build input | .buildAll input | .validate input | .normalize input => input

/-- The lines of the source that a request is about, each a statement of its own. -/
def Request.lines (q : Request) : List (List Char) := contentLines q.input.toText.toList

/-- A reply that finds no fault with the source. -/
def Reply.Accepts : Reply → Prop
  | .built _ | .builtAll _ | .validated none => True
  | _ => False

/-- An engine that lets the last call for a slot win was asked for this line. -/
def AskedLastWins (engines : List Engine) (calls : List (Nat × Request)) (l : List Char) : Prop :=
  ∃ q ∈ calls, l ∈ q.2.lines ∧
    ∃ e, engines[q.1]? = some e ∧ e.options.duplicates = .lastWins

/-- A key that may be kept after these calls: a line, and if it fills a slot twice, then one that an
    engine was asked for that lets it pass. -/
def MayKeep (engines : List Engine) (calls : List (Nat × Request)) (key : String) (_ : Formula) :
    Prop :=
  ContentLine key.toList ∧ (LineFillsTwice key.toList → AskedLastWins engines calls key.toList)

variable {engines : List Engine} {calls more : List (Nat × Request)} {policy : DuplicatePolicy}
  {P : String → Formula → Prop} {s : Store}

/-! ## One request -/

/-- Let only lines be kept. A request that is accepted has the property on all its lines. -/
theorem Request.serve_keeps (q : Request) (hP : ∀ key f, P key f → ContentLine key.toList)
    (h : s.cache.Keeps P) (hq : Yields policy P q.lines) :
    (q.serve policy s).2.cache.Keeps P ∧
      ((q.serve policy s).1.Accepts → ∀ l ∈ q.lines, ∃ f, P (String.ofList l) f) := by
  have hall : ∀ {is : List Instance},
      List.Forall₂ (fun l i => P (String.ofList l) i.formula) q.lines is →
        ∀ l ∈ q.lines, ∃ f, P (String.ofList l) f := by
    intro is his
    refine exists_forall₂_iff.mp ⟨is.map Instance.formula, ?_⟩
    rwa [List.forall₂_map_right_iff]
  cases q with
  | build input =>
    obtain ⟨hkeeps, hbuilt⟩ := Store.build_keeps h hq
    refine ⟨hkeeps, ?_⟩
    intro haccepts l hl
    unfold serve at haccepts
    dsimp only at haccepts
    cases hresult : (s.build policy input.toText).1 with
    | error e =>
      rw [hresult] at haccepts
      exact haccepts.elim
    | ok i =>
      obtain ⟨text, hform, hi⟩ := hbuilt i hresult
      have htext := hP _ _ hi
      rw [String.toList_ofList] at htext
      have hsingle : Request.lines (.build input) = [text] := contentLines_of_contentLine hform htext
      rw [hsingle, List.mem_singleton] at hl
      exact ⟨i.formula, hl ▸ hi⟩
  | buildAll input =>
    obtain ⟨hkeeps, hbuilt⟩ := Store.buildAll_keeps h hq
    refine ⟨hkeeps, ?_⟩
    intro haccepts
    unfold serve at haccepts
    dsimp only at haccepts
    cases hresult : (s.buildAll policy input.toText).1 with
    | error e =>
      rw [hresult] at haccepts
      exact haccepts.elim
    | ok is => exact hall (hbuilt is hresult)
  | validate input =>
    obtain ⟨hkeeps, hbuilt⟩ := Store.validate_keeps h hq
    refine ⟨hkeeps, ?_⟩
    intro haccepts
    unfold serve at haccepts
    dsimp only at haccepts
    cases hresult : (s.validate policy input.toText).1 with
    | some message =>
      rw [hresult] at haccepts
      exact haccepts.elim
    | none =>
      obtain ⟨is, his⟩ := hbuilt hresult
      exact hall his
  | normalize input => exact ⟨h, False.elim⟩

theorem contentLine_of_mem_lines {q : Request} {l : List Char} (h : l ∈ q.lines) : ContentLine l :=
  Source.contentLine_of_mem h

theorem mayKeep_append {key : String} {f : Formula} (h : MayKeep engines calls key f) :
    MayKeep engines (calls ++ more) key f := by
  refine ⟨h.1, ?_⟩
  intro htwice
  obtain ⟨q, hq, hrest⟩ := h.2 htwice
  exact ⟨q, List.mem_append_left _ hq, hrest⟩

/-- What an engine compiles when it is asked may be kept after that. -/
theorem yields_mayKeep {n : Nat} {e : Engine} (he : engines[n]? = some e) (q : Request) :
    Yields e.options.duplicates (MayKeep engines (calls ++ [(n, q)])) q.lines := by
  intro l hl f hf
  unfold MayKeep
  rw [String.toList_ofList]
  refine ⟨contentLine_of_mem_lines hl, ?_⟩
  intro htwice
  cases hpolicy : e.options.duplicates with
  | reject =>
    rw [hpolicy] at hf
    exact absurd hf (compileText_reject_of_fillsTwice htwice f)
  | lastWins =>
    exact ⟨(n, q), List.mem_append_right _ (List.mem_singleton_self _), hl, e, he, hpolicy⟩

/-! ## Runs -/

theorem step_toStep_none {n : Nat} (hn : engines[n]? = none) (caches : List Cache) (serial : Nat)
    (q : Request) :
    (⟨engines, caches, serial⟩ : Session).step (q.toStep n) =
      (.missing, ⟨engines, caches, serial⟩) := by
  cases q <;> simp [step, Request.toStep, onEngine, hn]

/-- A run of requests by engines on one cache leaves there only what may be kept. -/
theorem run_mayKeep (more : List (Nat × Request)) (hengines : ∀ e ∈ engines, e.cache = 0)
    (hs : s.cache.Keeps (MayKeep engines calls)) :
    ∃ s' : Store, s'.cache.Keeps (MayKeep engines (calls ++ more)) ∧
      (run ⟨engines, [s.cache], s.nextSerial⟩ (more.map fun q => q.2.toStep q.1)).2 =
        ⟨engines, [s'.cache], s'.nextSerial⟩ := by
  induction more generalizing calls s with
  | nil =>
    rw [List.append_nil]
    exact ⟨s, hs, rfl⟩
  | cons q more ih =>
    obtain ⟨n, q⟩ := q
    have hmore : s.cache.Keeps (MayKeep engines (calls ++ [(n, q)])) :=
      hs.mono fun key f => mayKeep_append
    rw [List.append_cons, List.map_cons]
    cases he : engines[n]? with
    | none =>
      rw [run_cons (step_toStep_none he _ _ _)]
      exact ih hmore
    | some e =>
      have hstep := step_toStep he (hengines e (List.mem_of_getElem? he)) s.cache s.nextSerial q
      rw [run_cons hstep]
      exact ih (q.serve_keeps (fun key f h => h.1) hmore (yields_mayKeep he q)).1

theorem run_append (s : Session) (as bs : List Step) :
    s.run (as ++ bs) = ((s.run as).1 ++ ((s.run as).2.run bs).1, ((s.run as).2.run bs).2) := by
  induction as generalizing s with
  | nil => rfl
  | cons a as ih =>
    rw [List.cons_append, run_cons rfl, run_cons rfl, ih]
    rfl

theorem length_run (s : Session) (as : List Step) : (s.run as).1.length = as.length := by
  induction as generalizing s with
  | nil => rfl
  | cons a as ih =>
    rw [run_cons rfl, List.length_cons, List.length_cons, ih]

/-- Engines share a memory that is empty at first. Whatever they are asked, an engine that rejects
    finds fault with a source in which a line fills a slot twice, unless an engine that lets the last
    call win was asked for this line before. -/
theorem run_reject_unasked (engines : List Engine) (hengines : ∀ e ∈ engines, e.cache = 0)
    (before after : List (Nat × Request)) (n : Nat) (q : Request) (e : Engine)
    (he : engines[n]? = some e) (hpolicy : e.options.duplicates = .reject) (l : List Char)
    (hl : l ∈ q.lines) (htwice : LineFillsTwice l) (hasked : ¬ AskedLastWins engines before l) :
    ∃ reply, (run ⟨engines, [.empty], 0⟩
        ((before ++ (n, q) :: after).map fun q => q.2.toStep q.1)).1[before.length]? = some reply ∧
      ¬ reply.Accepts := by
  have hempty : (⟨.empty, 0⟩ : Store).cache.Keeps (MayKeep engines []) := Cache.keeps_of_size rfl
  obtain ⟨s, hs, hrun⟩ := run_mayKeep before hengines hempty
  rw [List.nil_append] at hs
  have hstep := step_toStep he (hengines e (List.mem_of_getElem? he)) s.cache s.nextSerial q
  refine ⟨(q.serve e.options.duplicates s).1, ?_, ?_⟩
  · rw [List.map_append, run_append, List.map_cons, hrun, run_cons hstep,
      List.getElem?_append_right (by rw [length_run, List.length_map]), length_run,
      List.length_map, Nat.sub_self]
    rfl
  · -- Rejecting compiles no such line, so an accepted one would have been kept before.
    intro haccepts
    have hyields : Yields e.options.duplicates (MayKeep engines before) q.lines := by
      intro k hk f hf
      unfold MayKeep
      rw [String.toList_ofList]
      refine ⟨contentLine_of_mem_lines hk, ?_⟩
      intro hk
      rw [hpolicy] at hf
      exact absurd hf (compileText_reject_of_fillsTwice hk f)
    obtain ⟨f, hf⟩ := (q.serve_keeps (fun key f h => h.1) hs hyields).2 haccepts l hl
    have hkept := hf.2
    rw [String.toList_ofList] at hkept
    exact hasked (hkept htwice)

theorem lineFillsTwice_terms :
    LineFillsTwice "installment.lasts('2 months').lasts('4 months')".toList := by
  have hparse : parseStatement "installment.lasts('2 months').lasts('4 months')".toList =
      .ok (.chain ⟨"installment", [], ⟨1, 1⟩⟩ [⟨"lasts", [.str "2 months"], ⟨1, 13⟩⟩,
        ⟨"lasts", [.str "4 months"], ⟨1, 31⟩⟩]) := by decide +kernel
  exact ⟨_, hparse, .installment, by decide, by decide⟩

/-- A chain for two terms is refused, though another was built before by an engine that would let it
    pass. -/
theorem run_reject_unasked_terms :
    ∃ reply, (run ⟨[⟨0, ⟨true, .lastWins⟩⟩, ⟨0, ⟨true, .reject⟩⟩], [.empty], 0⟩
        [.build 0 "installment.lasts('1 month').lasts('4 months')",
          .build 1 "installment.lasts('2 months').lasts('4 months')"]).1[1]? = some reply ∧
      ¬ reply.Accepts := by
  have hlines : Request.lines (.build (.text "installment.lasts('2 months').lasts('4 months')")) =
      ["installment.lasts('2 months').lasts('4 months')".toList] := by decide +kernel
  have hbefore : Request.lines (.build (.text "installment.lasts('1 month').lasts('4 months')")) =
      ["installment.lasts('1 month').lasts('4 months')".toList] := by decide +kernel
  refine run_reject_unasked [⟨0, ⟨true, .lastWins⟩⟩, ⟨0, ⟨true, .reject⟩⟩] (by simp)
    [(0, .build (.text "installment.lasts('1 month').lasts('4 months')"))] [] 1
    (.build (.text "installment.lasts('2 months').lasts('4 months')")) _ rfl rfl _
    (hlines ▸ List.mem_singleton_self _) lineFillsTwice_terms ?_
  rintro ⟨q, hq, hl, -⟩
  rw [List.mem_singleton.mp hq, hbefore, List.mem_singleton] at hl
  revert hl
  decide

/-- Once an engine that lets the last call win was asked for it, the chain is accepted. -/
theorem run_reject_after_lastWins :
    LineFillsTwice "installment.lasts('2 months').lasts('4 months')".toList ∧
    ∃ reply, (run ⟨[⟨0, ⟨true, .lastWins⟩⟩, ⟨0, ⟨true, .reject⟩⟩], [.empty], 0⟩
        [.build 0 "installment.lasts('2 months').lasts('4 months')",
          .build 1 "installment.lasts('2 months').lasts('4 months')"]).1[1]? = some reply ∧
      reply.Accepts := by
  refine ⟨lineFillsTwice_terms, ?_⟩
  have hbuild : (Store.build .reject "installment.lasts('2 months').lasts('4 months')"
      (Store.build .lastWins "installment.lasts('2 months').lasts('4 months')" ⟨.empty, 0⟩).2).1 =
      .ok ⟨0, .installment (some ⟨4, .month⟩) ⟨none, none, none⟩⟩ := by decide +kernel
  exact ⟨_, congrArg (fun r => some (Reply.ofBuild r)) hbuild, trivial⟩

end Session

end Tariff
