/-
  The slots that the calls of a chain fill. The policies differ only on chains that fill a slot twice:
  `reject` compiles just what `lastWins` compiles and does not fill a slot twice, to the same formula
  (`compile_reject_eq_ok_iff`).
-/
import Tariff.Compile.Chain
import Tariff.Proofs.Except
import Mathlib.Data.List.Nodup

namespace Tariff

open Source (Call Literal Statement)

/-- The slot that this addon fills. -/
def Addon.slot : Addon → Slot
  | .fixed => .value
  | .lasts => .term
  | .reason => .reason
  | .relative => .value
  | .since => .since
  | .till => .till

/-- The slots that calls fill in order, as far as the modifier knows their addons. -/
def Modifier.slots (m : Modifier) (cs : List Call) : List Slot :=
  cs.filterMap fun c => (m.addon? c.name).map Addon.slot

/-- A chain in which two calls fill one slot. -/
def Source.Statement.FillsTwice : Statement → Prop
  | .literal _ _ => False
  | .chain head rest => ∃ m, Modifier.ofName? head.name = some m ∧ ¬ (m.slots rest).Nodup

/-! ## One call -/

theorem args_of_onlyArg {c : Call} {l : Literal} (h : c.onlyArg = .ok l) : c.args = [l] := by
  unfold Source.Call.onlyArg at h
  split at h
  · next hargs =>
    cases h
    exact hargs
  · cases h

/-- An addon that reads its argument sets what its slot is for. -/
theorem Addon.slot_of_read {a : Addon} {c : Call} {s : Setting} (h : a.read c = .ok s) :
    s.slot = a.slot := by
  obtain ⟨l, -, h⟩ := of_bind_eq_ok h
  cases a
  all_goals
    obtain ⟨x, -, h⟩ := of_bind_eq_ok h
    cases h
    rfl

theorem Modifier.slots_cons {m : Modifier} {c : Call} {a : Addon} (h : m.addon? c.name = some a)
    (cs : List Call) : m.slots (c :: cs) = a.slot :: m.slots cs := by
  unfold Modifier.slots
  rw [List.filterMap_cons, h]
  rfl

namespace Draft

variable {policy : DuplicatePolicy} {m : Modifier} {d d' : Draft} {c : Call} {cs : List Call}

theorem filled_set (d : Draft) (s : Setting) (t : Slot) :
    (d.set s).filled t = true ↔ t = s.slot ∨ d.filled t = true := by
  cases s <;> cases t <;> simp [set, filled, Setting.slot]

theorem not_filled_empty (t : Slot) : ¬ ({} : Draft).filled t = true := by
  cases t <;> decide

/-- What a call that is taken in does to a draft. -/
theorem call_eq_ok (h : d.call policy m c = .ok d') :
    ∃ a s, m.addon? c.name = some a ∧ a.read c = .ok s ∧ d' = d.set s ∧
      (policy = .reject → ¬ d.filled s.slot = true) := by
  unfold call at h
  cases ha : m.addon? c.name with
  | none =>
    rw [ha] at h
    cases h
  | some a =>
    rw [ha] at h
    dsimp only at h
    cases hs : a.read c with
    | error e =>
      rw [hs] at h
      cases h
    | ok s =>
      rw [hs] at h
      dsimp only [apply] at h
      split at h
      · cases h
      · next hfree =>
        cases h
        exact ⟨a, s, rfl, hs, rfl, fun hpolicy hfilled => hfree ⟨hfilled, hpolicy⟩⟩

/-- A call for a slot that is free is taken alike under all policies. -/
theorem call_eq_of_free {a : Addon} (ha : m.addon? c.name = some a)
    (hfree : ¬ d.filled a.slot = true) : d.call .reject m c = d.call .lastWins m c := by
  unfold call
  rw [ha]
  dsimp only
  cases hs : a.read c with
  | error e => rfl
  | ok s =>
    rw [← Addon.slot_of_read hs] at hfree
    dsimp only [apply]
    rw [if_neg fun h => hfree h.1, if_neg fun h => nomatch h.2]

/-! ## All calls -/

/-- Calls taken in without a refusal fill slots that were free, and none of them twice. -/
theorem slots_nodup_of_calls (h : d.calls .reject m cs = .ok d') :
    (m.slots cs).Nodup ∧ ∀ t ∈ m.slots cs, ¬ d.filled t = true := by
  induction cs generalizing d with
  | nil => exact ⟨List.nodup_nil, fun t ht => nomatch ht⟩
  | cons c cs ih =>
    rw [calls] at h
    cases hcall : d.call .reject m c with
    | error e =>
      rw [hcall] at h
      cases h
    | ok next =>
      rw [hcall] at h
      obtain ⟨hnodup, hfree⟩ := ih h
      obtain ⟨a, s, ha, hs, rfl, hslot⟩ := call_eq_ok hcall
      rw [Modifier.slots_cons ha, List.nodup_cons, ← Addon.slot_of_read hs]
      refine ⟨⟨?_, hnodup⟩, ?_⟩
      · exact fun hmem => hfree _ hmem ((d.filled_set s _).mpr (Or.inl rfl))
      · intro t ht
        rcases List.mem_cons.mp ht with rfl | ht
        · exact hslot rfl
        · exact fun hfilled => hfree t ht ((d.filled_set s t).mpr (Or.inr hfilled))

/-- Calls that fill free slots, none of them twice, are taken alike under all policies. -/
theorem calls_eq_of_nodup (hnodup : (m.slots cs).Nodup)
    (hfree : ∀ t ∈ m.slots cs, ¬ d.filled t = true) :
    d.calls .reject m cs = d.calls .lastWins m cs := by
  induction cs generalizing d with
  | nil => rfl
  | cons c cs ih =>
    rw [calls, calls]
    cases ha : m.addon? c.name with
    | none =>
      simp only [call, ha]
    | some a =>
      rw [Modifier.slots_cons ha] at hnodup hfree
      rw [List.nodup_cons] at hnodup
      rw [call_eq_of_free ha (hfree _ (List.mem_cons_self ..))]
      cases hcall : d.call .lastWins m c with
      | error e => rfl
      | ok next =>
        obtain ⟨a', s, ha', hs, rfl, -⟩ := call_eq_ok hcall
        obtain rfl : a = a' := Option.some.inj (ha.symm.trans ha')
        apply ih hnodup.2
        intro t ht hfilled
        rcases (d.filled_set s t).mp hfilled with rfl | hfilled
        · rw [Addon.slot_of_read hs] at ht
          exact hnodup.1 ht
        · exact hfree t (List.mem_cons_of_mem _ ht) hfilled

end Draft

/-! ## Statements -/

theorem readHead_eq_ok {head : Call} {m : Modifier} (h : readHead head = .ok m) :
    Modifier.ofName? head.name = some m := by
  unfold readHead at h
  split at h
  · cases h
  · next m' hm =>
    split at h
    · cases h
      exact hm
    · cases h

/-- All that compiling a chain takes. -/
theorem compileChain_eq_ok {policy : DuplicatePolicy} {head : Call} {rest : List Call} {f : Formula}
    (h : compileChain policy head rest = .ok f) :
    ∃ m d, readHead head = .ok m ∧ Draft.calls policy m {} rest = .ok d ∧ d.finish m = .ok f := by
  unfold compileChain at h
  split at h
  · cases h
  · next m hm =>
    split at h
    · cases h
    · next d hd => exact ⟨m, d, hm, hd, h⟩

theorem compile_eq_of_not_fillsTwice {st : Statement} (h : ¬ st.FillsTwice) :
    compile .reject st = compile .lastWins st := by
  cases st with
  | literal value pos => rfl
  | chain head rest =>
    show compileChain .reject head rest = compileChain .lastWins head rest
    unfold compileChain
    cases hm : readHead head with
    | error e => rfl
    | ok m =>
      have hnodup : (m.slots rest).Nodup := by
        by_contra hdup
        exact h ⟨m, readHead_eq_ok hm, hdup⟩
      dsimp only
      rw [Draft.calls_eq_of_nodup hnodup fun t _ => Draft.not_filled_empty t]

theorem not_fillsTwice_of_compile {st : Statement} {f : Formula}
    (h : compile .reject st = .ok f) : ¬ st.FillsTwice := by
  cases st with
  | literal value pos => exact id
  | chain head rest =>
    rintro ⟨m, hm, hdup⟩
    obtain ⟨m', d, hhead, hcalls, -⟩ := compileChain_eq_ok h
    obtain rfl : m = m' := Option.some.inj (hm.symm.trans (readHead_eq_ok hhead))
    exact hdup (Draft.slots_nodup_of_calls hcalls).1

/-- What `reject` compiles is what `lastWins` compiles and does not fill a slot twice. -/
theorem compile_reject_eq_ok_iff {st : Statement} {f : Formula} :
    compile .reject st = .ok f ↔ compile .lastWins st = .ok f ∧ ¬ st.FillsTwice := by
  constructor
  · intro h
    have htwice := not_fillsTwice_of_compile h
    rw [compile_eq_of_not_fillsTwice htwice] at h
    exact ⟨h, htwice⟩
  · rintro ⟨h, htwice⟩
    rwa [compile_eq_of_not_fillsTwice htwice]

end Tariff
