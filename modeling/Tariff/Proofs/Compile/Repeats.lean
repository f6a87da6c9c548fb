/-
  Chains that fill a slot twice, and chains that fail. Both policies read a chain alike up to the first
  call that is accepted and fills a slot filled before it: there `reject` stops with an error that names
  this call, and on chains without such a call the policies agree. What a chain fails with is decided by
  the calls up to the one that fails, so calls behind it change nothing (`compile_policies`).
-/
import Tariff.Proofs.Compile.LastCalls

namespace Tariff

open Source (Call Statement)

/-- The calls are accepted and fill no slot twice, and then a call is accepted that fills one of their
    slots. -/
def Modifier.Repeats (m : Modifier) (before : List Call) (c : Call) : Prop :=
  ∃ ss s, m.Reads before ss ∧ (ss.map Setting.slot).Nodup ∧ m.read c = .ok s ∧
    s.slot ∈ ss.map Setting.slot

/-- The first call in a chain that fills a slot once more; nothing before it fails. -/
def Source.Statement.RepeatsAt (st : Statement) (c : Call) : Prop :=
  ∃ head before after m, st = .chain head (before ++ c :: after) ∧ readHead head = .ok m ∧
    m.Repeats before c

/-! ## Calls in sequence -/

namespace Draft

variable {policy : DuplicatePolicy} {m : Modifier} {d : Draft} {before rest : List Call}
  {ss : List Setting} {e : CompileError}

theorem calls_cons (policy : DuplicatePolicy) (m : Modifier) (d : Draft) (c : Call) (cs : List Call) :
    d.calls policy m (c :: cs) = d.call policy m c >>= fun d => d.calls policy m cs := by
  rw [calls]
  cases d.call policy m c <;> rfl

theorem calls_append (policy : DuplicatePolicy) (m : Modifier) (d : Draft) (cs ds : List Call) :
    d.calls policy m (cs ++ ds) = d.calls policy m cs >>= fun d => d.calls policy m ds := by
  induction cs generalizing d with
  | nil => rfl
  | cons c cs ih =>
    rw [List.cons_append, calls_cons, calls_cons]
    cases d.call policy m c with
    | error e => rfl
    | ok next => exact ih next

theorem calls_append_error (h : d.calls policy m rest = .error e) (more : List Call) :
    d.calls policy m (rest ++ more) = .error e := by
  rw [calls_append, h]
  rfl

/-- Where calls fail, one of them does, behind calls that are taken in. -/
theorem calls_eq_error (h : d.calls policy m rest = .error e) :
    ∃ before c after d', rest = before ++ c :: after ∧ d.calls policy m before = .ok d' ∧
      d'.call policy m c = .error e := by
  induction rest generalizing d with
  | nil => cases h
  | cons c cs ih =>
    rw [calls_cons] at h
    rcases of_bind_eq_error h with hcall | ⟨next, hcall, hcalls⟩
    · exact ⟨[], c, cs, d, rfl, rfl, hcall⟩
    · obtain ⟨before, c', after, d', rfl, hbefore, hfails⟩ := ih hcalls
      refine ⟨c :: before, c', after, d', rfl, ?_, hfails⟩
      rw [calls_cons, hcall]
      exact hbefore

/-- A call that fills a slot once more is refused. -/
theorem calls_reject_of_repeats {c : Call} (h : m.Repeats before c) (after : List Call) :
    Draft.calls .reject m {} (before ++ c :: after) = .error (.duplicateAddon c.name c.pos) := by
  obtain ⟨ss, s, hreads, hnodup, hread, hslot⟩ := h
  have hbefore : Draft.calls .reject m {} before = .ok (ss.foldl set {}) :=
    calls_of_reads hreads fun _ => ⟨hnodup, fun s _ => not_filled_empty s.slot⟩
  have hcall : (ss.foldl set {}).call .reject m c = .error (.duplicateAddon c.name c.pos) := by
    rw [call_eq, hread]
    exact if_pos ⟨(filled_foldl ss s.slot).mpr hslot, rfl⟩
  rw [calls_append, hbefore]
  show Draft.calls .reject m (ss.foldl set {}) (c :: after) = _
  rw [calls_cons, hcall]
  rfl

-- The induction is on the calls to come; those before them have been taken in without a repeat.
theorem calls_reject_eq (hreads : m.Reads before ss) (hnodup : (ss.map Setting.slot).Nodup)
    (hnone : ∀ front c after, rest = front ++ c :: after → ¬ m.Repeats (before ++ front) c) :
    Draft.calls .reject m (ss.foldl set {}) rest = Draft.calls .lastWins m (ss.foldl set {}) rest := by
  induction rest generalizing before ss with
  | nil => rfl
  | cons c cs ih =>
    rw [calls_cons, calls_cons]
    cases hread : m.read c with
    | error e =>
      rw [call_eq, call_eq, hread]
      rfl
    | ok s =>
      have hfree : s.slot ∉ ss.map Setting.slot := by
        intro hslot
        apply hnone [] c cs rfl
        rw [List.append_nil]
        exact ⟨ss, s, hreads, hnodup, hread, hslot⟩
      have hcall : ∀ policy,
          (ss.foldl set {}).call policy m c = .ok ((ss ++ [s]).foldl set {}) := by
        intro policy
        rw [call_eq, hread, List.foldl_append]
        exact if_neg fun h => hfree ((filled_foldl ss s.slot).mp h.1)
      rw [hcall, hcall]
      have hreads' : m.Reads (before ++ [c]) (ss ++ [s]) :=
        List.rel_append hreads (List.Forall₂.cons hread List.Forall₂.nil)
      have hnodup' : ((ss ++ [s]).map Setting.slot).Nodup := by
        rw [List.map_append, List.map_singleton, ← List.concat_eq_append]
        exact hnodup.concat hfree
      refine ih hreads' hnodup' fun front d after hcs => ?_
      rw [List.append_assoc]
      exact hnone (c :: front) d after (by rw [hcs, List.cons_append])

end Draft

/-! ## Statements -/

theorem compile_reject_of_repeatsAt {st : Statement} {c : Call} (h : st.RepeatsAt c) :
    compile .reject st = .error (.duplicateAddon c.name c.pos) := by
  obtain ⟨head, before, after, m, rfl, hhead, hrepeats⟩ := h
  show compileChain .reject head (before ++ c :: after) = _
  unfold compileChain
  rw [hhead]
  dsimp only
  rw [Draft.calls_reject_of_repeats hrepeats]

theorem compile_reject_of_not_repeatsAt {st : Statement} (h : ∀ c, ¬ st.RepeatsAt c) :
    compile .reject st = compile .lastWins st := by
  cases st with
  | literal value pos => rfl
  | chain head rest =>
    show compileChain .reject head rest = compileChain .lastWins head rest
    unfold compileChain
    cases hhead : readHead head with
    | error e => rfl
    | ok m =>
      have hcalls : Draft.calls .reject m {} rest = Draft.calls .lastWins m {} rest := by
        have hreads : m.Reads [] [] := List.Forall₂.nil
        refine Draft.calls_reject_eq hreads List.nodup_nil ?_
        intro front c after hrest hrepeats
        exact h c ⟨head, front, after, m, by rw [hrest], hhead, hrepeats⟩
      dsimp only
      rw [hcalls]

/-- A chain fails at its head, at one of its calls, or at its end, for want of a value. -/
theorem compileChain_eq_error {policy : DuplicatePolicy} {head : Call} {rest : List Call}
    {e : CompileError} (h : compileChain policy head rest = .error e) :
    readHead head = .error e ∨
    (∃ m, readHead head = .ok m ∧ Draft.calls policy m {} rest = .error e) ∨
    (e = .unexpectedResult "discount" ∧ readHead head = .ok .discount ∧
      ∃ d, Draft.calls policy .discount {} rest = .ok d) := by
  unfold compileChain at h
  split at h
  · next e' hhead =>
    cases h
    exact Or.inl hhead
  · next m hhead =>
    split at h
    · next e' hcalls =>
      cases h
      exact Or.inr (Or.inl ⟨m, hhead, hcalls⟩)
    · next d hcalls =>
      rcases d.finish_cases m with ⟨⟨rfl, -⟩, hfinish⟩ | ⟨-, f, hfinish⟩
      · rw [hfinish] at h
        cases h
        exact Or.inr (Or.inr ⟨rfl, hhead, d, hcalls⟩)
      · rw [hfinish] at h
        cases h

/-- If there is a call that is accepted and fills a slot filled before it, and nothing fails before the
    first such call, then `reject` fails with an error that names this call and its place; on all other
    statements both policies come to the same. And what a chain fails with stays, whatever calls are
    added to it, unless its head and all its calls are in order and all it lacks is a value. -/
theorem compile_policies :
    (∀ (st : Statement) (c : Call), st.RepeatsAt c →
      compile .reject st = .error (.duplicateAddon c.name c.pos)) ∧
    (∀ st : Statement, (∀ c, ¬ st.RepeatsAt c) → compile .reject st = compile .lastWins st) ∧
    ∀ (policy : DuplicatePolicy) (head : Call) (rest : List Call) (e : CompileError),
      compile policy (.chain head rest) = .error e →
        (∀ more, compile policy (.chain head (rest ++ more)) = .error e) ∨
        (e = .unexpectedResult "discount" ∧ readHead head = .ok .discount ∧
          ∃ d, Draft.calls policy .discount {} rest = .ok d) := by
  refine ⟨fun _ _ => compile_reject_of_repeatsAt, fun _ => compile_reject_of_not_repeatsAt, ?_⟩
  intro policy head rest e h
  rcases compileChain_eq_error h with hhead | ⟨m, hhead, hcalls⟩ | hshort
  · refine Or.inl fun more => ?_
    show compileChain policy head (rest ++ more) = _
    unfold compileChain
    rw [hhead]
  · refine Or.inl fun more => ?_
    show compileChain policy head (rest ++ more) = _
    unfold compileChain
    rw [hhead]
    dsimp only
    rw [Draft.calls_append_error hcalls]
  · exact Or.inr hshort

/-- A second start is refused before the third is read; where the second one cannot be read, both
    policies say so, whatever calls follow. -/
theorem compile_policies_starts :
    let head : Call := ⟨"discount", [], ⟨1, 1⟩⟩
    let since (text : String) (column : Nat) : Call := ⟨"since", [.str text], ⟨1, column⟩⟩
    let repeated := [since "2020-01-01" 10, since "2021-01-01" 30, since "soon" 50]
    let unread := [since "2020-01-01" 10, since "soon" 30]
    let unreadable : CompileError := .invalidArgument "since" "soon"
    (Statement.chain head repeated).RepeatsAt (since "2021-01-01" 30) ∧
      compile .reject (.chain head repeated) = .error (.duplicateAddon "since" ⟨1, 30⟩) ∧
      compile .lastWins (.chain head repeated) = .error unreadable ∧
      compile .reject (.chain head unread) = compile .lastWins (.chain head unread) ∧
      ∀ more, compile .reject (.chain head (unread ++ more)) = .error unreadable := by
  intro head since repeated unread unreadable
  obtain ⟨hrefused, hagree, hstays⟩ := compile_policies
  let first : Setting := .since (Moment.midnight ⟨2020, 1, 1, by decide, by decide, by decide⟩)
  let second : Setting := .since (Moment.midnight ⟨2021, 1, 1, by decide, by decide, by decide⟩)
  have hrepeats : (Statement.chain head repeated).RepeatsAt (since "2021-01-01" 30) := by
    refine ⟨head, [since "2020-01-01" 10], [since "soon" 50], .discount, rfl, rfl,
      [first], second, .cons ?_ .nil, by decide, ?_, by decide⟩ <;> decide +kernel
  have hunread : compile .reject (.chain head unread) = .error unreadable := by decide +kernel
  have hnone : ∀ c, ¬ (Statement.chain head unread).RepeatsAt c := by
    intro c hc
    have hclash := (hrefused _ c hc).symm.trans hunread
    exact nomatch Except.error.inj hclash
  refine ⟨hrepeats, hrefused _ _ hrepeats, by decide +kernel, hagree _ hnone, ?_⟩
  rcases hstays .reject head unread unreadable hunread with hmore | ⟨hshort, -⟩
  · exact hmore
  · exact nomatch hshort

end Tariff
