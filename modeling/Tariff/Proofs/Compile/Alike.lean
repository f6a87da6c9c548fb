/-
  Places and what is built. Two statements that are equal but for the places of their nodes are one
  statement whose nodes have numbers for places, with the numbers replaced. What this one compiles to
  both compile to: the same formula, or the same error but for the place it names. The place is that of
  the first call that fails, which is the same call in both (`compile_alike`).
-/
import Tariff.Proofs.Compile.Culprit

namespace Tariff

open Source (Call Literal Pos Statement)

namespace Source

/-! ## Statements equal up to places -/

/-- The calls are equal but for their places. -/
def Call.Alike (c c' : Call) : Prop := c.name = c'.name ∧ c.args = c'.args

/-- The statements are equal but for the places of their nodes. -/
inductive Statement.Alike : Statement → Statement → Prop
  | literal (value : Literal) (pos pos' : Pos) : Alike (.literal value pos) (.literal value pos')
  | chain {head head' : Call} {rest rest' : List Call} (hhead : head.Alike head')
      (hrest : List.Forall₂ Call.Alike rest rest') : Alike (.chain head rest) (.chain head' rest')

/-! ## Numbers for places -/

/-- The call with a number for its place. -/
def Call.numbered (k : Nat) (c : Call) : Call := { c with pos := ⟨0, k⟩ }

/-- The statement with the numbers of its nodes for their places. -/
def Statement.numbered : Statement → Statement
  | .literal value _ => .literal value ⟨0, 0⟩
  | .chain head rest => .chain (head.numbered 0) (rest.mapIdx fun k c => c.numbered (k + 1))

/-- The place of the node that has a number. -/
def Statement.placeOf (st : Statement) (number : Pos) : Pos :=
  ((st.calls[number.column]?).map Call.pos).getD st.pos

variable {st st' : Statement} {c c' : Call} {k : Nat}

theorem Statement.calls_numbered (st : Statement) :
    st.numbered.calls = st.calls.mapIdx Call.numbered := by
  cases st with
  | literal value pos => rfl
  | chain head rest => exact List.mapIdx_cons.symm

theorem Statement.placeOf_number (h : st.calls[k]? = some c) : st.placeOf ⟨0, k⟩ = c.pos := by
  unfold placeOf
  rw [h]
  rfl

theorem Call.relocate_numbered (h : st.calls[k]? = some c) :
    (c.numbered k).relocate st.placeOf = c := by
  show ({ c with pos := st.placeOf ⟨0, k⟩ } : Call) = c
  rw [Statement.placeOf_number h]

theorem Statement.exists_numbered {c₀ : Call} (h : c₀ ∈ st.numbered.calls) :
    ∃ (k : Nat) (c : Call), st.calls[k]? = some c ∧ c₀ = c.numbered k := by
  rw [calls_numbered, List.mem_mapIdx] at h
  obtain ⟨k, hk, rfl⟩ := h
  exact ⟨k, _, List.getElem?_eq_getElem hk, rfl⟩

/-- Statements of one numbered form have calls under the same numbers. -/
theorem Statement.exists_of_numbered_eq (h : st.numbered = st'.numbered)
    (hc : st.calls[k]? = some c) : ∃ c', st'.calls[k]? = some c' ∧ c'.numbered k = c.numbered k := by
  have hcalls : st.numbered.calls[k]? = st'.numbered.calls[k]? := by rw [h]
  rw [calls_numbered, calls_numbered, List.getElem?_mapIdx, List.getElem?_mapIdx, hc] at hcalls
  exact Option.map_eq_some_iff.mp hcalls.symm

/-- A statement is its numbered form with the numbers replaced by its places. -/
theorem Statement.relocate_numbered (st : Statement) : st.numbered.relocate st.placeOf = st := by
  cases st with
  | literal value pos => rfl
  | chain head rest =>
    have hcalls : (rest.mapIdx fun k c => c.numbered (k + 1)).map
        (·.relocate (Statement.chain head rest).placeOf) = rest := by
      apply List.ext_getElem?
      intro k
      rw [List.getElem?_map, List.getElem?_mapIdx]
      cases hc : rest[k]? with
      | none => rfl
      | some c => exact congrArg some (Call.relocate_numbered (k := k + 1) hc)
    exact congrArg (Statement.chain head) hcalls

theorem Call.Alike.numbered_eq (h : c.Alike c') (k : Nat) : c.numbered k = c'.numbered k := by
  obtain ⟨hname, hargs⟩ := h
  rw [Call.numbered, Call.numbered, hname, hargs]

theorem mapIdx_numbered_eq {cs cs' : List Call} (h : List.Forall₂ Call.Alike cs cs') (n : Nat) :
    (cs.mapIdx fun k c => c.numbered (k + n)) = cs'.mapIdx fun k c => c.numbered (k + n) := by
  induction h generalizing n with
  | nil => rfl
  | cons hc _ ih =>
    rw [List.mapIdx_cons, List.mapIdx_cons, hc.numbered_eq]
    simp only [Nat.add_right_comm _ 1 n, Nat.add_assoc _ n 1]
    rw [ih (n + 1)]

/-- Statements that are equal but for the places have one numbered form. -/
theorem Statement.Alike.numbered_eq (h : st.Alike st') : st.numbered = st'.numbered := by
  cases h with
  | literal => rfl
  | chain hhead hrest =>
    rw [numbered, numbered, hhead.numbered_eq, mapIdx_numbered_eq hrest 1]

end Source

/-! ## Errors with their places replaced -/

section

variable {policy : DuplicatePolicy} {st st' : Statement} {c : Call} {e : CompileError}
  {x : Source.SyntaxError}

theorem CompileError.relocate_of_point?_eq_none (h : e.point? = none) (f : Pos → Pos) :
    e.relocate f = e := by
  cases e with
  | emptyFormula | argumentCount _ _ _ | invalidArgument _ _ | unexpectedResult _ => rfl
  | parse _ | unknownModifier _ _ | unknownAddon _ _ _ | duplicateAddon _ _ => cases h

/-- An error names one place at most, so all places may be replaced by what becomes of that one. -/
theorem CompileError.relocate_of_point? (h : e.point? = some x) (f g : Pos → Pos) :
    (e.relocate f).relocate (fun _ => g x.pos) = e.relocate g := by
  cases e with
  | emptyFormula | argumentCount _ _ _ | invalidArgument _ _ | unexpectedResult _ => cases h
  | parse _ | unknownModifier _ _ | unknownAddon _ _ _ | duplicateAddon _ _ =>
    cases h
    rfl

theorem CompileError.point?_relocate (h : e.point? = some x) (f : Pos → Pos) :
    (e.relocate f).point? = some { x with pos := f x.pos } := by
  cases e with
  | emptyFormula | argumentCount _ _ _ | invalidArgument _ _ | unexpectedResult _ => cases h
  | parse _ | unknownModifier _ _ | unknownAddon _ _ _ | duplicateAddon _ _ =>
    cases h
    rfl

/-- The call that fails is the same wherever the nodes stand. -/
theorem Source.Statement.FailsAt.relocate (h : st.FailsAt policy c e) (f : Pos → Pos) :
    (st.relocate f).FailsAt policy (c.relocate f) (e.relocate f) := by
  cases h with
  | head hst h =>
    rw [hst]
    refine .head rfl ?_
    rw [readHead_relocate, h]
    rfl
  | @addon head before after m d hst hhead hbefore h =>
    have hsplit : st.relocate f = .chain (head.relocate f)
        (before.map (·.relocate f) ++ c.relocate f :: after.map (·.relocate f)) := by
      rw [hst, ← List.map_cons, ← List.map_append]
      rfl
    refine .addon hsplit (m := m) (d := d) ?_ ?_ ?_
    · rw [readHead_relocate, hhead]
      rfl
    · rw [Draft.calls_relocate, hbefore]
      rfl
    · rw [Draft.call_relocate, h]
      rfl

end

/-! ## Two statements -/

/-- An error of each of two statements: the same, unless it names a place. Then it names the place of
    the first call that fails, this is the same call in both statements, and apart from the place the
    errors are equal. -/
inductive CompileError.Corresponds (policy : DuplicatePolicy) (st st' : Statement) :
    CompileError → CompileError → Prop
  | placeless {e : CompileError} (h : e.point? = none) : Corresponds policy st st' e e
  | placed {e : CompileError} {k : Nat} {c c' : Call} (hc : st.calls[k]? = some c)
      (hc' : st'.calls[k]? = some c') (h : e.point? = some ⟨.token .ident, c.name, c.pos⟩)
      (hfails : st.FailsAt policy c e)
      (hfails' : st'.FailsAt policy c' (e.relocate fun _ => c'.pos)) :
      Corresponds policy st st' e (e.relocate fun _ => c'.pos)

/-- An error of a numbered statement, with the numbers replaced by the places of two statements. -/
theorem CompileError.corresponds_of_numbered {policy : DuplicatePolicy} {st st' : Statement}
    {e : CompileError} (hnumbered : st.numbered = st'.numbered)
    (h : compile policy st.numbered = .error e) :
    CompileError.Corresponds policy st st' (e.relocate st.placeOf) (e.relocate st'.placeOf) := by
  cases hx : e.point? with
  | none =>
    rw [relocate_of_point?_eq_none hx, relocate_of_point?_eq_none hx]
    exact .placeless hx
  | some x =>
    obtain ⟨c₀, hfails, rfl⟩ := exists_failsAt h hx
    obtain ⟨k, c, hc, rfl⟩ := Statement.exists_numbered hfails.mem_calls
    obtain ⟨c', hc', hnumber⟩ := Statement.exists_of_numbered_eq hnumbered hc
    have hplace' : st'.placeOf ⟨0, k⟩ = c'.pos := Statement.placeOf_number hc'
    have hfails₁ := hfails.relocate st.placeOf
    rw [st.relocate_numbered, Call.relocate_numbered hc] at hfails₁
    have hfails₂ := hfails.relocate st'.placeOf
    rw [hnumbered, st'.relocate_numbered, ← hnumber, Call.relocate_numbered hc'] at hfails₂
    have herror := relocate_of_point? hx st.placeOf st'.placeOf
    have hpoint := point?_relocate hx st.placeOf
    dsimp only [Call.numbered] at herror hpoint
    rw [hplace'] at herror
    rw [Statement.placeOf_number hc] at hpoint
    rw [← herror] at hfails₂ ⊢
    exact .placed hc hc' hpoint hfails₁ hfails₂

/-- Two statements that are equal but for the places of their nodes compile to the same formula, or fail
    with the same error but for the place that it names; this is the place of the same call in each. -/
theorem compile_alike {st st' : Statement} (h : st.Alike st') (policy : DuplicatePolicy) :
    (∃ f, compile policy st = .ok f ∧ compile policy st' = .ok f) ∨
      ∃ e e', compile policy st = .error e ∧ compile policy st' = .error e' ∧
        CompileError.Corresponds policy st st' e e' := by
  have hst : compile policy st = (compile policy st.numbered).mapError (·.relocate st.placeOf) := by
    rw [← compile_relocate, st.relocate_numbered]
  have hst' : compile policy st' = (compile policy st.numbered).mapError (·.relocate st'.placeOf) := by
    rw [h.numbered_eq, ← compile_relocate, st'.relocate_numbered]
  cases hcompile : compile policy st.numbered with
  | ok f =>
    rw [hcompile] at hst hst'
    exact Or.inl ⟨f, hst, hst'⟩
  | error e =>
    rw [hcompile] at hst hst'
    exact Or.inr ⟨_, _, hst, hst', CompileError.corresponds_of_numbered h.numbered_eq hcompile⟩

/-- Two calls for one slot, in one statement at places of their own and in the other at one place. -/
theorem compile_alike_twice :
    let st : Statement := .chain ⟨"discount", [], ⟨1, 1⟩⟩
      [⟨"fixed", [.str "1%"], ⟨1, 10⟩⟩, ⟨"relative", [.number "2"], ⟨1, 22⟩⟩]
    let st' : Statement := .chain ⟨"discount", [], ⟨9, 9⟩⟩
      [⟨"fixed", [.str "1%"], ⟨2, 7⟩⟩, ⟨"relative", [.number "2"], ⟨2, 7⟩⟩]
    st.Alike st' ∧
      CompileError.Corresponds .reject st st' (.duplicateAddon "relative" ⟨1, 22⟩)
        (.duplicateAddon "relative" ⟨2, 7⟩) ∧
      ∃ f, compile .lastWins st = .ok f ∧ compile .lastWins st' = .ok f := by
  intro st st'
  have h : st.Alike st' := .chain ⟨rfl, rfl⟩ (.cons ⟨rfl, rfl⟩ (.cons ⟨rfl, rfl⟩ .nil))
  have he : compile .reject st = .error (.duplicateAddon "relative" ⟨1, 22⟩) := by decide +kernel
  have he' : compile .reject st' = .error (.duplicateAddon "relative" ⟨2, 7⟩) := by decide +kernel
  refine ⟨h, ?_, ?_⟩
  · rcases compile_alike h .reject with ⟨f, hf, -⟩ | ⟨e₁, e₂, h₁, h₂, hboth⟩
    · rw [he] at hf
      cases hf
    · rw [he] at h₁
      rw [he'] at h₂
      cases h₁
      cases h₂
      exact hboth
  · rcases compile_alike h .lastWins with hboth | ⟨e, -, he, -⟩
    · exact hboth
    · have hok : (compile .lastWins st).isOk = true := by decide +kernel
      rw [he] at hok
      cases hok

end Tariff
