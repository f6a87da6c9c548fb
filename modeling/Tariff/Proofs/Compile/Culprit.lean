/-
  What an error with a place is about. Such an error shows a piece of the source and ends in its place:
  the token at which parsing stops, or the name of the first call of a chain that fails, read as the
  head or taken in behind the calls before it (`exists_failsAt`).
-/
import Tariff.Proofs.Compile.Message
import Tariff.Proofs.Source.Origin

namespace Tariff

open Source (Call PointsInto Statement SyntaxError normalText parse parseStatement)

/-- What an error shows of the source if it names a place: the piece that cannot be read, or the name of
    a call. -/
def CompileError.point? : CompileError → Option SyntaxError
  | .parse e => some e
  | .unknownModifier name pos => some ⟨.token .ident, name, pos⟩
  | .unknownAddon _ name pos => some ⟨.token .ident, name, pos⟩
  | .duplicateAddon name pos => some ⟨.token .ident, name, pos⟩
  | .emptyFormula => none
  | .argumentCount .. => none
  | .invalidArgument .. => none
  | .unexpectedResult _ => none

/-- The message ends in the place. -/
theorem CompileError.message_of_point? {e : CompileError} {x : SyntaxError} (h : e.point? = some x) :
    ∃ lead, e.message = lead ++ x.pos.text := by
  cases e with
  | parse _ | unknownModifier _ _ | unknownAddon _ _ _ | duplicateAddon _ _ =>
    cases h
    exact ⟨_, rfl⟩
  | _ => cases h

/-- The call is the first of the chain that fails, with this error: its head, or an addon call behind
    calls that are taken in. -/
inductive Source.Statement.FailsAt (policy : DuplicatePolicy) (st : Statement) (c : Call)
    (e : CompileError) : Prop
  | head {rest : List Call} (hst : st = .chain c rest) (h : readHead c = .error e)
  | addon {head : Call} {before after : List Call} {m : Modifier} {d : Draft}
      (hst : st = .chain head (before ++ c :: after)) (hhead : readHead head = .ok m)
      (hbefore : Draft.calls policy m {} before = .ok d) (h : d.call policy m c = .error e)

section

variable {policy : DuplicatePolicy} {st : Statement} {c : Call} {e : CompileError} {x : SyntaxError}

theorem Source.Statement.FailsAt.mem_calls (h : st.FailsAt policy c e) : c ∈ st.calls := by
  cases h with
  | head hst => rw [hst]; exact List.mem_cons_self ..
  | addon hst => simp [hst, Statement.calls]

theorem point?_of_readHead (h : readHead c = .error e) (hx : e.point? = some x) :
    x = ⟨.token .ident, c.name, c.pos⟩ := by
  unfold readHead at h
  split at h
  · cases h
    exact (Option.some.inj hx).symm
  · split at h
    · cases h
    · cases h
      cases hx

theorem point?_of_call {m : Modifier} {d : Draft} (h : d.call policy m c = .error e)
    (hx : e.point? = some x) : x = ⟨.token .ident, c.name, c.pos⟩ := by
  rcases Draft.call_error h with rfl | ⟨n, rfl⟩ | ⟨l, -, raw, -, rfl⟩ | rfl
  · exact (Option.some.inj hx).symm
  · cases hx
  · cases hx
  · exact (Option.some.inj hx).symm

/-- Where compiling a statement fails with an error that names a place, this is the place of the name of
    the call that fails. -/
theorem exists_failsAt (h : compile policy st = .error e) (hx : e.point? = some x) :
    ∃ c, st.FailsAt policy c e ∧ x = ⟨.token .ident, c.name, c.pos⟩ := by
  cases st with
  | literal value pos =>
    cases h
    cases hx
  | chain head rest =>
    rcases compileChain_eq_error h with hhead | ⟨m, hhead, hcalls⟩ | ⟨rfl, -⟩
    · exact ⟨head, .head rfl hhead, point?_of_readHead hhead hx⟩
    · obtain ⟨before, c, after, d, rfl, hbefore, hcall⟩ := Draft.calls_eq_error hcalls
      exact ⟨c, .addon rfl hhead hbefore hcall, point?_of_call hcall hx⟩
    · cases hx

end

/-- What an error of a source shows: its message ends in the place of a piece of the source, and this is
    the piece at which the normal form cannot be parsed, or the name of a call of it that fails. -/
structure CompileError.Locates (policy : DuplicatePolicy) (cs : List Char) (e : CompileError)
    (x : SyntaxError) : Prop where
  message : ∃ lead, e.message = lead ++ x.pos.text
  points : PointsInto cs x
  culprit : (e = .parse x ∧
      (parseStatement (normalText cs) = .error x ∨ Source.parse (normalText cs) = .error x)) ∨
    ∃ sts st c, Source.parse (normalText cs) = .ok sts ∧ st ∈ sts ∧ st.FailsAt policy c e ∧
      x = ⟨.token .ident, c.name, c.pos⟩

/-- If the error names a place, this is where a piece of the source stands that it is about. -/
def CompileError.Placed (policy : DuplicatePolicy) (cs : List Char) (e : CompileError) : Prop :=
  ∀ x, e.point? = some x → e.Locates policy cs x

section

variable {policy : DuplicatePolicy} {cs : List Char} {e : CompileError}

theorem placed_of_parse_error {x : SyntaxError} (h : parse (normalText cs) = .error x) :
    (CompileError.parse x).Placed policy cs := by
  rintro _ ⟨⟩
  exact ⟨⟨_, rfl⟩, Source.pointsInto_of_parse_error h, Or.inl ⟨rfl, Or.inr h⟩⟩

theorem placed_of_compile {sts : List Statement} {st : Statement}
    (hparse : parse (normalText cs) = .ok sts) (hst : st ∈ sts) (h : compile policy st = .error e) :
    e.Placed policy cs := by
  intro x hx
  obtain ⟨c, hfails, rfl⟩ := exists_failsAt h hx
  exact ⟨e.message_of_point? hx, Source.pointsInto_of_call hparse hst hfails.mem_calls,
    Or.inr ⟨sts, st, c, hparse, hst, hfails, rfl⟩⟩

theorem placed_of_compileText (h : compileText policy (normalText cs) = .error e) :
    e.Placed policy cs := by
  unfold compileText at h
  split at h
  · next x hparse =>
    cases h
    rintro _ ⟨⟩
    exact ⟨⟨_, rfl⟩, Source.pointsInto_of_parseStatement_error hparse, Or.inl ⟨rfl, Or.inl hparse⟩⟩
  · next st hparse =>
    exact placed_of_compile (Source.parse_of_parseStatement hparse) (List.mem_singleton_self st) h

end

end Tariff
