/-
  What the messages of compile errors repeat. A message is fixed text around what the error carries of
  its source: names, literals and offending tokens (`CompileError.pieces`). Where these are shown of a
  text, as they are for every statement of that text, the message is composed of fixed text and of what
  it shows (`composed_message`).
-/
import Tariff.Proofs.Compile.Repeats
import Tariff.Proofs.Source.Shown
import Tariff.Proofs.Text.Digits

namespace Tariff

open Source

/-- What an error carries of its source. -/
def CompileError.pieces : CompileError → List String
  | .emptyFormula => []
  | .parse e => [e.text]
  | .unknownModifier name _ => [name]
  | .unknownAddon modifier name _ => [modifier, name]
  | .argumentCount call _ _ => [call]
  | .invalidArgument call raw => [call, raw]
  | .duplicateAddon name _ => [name]
  | .unexpectedResult printed => [printed]

/-- All that an error carries is composed of what is shown of the text. -/
def CompileError.ComposedOf (text : List Char) (e : CompileError) : Prop :=
  ∀ piece ∈ e.pieces, Composed text piece.toList

section

variable {text : List Char}

/-! ## Messages -/

theorem composed_append {a b : String} (h : Composed text a.toList) (h' : Composed text b.toList) :
    Composed text (a ++ b).toList := by
  rw [String.toList_append]
  exact .append h h'

/-- Fixed text behind what is composed already. -/
theorem composed_fixed {a b : String} (h : Composed text a.toList) (hb : Printable b.toList) :
    Composed text (a ++ b).toList :=
  composed_append h (.fixed hb)

/-- Fixed text with a piece behind it. -/
theorem composed_lead {a b : String} (ha : Printable a.toList) (h : Composed text b.toList) :
    Composed text (a ++ b).toList :=
  composed_append (.fixed ha) h

theorem printable_of_simple {cs : List Char} (h : Text.Simple cs) : Printable cs := by
  intro c hc
  have hsimple := h c hc
  unfold Text.isSimple Char.isAlphanum Char.isAlpha at hsimple
  simp only [Bool.or_eq_true, decide_eq_true_eq] at hsimple
  rcases hsimple with ((hupper | hlower) | hdigit) | hmark
  · have hrange := Text.toNat_of_isUpper hupper
    omega
  · have hrange := Text.toNat_of_isLower hlower
    omega
  · have hrange := Text.toNat_of_isDigit hdigit
    omega
  · have hmarks : Printable [' ', '%', '+', '-', '.', ':'] := by decide
    exact hmarks c hmark

theorem composed_nat (n : Nat) : Composed text (toString n).toList := by
  have hdigits : (toString n).toList = Nat.toDigits 10 n := String.toList_ofList
  rw [hdigits]
  exact .fixed (printable_of_simple (Text.digits_toDigits n).simple)

theorem composed_pos (p : Pos) : Composed text p.text.toList := by
  unfold Pos.text
  have hline : Composed text ("line " ++ toString p.line).toList :=
    composed_lead (by decide) (composed_nat p.line)
  exact composed_append (composed_fixed hline (by decide)) (composed_nat p.column)

theorem composed_label (c : SyntaxError.Cause) : Composed text c.label.toList := by
  refine .fixed ?_
  cases c with
  | token kind => cases kind <;> decide
  | unknown => decide
  | unterminated => decide

/-- A message is composed of what its error carries and of printable text. -/
theorem composed_message {e : CompileError} (h : e.ComposedOf text) :
    Composed text e.message.toList := by
  cases e with
  | emptyFormula => exact .fixed (by decide)
  | parse e =>
    have htoken : Composed text ("Unexpected token \"" ++ e.text).toList :=
      composed_lead (by decide) (h e.text (List.mem_singleton_self _))
    have hcause : Composed text ("Unexpected token \"" ++ e.text ++ "\" (" ++ e.cause.label).toList :=
      composed_append (composed_fixed htoken (by decide)) (composed_label e.cause)
    exact composed_append (composed_fixed hcause (by decide)) (composed_pos e.pos)
  | unknownModifier name pos =>
    have hname : Composed text ("Unknown modifier \"" ++ name).toList :=
      composed_lead (by decide) (h name (List.mem_singleton_self _))
    exact composed_append (composed_fixed hname (by decide)) (composed_pos pos)
  | unknownAddon modifier name pos =>
    have hname : Composed text ("Unknown addon \"" ++ name).toList :=
      composed_lead (by decide) (h name (List.mem_pair.mpr (Or.inr rfl)))
    have hmodifier : Composed text ("Unknown addon \"" ++ name ++ "\" for \"" ++ modifier).toList :=
      composed_append (composed_fixed hname (by decide)) (h modifier (List.mem_cons_self ..))
    exact composed_append (composed_fixed hmodifier (by decide)) (composed_pos pos)
  | argumentCount call expected found =>
    have hcall : Composed text ("Call \"" ++ call).toList :=
      composed_lead (by decide) (h call (List.mem_singleton_self _))
    have hexpected : Composed text ("Call \"" ++ call ++ "\" expects " ++ toString expected).toList :=
      composed_append (composed_fixed hcall (by decide)) (composed_nat expected)
    exact composed_append (composed_fixed hexpected (by decide)) (composed_nat found)
  | invalidArgument call raw =>
    have hcall : Composed text ("Invalid value for \"" ++ call).toList :=
      composed_lead (by decide) (h call (List.mem_cons_self ..))
    exact composed_append (composed_fixed hcall (by decide)) (h raw (List.mem_pair.mpr (Or.inr rfl)))
  | duplicateAddon name pos =>
    have hname : Composed text ("Duplicate addon \"" ++ name).toList :=
      composed_lead (by decide) (h name (List.mem_singleton_self _))
    exact composed_append (composed_fixed hname (by decide)) (composed_pos pos)
  | unexpectedResult printed =>
    exact composed_lead (by decide) (h printed (List.mem_singleton_self _))

/-! ## What compiling reports -/

variable {c : Call} {l : Literal} {e : CompileError}

/-- The error names the call and shows its argument, as it stands or trimmed. -/
def CompileError.Faults (c : Call) (l : Literal) (e : CompileError) : Prop :=
  ∃ raw ∈ [l.text.toList, Text.trim l.text.toList], e = .invalidArgument c.name (String.ofList raw)

theorem readArg_error {α : Type} {raw : List Char} {read : List Char → Option α}
    (hraw : raw ∈ [l.text.toList, Text.trim l.text.toList]) (h : readArg c raw read = .error e) :
    e.Faults c l := by
  unfold readArg at h
  split at h
  · cases h
  · exact ⟨raw, hraw, (Except.error.inj h).symm⟩

theorem faults_text (c : Call) (l : Literal) :
    (CompileError.invalidArgument c.name l.text).Faults c l :=
  ⟨l.text.toList, List.mem_cons_self .., by rw [String.ofList_toList]⟩

theorem readDate_error (h : readDate c l = .error e) : e.Faults c l := by
  unfold readDate at h
  split at h
  · exact readArg_error (List.mem_pair.mpr (Or.inr rfl)) h
  · exact Except.error.inj h ▸ faults_text c l

theorem readValue_error {read : List Char → Option DiscountValue}
    (h : readValue c l read = .error e) : e.Faults c l := by
  unfold readValue at h
  split at h
  · exact readArg_error (List.mem_pair.mpr (Or.inr rfl)) h
  · exact readArg_error (List.mem_pair.mpr (Or.inr rfl)) h
  · exact Except.error.inj h ▸ faults_text c l

theorem readTerm_error (h : readTerm c l = .error e) : e.Faults c l := by
  unfold readTerm at h
  split at h
  · exact readArg_error (List.mem_cons_self ..) h
  · exact Except.error.inj h ▸ faults_text c l

theorem readReason_error (h : readReason c l = .error e) : e.Faults c l := by
  unfold readReason at h
  split at h
  · cases h
  · exact Except.error.inj h ▸ faults_text c l

/-- An addon reports the number of its arguments, or the only one. -/
theorem Addon.read_error {a : Addon} (h : a.read c = .error e) :
    (∃ n, e = .argumentCount c.name 1 n) ∨ ∃ l ∈ c.args, e.Faults c l := by
  rcases of_bind_eq_error h with harg | ⟨l, harg, h⟩
  · unfold Source.Call.onlyArg at harg
    split at harg
    · cases harg
    · exact Or.inl ⟨_, (Except.error.inj harg).symm⟩
  · have hl : l ∈ c.args := by
      rw [args_of_onlyArg harg]
      exact List.mem_singleton_self l
    refine Or.inr ⟨l, hl, ?_⟩
    cases a with
    | fixed | relative => exact readValue_error (of_map_eq_error h)
    | lasts => exact readTerm_error (of_map_eq_error h)
    | since | till => exact readDate_error (of_map_eq_error h)
    | reason => exact readReason_error (of_map_eq_error h)

/-- A call fails with an error that carries its name and at most one of its arguments. -/
theorem Draft.call_error {policy : DuplicatePolicy} {m : Modifier} {d : Draft}
    (h : d.call policy m c = .error e) :
    e = .unknownAddon m.name c.name c.pos ∨ (∃ n, e = .argumentCount c.name 1 n) ∨
      (∃ l ∈ c.args, e.Faults c l) ∨ e = .duplicateAddon c.name c.pos := by
  unfold Draft.call at h
  split at h
  · exact Or.inl (Except.error.inj h).symm
  · split at h
    · next hread =>
      cases h
      exact (Addon.read_error hread).elim (Or.inr ∘ Or.inl) (Or.inr ∘ Or.inr ∘ Or.inl)
    · unfold Draft.apply at h
      split at h
      · exact Or.inr (Or.inr (Or.inr (Except.error.inj h).symm))
      · cases h

theorem Draft.calls_error {policy : DuplicatePolicy} {m : Modifier} {d : Draft} {cs : List Call}
    (h : d.calls policy m cs = .error e) : ∃ c ∈ cs, ∃ d : Draft, d.call policy m c = .error e := by
  obtain ⟨before, c, after, d', rfl, -, hcall⟩ := Draft.calls_eq_error h
  exact ⟨c, by simp, d', hcall⟩

/-! ## Statements of a text -/

theorem CompileError.Faults.composedOf (h : e.Faults c l) (hname : Shown text c.name.toList)
    (hl : l.ShownIn text) : e.ComposedOf text := by
  obtain ⟨raw, hraw, rfl⟩ := h
  have hargument : Composed text raw := by
    rcases List.mem_pair.mp hraw with rfl | rfl
    · exact hl.composed
    · exact hl.composed_trim
  intro piece hpiece
  rcases List.mem_pair.mp hpiece with rfl | rfl
  · exact .shown hname
  · rwa [String.toList_ofList]

theorem composedOf_call {policy : DuplicatePolicy} {m : Modifier} {d : Draft}
    (h : d.call policy m c = .error e) (hname : Shown text c.name.toList)
    (hargs : ∀ l ∈ c.args, l.ShownIn text) : e.ComposedOf text := by
  rcases Draft.call_error h with rfl | ⟨n, rfl⟩ | ⟨l, hl, hfaults⟩ | rfl
  · have hmodifier : Printable m.name.toList := by cases m <;> decide
    intro piece hpiece
    rcases List.mem_pair.mp hpiece with rfl | rfl
    · exact .fixed hmodifier
    · exact .shown hname
  · exact List.forall_mem_singleton.mpr (.shown hname)
  · exact hfaults.composedOf hname (hargs l hl)
  · exact List.forall_mem_singleton.mpr (.shown hname)

theorem readHead_error {head : Call} (h : readHead head = .error e) :
    e.pieces = [head.name] := by
  unfold readHead at h
  split at h
  · cases h
    rfl
  · split at h
    · cases h
    · cases h
      rfl

/-- Compiling a statement of a text fails with an error composed of what is shown of the text. -/
theorem composedOf_compile {policy : DuplicatePolicy} {st : Statement} (hst : st.ShownIn text)
    (h : compile policy st = .error e) : e.ComposedOf text := by
  cases st with
  | literal value pos =>
    cases h
    exact List.forall_mem_singleton.mpr (hst.literals value (List.mem_singleton_self _)).composed
  | chain head rest =>
    rcases compileChain_eq_error h with hhead | ⟨m, -, hcalls⟩ | ⟨rfl, -⟩
    · unfold CompileError.ComposedOf
      rw [readHead_error hhead]
      exact List.forall_mem_singleton.mpr (.shown (hst.names head (List.mem_cons_self ..)))
    · obtain ⟨c, hc, d, hcall⟩ := Draft.calls_error hcalls
      have hmem : c ∈ (Statement.chain head rest).calls := List.mem_cons_of_mem _ hc
      exact composedOf_call hcall (hst.names c hmem) (hst.args hmem)
    · exact List.forall_mem_singleton.mpr (.fixed (by decide))

end

end Tariff
