/-
  What compact forms show of their source. The compact form of a formula is what it grants and when, in
  simple characters only, with the reason behind it if there is one. The reason is taken from a string
  of the source as it is. So it alone can break the line of a compact form (`Formula.count_break_text`),
  and it does only where a line break is written as an escape in the source (`break_text_iff`).
-/
import Tariff.Proofs.Compile.Message
import Tariff.Proofs.Compile.Rebuild

namespace Tariff

open Source

namespace Formula

/-- The compact form up to the reason. -/
def leadText (f : Formula) : String :=
  f.headText
    ++ (f.addons.since.map fun m => " since " ++ m.date.text).getD ""
    ++ (f.addons.till.map fun m => " till " ++ m.date.text).getD ""

/-- The reason; a formula without one has the empty reason. -/
def reasonChars (f : Formula) : List Char := (f.addons.reason.getD "").toList

variable {f : Formula}

/-! ## The two parts of a compact form -/

theorem toList_text (f : Formula) : f.text.toList = f.leadText.toList ++
    match f.addons.reason with
    | none => []
    | some r => ' ' :: '(' :: (r.toList ++ [')']) := by
  show (f.leadText ++ (f.addons.reason.map fun r => " (" ++ r ++ ")").getD "").toList = _
  rw [String.toList_append]
  cases f.addons.reason with
  | none => rfl
  | some r => simp

theorem simple_headText (h : f.Sound) : Text.Simple f.headText.toList := by
  cases f with
  | discount v a =>
    have hv : v.Sound := h (.value v) (List.mem_cons_self ..)
    have hname : Text.Simple "fixed-discount ".toList := by decide
    show Text.Simple ("fixed-discount " ++ v.text).toList
    rw [String.toList_append, Text.simple_append]
    exact ⟨hname, DiscountValue.simple_text hv⟩
  | installment t a =>
    cases t with
    | none =>
      show Text.Simple "installment".toList
      decide
    | some t =>
      have hname : Text.Simple "installment ".toList := by decide
      show Text.Simple ("installment " ++ t.text).toList
      rw [String.toList_append, Text.simple_append]
      exact ⟨hname, t.simple_text⟩

/-- What a formula grants and when is written in simple characters. -/
theorem simple_leadText (h : f.Sound) : Text.Simple f.leadText.toList := by
  have hbound : ∀ (lead : String) (m : Option Moment), Text.Simple lead.toList →
      Text.Simple ((m.map fun m => lead ++ m.date.text).getD "").toList := by
    intro lead m hlead
    cases m with
    | none => exact List.forall_mem_nil _
    | some m =>
      show Text.Simple (lead ++ m.date.text).toList
      rw [String.toList_append, Text.simple_append]
      exact ⟨hlead, m.date.simple_text⟩
  rw [leadText, String.toList_append, String.toList_append, Text.simple_append, Text.simple_append]
  exact ⟨⟨simple_headText h, hbound _ _ (by decide)⟩, hbound _ _ (by decide)⟩

/-- The line breaks of a compact form are those of the reason. -/
theorem count_break_text (h : f.Sound) : f.text.toList.count '\n' = f.reasonChars.count '\n' := by
  have hlead : f.leadText.toList.count '\n' = 0 :=
    List.count_eq_zero.mpr ((simple_leadText h).not_mem (by decide))
  rw [toList_text, List.count_append, hlead, Nat.zero_add, reasonChars]
  cases f.addons.reason with
  | none => rfl
  | some r => simp

theorem mem_break_text (h : f.Sound) : '\n' ∈ f.text.toList ↔ ∃ r ∈ f.addons.reason, '\n' ∈ r.toList := by
  rw [← List.count_pos_iff, count_break_text h, List.count_pos_iff, reasonChars]
  cases f.addons.reason <;> simp

theorem headText_ne_nil (f : Formula) : f.headText.toList ≠ [] := by
  cases f with
  | discount v a => simp [headText]
  | installment t a => cases t <;> simp [headText]

/-- A compact form ends with no carriage return: it ends with a bracket or with a simple character. -/
theorem getLast?_text (h : f.Sound) : ∃ c, f.text.toList.getLast? = some c ∧ c ≠ '\r' := by
  rw [toList_text]
  cases f.addons.reason with
  | none =>
    have hne : f.leadText.toList ≠ [] := by simp [leadText, f.headText_ne_nil]
    have hsimple := simple_leadText h
    refine ⟨_, by rw [List.append_nil]; exact List.getLast?_eq_some_getLast hne, ?_⟩
    intro hreturn
    have hmem := List.getLast_mem hne
    rw [hreturn] at hmem
    exact hsimple.not_mem (by decide) hmem
  | some r =>
    refine ⟨')', ?_, by decide⟩
    rw [List.append_cons, List.append_cons, ← List.append_assoc, List.getLast?_concat]

end Formula

/-! ## What is shown of the source -/

section

variable {text : List Char} {policy : DuplicatePolicy} {st : Statement} {f : Formula}

theorem args_of_read_reason {a : Addon} {c : Call} {r : String} (h : a.read c = .ok (.reason r)) :
    c.args = [.str r] := by
  obtain ⟨l, harg, h⟩ := of_bind_eq_ok h
  rw [args_of_onlyArg harg]
  cases a with
  | reason =>
    obtain ⟨r', hread, hs⟩ := of_bind_eq_ok h
    cases hs
    unfold readReason at hread
    split at hread
    · cases hread
      rfl
    · cases hread
  | fixed | relative | lasts | since | till =>
    obtain ⟨x, -, hs⟩ := of_bind_eq_ok h
    cases hs

/-- The reason of a formula is what a string of its source means. -/
theorem shown_reason (hst : st.ShownIn text) (h : compile policy st = .ok f) {r : String}
    (hr : r ∈ f.addons.reason) : Shown text r.toList := by
  have hset : Setting.reason r ∈ f.settings := by
    have haddons : Setting.reason r ∈ f.addons.settings := by
      unfold Addons.settings
      rw [Option.mem_def.mp hr]
      simp
    cases f with
    | discount v a => exact List.mem_cons_of_mem _ haddons
    | installment t a => exact List.mem_append_right _ haddons
  obtain ⟨c, hc, a, hread⟩ := read_of_compile h hset
  have harg : Literal.str r ∈ c.args := by
    rw [args_of_read_reason hread]
    exact List.mem_singleton_self _
  exact hst.args hc _ harg

/-- A compact form is composed of fixed text and of what it shows of the source. -/
theorem composed_text (hst : st.ShownIn text) (h : compile policy st = .ok f) :
    Composed text f.text.toList := by
  have hlead : Composed text f.leadText.toList :=
    .fixed (printable_of_simple (Formula.simple_leadText (sound_of_compile h)))
  rw [Formula.toList_text]
  cases hr : f.addons.reason with
  | none =>
    rw [List.append_nil]
    exact hlead
  | some r =>
    have hopen : Printable [' ', '('] := by decide
    have hclose : Printable [')'] := by decide
    have hreason : Composed text r.toList := .shown (shown_reason hst h hr)
    exact hlead.append (.append (.fixed hopen) (.append hreason (.fixed hclose)))

/-- The compact form of a formula breaks its line exactly if the reason repeats a string of the source
    in which a line break is written as an escape. -/
theorem break_text_iff (hst : st.ShownIn text) (h : compile policy st = .ok f) :
    '\n' ∈ f.text.toList ↔ ∃ r ∈ f.addons.reason, RepeatsBreak text r.toList := by
  rw [Formula.mem_break_text (sound_of_compile h)]
  refine exists_congr fun r => and_congr_right fun hr => ?_
  exact (Composed.shown (shown_reason hst h hr)).break_iff

end

end Tariff
