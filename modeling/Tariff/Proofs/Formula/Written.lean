/-
  Formulas as source. Every formula can be written as a chain, one call for each thing that is set in it
  (`Formula.source`). The text is the written form of that chain as it was defined for chains in general
  (`Formula.toList_source`): all but reasons are texts in which nothing has to be escaped.
-/
import Tariff.Compile.Addon
import Tariff.Proofs.Calendar.ReadBack
import Tariff.Proofs.Formula.ReadBack
import Tariff.Proofs.Source.Writing

namespace Tariff

open Source (Link chainChars escape)

/-! ## The text -/

/-- The calls that set bounds and a reason. -/
def Addons.source (a : Addons) : String :=
  (a.since.map fun m => ".since('" ++ m.date.text ++ "')").getD ""
    ++ (a.till.map fun m => ".till('" ++ m.date.text ++ "')").getD ""
    ++ (a.reason.map fun r => ".reason('" ++ String.ofList (escape r.toList) ++ "')").getD ""

/-- The source of a formula, on one line. -/
def Formula.source : Formula → String
  | .discount v a => "discount.fixed('" ++ v.text ++ "')" ++ a.source
  | .installment (some t) a => "installment.lasts('" ++ t.text ++ "')" ++ a.source
  | .installment none a => "installment" ++ a.source

/-! ## What is set -/

/-- The addon to set this with. -/
def Setting.addon : Setting → Addon
  | .value _ => .fixed
  | .term _ => .lasts
  | .since _ => .since
  | .till _ => .till
  | .reason _ => .reason

/-- The text to hand to the addon. -/
def Setting.text : Setting → String
  | .value v => v.text
  | .term t => t.text
  | .since m => m.date.text
  | .till m => m.date.text
  | .reason r => r

def Setting.link (s : Setting) : Link := ⟨s.addon.name.toList, s.text.toList⟩

def Addons.settings (a : Addons) : List Setting :=
  (a.since.map .since).toList ++ (a.till.map .till).toList ++ (a.reason.map .reason).toList

/-- What is set in a formula, in the order in which its source sets it. -/
def Formula.settings : Formula → List Setting
  | .discount v a => .value v :: a.settings
  | .installment t a => (t.map .term).toList ++ a.settings

def Formula.modifier : Formula → Modifier
  | .discount _ _ => .discount
  | .installment _ _ => .installment

/-- What reading an argument can yield: values and terms in range, and bounds that are whole days. -/
def Setting.Sound : Setting → Prop
  | .value v => v.Sound
  | .term p => p.Sound
  | .since m => ∃ date, m = Moment.midnight date
  | .till m => ∃ date, m = Moment.midnight date
  | .reason _ => True

/-- All that is set in the formula could have been read. -/
def Formula.Sound (f : Formula) : Prop := ∀ s ∈ f.settings, s.Sound

/-! ## Nothing to escape -/

/-- A simple text is written as it is. -/
theorem escape_simple {cs : List Char} (h : Text.Simple cs) : escape cs = cs := by
  apply Source.escape_eq_self
  intro c hc
  refine ⟨?_, ?_, ?_⟩
  all_goals
    rintro rfl
    exact h.not_mem (by decide) hc

theorem Date.simple_text (d : Date) : Text.Simple d.text.toList := by
  rw [text, String.toList_ofList]
  exact d.simple_chars

/-! ## The chain -/

/-- A call in source whose text needs no escapes. -/
theorem toList_call (s : Setting) (opening : String) (front : List Char)
    (hopening : opening.toList = front ++ '.' :: (s.addon.name.toList ++ ['(', '\'']))
    (h : escape s.text.toList = s.text.toList) :
    (opening ++ s.text ++ "')").toList = front ++ s.link.chars := by
  have hend : "')".toList = ['\'', ')'] := by decide
  rw [String.toList_append, String.toList_append, hopening, hend]
  unfold Setting.link Link.chars
  rw [h]
  simp only [List.append_assoc, List.cons_append, List.nil_append]

theorem Addons.toList_source (a : Addons) :
    a.source.toList = (a.settings.map Setting.link).flatMap Link.chars := by
  obtain ⟨since, till, reason⟩ := a
  have hdate : ∀ m : Moment, escape m.date.text.toList = m.date.text.toList := fun m =>
    escape_simple m.date.simple_text
  cases since <;> cases till <;> cases reason <;>
    simp [source, settings, Setting.link, Link.chars, Setting.text, Setting.addon, Addon.name, hdate]

/-- The source of a formula is the written chain of what is set in it. -/
theorem Formula.toList_source {f : Formula} (h : f.Sound) :
    f.source.toList = chainChars f.modifier.name.toList (f.settings.map Setting.link) := by
  cases f with
  | discount v a =>
    have hv : v.Sound := h (.value v) (List.mem_cons_self ..)
    have hfront : "discount.fixed('".toList =
        "discount".toList ++ '.' :: ("fixed".toList ++ ['(', '\'']) := by decide
    have hcall := toList_call (.value v) "discount.fixed('" "discount".toList hfront
      (escape_simple (DiscountValue.simple_text hv))
    show (("discount.fixed('" ++ (Setting.value v).text ++ "')") ++ a.source).toList =
      "discount".toList ++ ((Setting.value v).link.chars ++
        (a.settings.map Setting.link).flatMap Link.chars)
    rw [String.toList_append, hcall, a.toList_source, List.append_assoc]
  | installment t a =>
    cases t with
    | none =>
      show ("installment" ++ a.source).toList =
        "installment".toList ++ (a.settings.map Setting.link).flatMap Link.chars
      rw [String.toList_append, a.toList_source]
    | some t =>
      have hfront : "installment.lasts('".toList =
          "installment".toList ++ '.' :: ("lasts".toList ++ ['(', '\'']) := by decide
      have hcall := toList_call (.term t) "installment.lasts('" "installment".toList hfront
        (escape_simple t.simple_text)
      show (("installment.lasts('" ++ (Setting.term t).text ++ "')") ++ a.source).toList =
        "installment".toList ++ ((Setting.term t).link.chars ++
          (a.settings.map Setting.link).flatMap Link.chars)
      rw [String.toList_append, hcall, a.toList_source, List.append_assoc]

end Tariff
