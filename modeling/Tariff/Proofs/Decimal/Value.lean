/-
  The number a decimal means, and exact additions: those whose result means the sum of the numbers
  meant. An addition that is not exact was rounded or is out of range.
-/
import Mathlib
import Tariff.Decimal.Sum

namespace Tariff.Decimal

/-- The number a decimal means. -/
def value (d : Decimal) : ℚ := (d.units : ℚ) / 10 ^ d.scale

theorem sameValue_iff (a b : Decimal) : a.sameValue b = true ↔ a.value = b.value := by
  have ha : (10 : ℚ) ^ a.scale ≠ 0 := by positivity
  have hb : (10 : ℚ) ^ b.scale ≠ 0 := by positivity
  unfold sameValue value
  rw [beq_iff_eq, div_eq_div_iff ha hb]
  exact_mod_cast Iff.rfl

/-- The sum of two decimals is in range and is not rounded. -/
def AddsExactly (a b : Decimal) : Prop := ∃ c ∈ a.add? b, c.value = a.value + b.value

instance (a b : Decimal) : Decidable (a.AddsExactly b) :=
  inferInstanceAs (Decidable (∃ c ∈ a.add? b, c.value = a.value + b.value))

/-- `1.5 + 0.25` is exact; at the largest number, a fraction of one is rounded off. -/
example : AddsExactly ⟨15, 1, by decide, by decide⟩ ⟨25, 2, by decide, by decide⟩ ∧
    ¬ AddsExactly ⟨2 ^ 96 - 1, 0, by decide, by decide⟩ ⟨1, 1, by decide, by decide⟩ := by
  decide +kernel

end Tariff.Decimal
