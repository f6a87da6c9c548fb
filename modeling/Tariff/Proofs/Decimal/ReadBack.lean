/-
  A written decimal is read back as it was, scale included (`Decimal.parse?_chars`): it is a written
  number whose digits fit.
-/
import Tariff.Proofs.Decimal.Written

namespace Tariff.Decimal

open Text (Digits Solid digitsValue padded)

-- Powers of numbers are the core library's, whatever else is imported.
attribute [local instance (high)] instPowNat

/-- The digits of a decimal in front of its point, and the point with the digits behind it. -/
def wholeChars (d : Decimal) : List Char := Nat.toDigits 10 (d.units.natAbs / 10 ^ d.scale)

def fractionChars (d : Decimal) : List Char :=
  if d.scale = 0 then [] else '.' :: padded d.scale (d.units.natAbs % 10 ^ d.scale)

variable (d : Decimal)

theorem chars_eq : d.chars =
    (if d.units < 0 then ['-'] else []) ++ (d.wholeChars ++ d.fractionChars) := by
  unfold chars wholeChars fractionChars
  rw [List.append_assoc]

theorem digits_wholeChars : Digits d.wholeChars := Text.digits_toDigits _

theorem wholeChars_ne_nil : d.wholeChars ≠ [] := Nat.toDigits_ne_nil

/-- A decimal as the number that its text is. -/
def written : Written where
  negative := decide (d.units < 0)
  whole := d.wholeChars
  fraction := if d.scale = 0 then [] else padded d.scale (d.units.natAbs % 10 ^ d.scale)
  whole_ne_nil := d.wholeChars_ne_nil
  digits_whole := d.digits_wholeChars
  digits_fraction := by
    split
    · exact fun c hc => nomatch hc
    · exact Text.digits_padded _ _

theorem written_whole : d.written.whole = d.wholeChars := rfl

theorem written_fraction : d.written.fraction =
    if d.scale = 0 then [] else padded d.scale (d.units.natAbs % 10 ^ d.scale) := rfl

theorem chars_written : d.written.chars = d.chars := by
  have hfraction : (if d.written.fraction = [] then [] else '.' :: d.written.fraction) =
      d.fractionChars := by
    rw [written_fraction, fractionChars]
    by_cases hscale : d.scale = 0
    · rw [if_pos hscale, if_pos hscale, if_pos rfl]
    · rw [if_neg hscale, if_neg hscale, if_neg (Text.padded_ne_nil _ _)]
  rw [chars_eq, Written.chars, Written.body, hfraction]
  simp [written]

/-- The digits of a decimal, read as one number, are its units, and as many of them stand behind the
    point as its scale says. -/
theorem written_counts : d.written.count = d.units.natAbs ∧ d.written.places = d.scale := by
  have hwhole : digitsValue d.wholeChars = d.units.natAbs / 10 ^ d.scale :=
    Nat.ofDigitChars_ten_toDigits
  rw [Written.count, Written.places, written_fraction, written_whole]
  by_cases hscale : d.scale = 0
  · rw [if_pos hscale, List.append_nil, hwhole, hscale, Nat.pow_zero, Nat.div_one]
    exact ⟨rfl, rfl⟩
  · have hrest := Nat.mod_lt d.units.natAbs (Nat.pow_pos (n := d.scale) (by decide : 0 < 10))
    have hlength := Text.length_padded (Nat.pos_of_ne_zero hscale) hrest
    rw [if_neg hscale]
    refine ⟨?_, hlength⟩
    calc digitsValue (d.wholeChars ++ padded d.scale (d.units.natAbs % 10 ^ d.scale))
        = digitsValue d.wholeChars * 10 ^ d.scale + d.units.natAbs % 10 ^ d.scale := by
          rw [digitsValue, ofDigitChars_append_left, hlength, Text.digitsValue_padded, digitsValue]
      _ = d.units.natAbs := by
          rw [hwhole]
          exact Nat.div_add_mod' _ _

theorem fits_written : d.written.Fits := by
  obtain ⟨hcount, hplaces⟩ := d.written_counts
  exact ⟨hplaces ▸ d.scale_le, hcount ▸ d.units_lt⟩

theorem units_written : d.written.units = d.units := by
  rw [Written.units, Written.signed, d.written_counts.1]
  unfold written
  simp only [decide_eq_true_eq]
  omega

theorem mem_chars {c : Char} (h : c ∈ d.chars) : c.isDigit = true ∨ c = '-' ∨ c = '.' :=
  d.written.mem_chars (d.chars_written ▸ h)

theorem chars_ne_nil : d.chars ≠ [] := d.chars_written ▸ d.written.chars_ne_nil

theorem solid_chars : Solid d.chars := d.chars_written ▸ d.written.solid_chars

/-- A written decimal is read back as it was, with its scale. -/
theorem parse?_chars : parse? d.chars = some d := by
  obtain ⟨⟨units, scale, _, _⟩, hread, hunits, hscale⟩ := d.written.parse?_of_fits d.fits_written
  rw [d.units_written] at hunits
  rw [d.written_counts.2] at hscale
  rw [← d.chars_written, hread]
  cases d
  cases hunits
  cases hscale
  rfl

end Tariff.Decimal
