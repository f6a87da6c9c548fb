/-
  Tariff texts: white space. `isBlank` is Unicode's White_Space property (25 characters), `trim` cuts
  it off both ends of a text, `parts` splits a text at separators and `words` at runs of blanks.
  Proved here: splitting yields at least one part, and joining the parts gives the text back.
-/
namespace Tariff.Text

/-- The code point ranges of Unicode's White_Space property, both ends included. -/
def blankRanges : List (Nat × Nat) :=
  [(0x09, 0x0D), (0x20, 0x20), (0x85, 0x85), (0xA0, 0xA0), (0x1680, 0x1680), (0x2000, 0x200A),
   (0x2028, 0x2029), (0x202F, 0x202F), (0x205F, 0x205F), (0x3000, 0x3000)]

/-- Whether a character is white space. -/
def isBlank (c : Char) : Bool :=
  blankRanges.any fun r => r.1 ≤ c.toNat && c.toNat ≤ r.2

/-- The text from its first character that is no blank. -/
def trimStart (cs : List Char) : List Char := cs.dropWhile isBlank

/-- The text up to its last character that is no blank. -/
def trimEnd (cs : List Char) : List Char := (cs.reverse.dropWhile isBlank).reverse

/-- The text without the blanks at its ends. -/
def trim (cs : List Char) : List Char := trimEnd (trimStart cs)

/-- The parts of a text between the characters that satisfy `p`; there is always at least one. -/
def parts (p : Char → Bool) : List Char → List (List Char)
  | [] => [[]]
  | c :: cs => if p c then [] :: parts p cs else (parts p cs).modifyHead (c :: ·)

/-- The words of a text: its longest stretches without a blank. -/
def words (cs : List Char) : List (List Char) := (parts isBlank cs).filter (! ·.isEmpty)

theorem parts_ne_nil (p : Char → Bool) (cs : List Char) : parts p cs ≠ [] := by
  induction cs with
  | nil => simp [parts]
  | cons c cs ih =>
    unfold parts
    split
    · simp
    · cases h : parts p cs with
      | nil => exact absurd h ih
      | cons a l => simp

/-- Joining the parts with the separator gives the text back. -/
theorem intercalate_parts (sep : Char) (cs : List Char) :
    [sep].intercalate (parts (· == sep) cs) = cs := by
  induction cs with
  | nil => simp [parts, List.intercalate]
  | cons c cs ih =>
    unfold parts
    cases h : parts (· == sep) cs with
    | nil => exact absurd h (parts_ne_nil _ _)
    | cons a l =>
      rw [h] at ih
      by_cases hc : c = sep
      · subst hc
        rw [if_pos (by simp)]
        cases l <;> simp_all [List.intercalate]
      · rw [if_neg (by simpa using hc)]
        cases l <;> simp_all [List.intercalate]

end Tariff.Text
