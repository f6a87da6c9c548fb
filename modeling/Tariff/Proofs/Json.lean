/-
  JSON strings read back. A reader takes a string as the format defines it: between quotes, with a
  backslash in front of a letter or of four hexadecimal digits, and with no control characters. What the
  writer makes of a text, it reads as that text (`readString?_quoted`). So a text that is shown as JSON
  can be had back, whatever stands in it.
-/
import Tariff.Json
import Tariff.Text.Numeral

namespace Tariff.Json

/-! ## The reader -/

/-- The character that a letter behind a backslash stands for. -/
def escaped? : Char → Option Char
  | '"' => some '"'
  | '\\' => some '\\'
  | '/' => some '/'
  | 'b' => some '\x08'
  | 'f' => some '\x0c'
  | 'n' => some '\n'
  | 'r' => some '\r'
  | 't' => some '\t'
  | _ => none

/-- What stands in front of the closing quote, which ends the text. -/
def contents? : List Char → Option (List Char)
  | [] => none
  | '\\' :: 'u' :: c₁ :: c₂ :: c₃ :: c₄ :: cs =>
    (Text.codedChar? [c₁, c₂, c₃, c₄]).bind fun c => (contents? cs).map (c :: ·)
  | '\\' :: c :: cs => (escaped? c).bind fun c => (contents? cs).map (c :: ·)
  | c :: cs =>
    if c = '"' then if cs = [] then some [] else none
    else if c = '\\' ∨ c.toNat < 0x20 then none
    else (contents? cs).map (c :: ·)

/-- The text that a JSON string stands for. -/
def readString? (s : String) : Option String :=
  match s.toList with
  | '"' :: cs => (contents? cs).map String.ofList
  | _ => none

/-! ## What is written is read -/

theorem codedChar?_code {c : Char} (h : c.toNat < 0x20) :
    Text.codedChar? ['0', '0', Nat.digitChar (c.toNat / 16), Nat.digitChar (c.toNat % 16)] =
      some c := by
  have hcodes : ∀ n < 0x20, Text.codedChar?
      ['0', '0', Nat.digitChar (n / 16), Nat.digitChar (n % 16)] = some (Char.ofNat n) := by
    decide
  rw [hcodes c.toNat h, Char.ofNat_toNat]

theorem contents?_cons {c : Char} (hquote : c ≠ '"') (hslash : c ≠ '\\') (hcode : ¬c.toNat < 0x20)
    (cs : List Char) : contents? (c :: cs) = (contents? cs).map (c :: ·) := by
  rw [contents?.eq_def]
  split
  · next h => cases h
  · next h => exact absurd (List.cons.inj h).1 hslash
  · next h => exact absurd (List.cons.inj h).1 hslash
  · next h =>
    cases h
    rw [if_neg hquote, if_neg (not_or.2 ⟨hslash, hcode⟩)]

theorem contents?_escapeChar (c : Char) (cs : List Char) :
    contents? (escapeChar c ++ cs) = (contents? cs).map (c :: ·) := by
  unfold escapeChar
  split
  iterate 7 rfl
  · next hquote hslash _ _ _ _ _ =>
    split
    · next hcode =>
      show (Text.codedChar? _).bind _ = _
      rw [codedChar?_code hcode]
      rfl
    · next hcode => exact contents?_cons hquote hslash hcode cs

theorem contents?_flatMap (cs : List Char) :
    contents? (cs.flatMap escapeChar ++ ['"']) = some cs := by
  induction cs with
  | nil => rfl
  | cons c cs ih => rw [List.flatMap_cons, List.append_assoc, contents?_escapeChar, ih, Option.map_some]

/-- A string reads as the text that it was written for. -/
theorem readString?_quoted (s : String) : readString? (quoted s) = some s := by
  have htext : (quoted s).toList = '"' :: (s.toList.flatMap escapeChar ++ ['"']) := String.toList_ofList
  rw [readString?, htext]
  show (contents? _).map _ = _
  rw [contents?_flatMap, Option.map_some, String.ofList_toList]

/-! ## Objects of one text -/

theorem text_obj_str (key value : String) :
    (obj [(key, .str value)]).text =
      "\x7b\n  " ++ quoted key ++ ": " ++ quoted value ++ "\n\x7d" := by
  have hlines : fieldsAt 1 [(key, .str value)] = [quoted key ++ ": " ++ quoted value] := by
    simp only [fieldsAt, textAt]
  have hopening : "\x7b" ++ "\n" ++ margin 1 = "\x7b\n  " := by decide
  have hclosing : "\n" ++ margin 0 ++ "\x7d" = "\n\x7d" := by decide
  rw [text, textAt, hlines, bracketed, List.map_singleton, String.intercalate_singleton]
  · rw [← hopening, ← hclosing]
    simp only [String.append_assoc]
  · exact fun h => nomatch h

end Tariff.Json
