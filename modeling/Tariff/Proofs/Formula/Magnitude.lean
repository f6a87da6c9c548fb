/-
  The magnitude of a discount against the number that is written for it. A number of the source, alone
  or in front of a `%` in a string, is read as it is written if a decimal has room for all its digits.
  Else the addon keeps a number that is rounded to fewer places, or refuses the argument, where the
  number is too large to be rounded (`read_number`). So an accepted number need not be what is written.
-/
import Tariff.Engine.Store
import Tariff.Proofs.Formula.ReadBack
import Tariff.Proofs.Source.Tiling

namespace Tariff

open Decimal (Written)
open Source (Call Literal Token)

/-! ## Numbers of the source -/

namespace Source

variable {w : List Char}

theorem IsUnsigned.exists_written (h : IsUnsigned w) (negative : Bool) :
    ∃ x : Written, x.negative = negative ∧ x.body = w := by
  obtain ⟨whole, fraction, rfl, hwhole, hfraction⟩ := h
  obtain ⟨hne, hdigits⟩ := digits_of_isDigits hwhole
  rcases hfraction with rfl | ⟨ds, rfl, hds⟩
  · exact ⟨⟨negative, whole, [], hne, hdigits, List.forall_mem_nil _⟩, rfl, by simp [Written.body]⟩
  · obtain ⟨hne', hdigits'⟩ := digits_of_isDigits hds
    exact ⟨⟨negative, whole, ds, hne, hdigits, hdigits'⟩, rfl, by simp [Written.body, hne']⟩

theorem IsNumber.exists_written (h : IsNumber w) : ∃ x : Written, x.chars = w := by
  rcases h with hw | ⟨u, rfl, hu⟩
  · obtain ⟨x, hsign, hbody⟩ := hw.exists_written false
    exact ⟨x, by simp [Written.chars, hsign, hbody]⟩
  · obtain ⟨x, hsign, hbody⟩ := hu.exists_written true
    exact ⟨x, by simp [Written.chars, hsign, hbody]⟩

/-- The text of a number token is a written number. -/
theorem written_of_mem_lex {cs : List Char} {ts : List Token} (h : lex cs = .ok ts) {t : Token}
    (ht : t ∈ ts) (hk : t.kind = .number) : ∃ w : Written, w.chars = t.text.toList := by
  have hfinish : t.kind ≠ .finish := by
    rw [hk]
    decide
  obtain ⟨next, lexeme, hlexeme, -⟩ := lexeme_of_mem_lex h ht hfinish
  rw [hk] at hlexeme
  generalize t.text = text at hlexeme ⊢
  cases hlexeme with
  | number hlong =>
    rw [String.toList_ofList]
    exact hlong.holds.exists_written

end Source

/-! ## What the addons make of them -/

section

variable (w : Written)

theorem DiscountValue.parseRelative?_chars :
    parseRelative? w.chars = (Decimal.parse? w.chars).map .relative := by
  unfold parseRelative?
  rw [parse?_chars]
  cases Decimal.parse? w.chars <;> rfl

theorem DiscountValue.parseRelative?_percent :
    parseRelative? (w.chars ++ ['%']) = (Decimal.parse? w.chars).map .relative := by
  unfold parseRelative?
  rw [parse?_percent]
  cases Decimal.parse? w.chars <;> rfl

/-- Alone or in front of a percent sign, by either reader, a number becomes the magnitude of a value. -/
theorem DiscountValue.exists_map_parse? {read : List Char → Option DiscountValue}
    (hread : read ∈ [parse?, parseRelative?]) {raw : List Char}
    (hraw : raw ∈ [w.chars, w.chars ++ ['%']]) :
    ∃ f : Decimal → DiscountValue, (∀ m, (f m).magnitude = m) ∧
      read raw = (Decimal.parse? w.chars).map f := by
  rcases List.mem_pair.mp hread with rfl | rfl <;> rcases List.mem_pair.mp hraw with rfl | rfl
  · exact ⟨(.absolute · none), fun _ => rfl, parse?_chars w⟩
  · exact ⟨.relative, fun _ => rfl, parse?_percent w⟩
  · exact ⟨.relative, fun _ => rfl, parseRelative?_chars w⟩
  · exact ⟨.relative, fun _ => rfl, parseRelative?_percent w⟩

theorem Addon.read_fixed {c : Call} {l : Literal} (hc : c.args = [l]) :
    Addon.fixed.read c = (readValue c l DiscountValue.parse?).map .value := by
  unfold Addon.read Source.Call.onlyArg
  rw [hc]
  dsimp only [bind, Except.bind]
  cases readValue c l DiscountValue.parse? <;> rfl

theorem Addon.read_relative {c : Call} {l : Literal} (hc : c.args = [l]) :
    Addon.relative.read c = (readValue c l DiscountValue.parseRelative?).map .value := by
  unfold Addon.read Source.Call.onlyArg
  rw [hc]
  dsimp only [bind, Except.bind]
  cases readValue c l DiscountValue.parseRelative? <;> rfl

/-- What a text with a number is read as: a value with a magnitude that the number is read as, or none,
    where the number is read as none. -/
theorem readValue_written {read : List Char → Option DiscountValue}
    (hread : read ∈ [DiscountValue.parse?, DiscountValue.parseRelative?]) {text : String}
    (htext : text.toList ∈ [w.chars, w.chars ++ ['%']]) {l : Literal}
    (hl : l ∈ [.number text, .str text]) (c : Call) :
    (∃ v, readValue c l read = .ok v ∧ w.Reading (some v.magnitude)) ∨
      readValue c l read = .error (.invalidArgument c.name text) ∧ w.Reading none := by
  have htrimmed : Text.Trimmed text.toList := by
    rcases List.mem_pair.mp htext with h | h
    · rw [h]
      exact w.solid_chars.trimmed
    · rw [h]
      exact DiscountValue.trimmed_percent w
  have hvalue : readValue c l read = readArg c text.toList read := by
    rw [← Text.trim_eq_self htrimmed]
    rcases List.mem_pair.mp hl with rfl | rfl <;> rfl
  obtain ⟨f, hf, hmap⟩ := DiscountValue.exists_map_parse? w hread htext
  have hreading := w.reading
  rw [hvalue, readArg, hmap]
  cases hd : Decimal.parse? w.chars with
  | some d =>
    rw [hd, ← hf d] at hreading
    exact Or.inl ⟨f d, rfl, hreading⟩
  | none =>
    rw [hd] at hreading
    refine Or.inr ⟨?_, hreading⟩
    rw [String.ofList_toList]
    rfl

end

/-- `fixed` and `relative` take a number of the source, alone or in front of a percent sign in a string,
    for a magnitude that is this number with all the places that are written, where a decimal has room
    for its digits. For any other number they take one with fewer places, half a unit of the last of
    them away at most, or, where the number is too large, they report the argument. -/
theorem Addon.read_number {cs : List Char} {ts : List Token} {t : Token}
    (hlex : Source.lex cs = .ok ts) (ht : t ∈ ts) (hk : t.kind = .number) :
    ∃ w : Written, w.chars = t.text.toList ∧
      ∀ (a : Addon) (c : Call) (l : Literal), a ∈ [.fixed, .relative] →
        l ∈ [.number t.text, .str t.text, .str (t.text ++ "%")] → c.args = [l] →
          (∃ v, a.read c = .ok (.value v) ∧ w.Reading (some v.magnitude)) ∨
            a.read c = .error (.invalidArgument c.name l.text) ∧ w.Reading none := by
  obtain ⟨w, hw⟩ := Source.written_of_mem_lex hlex ht hk
  refine ⟨w, hw, fun a c l ha hl hc => ?_⟩
  have hliteral : l.text.toList ∈ [w.chars, w.chars ++ ['%']] ∧ l ∈ [.number l.text, .str l.text] := by
    simp only [List.mem_cons, List.not_mem_nil, or_false] at hl
    rcases hl with rfl | rfl | rfl <;> simp [Source.Literal.text, hw]
  have hread : ∀ read ∈ [DiscountValue.parse?, DiscountValue.parseRelative?],
      a.read c = (readValue c l read).map .value →
        (∃ v, a.read c = .ok (.value v) ∧ w.Reading (some v.magnitude)) ∨
          a.read c = .error (.invalidArgument c.name l.text) ∧ w.Reading none := by
    intro read hmem heq
    rw [heq]
    rcases readValue_written w hmem hliteral.1 hliteral.2 c with ⟨v, hv, hreading⟩ | ⟨hv, hreading⟩
    · exact Or.inl ⟨v, by rw [hv]; rfl, hreading⟩
    · exact Or.inr ⟨by rw [hv]; rfl, hreading⟩
  rcases List.mem_pair.mp ha with rfl | rfl
  · exact hread _ (List.mem_cons_self ..) (Addon.read_fixed hc)
  · exact hread _ (by simp) (Addon.read_relative hc)

/-- A percentage of three digits is kept as it is written. -/
theorem Addon.read_number_percent :
    Addon.relative.read ⟨"relative", [.str "-2.50%"], .start⟩ =
        .ok (.value (.relative ⟨-250, 2, by decide, by decide⟩)) ∧
      ∃ w : Written, w.chars = "-2.50".toList ∧
        w.Reading (some ⟨-250, 2, by decide, by decide⟩) := by
  have hlex : Source.lex "-2.50".toList =
      .ok [⟨.number, "-2.50", ⟨1, 1⟩⟩, ⟨.finish, "EOF", ⟨1, 6⟩⟩] := by decide +kernel
  have hread : Addon.relative.read ⟨"relative", [.str "-2.50%"], .start⟩ =
      .ok (.value (.relative ⟨-250, 2, by decide, by decide⟩)) := by decide +kernel
  refine ⟨hread, ?_⟩
  obtain ⟨w, hw, hall⟩ := Addon.read_number hlex (List.mem_cons_self ..) rfl
  refine ⟨w, hw, ?_⟩
  have hpercent : "-2.50" ++ "%" = "-2.50%" := by decide +kernel
  rcases hall .relative ⟨"relative", [.str "-2.50%"], .start⟩ (.str "-2.50%") (by simp)
    (by simp [← hpercent]) rfl with ⟨v, hv, hreading⟩ | ⟨hv, -⟩
  · rw [hread] at hv
    cases hv
    exact hreading
  · rw [hread] at hv
    cases hv

/-- A number that is accepted need not be what is written: of 29 nines behind a point one remains, in
    front of it. -/
theorem fixed_rounds_up :
    ∃ w : Written, w.chars = "0.99999999999999999999999999999".toList ∧
      ∃ v, compileText .lastWins "discount.fixed(0.99999999999999999999999999999)".toList =
          .ok (.discount v ⟨none, none, none⟩) ∧
        v.magnitude.value ≠ w.value ∧ v.magnitude.scale ≠ w.places := by
  have hcompile : compileText .lastWins "discount.fixed(0.99999999999999999999999999999)".toList =
      .ok (.discount (.absolute ⟨10 ^ 28, 28, by decide, by decide⟩ none) ⟨none, none, none⟩) := by
    decide +kernel
  have hnines : Text.Digits (List.replicate 29 '9') := fun c hc => by
    rw [List.eq_of_mem_replicate hc]
    rfl
  let w : Written :=
    ⟨false, ['0'], List.replicate 29 '9', List.cons_ne_nil _ _, Text.digits_toDigits 0, hnines⟩
  have hvalue : w.value = ((99999999999999999999999999999 : Int) : ℚ) / 10 ^ 29 := rfl
  have hscale : (28 : Nat) ≠ 29 := by decide
  refine ⟨w, rfl, _, hcompile, ?_, hscale⟩
  rw [hvalue, Decimal.value, DiscountValue.magnitude]
  norm_num

end Tariff
