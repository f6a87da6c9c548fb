/-
  The texts that values and periods are read from. A decimal has no white space and no percent sign in
  it, a count and a unit have no white space either. So what trimming and cutting into words leave of a
  text tells its form, and the addons `fixed`, `relative` and `lasts` accept the texts of the forms below
  and report every other argument (`Addon.read_accepts`).
-/
import Tariff.Proofs.Compile.Message
import Tariff.Proofs.Compile.Rebuild
import Tariff.Proofs.Formula.Magnitude
import Tariff.Proofs.Text.Words

namespace Tariff

open Source (Call Literal)
open Text (Blanks Solid)

/-! ## Characters of numbers -/

/-- Digits and what else may stand in a decimal. -/
def Decimal.isPart (c : Char) : Bool := c.isDigit || c ∈ ['_', '.', '+', '-', 'e', 'E']

theorem Decimal.isPart_of_isDigit {c : Char} (h : c.isDigit = true) : isPart c = true := by
  rw [isPart, h, Bool.true_or]

theorem Decimal.not_blank_of_isPart {c : Char} (h : isPart c = true) :
    Text.isBlank c = false ∧ c ≠ '%' := by
  rw [isPart, Bool.or_eq_true, decide_eq_true_eq] at h
  rcases h with hdigit | hmark
  · refine ⟨Text.isBlank_of_isDigit hdigit, ?_⟩
    rintro rfl
    cases hdigit
  · simp only [List.mem_cons, List.not_mem_nil, or_false] at hmark
    rcases hmark with rfl | rfl | rfl | rfl | rfl | rfl <;> decide

/-- The text is not empty and has such characters only. -/
structure Decimal.Parts (cs : List Char) : Prop where
  ne_nil : cs ≠ []
  all : ∀ c ∈ cs, isPart c = true

theorem Decimal.Parts.cons {c : Char} {cs : List Char} (hc : isPart c = true) (h : Parts cs) :
    Parts (c :: cs) :=
  ⟨List.cons_ne_nil _ _, List.forall_mem_cons.mpr ⟨hc, h.all⟩⟩

theorem Decimal.Parts.append {cs ds : List Char} (hcs : Parts cs) (hds : Parts ds) :
    Parts (cs ++ ds) :=
  ⟨List.append_ne_nil_of_left_ne_nil hcs.ne_nil _, List.forall_mem_append.mpr ⟨hcs.all, hds.all⟩⟩

theorem Decimal.Parts.solid {cs : List Char} (h : Parts cs) : Solid cs :=
  fun c hc => (not_blank_of_isPart (h.all c hc)).1

theorem Decimal.Parts.percent {cs : List Char} (h : Parts cs) : '%' ∉ cs :=
  fun hmem => (not_blank_of_isPart (h.all _ hmem)).2 rfl

theorem Text.count?_parts {cs : List Char} {n : Nat} (h : count? cs = some n) : Decimal.Parts cs := by
  have hdigits : ∀ {ds : List Char}, isDigits ds = true → Decimal.Parts ds := by
    intro ds hds
    obtain ⟨hne, hall⟩ := Source.digits_of_isDigits hds
    exact ⟨hne, fun d hd => Decimal.isPart_of_isDigit (hall d hd)⟩
  unfold count? at h
  rw [Option.ite_none_right_eq_some, Bool.and_eq_true] at h
  obtain ⟨⟨hds, -⟩, -⟩ := h
  split at hds
  · exact (hdigits hds).cons (by decide)
  · exact hdigits hds

namespace Decimal

theorem parts_of_numeral {cs : List Char} {n : Numeral} (h : Numeral.parse? cs = some n) : Parts cs := by
  unfold Numeral.parse? at h
  dsimp only at h
  rw [Option.ite_none_right_eq_some, Bool.and_eq_true, List.all_eq_true] at h
  obtain ⟨⟨hall, hhead⟩, -⟩ := h
  have hpart : ∀ c, (c.isDigit || c = '_') = true → isPart c = true := by
    intro c hc
    rw [Bool.or_eq_true, decide_eq_true_eq] at hc
    rcases hc with hdigit | rfl
    · exact isPart_of_isDigit hdigit
    · decide
  have hcs : cs.takeWhile (· ≠ '.') ++ cs.dropWhile (· ≠ '.') = cs := List.takeWhile_append_dropWhile
  rw [List.forall_mem_append] at hall
  constructor
  · rintro rfl
    cases hhead
  · rw [← hcs, List.forall_mem_append]
    refine ⟨fun c hc => hpart c (hall.1 c hc), ?_⟩
    cases hrest : cs.dropWhile (· ≠ '.') with
    | nil => exact List.forall_mem_nil _
    | cons d ds =>
      rw [hrest] at hall
      have hstop := List.head?_dropWhile_not (· ≠ '.') cs
      rw [hrest] at hstop
      have hpoint : d = '.' := by simpa using hstop
      exact List.forall_mem_cons.mpr ⟨hpoint ▸ by decide, fun c hc => hpart c (hall.2 c hc)⟩

theorem parts_of_parsePlain? {cs : List Char} {d : Decimal} (h : parsePlain? cs = some d) :
    Parts cs := by
  unfold parsePlain? at h
  dsimp only at h
  obtain ⟨n, hn, -⟩ := Option.bind_eq_some_iff.mp h
  have hbody := parts_of_numeral hn
  unfold Text.splitSign at hbody
  split at hbody
  · exact hbody.cons (by decide)
  · exact hbody.cons (by decide)
  · exact hbody

/-- A text that is read as a decimal has characters of decimals only. -/
theorem parts_of_parse? {cs : List Char} {d : Decimal} (h : parse? cs = some d) : Parts cs := by
  have hcs : cs.takeWhile (! isExponentMark ·) ++ cs.dropWhile (! isExponentMark ·) = cs :=
    List.takeWhile_append_dropWhile
  unfold parse? at h
  split at h
  · exact parts_of_parsePlain? h
  · next mark exponent hmark =>
    obtain ⟨base, hbase, h⟩ := Option.bind_eq_some_iff.mp h
    have hexponent : Parts exponent := by
      split at h
      · obtain ⟨n, hn, -⟩ := Option.bind_eq_some_iff.mp h
        exact (Text.count?_parts hn).cons (by decide)
      · obtain ⟨n, hn, -⟩ := Option.bind_eq_some_iff.mp h
        exact Text.count?_parts hn
    have hpart : isPart mark = true := by
      have hstop := List.head?_dropWhile_not (! isExponentMark ·) cs
      rw [hmark] at hstop
      have hletter : mark = 'e' ∨ mark = 'E' := by
        simpa [isExponentMark, or_iff_not_imp_left] using hstop
      rcases hletter with rfl | rfl <;> decide
    rw [← hcs, hmark]
    exact (parts_of_parsePlain? hbase).append (hexponent.cons hpart)

end Decimal

/-! ## Texts of values -/

/-- The text is `core` with white space around it. -/
def Text.Framed (core t : List Char) : Prop :=
  ∃ lead trail, t = lead ++ core ++ trail ∧ Blanks lead ∧ Blanks trail

theorem Text.Framed.trim_eq {core t : List Char} (h : Framed core t) (hcore : Trimmed core) :
    trim t = core := by
  obtain ⟨lead, trail, rfl, hlead, htrail⟩ := h
  exact trim_append hlead htrail hcore

theorem Text.framed_trim (t : List Char) : Framed (trim t) t := exists_blanks_trim t

theorem Text.Framed.trans {core inner t : List Char} (h : Framed core t) (hinner : Framed inner core) :
    Framed inner t := by
  obtain ⟨lead, trail, rfl, hlead, htrail⟩ := h
  obtain ⟨lead', trail', rfl, hlead', htrail'⟩ := hinner
  exact ⟨lead ++ lead', trail' ++ trail, by simp, blanks_append.mpr ⟨hlead, hlead'⟩,
    blanks_append.mpr ⟨htrail', htrail⟩⟩

theorem Text.isBlank_of_isAlpha {c : Char} (h : c.isAlpha = true) : isBlank c = false := by
  have hpart : Source.isWordPart c = true := by
    rw [Source.isWordPart, Char.isAlphanum, h]
    rfl
  exact Source.isBlank_of_isWordPart hpart

theorem Text.trimmed_of_ends {cs ms ds : List Char} (hcs : cs ≠ []) (h : Solid cs) (hds : ds ≠ [])
    (h' : Solid ds) : Trimmed (cs ++ ms ++ ds) := by
  constructor
  · rw [List.append_assoc, List.head?_append_of_ne_nil _ hcs]
    exact h.trimmed.1
  · rw [List.getLast?_append_of_ne_nil _ hds]
    exact h'.trimmed.2

namespace DiscountValue

/-- The texts of values: a decimal in front of a percent sign, alone, or in front of a currency code,
    which is put in capitals. White space may stand around them and in front of the percent sign, and it
    has to stand in front of the code. -/
inductive Form (t : List Char) : DiscountValue → Prop
  | percent {d gap : List Char} {m : Decimal} (hd : Decimal.parse? d = some m) (hgap : Blanks gap)
      (ht : Text.Framed (d ++ gap ++ ['%']) t) : Form t (.relative m)
  | plain {d : List Char} {m : Decimal} (hd : Decimal.parse? d = some m) (ht : Text.Framed d t) :
      Form t (.absolute m none)
  | priced {d gap code : List Char} {m : Decimal} (hd : Decimal.parse? d = some m)
      (hgap : Blanks gap) (hgapne : gap ≠ []) (hcode : code ≠ [])
      (hletters : ∀ c ∈ code, c.isAlpha = true) (ht : Text.Framed (d ++ gap ++ code) t) :
      Form t (.absolute m (some (String.ofList (code.map Char.toUpper))))

/-- The texts of percentages, with the percent sign or without it. -/
inductive RelativeForm (t : List Char) : DiscountValue → Prop
  | percent {d gap : List Char} {m : Decimal} (hd : Decimal.parse? d = some m) (hgap : Blanks gap)
      (ht : Text.Framed (d ++ gap ++ ['%']) t) : RelativeForm t (.relative m)
  | plain {d : List Char} {m : Decimal} (hd : Decimal.parse? d = some m) (ht : Text.Framed d t) :
      RelativeForm t (.relative m)

variable {t : List Char} {v : DiscountValue}

theorem form_of_percent (h : (Text.trim t).getLast? = some '%')
    (hv : (Decimal.parse? (Text.trim (Text.trim t).dropLast)).map relative = some v) : Form t v := by
  obtain ⟨m, hm, rfl⟩ := Option.map_eq_some_iff.mp hv
  obtain ⟨body, hbody⟩ := List.getLast?_eq_some_iff.mp h
  have hframed := Text.framed_trim t
  rw [hbody, List.dropLast_concat] at hm
  rw [hbody] at hframed
  obtain ⟨lead, gap, hcore, hlead, hgap⟩ := Text.exists_blanks_trim body
  refine .percent hm hgap (hframed.trans ⟨lead, [], ?_, hlead, Text.blanks_nil⟩)
  conv => lhs; rw [hcore]
  simp

theorem form_of_amount {m : Decimal} {currency : Option String}
    (h : parseAmount? (Text.trim t) = some (m, currency)) : Form t (.absolute m currency) := by
  have hframed := Text.framed_trim t
  unfold parseAmount? at h
  split at h
  · next d hwords =>
    obtain ⟨m', hm, heq⟩ := Option.map_eq_some_iff.mp h
    cases heq
    obtain ⟨lead, trail, hcore, hlead, htrail, -⟩ := Text.words_eq_singleton_iff.mp hwords
    exact .plain hm (hframed.trans ⟨lead, trail, hcore, hlead, htrail⟩)
  · next d code hwords =>
    rw [Option.ite_none_right_eq_some] at h
    obtain ⟨hletters, h⟩ := h
    obtain ⟨m', hm, heq⟩ := Option.map_eq_some_iff.mp h
    cases heq
    obtain ⟨lead, gap, trail, hcore, hlead, hgap, hne, htrail, -, hcode, -⟩ :=
      Text.words_eq_pair_iff.mp hwords
    refine .priced hm hgap hne hcode (List.all_eq_true.mp hletters) (hframed.trans ?_)
    exact ⟨lead, trail, by rw [hcore]; simp, hlead, htrail⟩
  · cases h

/-- The trimmed text is read as a value exactly if the text has the form of it. -/
theorem parse?_trim_eq_some_iff : parse? (Text.trim t) = some v ↔ Form t v := by
  constructor
  · intro h
    unfold parse? at h
    split at h
    · next hpercent => exact form_of_percent hpercent h
    · obtain ⟨⟨m, currency⟩, hamount, rfl⟩ := Option.map_eq_some_iff.mp h
      exact form_of_amount hamount
  · intro h
    cases h with
    | @percent d gap m hd hgap ht =>
      have hparts := Decimal.parts_of_parse? hd
      have hsign : Solid ['%'] := List.forall_mem_singleton.mpr (by decide)
      rw [ht.trim_eq (Text.trimmed_of_ends hparts.ne_nil hparts.solid (List.cons_ne_nil _ _) hsign)]
      have hbody : Text.trim (d ++ gap) = d :=
        Text.trim_append Text.blanks_nil hgap hparts.solid.trimmed
      rw [parse?, List.getLast?_concat, if_pos rfl, List.dropLast_concat, hbody, hd]
      rfl
    | @plain d m hd ht =>
      have hparts := Decimal.parts_of_parse? hd
      have hlast : d.getLast? ≠ some '%' := fun hlast => hparts.percent (List.mem_of_getLast? hlast)
      rw [ht.trim_eq hparts.solid.trimmed, parse?, if_neg hlast, parseAmount?,
        Text.words_solid hparts.ne_nil hparts.solid]
      dsimp only
      rw [hd]
      rfl
    | @priced d gap code m hd hgap hgapne hcode hletters ht =>
      have hparts := Decimal.parts_of_parse? hd
      have hsolid : Solid code := fun c hc => Text.isBlank_of_isAlpha (hletters c hc)
      have hlast : (d ++ gap ++ code).getLast? ≠ some '%' := by
        rw [List.getLast?_append_of_ne_nil _ hcode]
        intro hlast
        have hletter := hletters _ (List.mem_of_getLast? hlast)
        cases hletter
      have hwords : Text.words (d ++ gap ++ code) = [d, code] :=
        Text.words_eq_pair_iff.mpr ⟨[], gap, [], by simp, Text.blanks_nil, hgap, hgapne,
          Text.blanks_nil, ⟨hparts.ne_nil, hparts.solid⟩, hcode, hsolid⟩
      rw [ht.trim_eq (Text.trimmed_of_ends hparts.ne_nil hparts.solid hcode hsolid), parse?,
        if_neg hlast, parseAmount?, hwords]
      dsimp only
      rw [if_pos (List.all_eq_true.mpr hletters), hd]
      rfl

theorem parseRelative?_trim_eq_some_iff :
    parseRelative? (Text.trim t) = some v ↔ RelativeForm t v := by
  unfold parseRelative?
  rw [Option.bind_eq_some_iff]
  constructor
  · rintro ⟨w, hw, hv⟩
    cases parse?_trim_eq_some_iff.mp hw with
    | percent hd hgap ht => cases hv; exact .percent hd hgap ht
    | plain hd ht => cases hv; exact .plain hd ht
    | priced => cases hv
  · intro h
    cases h with
    | percent hd hgap ht => exact ⟨_, parse?_trim_eq_some_iff.mpr (.percent hd hgap ht), rfl⟩
    | plain hd ht => exact ⟨_, parse?_trim_eq_some_iff.mpr (.plain hd ht), rfl⟩

end DiscountValue

/-! ## Texts of periods -/

namespace Period

/-- The text is the name of the unit, singular or plural, in any case. -/
def Unit.Named (u : Unit) (name : List Char) : Prop :=
  name.map Char.toLower ∈ [u.name.toList, u.name.toList ++ ['s']]

theorem Unit.ofName?_eq_some_iff {name : List Char} {u : Unit} :
    ofName? name = some u ↔ u.Named name := by
  have hnames : ∀ s : String, String.ofList (name.map Char.toLower) = s ↔
      name.map Char.toLower = s.toList := by
    intro s
    rw [← String.toList_inj, String.toList_ofList]
  unfold ofName? Named
  simp only [hnames, List.mem_cons, List.not_mem_nil, or_false]
  generalize name.map Char.toLower = lower
  constructor
  · intro h
    split at h
    · cases h; assumption
    split at h
    · cases h; assumption
    split at h
    · cases h; assumption
    · cases h
  · intro h
    cases u <;> rcases h with rfl | rfl <;> decide

theorem Unit.Named.solid {name : List Char} {u : Unit} (h : u.Named name) :
    name ≠ [] ∧ Solid name := by
  have hlower : name.map Char.toLower ≠ [] ∧ (name.map Char.toLower).all Char.isLower = true := by
    rcases List.mem_pair.mp h with h | h <;> rw [h] <;> cases u <;> decide
  refine ⟨by simpa using hlower.1, fun c hc => ?_⟩
  have hletter := List.all_eq_true.mp hlower.2 _ (List.mem_map_of_mem hc)
  apply Text.isBlank_of_isAlpha
  rwa [Char.isLower_toLower_eq_isAlpha] at hletter

/-- The texts of periods: a count above zero and the name of a unit, with white space between them. It
    may stand around them as well. -/
inductive Form (t : List Char) : Period → Prop
  | counted {n gap name : List Char} {count : Nat} {unit : Unit} (hn : Text.count? n = some count)
      (hpos : 0 < count) (hgap : Blanks gap) (hgapne : gap ≠ []) (hname : unit.Named name)
      (ht : Text.Framed (n ++ gap ++ name) t) : Form t ⟨count, unit⟩

/-- The text is read as a period exactly if it has the form of it. -/
theorem parse?_eq_some_iff {t : List Char} {p : Period} : parse? t = some p ↔ Form t p := by
  constructor
  · intro h
    unfold parse? at h
    split at h
    · next n name hwords =>
      obtain ⟨count, hn, h⟩ := Option.bind_eq_some_iff.mp h
      obtain ⟨unit, hname, h⟩ := Option.bind_eq_some_iff.mp h
      split at h
      · cases h
      · next hzero =>
        cases h
        obtain ⟨lead, gap, trail, ht, hlead, hgap, hgapne, htrail, -⟩ :=
          Text.words_eq_pair_iff.mp hwords
        exact .counted hn (Nat.pos_of_ne_zero hzero) hgap hgapne (Unit.ofName?_eq_some_iff.mp hname)
          ⟨lead, trail, by rw [ht]; simp, hlead, htrail⟩
    · cases h
  · intro h
    cases h with
    | @counted n gap name count unit hn hpos hgap hgapne hname ht =>
      have hparts := Text.count?_parts hn
      obtain ⟨lead, trail, ht, hlead, htrail⟩ := ht
      have hwords : Text.words t = [n, name] :=
        Text.words_eq_pair_iff.mpr ⟨lead, gap, trail, by rw [ht]; simp, hlead, hgap, hgapne, htrail,
          ⟨hparts.ne_nil, hparts.solid⟩, hname.solid⟩
      have hcount : count ≠ 0 := Nat.ne_of_gt hpos
      unfold parse?
      rw [hwords]
      dsimp only [bind, Option.bind]
      rw [hn]
      dsimp only
      rw [Unit.ofName?_eq_some_iff.mpr hname]
      dsimp only
      rw [if_neg hcount]

end Period

/-! ## What the addons accept -/

/-- The literals that an addon for a value or a period makes a setting of. -/
inductive Addon.Accepts : Addon → Literal → Setting → Prop
  | fixed {l : Literal} {text : String} {v : DiscountValue} (hl : l ∈ [.str text, .number text])
      (h : DiscountValue.Form text.toList v) : Accepts .fixed l (.value v)
  | relative {l : Literal} {text : String} {v : DiscountValue} (hl : l ∈ [.str text, .number text])
      (h : DiscountValue.RelativeForm text.toList v) : Accepts .relative l (.value v)
  | lasts {text : String} {p : Period} (h : Period.Form text.toList p) :
      Accepts .lasts (.str text) (.term p)

section

variable {c : Call} {l : Literal} {s : Setting}

/-- A value is read from the trimmed text of a string or a number. -/
theorem readValue_eq_ok_iff {read : List Char → Option DiscountValue} {v : DiscountValue} :
    readValue c l read = .ok v ↔
      ∃ text : String, l ∈ [.str text, .number text] ∧ read (Text.trim text.toList) = some v := by
  cases l with
  | str text | number text => simp [readValue, readArg_eq_ok_iff]
  | flag b => simp [readValue]

theorem readTerm_eq_ok_iff {p : Period} :
    readTerm c l = .ok p ↔ ∃ text : String, l = .str text ∧ Period.parse? text.toList = some p := by
  cases l with
  | str text => simp [readTerm, readArg_eq_ok_iff]
  | number text | flag b => simp [readTerm]

theorem Addon.read_lasts (hc : c.args = [l]) : Addon.lasts.read c = (readTerm c l).map .term := by
  unfold Addon.read Source.Call.onlyArg
  rw [hc]
  dsimp only [bind, Except.bind]
  cases readTerm c l <;> rfl

theorem Addon.read_eq_ok_iff {a : Addon} (ha : a ∈ [.fixed, .relative, .lasts])
    (hc : c.args = [l]) : a.read c = .ok s ↔ a.Accepts l s := by
  simp only [List.mem_cons, List.not_mem_nil, or_false] at ha
  rcases ha with rfl | rfl | rfl
  · rw [Addon.read_fixed hc, map_eq_ok_iff]
    simp only [readValue_eq_ok_iff, DiscountValue.parse?_trim_eq_some_iff]
    constructor
    · rintro ⟨v, ⟨text, hl, hform⟩, rfl⟩
      exact .fixed hl hform
    · rintro (⟨hl, hform⟩ | _ | _)
      exact ⟨_, ⟨_, hl, hform⟩, rfl⟩
  · rw [Addon.read_relative hc, map_eq_ok_iff]
    simp only [readValue_eq_ok_iff, DiscountValue.parseRelative?_trim_eq_some_iff]
    constructor
    · rintro ⟨v, ⟨text, hl, hform⟩, rfl⟩
      exact .relative hl hform
    · rintro (_ | ⟨hl, hform⟩ | _)
      exact ⟨_, ⟨_, hl, hform⟩, rfl⟩
  · rw [Addon.read_lasts hc, map_eq_ok_iff]
    simp only [readTerm_eq_ok_iff, Period.parse?_eq_some_iff]
    constructor
    · rintro ⟨p, ⟨text, rfl, hform⟩, rfl⟩
      exact .lasts hform
    · rintro (_ | _ | hform)
      exact ⟨_, ⟨_, rfl, hform⟩, rfl⟩

theorem Addon.faults_of_read {a : Addon} (ha : a ∈ [.fixed, .relative, .lasts]) (hc : c.args = [l])
    {e : CompileError} (h : a.read c = .error e) : e.Faults c l := by
  simp only [List.mem_cons, List.not_mem_nil, or_false] at ha
  rcases ha with rfl | rfl | rfl
  · rw [Addon.read_fixed hc] at h
    exact readValue_error (of_map_eq_error h)
  · rw [Addon.read_relative hc] at h
    exact readValue_error (of_map_eq_error h)
  · rw [Addon.read_lasts hc] at h
    exact readTerm_error (of_map_eq_error h)

end

/-- `fixed`, `relative` and `lasts` accept an argument of their forms for the setting that it means, and
    report any other argument, a literal of another kind included, as invalid, with the name of the
    call. -/
theorem Addon.read_accepts {a : Addon} (ha : a ∈ [.fixed, .relative, .lasts]) (c : Call) (l : Literal)
    (hc : c.args = [l]) :
    (∀ s, a.read c = .ok s ↔ a.Accepts l s) ∧
      ((∀ s, ¬ a.Accepts l s) ↔ ∃ e, a.read c = .error e ∧ e.Faults c l) := by
  refine ⟨fun s => read_eq_ok_iff ha hc, ⟨fun hnone => ?_, ?_⟩⟩
  · cases hread : a.read c with
    | ok s => exact absurd ((read_eq_ok_iff ha hc).mp hread) (hnone s)
    | error e => exact ⟨e, rfl, faults_of_read ha hc hread⟩
  · rintro ⟨e, he, -⟩ s haccepts
    rw [(read_eq_ok_iff ha hc).mpr haccepts] at he
    cases he

/-- White space of Unicode around and in a percentage, an amount and a period, and an amount in a
    currency that is no percentage. -/
theorem Addon.read_accepts_blanks :
    Addon.fixed.Accepts (.str "\u2003-1_0.5\u00a0%\n") (.value (.relative ⟨-105, 1, by decide, by decide⟩)) ∧
      Addon.fixed.Accepts (.str "5\t\u3000uSd ") (.value (.absolute ⟨5, 0, by decide, by decide⟩ "USD")) ∧
      Addon.lasts.Accepts (.str "\u2028+02 \rMonthS") (.term ⟨2, .month⟩) ∧
      (∀ s, ¬ Addon.relative.Accepts (.str " 5 USD") s) ∧
      ∃ e, Addon.relative.read ⟨"relative", [.str " 5 USD"], .start⟩ = .error e ∧
        e.Faults ⟨"relative", [.str " 5 USD"], .start⟩ (.str " 5 USD") := by
  have accepts : ∀ a ∈ [Addon.fixed, .relative, .lasts], ∀ l s,
      a.read ⟨a.name, [l], .start⟩ = .ok s → a.Accepts l s := by
    intro a ha l s h
    exact ((Addon.read_accepts ha ⟨a.name, [l], .start⟩ l rfl).1 s).mp h
  have herror : Addon.relative.read ⟨"relative", [.str " 5 USD"], .start⟩ =
      .error (.invalidArgument "relative" "5 USD") := by decide +kernel
  have hfaults : (CompileError.invalidArgument "relative" "5 USD").Faults
      ⟨"relative", [.str " 5 USD"], .start⟩ (.str " 5 USD") :=
    ⟨"5 USD".toList, by decide +kernel, by decide +kernel⟩
  refine ⟨accepts _ (by simp) _ _ (by decide +kernel), accepts _ (by simp) _ _ (by decide +kernel),
    accepts _ (by simp) _ _ (by decide +kernel), ?_, _, herror, hfaults⟩
  exact (Addon.read_accepts (by simp) ⟨"relative", [.str " 5 USD"], .start⟩ _ rfl).2.mpr
    ⟨_, herror, hfaults⟩

end Tariff
