/-
  Compiling the source of a formula. What compiles holds only what could have been read
  (`sound_of_compile`), and the source of a formula that holds no more than that compiles to just this
  formula, whatever becomes of second calls for a slot (`compileText_source`): each call is read back to
  what it sets, and no slot is set twice.
-/
import Tariff.Engine.Store
import Tariff.Proofs.Compile.LastCalls

namespace Tariff

open Source (Call Link Literal Statement parseStatement)

/-! ## What is read is sound -/

theorem readArg_eq_ok_iff {α : Type} {c : Call} {raw : List Char} {read : List Char → Option α}
    {a : α} : readArg c raw read = .ok a ↔ read raw = some a := by
  unfold readArg
  cases read raw <;> simp

theorem sound_of_readDate {c : Call} {l : Literal} {m : Moment} (h : readDate c l = .ok m) :
    ∃ date, m = Moment.midnight date := by
  unfold readDate at h
  split at h
  · obtain ⟨date, -, hdate⟩ := Option.map_eq_some_iff.mp (readArg_eq_ok_iff.mp h)
    exact ⟨date, hdate.symm⟩
  · cases h

theorem sound_of_readValue {c : Call} {l : Literal} {read : List Char → Option DiscountValue}
    {v : DiscountValue} (hread : ∀ raw v, read raw = some v → v.Sound)
    (h : readValue c l read = .ok v) : v.Sound := by
  unfold readValue at h
  split at h
  · exact hread _ _ (readArg_eq_ok_iff.mp h)
  · exact hread _ _ (readArg_eq_ok_iff.mp h)
  · cases h

theorem sound_of_readTerm {c : Call} {l : Literal} {p : Period} (h : readTerm c l = .ok p) :
    p.Sound := by
  unfold readTerm at h
  split at h
  · exact Period.sound_of_parse? (readArg_eq_ok_iff.mp h)
  · cases h

theorem Setting.sound_of_read {a : Addon} {c : Call} {s : Setting} (h : a.read c = .ok s) :
    s.Sound := by
  obtain ⟨l, -, h⟩ := of_bind_eq_ok h
  cases a with
  | fixed =>
    obtain ⟨v, hv, hs⟩ := of_bind_eq_ok h
    cases hs
    exact sound_of_readValue (fun _ _ => DiscountValue.sound_of_parse?) hv
  | relative =>
    obtain ⟨v, hv, hs⟩ := of_bind_eq_ok h
    cases hs
    exact sound_of_readValue (fun _ _ => DiscountValue.sound_of_parseRelative?) hv
  | lasts =>
    obtain ⟨p, hp, hs⟩ := of_bind_eq_ok h
    cases hs
    exact sound_of_readTerm hp
  | since =>
    obtain ⟨m, hm, hs⟩ := of_bind_eq_ok h
    cases hs
    exact sound_of_readDate hm
  | till =>
    obtain ⟨m, hm, hs⟩ := of_bind_eq_ok h
    cases hs
    exact sound_of_readDate hm
  | reason =>
    obtain ⟨r, hr, hs⟩ := of_bind_eq_ok h
    cases hs
    trivial

/-! ## What compiles was read -/

namespace Draft

/-- What is set in a draft. -/
def Holds (d : Draft) : Setting → Prop
  | .value v => d.value = some v
  | .term p => d.term = some p
  | .since m => d.since = some m
  | .till m => d.till = some m
  | .reason r => d.reason = some r

variable {policy : DuplicatePolicy} {m : Modifier} {d d' : Draft} {f : Formula}

theorem not_holds_empty (s : Setting) : ¬ ({} : Draft).Holds s := by
  cases s <;> rintro ⟨⟩

theorem holds_set {s t : Setting} (h : (d.set s).Holds t) : t = s ∨ d.Holds t := by
  cases s <;> cases t <;> simp_all [Draft.set, Holds]

/-- What is set after some calls was read from one of them, unless it was set before. -/
theorem read_of_calls {cs : List Call} (h : d.calls policy m cs = .ok d') {s : Setting}
    (hs : d'.Holds s) : d.Holds s ∨ ∃ c ∈ cs, ∃ a : Addon, a.read c = .ok s := by
  induction cs generalizing d with
  | nil =>
    cases h
    exact Or.inl hs
  | cons c cs ih =>
    rw [Draft.calls] at h
    cases hcall : d.call policy m c with
    | error e =>
      rw [hcall] at h
      cases h
    | ok next =>
      rw [hcall] at h
      obtain ⟨a, t, -, hread, rfl, -⟩ := call_eq_ok hcall
      rcases ih h with hheld | ⟨c', hc', hread'⟩
      · rcases holds_set hheld with rfl | hheld
        · exact Or.inr ⟨c, List.mem_cons_self .., a, hread⟩
        · exact Or.inl hheld
      · exact Or.inr ⟨c', List.mem_cons_of_mem _ hc', hread'⟩

/-- What a finished draft sets was set in the draft. -/
theorem holds_of_finish {s : Setting} (h : d.finish m = .ok f) (hs : s ∈ f.settings) :
    d.Holds s := by
  have haddons : s ∈ (⟨d.since, d.till, d.reason⟩ : Addons).settings → d.Holds s := by
    intro hs
    simp only [Addons.settings, List.mem_append, Option.mem_toList, Option.map_eq_some_iff] at hs
    rcases hs with (⟨m, hm, rfl⟩ | ⟨m, hm, rfl⟩) | ⟨r, hr, rfl⟩
    · exact hm
    · exact hm
    · exact hr
  cases m with
  | discount =>
    unfold finish at h
    dsimp only at h
    split at h
    · next v hv =>
      cases h
      rcases List.mem_cons.mp hs with rfl | hs
      · exact hv
      · exact haddons hs
    · cases h
  | installment =>
    cases h
    rcases List.mem_append.mp hs with hs | hs
    · obtain ⟨t, ht, rfl⟩ := Option.map_eq_some_iff.mp (Option.mem_toList.mp hs)
      exact ht
    · exact haddons hs

end Draft

/-- All that is set in a formula that was compiled was read from a call of its statement. -/
theorem read_of_compile {policy : DuplicatePolicy} {st : Statement} {f : Formula}
    (h : compile policy st = .ok f) {s : Setting} (hs : s ∈ f.settings) :
    ∃ c ∈ st.calls, ∃ a : Addon, a.read c = .ok s := by
  cases st with
  | literal value pos => cases h
  | chain head rest =>
    obtain ⟨m, d, -, hcalls, hfinish⟩ := compileChain_eq_ok h
    rcases Draft.read_of_calls hcalls (Draft.holds_of_finish hfinish hs) with hempty | ⟨c, hc, hread⟩
    · exact absurd hempty (Draft.not_holds_empty s)
    · exact ⟨c, List.mem_cons_of_mem _ hc, hread⟩

/-- A formula that was compiled holds only what could have been read. -/
theorem sound_of_compile {policy : DuplicatePolicy} {st : Statement} {f : Formula}
    (h : compile policy st = .ok f) : f.Sound := by
  intro s hs
  obtain ⟨c, -, a, hread⟩ := read_of_compile h hs
  exact Setting.sound_of_read hread

/-! ## What is written is read -/

theorem readDate_text (c : Call) (d : Date) :
    readDate c (.str d.text) = .ok (Moment.midnight d) := by
  unfold readDate
  rw [readArg_eq_ok_iff]
  rw [Date.text, String.toList_ofList, Text.trim_eq_self d.solid_chars.trimmed, d.parse?_chars]
  rfl

theorem readValue_text (c : Call) {v : DiscountValue} (h : v.Sound) :
    readValue c (.str v.text) DiscountValue.parse? = .ok v := by
  unfold readValue
  rw [readArg_eq_ok_iff]
  rw [Text.trim_eq_self (DiscountValue.trimmed_text h), DiscountValue.parse?_text h]

theorem readTerm_text (c : Call) {p : Period} (h : p.Sound) : readTerm c (.str p.text) = .ok p :=
  readArg_eq_ok_iff.mpr (Period.parse?_text h)

/-- A call with the text of a setting sets just this. -/
theorem Setting.read_link {s : Setting} {c : Call} (h : s.Sound) (hc : s.link.Reads c) :
    s.addon.read c = .ok s := by
  have harg : c.onlyArg = .ok (.str s.text) := by
    unfold Source.Call.onlyArg
    rw [hc.2]
    simp [link]
  unfold Addon.read
  rw [harg]
  dsimp only [bind, Except.bind]
  cases s with
  | value v =>
    dsimp only [addon, text]
    rw [readValue_text c h]
    rfl
  | term p =>
    dsimp only [addon, text]
    rw [readTerm_text c h]
    rfl
  | since m =>
    obtain ⟨d, rfl⟩ := h
    dsimp only [addon, text]
    rw [readDate_text]
    rfl
  | till m =>
    obtain ⟨d, rfl⟩ := h
    dsimp only [addon, text]
    rw [readDate_text]
    rfl
  | reason r => rfl

theorem Modifier.addon?_name {m : Modifier} {a : Addon} (h : a ∈ m.addons) :
    m.addon? a.name = some a := by
  cases m <;> cases a <;> revert h <;> decide

/-- Calls with the texts of settings, all of which the modifier knows, set just these. -/
theorem Modifier.reads_of_links {m : Modifier} {ss : List Setting} {cs : List Call}
    (hreads : List.Forall₂ Link.Reads (ss.map Setting.link) cs) (hsound : ∀ s ∈ ss, s.Sound)
    (hknown : ∀ s ∈ ss, s.addon ∈ m.addons) : m.Reads cs ss := by
  induction ss generalizing cs with
  | nil =>
    cases hreads
    exact List.Forall₂.nil
  | cons s ss ih =>
    obtain ⟨c, rest, hread, hrest, rfl⟩ := List.forall₂_cons_left_iff.mp hreads
    rw [List.forall_mem_cons] at hsound hknown
    have hname : c.name = s.addon.name := by
      rw [hread.1]
      exact String.ofList_toList
    have hset : m.read c = .ok s := by
      unfold read
      rw [hname, addon?_name hknown.1]
      exact Setting.read_link hsound.1 hread
    exact List.Forall₂.cons hset (ih hrest hsound.2 hknown.2)

/-! ## The source of a formula -/

namespace Formula

variable (f : Formula)

theorem addon_mem_of_mem_settings : ∀ s ∈ f.settings, s.addon ∈ f.modifier.addons := by
  intro s hs
  cases f <;> cases s <;>
    simp_all [settings, Addons.settings, modifier, Modifier.addons, Setting.addon]

theorem nodup_slot_settings : (f.settings.map Setting.slot).Nodup := by
  obtain ⟨v, since, till, reason⟩ | ⟨term, since, till, reason⟩ := f
  · cases since <;> cases till <;> cases reason <;> simp [settings, Addons.settings, Setting.slot]
  · cases term <;> cases since <;> cases till <;> cases reason <;>
      simp [settings, Addons.settings, Setting.slot]

theorem finish_settings : (f.settings.foldl Draft.set {}).finish f.modifier = .ok f := by
  obtain ⟨v, since, till, reason⟩ | ⟨term, since, till, reason⟩ := f
  · cases since <;> cases till <;> cases reason <;> rfl
  · cases term <;> cases since <;> cases till <;> cases reason <;> rfl

theorem isName_modifier (m : Modifier) : Source.IsName m.name.toList := by
  cases m <;> simp [Source.IsName, Modifier.name, Source.wordKind, Source.isWordPart, Source.isWordStart]

theorem isName_addon (a : Addon) : Source.IsName a.name.toList := by
  cases a <;> simp [Source.IsName, Addon.name, Source.wordKind, Source.isWordPart, Source.isWordStart]

theorem isName_of_mem_links : ∀ l ∈ f.settings.map Setting.link, Source.IsName l.name := by
  intro l hl
  obtain ⟨s, -, rfl⟩ := List.mem_map.mp hl
  exact isName_addon s.addon

/-- The source of a sound formula is one content line. -/
theorem contentLine_source {f : Formula} (h : f.Sound) : Source.ContentLine f.source.toList := by
  rw [toList_source h]
  exact Source.contentLine_chainChars (isName_modifier _) f.isName_of_mem_links

theorem readHead_modifier (m : Modifier) (pos : Source.Pos) :
    readHead ⟨m.name, [], pos⟩ = .ok m := by
  cases m <;> rfl

/-- The source of a sound formula compiles to this formula under every policy. -/
theorem compileText_source {f : Formula} (h : f.Sound) (policy : DuplicatePolicy) :
    compileText policy f.source.toList = .ok f := by
  obtain ⟨pos, cs, hparse, hreads⟩ :=
    Source.parseStatement_chainChars (isName_modifier f.modifier) f.isName_of_mem_links
  have hcalls : Draft.calls policy f.modifier {} cs = .ok (f.settings.foldl Draft.set {}) :=
    Draft.calls_of_reads (Modifier.reads_of_links hreads h f.addon_mem_of_mem_settings)
      fun _ => ⟨f.nodup_slot_settings, fun s _ => Draft.not_filled_empty s.slot⟩
  unfold compileText
  rw [toList_source h, hparse, String.ofList_toList]
  show compileChain policy _ cs = _
  unfold compileChain
  rw [readHead_modifier]
  dsimp only
  rw [hcalls]
  exact f.finish_settings

end Formula

end Tariff
