/-
  What a chain means. A call is read by itself, whatever draft it goes into (`Draft.call_eq`), so calls
  that are all accepted come to a list of settings. Where the last call for a slot wins, the formula of
  such a chain has in every slot the last setting for it, and nothing where there is none; only a
  discount that no call gives a value has no formula (`compile_lastWins_slots`). So calls for different
  slots can change places.
-/
import Tariff.Proofs.Compile.Position
import Tariff.Proofs.Compile.Slots
import Tariff.Proofs.Formula.Written

namespace Tariff

open Source (Call Literal Statement)

/-! ## What calls set -/

/-- What a call sets, or why it is not accepted. -/
def Modifier.read (m : Modifier) (c : Call) : Except CompileError Setting :=
  match m.addon? c.name with
  | none => .error (.unknownAddon m.name c.name c.pos)
  | some a => a.read c

/-- The calls are all accepted, and this is what they set. -/
def Modifier.Reads (m : Modifier) (cs : List Call) (ss : List Setting) : Prop :=
  List.Forall₂ (fun c s => m.read c = .ok s) cs ss

/-- The slot that the formulas of a modifier have no place for. -/
def Modifier.lacks : Modifier → Slot
  | .discount => .term
  | .installment => .value

/-- What is set in a slot of a formula. -/
def Formula.setting? (f : Formula) : Slot → Option Setting
  | .value => f.value?.map .value
  | .term => f.term?.map .term
  | .since => f.addons.since.map .since
  | .till => f.addons.till.map .till
  | .reason => f.addons.reason.map .reason

namespace Modifier

variable {m : Modifier} {c : Call} {s : Setting} {cs : List Call} {ss : List Setting}

theorem read_eq_ok (h : m.read c = .ok s) : ∃ a, m.addon? c.name = some a ∧ a.read c = .ok s := by
  unfold read at h
  split at h
  · cases h
  · next a ha => exact ⟨a, ha, h⟩

/-- No call fills the slot that the formulas have no place for. -/
theorem slot_ne_lacks (h : m.read c = .ok s) : s.slot ≠ m.lacks := by
  obtain ⟨a, ha, hread⟩ := read_eq_ok h
  have hplace : ∀ a ∈ m.addons, a.slot ≠ m.lacks := by cases m <;> decide
  rw [Addon.slot_of_read hread]
  exact hplace a (List.mem_of_find?_eq_some ha)

theorem Reads.slot_ne_lacks (h : m.Reads cs ss) : ∀ s ∈ ss, s.slot ≠ m.lacks := by
  induction h with
  | nil => exact fun s hs => nomatch hs
  | cons hread _ ih => exact List.forall_mem_cons.mpr ⟨Modifier.slot_ne_lacks hread, ih⟩

end Modifier

/-! ## Drafts -/

namespace Draft

/-- What is set in a slot of a draft. -/
def setting? (d : Draft) : Slot → Option Setting
  | .value => d.value.map .value
  | .term => d.term.map .term
  | .since => d.since.map .since
  | .till => d.till.map .till
  | .reason => d.reason.map .reason

variable {policy : DuplicatePolicy} {m : Modifier} {d d' : Draft} {f : Formula} {cs : List Call}
  {ss : List Setting}

/-- A call is read first, and what it sets is put into the draft then. -/
theorem call_eq (policy : DuplicatePolicy) (m : Modifier) (d : Draft) (c : Call) :
    d.call policy m c = m.read c >>= d.apply policy c := by
  unfold call Modifier.read
  cases m.addon? c.name with
  | none => rfl
  | some a =>
    dsimp only
    cases a.read c <;> rfl

theorem filled_eq_isSome (d : Draft) (t : Slot) : d.filled t = (d.setting? t).isSome := by
  cases t <;> simp [filled, setting?]

theorem setting?_set (d : Draft) (s : Setting) (t : Slot) :
    (d.set s).setting? t = if s.slot = t then some s else d.setting? t := by
  cases s <;> cases t <;> rfl

/-- The settings tell drafts apart. -/
theorem eq_of_setting? (h : ∀ t, d.setting? t = d'.setting? t) : d = d' := by
  obtain ⟨value, term, since, till, reason⟩ := d
  obtain ⟨value', term', since', till', reason'⟩ := d'
  have hvalue : value.map Setting.value = value'.map .value := h .value
  have hterm : term.map Setting.term = term'.map .term := h .term
  have hsince : since.map Setting.since = since'.map .since := h .since
  have htill : till.map Setting.till = till'.map .till := h .till
  have hreason : reason.map Setting.reason = reason'.map .reason := h .reason
  rw [Option.map_injective (fun _ _ => Setting.value.inj) hvalue,
    Option.map_injective (fun _ _ => Setting.term.inj) hterm,
    Option.map_injective (fun _ _ => Setting.since.inj) hsince,
    Option.map_injective (fun _ _ => Setting.till.inj) htill,
    Option.map_injective (fun _ _ => Setting.reason.inj) hreason]

/-- What is set one after the other leaves in each slot the last setting for it. -/
theorem setting?_foldl (ss : List Setting) (t : Slot) :
    (ss.foldl set {}).setting? t = (ss.filter (·.slot = t)).getLast? := by
  induction ss using List.reverseRecOn with
  | nil => cases t <;> rfl
  | append_singleton ss s ih =>
    rw [List.foldl_append, List.foldl_cons, List.foldl_nil, setting?_set, List.filter_append]
    by_cases hslot : s.slot = t
    · rw [if_pos hslot, List.filter_cons_of_pos (by simpa using hslot), List.filter_nil,
        List.getLast?_concat]
    · rw [if_neg hslot, List.filter_cons_of_neg (by simpa using hslot), List.filter_nil,
        List.append_nil, ih]

theorem filled_foldl (ss : List Setting) (t : Slot) :
    (ss.foldl set {}).filled t = true ↔ t ∈ ss.map Setting.slot := by
  rw [filled_eq_isSome, setting?_foldl, List.getLast?_isSome, ne_eq, List.filter_eq_nil_iff,
    List.mem_map]
  simp

/-- Calls that are accepted set all that they set, unless one of them is refused for its slot. -/
theorem calls_of_reads (h : m.Reads cs ss) (hfree : policy = .reject →
    (ss.map Setting.slot).Nodup ∧ ∀ s ∈ ss, ¬ d.filled s.slot = true) :
    d.calls policy m cs = .ok (ss.foldl set d) := by
  induction h generalizing d with
  | nil => rfl
  | @cons c s cs ss hread _ ih =>
    have hcall : d.call policy m c = .ok (d.set s) := by
      rw [call_eq, hread]
      exact if_neg fun h => (hfree h.2).2 s (List.mem_cons_self ..) h.1
    rw [calls, hcall]
    apply ih
    intro hpolicy
    obtain ⟨hnodup, hfree⟩ := hfree hpolicy
    rw [List.map_cons, List.nodup_cons] at hnodup
    refine ⟨hnodup.2, fun t ht hfilled => ?_⟩
    rcases (d.filled_set s t.slot).mp hfilled with heq | hfilled
    · exact hnodup.1 (heq ▸ List.mem_map_of_mem ht)
    · exact hfree t (List.mem_cons_of_mem _ ht) hfilled

/-- A formula has what its draft has, provided that it has a place for all of it. -/
theorem setting?_finish (h : d.finish m = .ok f) (hlacks : d.setting? m.lacks = none) :
    f.modifier = m ∧ ∀ t, f.setting? t = d.setting? t := by
  cases m with
  | discount =>
    unfold finish at h
    dsimp only at h
    split at h
    · next v hv =>
      cases h
      have hterm : d.setting? .term = none := hlacks
      refine ⟨rfl, fun t => ?_⟩
      cases t with
      | value => simp [Formula.setting?, Formula.value?, setting?, hv]
      | term => exact hterm.symm
      | since => rfl
      | till => rfl
      | reason => rfl
    · cases h
  | installment =>
    cases h
    have hvalue : d.setting? .value = none := hlacks
    refine ⟨rfl, fun t => ?_⟩
    cases t with
    | value => exact hvalue.symm
    | term => rfl
    | since => rfl
    | till => rfl
    | reason => rfl

/-- Only the draft of a discount without a value has no formula. -/
theorem finish_cases (d : Draft) (m : Modifier) :
    (m = .discount ∧ d.setting? .value = none) ∧
        d.finish m = .error (.unexpectedResult Modifier.discount.name) ∨
      ¬ (m = .discount ∧ d.setting? .value = none) ∧ ∃ f, d.finish m = .ok f := by
  cases m with
  | discount =>
    unfold finish setting?
    cases d.value <;> simp
  | installment => simp [finish]

end Draft

/-! ## Calls in another order -/

/-- A call without the place where it stands. -/
def Source.Call.content (c : Call) : String × List Literal := (c.name, c.args)

/-- Whether a call is one for this slot. -/
def Modifier.fills (m : Modifier) (t : Slot) (c : Call) : Bool :=
  (m.addon? c.name).map Addon.slot = some t

/-- The same calls, wherever they stand, with those for one slot in the same order. -/
structure Modifier.Rearranges (m : Modifier) (cs ds : List Call) : Prop where
  perm : (cs.map Call.content).Perm (ds.map Call.content)
  order : ∀ t, (cs.filter (m.fills t)).map Call.content = (ds.filter (m.fills t)).map Call.content

namespace Modifier

variable {m : Modifier} {c d : Call} {s : Setting} {cs ds : List Call} {ss ss' : List Setting}

/-- Where a call stands makes no difference to what it sets. -/
theorem read_of_content (h : c.content = d.content) (hread : m.read c = .ok s) :
    m.read d = .ok s := by
  obtain ⟨hname, hargs⟩ := Prod.mk.inj h
  have hd : d = c.relocate fun _ => d.pos := by
    unfold Source.Call.relocate
    rw [hname, hargs]
  obtain ⟨a, ha, hread⟩ := read_eq_ok hread
  have hsame : a.read d = .ok s := by
    rw [hd, Addon.read_relocate]
    exact hread
  unfold read
  rw [← hname, ha]
  exact hsame

theorem fills_iff (h : m.read c = .ok s) (t : Slot) : m.fills t c = true ↔ s.slot = t := by
  obtain ⟨a, ha, hread⟩ := read_eq_ok h
  rw [Addon.slot_of_read hread]
  simp [fills, ha]

theorem Reads.filter (h : m.Reads cs ss) (t : Slot) :
    m.Reads (cs.filter (m.fills t)) (ss.filter (·.slot = t)) := by
  induction h with
  | nil => exact List.Forall₂.nil
  | @cons c s cs ss hread _ ih =>
    by_cases hslot : s.slot = t
    · rw [List.filter_cons_of_pos ((fills_iff hread t).mpr hslot),
        List.filter_cons_of_pos (by simpa using hslot)]
      exact List.Forall₂.cons hread ih
    · rw [List.filter_cons_of_neg fun h => hslot ((fills_iff hread t).mp h),
        List.filter_cons_of_neg (by simpa using hslot)]
      exact ih

/-- Calls of the same content set the same. -/
theorem Reads.unique (h : m.Reads cs ss) (h' : m.Reads ds ss')
    (hcontent : cs.map Call.content = ds.map Call.content) : ss = ss' := by
  induction h generalizing ds ss' with
  | nil =>
    obtain rfl : ds = [] := List.map_eq_nil_iff.mp hcontent.symm
    cases h'
    rfl
  | @cons c s cs ss hread _ ih =>
    cases h' with
    | nil => cases hcontent
    | cons hread' hrest' =>
      obtain ⟨hhead, htail⟩ := List.cons.inj hcontent
      have hsame := (read_of_content hhead hread).symm.trans hread'
      rw [Except.ok.inj hsame, ih hrest' htail]

/-- Rearranged calls are accepted, and for each slot they set the same in the same order. -/
theorem Reads.rearranged (h : m.Reads cs ss) (harranged : m.Rearranges cs ds) :
    ∃ ss', m.Reads ds ss' ∧ ∀ t, ss'.filter (·.slot = t) = ss.filter (·.slot = t) := by
  have haccepted : ∀ d ∈ ds, ∃ s, m.read d = .ok s := by
    intro d hd
    obtain ⟨c, hc, hcontent⟩ :=
      List.mem_map.mp (harranged.perm.mem_iff.mpr (List.mem_map_of_mem hd))
    obtain ⟨s, hread⟩ := exists_forall₂_iff.mp ⟨ss, h⟩ c hc
    exact ⟨s, read_of_content hcontent hread⟩
  obtain ⟨ss', h'⟩ := exists_forall₂_iff.mpr haccepted
  exact ⟨ss', h', fun t => (Reads.filter h' t).unique (h.filter t) (harranged.order t).symm⟩

end Modifier

/-! ## Chains -/

variable {m : Modifier} {head : Call} {rest : List Call} {ss : List Setting}

/-- A chain is compiled from what its calls set. -/
theorem compile_lastWins_of_reads (hname : Modifier.ofName? head.name = some m)
    (hargs : head.args = []) (hreads : m.Reads rest ss) :
    compile .lastWins (.chain head rest) = (ss.foldl Draft.set {}).finish m := by
  have hhead : readHead head = .ok m := by
    unfold readHead
    rw [hname, hargs]
    rfl
  have hcalls : Draft.calls .lastWins m {} rest = .ok (ss.foldl Draft.set {}) :=
    Draft.calls_of_reads hreads fun h => nomatch h
  show compileChain .lastWins head rest = _
  unfold compileChain
  rw [hhead]
  dsimp only
  rw [hcalls]

/-- Let the head of a chain name a modifier and have no arguments, and let all further calls be
    accepted. Then no call fills a slot that the formulas of this modifier lack, and the last call for
    each slot decides: the formula has in every slot the last setting for it, if there is one. Only a
    discount that no call gives a value does not compile. So the calls can change places, as long as
    those for one slot keep their order. -/
theorem compile_lastWins_slots (hname : Modifier.ofName? head.name = some m)
    (hargs : head.args = []) (hreads : m.Reads rest ss) :
    (∀ s ∈ ss, s.slot ≠ m.lacks) ∧
    ((m = .discount ∧ ∀ s ∈ ss, s.slot ≠ .value) →
      compile .lastWins (.chain head rest) = .error (.unexpectedResult "discount")) ∧
    (¬ (m = .discount ∧ ∀ s ∈ ss, s.slot ≠ .value) →
      ∃ f, compile .lastWins (.chain head rest) = .ok f ∧ f.modifier = m ∧
        ∀ t, f.setting? t = (ss.filter (·.slot = t)).getLast?) ∧
    ∀ rest', m.Rearranges rest rest' →
      compile .lastWins (.chain head rest') = compile .lastWins (.chain head rest) := by
  have hnone : ∀ t, (ss.foldl Draft.set {}).setting? t = none ↔ ∀ s ∈ ss, s.slot ≠ t := by
    intro t
    rw [Draft.setting?_foldl, List.getLast?_eq_none_iff, List.filter_eq_nil_iff]
    simp only [decide_eq_true_eq, ne_eq]
  rw [compile_lastWins_of_reads hname hargs hreads]
  have hfinish := Draft.finish_cases (ss.foldl Draft.set {}) m
  rw [hnone] at hfinish
  refine ⟨hreads.slot_ne_lacks, ?_, ?_, ?_⟩
  · intro hshort
    rcases hfinish with ⟨-, herror⟩ | ⟨hlong, -⟩
    · exact herror
    · exact absurd hshort hlong
  · intro hlong
    rcases hfinish with ⟨hshort, -⟩ | ⟨-, f, hf⟩
    · exact absurd hshort hlong
    · obtain ⟨hmodifier, hsettings⟩ :=
        Draft.setting?_finish hf ((hnone m.lacks).mpr hreads.slot_ne_lacks)
      exact ⟨f, hf, hmodifier, fun t => (hsettings t).trans (Draft.setting?_foldl ss t)⟩
  · intro rest' harranged
    obtain ⟨ss', hreads', hsame⟩ := hreads.rearranged harranged
    have hdraft : ss'.foldl Draft.set {} = ss.foldl Draft.set {} := by
      apply Draft.eq_of_setting?
      intro t
      rw [Draft.setting?_foldl, Draft.setting?_foldl, hsame t]
    rw [compile_lastWins_of_reads hname hargs hreads', hdraft]

/-- Two values and two starts: the later ones hold, also with the starts put in front of the values. -/
theorem compile_lastWins_slots_twice :
    let head : Call := ⟨"discount", [], ⟨1, 1⟩⟩
    let call (name text : String) (column : Nat) : Call := ⟨name, [.str text], ⟨1, column⟩⟩
    let rest := [call "fixed" "5 usd" 10, call "since" "2020-01-01" 24, call "relative" "3" 44,
      call "since" "2021-01-01" 58]
    let rest' := [call "since" "2020-01-01" 10, call "since" "2021-01-01" 30, call "fixed" "5 usd" 50,
      call "relative" "3" 64]
    let early := Moment.midnight ⟨2020, 1, 1, by decide, by decide, by decide⟩
    let late := Moment.midnight ⟨2021, 1, 1, by decide, by decide, by decide⟩
    let three : DiscountValue := .relative ⟨3, 0, by decide, by decide⟩
    let ss := [Setting.value (.absolute ⟨5, 0, by decide, by decide⟩ (some "USD")), .since early,
      .value three, .since late]
    Modifier.discount.Reads rest ss ∧
      (∃ f, compile .lastWins (.chain head rest) = .ok f ∧
        f.setting? .value = some (.value three) ∧ f.setting? .since = some (.since late) ∧
        f.setting? .till = none) ∧
      compile .lastWins (.chain head rest') = compile .lastWins (.chain head rest) := by
  intro head call rest rest' early late three ss
  have hreads : Modifier.discount.Reads rest ss := by
    refine .cons ?_ (.cons ?_ (.cons ?_ (.cons ?_ .nil))) <;> decide +kernel
  have harranged : Modifier.discount.Rearranges rest rest' := by
    refine ⟨by decide +kernel, fun t => ?_⟩
    cases t <;> decide +kernel
  have hname : Modifier.ofName? head.name = some .discount := rfl
  have hargs : head.args = [] := rfl
  obtain ⟨-, -, hok, hsame⟩ := compile_lastWins_slots hname hargs hreads
  obtain ⟨f, hf, -, hslots⟩ := hok (by decide)
  exact ⟨hreads, ⟨f, hf, hslots .value, hslots .since, hslots .till⟩, hsame rest' harranged⟩

end Tariff
