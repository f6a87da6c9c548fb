/-
  What a ledger refuses and what it holds. A charge is refused when one with its key but another id is
  recorded. As keys are texts with bars between them, the recorded one is for the same type and target
  from the same second on, or else a bar in a type id or in a target hides the difference
  (`ensureNoOverlap_eq_error_iff`). The first charge of a key settles its id: of all charges offered, the
  ledger holds those with the id of the first of their key (`recorded_eq_filter`). So charges of one key
  in it have one id, and whether it holds all that were offered does not depend on their order
  (`recorded_all_iff`).
-/
import Tariff.Billing.Ledger
import Tariff.Proofs.Billing.Keys
import Tariff.Proofs.Calendar.ReadBack

namespace Tariff

namespace Charge

/-! ## Keys -/

/-- Both charges are for one type and one target, from one second on. -/
def Coincides (r c : Charge) : Prop :=
  r.type.uniqueId = c.type.uniqueId ∧ r.target = c.target ∧
    r.interval.start.SameSecond c.interval.start

instance (r c : Charge) : Decidable (r.Coincides c) := inferInstanceAs (Decidable (_ ∧ _))

/-- With a bar on either side, a text ends the type id of one charge and begins the target of the other. -/
def Shifted (r c : Charge) : Prop :=
  ∃ text, r.type.uniqueId = c.type.uniqueId ++ "|" ++ text ∧ c.target = text ++ "|" ++ r.target

/-- Of two charges from one second on, one has a text in its type id that the other has in its target. -/
def Mimics (r c : Charge) : Prop :=
  (r.Shifted c ∨ c.Shifted r) ∧ r.interval.start.SameSecond c.interval.start

variable {r c : Charge}

/-- What a key says of type and target. -/
def subjectChars (c : Charge) : List Char := c.type.uniqueId.toList ++ '|' :: c.target.toList

theorem toList_key (c : Charge) :
    c.key.toList = c.subjectChars ++ '|' :: c.interval.start.secondsChars := by
  simp [key, joinKey, subjectChars]

theorem Shifted.subjectChars_eq (h : r.Shifted c) : r.subjectChars = c.subjectChars := by
  obtain ⟨text, htype, htarget⟩ := h
  simp [subjectChars, htype, htarget]

/-- Where one type id ends inside the other, the rest of that one stands in front of the target. -/
theorem shifted_of_append {l : List Char}
    (htype : r.type.uniqueId.toList = c.type.uniqueId.toList ++ '|' :: l)
    (htarget : c.target.toList = l ++ '|' :: r.target.toList) : r.Shifted c := by
  refine ⟨String.ofList l, ?_, ?_⟩
  · rw [← String.toList_inj]
    simpa using htype
  · rw [← String.toList_inj]
    simpa using htarget

theorem subjectChars_eq_iff : r.subjectChars = c.subjectChars ↔
    (r.type.uniqueId = c.type.uniqueId ∧ r.target = c.target) ∨ r.Shifted c ∨ c.Shifted r := by
  constructor
  · intro h
    rcases List.append_eq_append_iff.mp h with ⟨l, htype, htarget⟩ | ⟨l, htype, htarget⟩
    · cases l with
      | nil =>
        refine Or.inl ⟨String.toList_inj.mp ?_, String.toList_inj.mp (List.cons.inj htarget).2⟩
        rw [htype, List.append_nil]
      | cons x l =>
        obtain ⟨rfl, hrest⟩ := List.cons.inj htarget
        exact Or.inr (Or.inr (shifted_of_append htype hrest))
    · cases l with
      | nil =>
        refine Or.inl ⟨String.toList_inj.mp ?_, String.toList_inj.mp (List.cons.inj htarget).2.symm⟩
        rw [htype, List.append_nil]
      | cons x l =>
        obtain ⟨rfl, hrest⟩ := List.cons.inj htarget
        exact Or.inr (Or.inl (shifted_of_append htype hrest))
  · rintro (⟨htype, htarget⟩ | h | h)
    · rw [subjectChars, subjectChars, htype, htarget]
    · exact h.subjectChars_eq
    · exact h.subjectChars_eq.symm

/-- What charges of one key have in common. -/
theorem key_eq_iff : r.key = c.key ↔ r.Coincides c ∨ r.Mimics c := by
  have hparts : r.key = c.key ↔
      r.subjectChars = c.subjectChars ∧ r.interval.start.SameSecond c.interval.start := by
    rw [← String.toList_inj, toList_key, toList_key, ← Moment.secondsChars_eq_iff]
    constructor
    · -- No bar stands in the text of a second, so the last one of a key stands in front of it.
      have hbar : ∀ m : Moment, '|' ∉ m.secondsChars := fun m =>
        m.simple_secondsChars.not_mem (by decide)
      exact eq_of_append_bar_last (hbar _) (hbar _)
    · rintro ⟨hsubject, hsecond⟩
      rw [hsubject, hsecond]
  rw [hparts, subjectChars_eq_iff, Coincides, Mimics, or_and_right, and_assoc]

theorem Shifted.barred (h : r.Shifted c) : ¬ Unbarred r.type.uniqueId ∧ ¬ Unbarred c.target := by
  obtain ⟨text, htype, htarget⟩ := h
  simp [Unbarred, htype, htarget]

theorem Mimics.barred (h : r.Mimics c) :
    (¬ Unbarred r.type.uniqueId ∨ ¬ Unbarred c.type.uniqueId) ∧
      (¬ Unbarred r.target ∨ ¬ Unbarred c.target) := by
  rcases h.1 with h | h
  · exact ⟨Or.inl h.barred.1, Or.inr h.barred.2⟩
  · exact ⟨Or.inr h.barred.1, Or.inl h.barred.2⟩

end Charge

namespace Ledger

/-! ## What is refused -/

variable {ledger : Ledger} {c : Charge}

theorem ensureNoOverlap_eq_error {e : Overlap} : ledger.ensureNoOverlap c = .error e ↔
    e = ⟨c.id, c.key⟩ ∧ ∃ r ∈ ledger, r.id ≠ c.id ∧ r.key = c.key := by
  unfold ensureNoOverlap
  split
  · next h =>
    have hclash : ∃ r ∈ ledger, r.id ≠ c.id ∧ r.key = c.key := by simpa [clash] using h
    rw [and_iff_left hclash, Except.error.injEq, eq_comm]
  · next h =>
    have hclash : ¬ ∃ r ∈ ledger, r.id ≠ c.id ∧ r.key = c.key := by simpa [clash] using h
    exact iff_of_false (fun h => nomatch h) fun h => hclash h.2

/-- A charge is refused exactly if some recorded one with another id is for the same type and target
    from the same second on, or seems to be by a bar in a type id and one in a target. The error tells
    the id of the charge that is refused, or that it has none, and its key. -/
theorem ensureNoOverlap_eq_error_iff (ledger : Ledger) (c : Charge) :
    (∀ e, ledger.ensureNoOverlap c = .error e ↔
      e = ⟨c.id, c.key⟩ ∧ ∃ r ∈ ledger, r.id ≠ c.id ∧ (r.Coincides c ∨ r.Mimics c)) ∧
    (∀ e, ledger.ensureNoOverlap c = .error e → e.message = "Charge " ++ c.id.getD "<unsaved>" ++
      " being saved overlaps a previously saved one. Unique key: " ++ c.key) ∧
    ((∀ x ∈ c :: ledger, Unbarred x.type.uniqueId) ∨ (∀ x ∈ c :: ledger, Unbarred x.target) →
      ((∃ e, ledger.ensureNoOverlap c = .error e) ↔ ∃ r ∈ ledger, r.id ≠ c.id ∧ r.Coincides c)) := by
  simp only [ensureNoOverlap_eq_error, Charge.key_eq_iff, exists_eq_left, implies_true, true_and]
  constructor
  · rintro e ⟨rfl, -⟩
    rfl
  · intro hunbarred
    refine exists_congr fun r => and_congr_right fun hr => and_congr_right fun _ => ?_
    refine or_iff_left fun hmimics => ?_
    rcases hunbarred with htype | htarget
    · rcases hmimics.barred.1 with hbar | hbar
      · exact hbar (htype r (List.mem_cons_of_mem _ hr))
      · exact hbar (htype c (List.mem_cons_self ..))
    · rcases hmimics.barred.2 with hbar | hbar
      · exact hbar (htarget r (List.mem_cons_of_mem _ hr))
      · exact hbar (htarget c (List.mem_cons_self ..))

/-- An unsaved charge from half a second later on is refused next to a saved one of its type and target. -/
theorem ensureNoOverlap_eq_error_iff_unsaved :
    let day : Date := ⟨2024, 8, 1, by decide, by decide, by decide⟩
    let late : Moment := ⟨day, 0, 0, 0, 500000000, by decide, by decide, by decide, by decide⟩
    let charge (id : Option String) (start : Moment) : Charge :=
      ⟨id, ⟨"1", some "disk"⟩, "a|b", ⟨⟨1, 0, by decide, by decide⟩, "USD"⟩,
        ⟨⟨1, 0, by decide, by decide⟩, "item"⟩, Interval.between start late, []⟩
    let r := charge (some "7") (Moment.midnight day)
    let c := charge none late
    (∀ x ∈ [c, r], Unbarred x.type.uniqueId) ∧ ∃ e, ensureNoOverlap [r] c = .error e ∧
      e.message = "Charge <unsaved> being saved overlaps a previously saved one. " ++
        "Unique key: disk|a|b|2024-08-01 00:00:00" := by
  intro day late charge r c
  have htype : ∀ x ∈ [c, r], Unbarred x.type.uniqueId := by
    simp only [r, c, charge, late, day]
    decide +kernel
  have hcoincides : r.id ≠ c.id ∧ r.Coincides c := by
    simp only [r, c, charge, late, day]
    decide +kernel
  obtain ⟨-, hmessage, hexact⟩ := ensureNoOverlap_eq_error_iff [r] c
  obtain ⟨e, he⟩ := (hexact (Or.inl htype)).mpr ⟨r, List.mem_singleton_self r, hcoincides⟩
  refine ⟨htype, e, he, (hmessage e he).trans ?_⟩
  simp only [c, charge, late, day]
  decide +kernel

/-- With bars in a type id and in a target, a charge is refused for one of another type and target. -/
theorem ensureNoOverlap_barred :
    let day := Moment.midnight ⟨2024, 8, 1, by decide, by decide, by decide⟩
    let charge (id type target : String) : Charge :=
      ⟨some id, ⟨type, none⟩, target, ⟨⟨1, 0, by decide, by decide⟩, "USD"⟩,
        ⟨⟨1, 0, by decide, by decide⟩, "item"⟩, Interval.between day day, []⟩
    let r := charge "1" "disk|server" "1"
    let c := charge "2" "disk" "server|1"
    ensureNoOverlap [r] c = .error ⟨some "2", "disk|server|1|2024-08-01 00:00:00"⟩ ∧
      r.type.uniqueId ≠ c.type.uniqueId ∧ r.target ≠ c.target ∧
      ¬ ∃ x ∈ [r], x.id ≠ c.id ∧ x.Coincides c := by
  decide +kernel

/-! ## What is held -/

/-- Records a charge, or leaves the ledger as it is if the charge is refused. -/
def offer (ledger : Ledger) (c : Charge) : Ledger :=
  match ledger.record c with
  | .ok next => next
  | .error _ => ledger

/-- What a ledger holds of charges that are offered to it one by one. -/
def recorded (charges : List Charge) : Ledger := charges.foldl offer []

/-- Charges of one key have one id. -/
def Consistent (charges : List Charge) : Prop :=
  ∀ c ∈ charges, ∀ d ∈ charges, c.key = d.key → c.id = d.id

/-- The charges of a key have the id that a further one of it has. -/
def Admits (ledger : Ledger) (c : Charge) : Prop := ∀ r ∈ ledger, r.key = c.key → r.id = c.id

theorem ensureNoOverlap_eq_ok : ledger.ensureNoOverlap c = .ok () ↔ ledger.Admits c := by
  cases h : ledger.ensureNoOverlap c with
  | ok =>
    refine iff_of_true rfl fun r hr hkey => ?_
    by_contra hid
    rw [ensureNoOverlap_eq_error.mpr ⟨rfl, r, hr, hid, hkey⟩] at h
    cases h
  | error e =>
    obtain ⟨-, r, hr, hid, hkey⟩ := ensureNoOverlap_eq_error.mp h
    exact iff_of_false (fun h => nomatch h) fun hadmits => hid (hadmits r hr hkey)

theorem offer_of_admits (h : ledger.Admits c) : ledger.offer c = ledger ++ [c] := by
  rw [offer, record, ensureNoOverlap_eq_ok.mpr h]

theorem offer_of_not_admits (h : ¬ ledger.Admits c) : ledger.offer c = ledger := by
  rw [offer, record]
  cases hresult : ledger.ensureNoOverlap c with
  | ok => exact absurd (ensureNoOverlap_eq_ok.mp hresult) h
  | error e => rfl

/-- An offer keeps a ledger consistent. -/
theorem Consistent.offer (h : Consistent ledger) (c : Charge) : Consistent (ledger.offer c) := by
  by_cases hadmits : ledger.Admits c
  · rw [offer_of_admits hadmits]
    intro x hx y hy hkey
    rw [List.mem_append, List.mem_singleton] at hx hy
    rcases hx with hx | rfl <;> rcases hy with hy | rfl
    · exact h x hx y hy hkey
    · exact hadmits x hx hkey
    · exact (hadmits y hy hkey.symm).symm
    · rfl
  · rwa [offer_of_not_admits hadmits]

theorem recorded_append_singleton (charges : List Charge) (c : Charge) :
    recorded (charges ++ [c]) = (recorded charges).offer c := List.foldl_concat ..

/-- However charges are offered, those recorded are consistent. -/
theorem consistent_recorded (charges : List Charge) : Consistent (recorded charges) := by
  induction charges using List.reverseRecOn with
  | nil => exact List.forall_mem_nil _
  | append_singleton charges c ih =>
    rw [recorded_append_singleton]
    exact ih.offer c

/-! ## The first of a key -/

/-- The id of the first charge of a key. -/
def firstId? (charges : List Charge) (key : String) : Option (Option String) :=
  (charges.find? fun c => c.key = key).map Charge.id

theorem firstId?_append (charges : List Charge) (c : Charge) (key : String) :
    firstId? (charges ++ [c]) key = (firstId? charges key).or (if c.key = key then some c.id else none) := by
  unfold firstId?
  rw [List.find?_append, Option.map_or, List.find?_singleton, apply_ite (Option.map Charge.id)]
  simp only [decide_eq_true_eq, Option.map_some, Option.map_none]

theorem firstId?_eq_none {charges : List Charge} {key : String} :
    firstId? charges key = none ↔ ∀ c ∈ charges, c.key ≠ key := by
  simp [firstId?]

theorem exists_of_firstId? {charges : List Charge} {key : String} {id : Option String}
    (h : firstId? charges key = some id) : ∃ d ∈ charges, d.key = key ∧ d.id = id := by
  obtain ⟨d, hfind, hid⟩ := Option.map_eq_some_iff.mp h
  have hkey := List.find?_some hfind
  exact ⟨d, List.mem_of_find?_eq_some hfind, of_decide_eq_true hkey, hid⟩

/-- What is held admits a charge exactly if that has the id of the first of its key, counting it last. -/
theorem admits_filter_iff (charges : List Charge) (c : Charge) :
    Admits (charges.filter fun d => firstId? charges d.key = some d.id) c ↔
      firstId? (charges ++ [c]) c.key = some c.id := by
  rw [firstId?_append, if_pos rfl]
  cases hfirst : firstId? charges c.key with
  | none =>
    refine iff_of_true (fun d hd hkey => ?_) rfl
    exact absurd hkey (firstId?_eq_none.mp hfirst d (List.mem_of_mem_filter hd))
  | some id =>
    obtain ⟨d, hd, hkey, hid⟩ := exists_of_firstId? hfirst
    rw [Option.some_or, Option.some.injEq]
    constructor
    · intro hadmits
      rw [← hid]
      refine hadmits d (List.mem_filter.mpr ⟨hd, ?_⟩) hkey
      rw [hkey, hfirst, hid, decide_eq_true_eq]
    · rintro rfl x hx hxkey
      have hsettled := of_decide_eq_true (List.mem_filter.mp hx).2
      rw [hxkey, hfirst] at hsettled
      exact (Option.some.inj hsettled).symm

/-- The ledger holds the charges that have the id of the first of their key. -/
theorem recorded_eq_filter (charges : List Charge) :
    recorded charges = charges.filter fun c => firstId? charges c.key = some c.id := by
  induction charges using List.reverseRecOn with
  | nil => rfl
  | append_singleton charges c ih =>
    have hfront : charges.filter (fun d => firstId? (charges ++ [c]) d.key = some d.id) =
        recorded charges := by
      rw [ih]
      refine List.filter_congr fun d hd => ?_
      have hsome : firstId? charges d.key ≠ none := fun h => firstId?_eq_none.mp h d hd rfl
      rw [firstId?_append, Option.or_of_isSome (Option.isSome_iff_ne_none.mpr hsome)]
    rw [recorded_append_singleton, List.filter_append, hfront]
    have hadmits := admits_filter_iff charges c
    rw [← ih] at hadmits
    by_cases h : firstId? (charges ++ [c]) c.key = some c.id
    · rw [offer_of_admits (hadmits.mpr h), List.filter_singleton, decide_eq_true h, cond_true]
    · rw [offer_of_not_admits (mt hadmits.mp h), List.filter_singleton, decide_eq_false h, cond_false,
        List.append_nil]

/-- All charges offered are recorded exactly if those of one key have one id. -/
theorem recorded_eq_self_iff {charges : List Charge} :
    recorded charges = charges ↔ Consistent charges := by
  constructor
  · intro h
    rw [← h]
    exact consistent_recorded charges
  · intro h
    rw [recorded_eq_filter, List.filter_eq_self]
    intro c hc
    rw [decide_eq_true_eq]
    cases hfirst : firstId? charges c.key with
    | none => exact absurd rfl (firstId?_eq_none.mp hfirst c hc)
    | some id =>
      obtain ⟨d, hd, hkey, rfl⟩ := exists_of_firstId? hfirst
      rw [h d hd c hc hkey]

theorem Consistent.perm {charges others : List Charge} (h : Consistent charges)
    (hperm : others.Perm charges) : Consistent others := fun c hc d hd =>
  h c (hperm.subset hc) d (hperm.subset hd)

/-- At any moment the recorded charges of one key have one id; and the charges offered are all recorded,
    in this or any other order, exactly if those of one key among them have one id. -/
theorem recorded_all_iff (charges : List Charge) :
    (∀ front, front <+: charges → Consistent (recorded front)) ∧
      (recorded charges = charges ↔ Consistent charges) ∧
      ∀ others : List Charge, others.Perm charges →
        (recorded others = others ↔ recorded charges = charges) := by
  refine ⟨fun front _ => consistent_recorded front, recorded_eq_self_iff, fun others hperm => ?_⟩
  rw [recorded_eq_self_iff, recorded_eq_self_iff]
  exact ⟨fun h => h.perm hperm.symm, fun h => h.perm hperm⟩

end Ledger

end Tariff
