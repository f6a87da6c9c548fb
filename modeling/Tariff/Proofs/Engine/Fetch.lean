/-
  What one build does to a store. `fetch_cases` says all of it: an instance that the key has is handed
  out as it is, an error leaves the store alone, and a new instance is minted and kept. `Gained` says
  what a cache holds after entries have been offered to it, `Keeps` that all it holds has a property,
  and `compile_error_onLine` that the error of a line that stands alone points at line 1.
-/
import Tariff.Engine.Store
import Tariff.Proofs.Compile.Position
import Tariff.Proofs.Source.LineStatements
import Mathlib.Data.List.Nodup

namespace Tariff

open Source (ContentLine Pos Statement parseStatement)

/-- The error with its positions in the same columns of line `n`. -/
def CompileError.onLine (n : Nat) (e : CompileError) : CompileError := e.relocate (Pos.onLine n)

namespace Cache

/-- What a cache holds after entries were offered to it in order. A memory keeps what it held and, for
    each key it held nothing under, the first entry offered; without memory nothing is kept. -/
def Gained (before : Cache) (offered : List (String × Instance)) (after : Cache) : Prop :=
  match before with
  | .absent => after = .absent
  | .memory entries =>
    ∃ added, after = .memory (entries ++ added) ∧ (added.map Prod.fst).Nodup ∧
      ∀ key i, (key, i) ∈ added ↔ entries.lookup key = none ∧ offered.lookup key = some i

theorem lookup_eq_none_of_forall {key : String} {es : List (String × Instance)}
    (h : ∀ i, (key, i) ∉ es) : es.lookup key = none := by
  rw [List.lookup_eq_none_iff]
  rintro ⟨key', i⟩ hmem
  rw [bne_iff_ne]
  rintro rfl
  exact h i hmem

theorem lookup_ne_none_of_mem {key : String} {i : Instance} {es : List (String × Instance)}
    (h : (key, i) ∈ es) : es.lookup key ≠ none := by
  rw [Ne, List.lookup_eq_none_iff]
  intro hall
  simpa using hall (key, i) h

theorem gained_nil (c : Cache) : c.Gained [] c := by
  cases c with
  | absent => rfl
  | memory entries => exact ⟨[], by simp, List.nodup_nil, by simp⟩

theorem gained_append {c c₁ c₂ : Cache} {xs ys : List (String × Instance)}
    (h₁ : c.Gained xs c₁) (h₂ : c₁.Gained ys c₂) : c.Gained (xs ++ ys) c₂ := by
  cases c with
  | absent =>
    obtain rfl : c₁ = .absent := h₁
    exact h₂
  | memory entries =>
    obtain ⟨as, rfl, hnodup₁, hmem₁⟩ := h₁
    obtain ⟨bs, rfl, hnodup₂, hmem₂⟩ := h₂
    have hfree : ∀ {key i}, (key, i) ∈ bs → entries.lookup key = none ∧ as.lookup key = none := by
      intro key i hmem
      have hnone := ((hmem₂ key i).mp hmem).1
      rw [List.lookup_append, Option.or_eq_none_iff] at hnone
      exact hnone
    refine ⟨as ++ bs, by rw [List.append_assoc], ?_, ?_⟩
    · rw [List.map_append, List.nodup_append]
      refine ⟨hnodup₁, hnodup₂, ?_⟩
      intro a ha b hb
      rintro rfl
      obtain ⟨⟨key, i⟩, hi, rfl⟩ := List.mem_map.mp ha
      obtain ⟨⟨key', j⟩, hj, hkey⟩ := List.mem_map.mp hb
      obtain rfl : key' = key := hkey
      exact lookup_ne_none_of_mem hi (hfree hj).2
    · intro key i
      rw [List.mem_append, List.lookup_append, Option.or_eq_some_iff, hmem₁, hmem₂,
        List.lookup_append, Option.or_eq_none_iff]
      constructor
      · rintro (⟨hnone, hx⟩ | ⟨⟨hnone, has⟩, hy⟩)
        · exact ⟨hnone, Or.inl hx⟩
        · refine ⟨hnone, Or.inr ⟨?_, hy⟩⟩
          rw [Option.eq_none_iff_forall_ne_some]
          intro j hj
          exact lookup_ne_none_of_mem ((hmem₁ key j).mpr ⟨hnone, hj⟩) has
      · rintro ⟨hnone, hx | ⟨hx, hy⟩⟩
        · exact Or.inl ⟨hnone, hx⟩
        · refine Or.inr ⟨⟨hnone, lookup_eq_none_of_forall ?_⟩, hy⟩
          intro j hj
          rw [((hmem₁ key j).mp hj).2] at hx
          cases hx

/-- A cache that has an instance under a key gains nothing from an entry for it. -/
theorem gained_hit {c : Cache} {key : String} {i j : Instance} (h : c.get? key = some j) :
    c.Gained [(key, i)] c := by
  cases c with
  | absent => rfl
  | memory entries =>
    refine ⟨[], by simp, List.nodup_nil, ?_⟩
    intro key' i'
    constructor
    · intro hmem
      cases hmem
    · rintro ⟨hnone, hsome⟩
      rw [List.lookup_cons, List.lookup_nil] at hsome
      split at hsome
      · next heq =>
        rw [beq_iff_eq.mp heq] at hnone
        exact absurd (hnone.symm.trans h) (by simp)
      · cases hsome

theorem insert_fst_of_get?_none {c : Cache} {key : String} (i : Instance)
    (h : c.get? key = none) : (c.insert key i).1 = i := by
  cases c with
  | absent => rfl
  | memory entries =>
    have hlookup : entries.lookup key = none := h
    simp [insert, hlookup]

theorem gained_insert {c : Cache} {key : String} (i : Instance) (h : c.get? key = none) :
    c.Gained [(key, i)] (c.insert key i).2 := by
  cases c with
  | absent => rfl
  | memory entries =>
    have hlookup : entries.lookup key = none := h
    refine ⟨[(key, i)], by simp [insert, hlookup], List.nodup_singleton _, ?_⟩
    intro key' i'
    rw [List.mem_singleton, Prod.mk.injEq, List.lookup_cons, List.lookup_nil]
    constructor
    · rintro ⟨rfl, rfl⟩
      exact ⟨hlookup, by simp⟩
    · rintro ⟨-, hsome⟩
      split at hsome
      · next heq => exact ⟨beq_iff_eq.mp heq, (Option.some.inj hsome).symm⟩
      · cases hsome

/-! ## What all entries have -/

/-- All entries have the property. -/
def Keeps (P : String → Formula → Prop) : Cache → Prop
  | .memory entries => ∀ p ∈ entries, P p.1 p.2.formula
  | .absent => True

variable {P Q : String → Formula → Prop} {c : Cache} {key : String} {i : Instance}

theorem keeps_of_size (h : c.size = 0) : c.Keeps P := by
  cases c with
  | absent => trivial
  | memory entries =>
    rw [List.length_eq_zero_iff.mp h]
    intro p hp
    cases hp

theorem Keeps.mono (h : c.Keeps P) (hPQ : ∀ key f, P key f → Q key f) : c.Keeps Q := by
  cases c with
  | absent => trivial
  | memory entries => exact fun p hp => hPQ _ _ (h p hp)

theorem Keeps.get? (h : c.Keeps P) (hget : c.get? key = some i) : P key i.formula := by
  cases c with
  | absent => cases hget
  | memory entries =>
    obtain ⟨before, after, rfl, -⟩ := List.lookup_eq_some_iff.mp hget
    exact h (key, i) (by simp)

theorem Keeps.insert (h : c.Keeps P) (hkey : P key i.formula) : (c.insert key i).2.Keeps P := by
  cases c with
  | absent => trivial
  | memory entries =>
    unfold Cache.insert
    dsimp only
    split
    · exact h
    · intro p hp
      rcases List.mem_append.mp hp with hp | hp
      · exact h p hp
      · rw [List.mem_singleton.mp hp]
        exact hkey

/-- The instance that a key has after an insertion was there or is the new one. -/
theorem Keeps.insert_fst (h : c.Keeps P) (hkey : P key i.formula) :
    P key (c.insert key i).1.formula := by
  cases c with
  | absent => exact hkey
  | memory entries =>
    unfold Cache.insert
    dsimp only
    split
    · next kept hget => exact h.get? (c := .memory entries) hget
    · exact hkey

end Cache

namespace Store

/-! ## Fetching -/

theorem keep_eq (s : Store) (key : String) (i : Instance) :
    s.keep key i =
      ((s.cache.insert key i).1, ⟨(s.cache.insert key i).2, s.nextSerial⟩) := rfl

/-- All that fetching can do: hand out what the key has, fail and change nothing, or mint an instance
    and offer it. -/
theorem fetch_cases (s : Store) (key : String) (x : Except CompileError Formula) :
    (∃ i, s.cache.get? key = some i ∧ s.fetch key x = (.ok i, s)) ∨
      s.cache.get? key = none ∧
        ((∃ e, x = .error e ∧ s.fetch key x = (.error e, s)) ∨
          ∃ f, x = .ok f ∧ s.fetch key x =
            (.ok ⟨s.nextSerial, f⟩,
              ⟨(s.cache.insert key ⟨s.nextSerial, f⟩).2, s.nextSerial + 1⟩)) := by
  unfold fetch
  cases hget : s.cache.get? key with
  | some i => exact Or.inl ⟨i, rfl, rfl⟩
  | none =>
    refine Or.inr ⟨rfl, ?_⟩
    cases x with
    | error e => exact Or.inl ⟨e, rfl, rfl⟩
    | ok f =>
      refine Or.inr ⟨f, rfl, ?_⟩
      dsimp only [mint]
      rw [keep_eq]
      dsimp only
      rw [Cache.insert_fst_of_get?_none _ hget]

theorem fetch_mapError (s : Store) (key : String) (x : Except CompileError Formula)
    (g : CompileError → CompileError) :
    s.fetch key (x.mapError g) = ((s.fetch key x).1.mapError g, (s.fetch key x).2) := by
  unfold fetch
  cases s.cache.get? key with
  | some i => rfl
  | none => cases x <;> rfl

theorem fetch_error {s s' : Store} {key : String} {x : Except CompileError Formula}
    {e : CompileError} (h : s.fetch key x = (.error e, s')) : s' = s ∧ x = .error e := by
  rcases s.fetch_cases key x with ⟨i, -, hi⟩ | ⟨-, ⟨e', rfl, he⟩ | ⟨f, -, hf⟩⟩
  · rw [hi] at h
    cases h
  · rw [he] at h
    cases h
    exact ⟨rfl, rfl⟩
  · rw [hf] at h
    cases h

theorem gained_fetch {s s' : Store} {key : String} {x : Except CompileError Formula}
    {i : Instance} (h : s.fetch key x = (.ok i, s')) : s.cache.Gained [(key, i)] s'.cache := by
  rcases s.fetch_cases key x with ⟨j, hget, hj⟩ | ⟨hget, ⟨e, -, he⟩ | ⟨f, -, hf⟩⟩
  · rw [hj] at h
    cases h
    exact Cache.gained_hit hget
  · rw [he] at h
    cases h
  · rw [hf] at h
    cases h
    exact Cache.gained_insert _ hget

/-! ## One line -/

theorem build_of_normalForm? {source : String} {text : List Char}
    (h : Source.normalForm? source.toList = some text) (policy : DuplicatePolicy) (s : Store) :
    s.build policy source = s.fetch (String.ofList text) (compileText policy text) := by
  unfold build
  rw [h]

theorem compileText_of_ok {policy : DuplicatePolicy} {text : List Char} {st : Statement}
    (h : parseStatement text = .ok st) : compileText policy text = compile policy st := by
  unfold compileText
  rw [h]

theorem build_line {l : List Char} (hl : ContentLine l) (policy : DuplicatePolicy) (s : Store) :
    s.build policy (String.ofList l) = s.fetch (String.ofList l) (compileText policy l) := by
  apply build_of_normalForm?
  rw [String.toList_ofList]
  exact hl.normalForm?_eq

/-- A statement moved to the line that it was read from is built as that line is built alone, but for
    the line that its error names. -/
theorem buildStatement_onLine {lines : List (List Char)} {l : List Char} {n : Nat} {st : Statement}
    (hl : ContentLine l) (hline : lines[n]? = some l) (hst : parseStatement l = .ok st)
    (policy : DuplicatePolicy) (s : Store) :
    s.buildStatement policy lines (st.onLine (n + 1)) =
      ((s.build policy (String.ofList l)).1.mapError (·.onLine (n + 1)),
        (s.build policy (String.ofList l)).2) := by
  have hpos : (st.onLine (n + 1)).pos.line - 1 = n := by
    rw [Statement.onLine, Statement.pos_relocate]
    rfl
  unfold buildStatement
  rw [hpos, hline, build_line hl, compileText_of_ok hst]
  dsimp only
  rw [Statement.onLine, compile_relocate, fetch_mapError]
  rfl

/-- The error of a line that stands alone points at line 1. -/
theorem compile_error_onLine {l : List Char} {st : Statement} {e : CompileError}
    {policy : DuplicatePolicy} (hl : ContentLine l) (hst : parseStatement l = .ok st)
    (h : compile policy st = .error e) : e.onLine 1 = e := by
  have hcompile := compile_relocate (Pos.onLine 1) policy st
  have hsame : st.relocate (Pos.onLine 1) = st := Source.onLine_one_of_parseStatement hl hst
  rw [hsame, h] at hcompile
  exact (Except.error.inj hcompile).symm

end Store

end Tariff
