/-
  A batch is its lines built one by one. `buildLines` builds lines in order and stops at the first
  that fails; `buildStatements_eq` says that a batch whose lines all parse does exactly this, except
  that its error names the line of the batch where the line alone would name line 1. A batch with a
  line that does not parse changes nothing.
-/
import Tariff.Proofs.Engine.Fetch

namespace Tariff

open Source (ContentLine Statement normalForm? normalize parse parseStatement placeLines)

/-- What building lines one by one leads to: the instances of the lines that were built, in order,
    the error of the line behind them if one failed, and the store that is left. -/
structure LineBuilds where
  built : List Instance
  error : Option CompileError
  store : Store

/-- The same as the outcome of a batch that begins on line `n`: the error names the line that failed. -/
def LineBuilds.outcome (n : Nat) (r : LineBuilds) : Except CompileError (List Instance) :=
  match r.error with
  | none => .ok r.built
  | some e => .error (e.onLine (n + r.built.length))

namespace Store

/-- Builds lines one by one, up to the first that fails. -/
def buildLines (policy : DuplicatePolicy) : List String → Store → LineBuilds
  | [], s => ⟨[], none, s⟩
  | l :: ls, s =>
    match s.build policy l with
    | (.error e, s) => ⟨[], some e, s⟩
    | (.ok i, s) =>
      let r := buildLines policy ls s
      { r with built := i :: r.built }

theorem buildLines_error {policy : DuplicatePolicy} {l : String} {s s' : Store} {e : CompileError}
    (h : s.build policy l = (.error e, s')) (ls : List String) :
    s.buildLines policy (l :: ls) = ⟨[], some e, s'⟩ := by
  rw [buildLines, h]

theorem buildLines_ok {policy : DuplicatePolicy} {l : String} {s s' : Store} {i : Instance}
    (h : s.build policy l = (.ok i, s')) (ls : List String) :
    s.buildLines policy (l :: ls) =
      ⟨i :: (s'.buildLines policy ls).built, (s'.buildLines policy ls).error,
        (s'.buildLines policy ls).store⟩ := by
  rw [buildLines, h]

/-! ## Lines that parse -/

section

variable {policy : DuplicatePolicy} {ls : List (List Char)} {sts : List Statement}

/-- Statements that stand on consecutive lines of a batch are built as these lines alone are. -/
theorem buildStatements_eq (pre : List (List Char)) (hls : ∀ l ∈ ls, ContentLine l)
    (hsts : List.Forall₂ (fun l st => parseStatement l = .ok st) ls sts) (s : Store) :
    buildStatements policy (pre ++ ls) (placeLines (pre.length + 1) sts) s =
      ((s.buildLines policy (ls.map String.ofList)).outcome (pre.length + 1),
        (s.buildLines policy (ls.map String.ofList)).store) := by
  -- The lines that were built stay in front: a statement finds its line by its number in the batch.
  induction hsts generalizing pre s with
  | nil => rfl
  | @cons l st ls sts hst hsts ih =>
    have hl := hls l (List.mem_cons_self ..)
    have hline : (pre ++ l :: ls)[pre.length]? = some l := by simp
    have hone := buildStatement_onLine hl hline hst policy s
    have hrest := ih (pre ++ [l]) fun k hk => hls k (List.mem_cons_of_mem _ hk)
    rw [List.append_assoc, List.singleton_append, List.length_append, List.length_singleton] at hrest
    rw [placeLines, buildStatements, hone, List.map_cons]
    rcases hbuild : s.build policy (String.ofList l) with ⟨e | i, s'⟩
    · rw [buildLines_error hbuild]
      rfl
    · rw [buildLines_ok hbuild]
      dsimp only [Except.mapError]
      rw [hrest s']
      cases herror : (s'.buildLines policy (ls.map String.ofList)).error with
      | none => simp [LineBuilds.outcome, herror]
      | some e =>
        simp only [LineBuilds.outcome, herror, List.length_cons]
        rw [show pre.length + 1 + 1 + (s'.buildLines policy (ls.map String.ofList)).built.length =
          pre.length + 1 + ((s'.buildLines policy (ls.map String.ofList)).built.length + 1) by omega]

theorem buildLines_error_onLine (hls : ∀ l ∈ ls, ContentLine l)
    (hsts : List.Forall₂ (fun l st => parseStatement l = .ok st) ls sts) (s : Store)
    {e : CompileError} (h : (s.buildLines policy (ls.map String.ofList)).error = some e) :
    e.onLine 1 = e := by
  induction hsts generalizing s with
  | nil => cases h
  | @cons l st ls sts hst hsts ih =>
    have hl := hls l (List.mem_cons_self ..)
    rw [List.map_cons] at h
    rcases hbuild : s.build policy (String.ofList l) with ⟨e' | i, s'⟩
    · rw [buildLines_error hbuild] at h
      cases h
      rw [build_line hl, compileText_of_ok hst] at hbuild
      exact compile_error_onLine hl hst (fetch_error hbuild).2
    · rw [buildLines_ok hbuild] at h
      exact ih (fun k hk => hls k (List.mem_cons_of_mem _ hk)) s' h

/-- Building lines keeps what the cache held and adds the entries of the lines that were built. -/
theorem gained_buildLines (hls : ∀ l ∈ ls, ContentLine l) (s : Store) :
    s.cache.Gained
      ((ls.map String.ofList).zip (s.buildLines policy (ls.map String.ofList)).built)
      (s.buildLines policy (ls.map String.ofList)).store.cache := by
  induction ls generalizing s with
  | nil => exact Cache.gained_nil _
  | cons l ls ih =>
    have hl := hls l (List.mem_cons_self ..)
    rw [List.map_cons]
    rcases hbuild : s.build policy (String.ofList l) with ⟨e | i, s'⟩
    · rw [buildLines_error hbuild]
      rw [build_line hl] at hbuild
      rw [(fetch_error hbuild).1]
      exact Cache.gained_nil _
    · rw [buildLines_ok hbuild]
      rw [build_line hl] at hbuild
      have hrest := ih (fun k hk => hls k (List.mem_cons_of_mem _ hk)) s'
      exact Cache.gained_append (gained_fetch hbuild) hrest

end

/-! ## Batches -/

theorem buildAll_of_normalForm? {source : String} {text : List Char}
    (h : normalForm? source.toList = some text) (policy : DuplicatePolicy) (s : Store) :
    s.buildAll policy source = s.buildText policy text := by
  unfold buildAll
  rw [h]

theorem validate_of_normalForm? {source : String} {text : List Char}
    (h : normalForm? source.toList = some text) (policy : DuplicatePolicy) (s : Store) :
    (s.validate policy source).2 = (s.buildAll policy source).2 ∧
      ((s.validate policy source).1 = none ↔ ∃ is, (s.buildAll policy source).1 = .ok is) := by
  rw [buildAll_of_normalForm? h]
  unfold validate
  rw [h, Option.getD_some]
  rcases s.buildText policy text with ⟨e | is, s'⟩
  · simp
  · simp

theorem buildText_error {text : List Char} {e : Source.SyntaxError} (h : parse text = .error e)
    (policy : DuplicatePolicy) (s : Store) : s.buildText policy text = (.error (.parse e), s) := by
  unfold buildText
  rw [h]

/-- A batch with a line that does not parse fails before anything is built. -/
theorem buildText_unparsed {text l : List Char} {e : Source.SyntaxError}
    (hne : Text.lines text ≠ []) (htext : text = Text.joinLines (Text.lines text))
    (hcontent : ∀ k ∈ Text.lines text, ContentLine k) (hl : l ∈ Text.lines text)
    (he : parseStatement l = .error e) (policy : DuplicatePolicy) (s : Store) :
    ∃ e, s.buildText policy text = (.error (.parse e), s) := by
  cases hparse : parse text with
  | error e => exact ⟨e, buildText_error hparse policy s⟩
  | ok ss =>
    rw [htext] at hparse
    obtain ⟨sts, hsts, -⟩ := (Source.parse_joinLines hne hcontent).mp hparse
    obtain ⟨st, hst⟩ := exists_forall₂_iff.mp ⟨sts, hsts⟩ l hl
    rw [he] at hst
    cases hst

/-- A batch whose lines all parse is its lines built one by one. -/
theorem buildText_parsed {text : List Char} {sts : List Statement}
    (hne : Text.lines text ≠ []) (htext : text = Text.joinLines (Text.lines text))
    (hcontent : ∀ k ∈ Text.lines text, ContentLine k)
    (hsts : List.Forall₂ (fun l st => parseStatement l = .ok st) (Text.lines text) sts)
    (policy : DuplicatePolicy) (s : Store) :
    s.buildText policy text =
      ((s.buildLines policy ((Text.lines text).map String.ofList)).outcome 1,
        (s.buildLines policy ((Text.lines text).map String.ofList)).store) := by
  have hparse := (Source.parse_joinLines hne hcontent).mpr ⟨sts, hsts, rfl⟩
  rw [← htext] at hparse
  unfold buildText
  rw [hparse]
  exact buildStatements_eq [] hcontent hsts s

/-- Let `ls` be the lines of the normal form of a source. If one of them does not parse alone, the
    batch fails with a parse error and changes nothing. Otherwise it yields the instances and leaves
    the store that building the lines one by one does, up to the first that fails; the error of that
    line alone points at line 1, the error of the batch at the same column of the line's own number;
    and the cache has gained just the lines before it. Validating leaves the same store, and has
    nothing to report when the batch builds. The numbers of lines have no bound here; 32 bits hold them
    in a source of fewer than 2^32 - 1 characters. -/
theorem buildAll_line_by_line (policy : DuplicatePolicy) (s : Store) {source text : String}
    (h : normalize source = some text) :
    let ls := (Text.lines text.toList).map String.ofList
    let r := s.buildLines policy ls
    ((∃ l ∈ ls, ∃ e, parseStatement l.toList = .error e) →
      ∃ e, s.buildAll policy source = (.error (.parse e), s)) ∧
    ((∀ l ∈ ls, ∃ st, parseStatement l.toList = .ok st) →
      s.buildAll policy source = (r.outcome 1, r.store) ∧
      (∀ e, r.error = some e → e.onLine 1 = e) ∧
      s.cache.Gained (ls.zip r.built) r.store.cache) ∧
    (s.validate policy source).2 = (s.buildAll policy source).2 ∧
    ((s.validate policy source).1 = none ↔ ∃ is, (s.buildAll policy source).1 = .ok is) := by
  obtain ⟨cs, hcs, rfl⟩ := Option.map_eq_some_iff.mp h
  obtain ⟨hne, htext, hcontent⟩ := Source.normalForm?_lines hcs
  intro ls r
  have hls : ls = (Text.lines cs).map String.ofList := by
    show (Text.lines (String.ofList cs).toList).map String.ofList = _
    rw [String.toList_ofList]
  refine ⟨?_, ?_, validate_of_normalForm? hcs policy s⟩
  · rintro ⟨_, hmem, e, he⟩
    rw [hls] at hmem
    obtain ⟨l, hl, rfl⟩ := List.mem_map.mp hmem
    rw [String.toList_ofList] at he
    rw [buildAll_of_normalForm? hcs]
    exact buildText_unparsed hne htext hcontent hl he policy s
  · intro hall
    rw [hls, List.forall_mem_map] at hall
    simp only [String.toList_ofList] at hall
    obtain ⟨sts, hsts⟩ := exists_forall₂_iff.mpr hall
    have hbuild := buildText_parsed hne htext hcontent hsts policy s
    rw [← buildAll_of_normalForm? hcs, ← hls] at hbuild
    refine ⟨hbuild, ?_, ?_⟩
    · intro e he
      apply buildLines_error_onLine hcontent hsts s
      rwa [← hls]
    · show s.cache.Gained (ls.zip (s.buildLines policy ls).built) (s.buildLines policy ls).store.cache
      rw [hls]
      exact gained_buildLines hcontent s

/-- A line that does not compile leaves the lines before it, a line that does not parse nothing. -/
theorem buildAll_line_by_line_second :
    Store.buildAll .lastWins "installment\n\n  x" ⟨.empty, 0⟩ =
      (.error (.unknownModifier "x" ⟨2, 1⟩),
        ⟨.memory [("installment", ⟨0, .installment none ⟨none, none, none⟩⟩)], 1⟩) ∧
    ∃ e, Store.buildAll .lastWins "x\n." ⟨.empty, 0⟩ = (.error (.parse e), ⟨.empty, 0⟩) := by
  constructor
  · have hnormal : normalize "installment\n\n  x" = some "installment\nx" := by cbv
    have hlines : (Text.lines "installment\nx".toList).map String.ofList = ["installment", "x"] := by
      cbv
    have hfirst : parseStatement "installment".toList =
        .ok (.chain ⟨"installment", [], ⟨1, 1⟩⟩ []) := by cbv
    have hsecond : parseStatement "x".toList = .ok (.chain ⟨"x", [], ⟨1, 1⟩⟩ []) := by cbv
    have hform : normalForm? "installment".toList = some "installment".toList := by cbv
    have hform' : normalForm? "x".toList = some "x".toList := by cbv
    have hbuilds : buildLines .lastWins ["installment", "x"] ⟨.empty, 0⟩ =
        ⟨[⟨0, .installment none ⟨none, none, none⟩⟩], some (.unknownModifier "x" ⟨1, 1⟩),
          ⟨.memory [("installment", ⟨0, .installment none ⟨none, none, none⟩⟩)], 1⟩⟩ := by
      simp only [buildLines, build, hform, hform', compileText, hfirst, hsecond]
      rfl
    have hbatch := (buildAll_line_by_line .lastWins ⟨.empty, 0⟩ hnormal).2.1
    rw [hlines, hbuilds] at hbatch
    have hparsed : ∀ l ∈ ["installment", "x"], ∃ st, parseStatement l.toList = .ok st :=
      List.forall_mem_cons.mpr ⟨⟨_, hfirst⟩, List.forall_mem_singleton.mpr ⟨_, hsecond⟩⟩
    exact (hbatch hparsed).1
  · have hnormal : normalize "x\n." = some "x\n." := by cbv
    have hlines : (Text.lines "x\n.".toList).map String.ofList = ["x", "."] := by cbv
    have hdot : ∃ e, parseStatement ".".toList = .error e := ⟨_, by cbv⟩
    have hbatch := (buildAll_line_by_line .lastWins ⟨.empty, 0⟩ hnormal).1
    rw [hlines] at hbatch
    exact hbatch ⟨".", by simp, hdot⟩

end Store

end Tariff
