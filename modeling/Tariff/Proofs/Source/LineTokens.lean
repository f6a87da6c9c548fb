/-
  Lexing goes line by line. No piece reaches over a line break, so a text is cut into the pieces of
  its first line, the break, and the pieces of what follows (`scan_append_break`), and the tokens of a
  line that stands on line `n` are those it has alone, moved to line `n` (`tokensAt_line`).
-/
import Tariff.Proofs.Source.Grammar
import Tariff.Proofs.Source.NormalForm
import Tariff.Proofs.Source.Pieces

namespace Tariff.Source

/-! ## One piece in front of a line break -/

/-- Words and numbers end in front of such a character. -/
structure Ends (s : Char) : Prop where
  notDigit : s.isDigit = false
  notWord : isWordPart s = false
  notDot : s ≠ '.'

theorem ends_break : Ends '\n' := by
  constructor <;> decide

section

variable {c quote s : Char} {cs ds : List Char}

theorem takeWhile_append_stop {p : Char → Bool} (hp : p s = false) :
    (cs ++ s :: ds).takeWhile p = cs.takeWhile p := by
  induction cs with
  | nil => simp [hp]
  | cons c cs ih => simp only [List.cons_append, List.takeWhile_cons, ih]

theorem dropWhile_append_stop {p : Char → Bool} (hp : p s = false) :
    (cs ++ s :: ds).dropWhile p = cs.dropWhile p ++ s :: ds := by
  induction cs with
  | nil => simp [hp]
  | cons c cs ih =>
    rw [List.cons_append, List.dropWhile_cons, List.dropWhile_cons, ih]
    split <;> rfl

theorem splitQuoted_cons (hc : c ≠ '\\') (cs : List Char) :
    splitQuoted quote (c :: cs) =
      if c = '\n' then none
      else if c = quote then some ([], cs)
      else (splitQuoted quote cs).map fun (body, rest) => (c :: body, rest) := by
  rw [splitQuoted]
  exact fun _ _ he _ => hc he

theorem splitQuoted_append_break (hquote : quote ≠ '\\') (h : '\n' ∉ cs) :
    splitQuoted quote (cs ++ '\n' :: ds) =
      (splitQuoted quote cs).map fun (body, rest) => (body, rest ++ '\n' :: ds) := by
  fun_induction splitQuoted quote cs with
  | case1 => simp [splitQuoted]
  | case2 => simp at h
  | case3 c cs hc ih =>
    have hcs : '\n' ∉ cs := fun hmem => h (by simp [hmem])
    rw [List.cons_append, List.cons_append, splitQuoted, if_neg hc, ih hcs]
    simp [Option.map_map, Function.comp_def]
  | case4 => simp at h
  | case5 cs _ hn =>
    rw [List.cons_append, splitQuoted_cons hquote, if_neg hn, if_pos rfl]
    rfl
  | case6 c cs hesc hn hc ih =>
    have hcs : '\n' ∉ cs := fun hmem => h (by simp [hmem])
    by_cases hback : c = '\\'
    · -- A lone backslash at the end of the line takes no line break with it.
      subst hback
      cases cs with
      | nil => simp [splitQuoted]
      | cons d cs => exact absurd rfl (hesc d cs rfl)
    · rw [List.cons_append, splitQuoted_cons hback, if_neg hn, if_neg hc, ih hcs]
      simp [Option.map_map, Function.comp_def]

theorem splitNumber_append_stop (hs : Ends s) :
    splitNumber (cs ++ s :: ds) = ((splitNumber cs).1, (splitNumber cs).2 ++ s :: ds) := by
  unfold splitNumber
  rw [takeWhile_append_stop hs.notDigit, dropWhile_append_stop hs.notDigit]
  rcases cs.dropWhile Char.isDigit with _ | ⟨a, _ | ⟨d, es⟩⟩
  · simp [hs.notDot]
  · by_cases ha : a = '.'
    · simp [ha, hs.notDigit]
    · simp [ha]
  · by_cases ha : a = '.'
    · by_cases he : d.isDigit = true
      · simp [ha, he, takeWhile_append_stop hs.notDigit, dropWhile_append_stop hs.notDigit]
      · simp [ha, he]
    · simp [ha]

/-- What is read when the text goes on behind the rest. -/
def goOn (ds : List Char) (r : Lexeme × List Char) : Lexeme × List Char := (r.1, r.2 ++ ds)

theorem readNumber_append_stop (hs : Ends s) :
    readNumber c (cs ++ s :: ds) = goOn (s :: ds) (readNumber c cs) := by
  unfold readNumber
  rw [splitNumber_append_stop hs]
  rfl

theorem readWord_append_stop (hs : Ends s) :
    readWord c (cs ++ s :: ds) = goOn (s :: ds) (readWord c cs) := by
  unfold readWord
  rw [takeWhile_append_stop hs.notWord, dropWhile_append_stop hs.notWord]
  rfl

theorem readQuoted_append_break (hquote : quote ≠ '\\') (h : '\n' ∉ cs) :
    readQuoted quote (cs ++ '\n' :: ds) = (readQuoted quote cs).map (goOn ('\n' :: ds)) := by
  unfold readQuoted
  rw [splitQuoted_append_break hquote h, takeWhile_append_stop (by decide)]
  rcases splitQuoted quote cs with _ | ⟨body, rest⟩ <;> rfl

theorem startsNumber_append_stop (hs : Ends s) :
    startsNumber c (cs ++ s :: ds) = startsNumber c cs := by
  cases cs with
  | nil => simp [startsNumber, hs.notDigit]
  | cons d cs => rfl

theorem readLexeme_append_break (h : '\n' ∉ cs) :
    readLexeme c (cs ++ '\n' :: ds) = (readLexeme c cs).map (goOn ('\n' :: ds)) := by
  unfold readLexeme
  rw [startsNumber_append_stop ends_break, readNumber_append_stop ends_break,
    readWord_append_stop ends_break]
  split
  · rfl
  split
  · rfl
  split
  · rfl
  split
  · next hq =>
    refine readQuoted_append_break ?_ h
    rintro rfl
    cases hq
  split
  · rfl
  split <;> rfl

end

/-! ## All pieces of a text -/

theorem scan_cons_ok {c : Char} {cs rest : List Char} {piece : Lexeme}
    (h : readLexeme c cs = .ok (piece, rest)) :
    scan (c :: cs) = ⟨piece :: (scan rest).pieces, (scan rest).obstacle⟩ := by
  rw [scan]
  split
  · next he => rw [h] at he; cases he
  · next he => rw [h] at he; cases he; rfl

theorem scan_cons_error {c : Char} {cs : List Char} {o : Obstacle}
    (h : readLexeme c cs = .error o) : scan (c :: cs) = ⟨[], some o⟩ := by
  rw [scan]
  split
  · next he => rw [h] at he; cases he; rfl
  · next he => rw [h] at he; cases he

/-- The piece that a line break is. -/
def lineBreakPiece : Lexeme := .token .lineBreak "\\n" ['\n']

theorem scan_break (ds : List Char) :
    scan ('\n' :: ds) = ⟨lineBreakPiece :: (scan ds).pieces, (scan ds).obstacle⟩ :=
  scan_cons_ok rfl

/-- A text is cut into the pieces of its first line, the line break, and the pieces of the rest; an
    obstacle in the first line comes first. -/
theorem scan_append_break {cs : List Char} (ds : List Char) (h : '\n' ∉ cs) :
    scan (cs ++ '\n' :: ds) =
      match (scan cs).obstacle with
      | some o => ⟨(scan cs).pieces, some o⟩
      | none => ⟨(scan cs).pieces ++ lineBreakPiece :: (scan ds).pieces, (scan ds).obstacle⟩ := by
  fun_induction scan cs with
  | case1 => exact scan_break ds
  | case2 c cs o he =>
    have hcs : '\n' ∉ cs := fun hmem => h (List.mem_cons_of_mem _ hmem)
    have hread : readLexeme c (cs ++ '\n' :: ds) = _ := readLexeme_append_break hcs
    rw [he] at hread
    rw [List.cons_append, scan_cons_error hread]
  | case3 c cs piece rest he _ tail ih =>
    have hcs : '\n' ∉ cs := fun hmem => h (List.mem_cons_of_mem _ hmem)
    have hrest : '\n' ∉ rest := by
      intro hmem
      rw [← readLexeme_append he] at h
      exact h (List.mem_append_right _ hmem)
    have hread : readLexeme c (cs ++ '\n' :: ds) = _ := readLexeme_append_break hcs
    rw [he] at hread
    rw [List.cons_append, scan_cons_ok hread]
    show (⟨piece :: (scan (rest ++ '\n' :: ds)).pieces, _⟩ : Scan) = _
    rw [ih hrest]
    cases (scan rest).obstacle <;> simp [tail]

/-! ## Places -/

/-- The place in the same column of line `n`. -/
def Pos.onLine (n : Nat) (p : Pos) : Pos := ⟨n, p.column⟩

/-- A move of places that keeps neighbours on one line neighbours. -/
def Pos.Moves (f : Pos → Pos) : Prop := ∀ c ≠ '\n', ∀ p : Pos, (f p).next c = f (p.next c)

theorem Pos.moves_onLine (n : Nat) : Pos.Moves (Pos.onLine n) := by
  intro c hc p
  unfold Pos.next
  rw [if_neg hc, if_neg hc]
  rfl

theorem Pos.Moves.after {f : Pos → Pos} (hf : Pos.Moves f) {cs : List Char} (h : '\n' ∉ cs)
    (p : Pos) : (f p).after cs = f (p.after cs) := by
  induction cs generalizing p with
  | nil => rfl
  | cons c cs ih =>
    rw [List.mem_cons, not_or] at h
    rw [Pos.after_cons, Pos.after_cons, hf c (Ne.symm h.1), ih h.2]

theorem Pos.after_onLine {cs : List Char} (h : '\n' ∉ cs) (n : Nat) (p : Pos) :
    (p.onLine n).after cs = (p.after cs).onLine n := (Pos.moves_onLine n).after h p

theorem spellings_cons (piece : Lexeme) (ps : List Lexeme) :
    spellings (piece :: ps) = piece.spelling ++ spellings ps := List.flatMap_cons

theorem place_append (p : Pos) (ps qs : List Lexeme) :
    place p (ps ++ qs) = place p ps ++ place (p.after (spellings ps)) qs := by
  fun_induction place p ps with
  | case1 => rfl
  | case2 p c ps ih => rw [List.cons_append, place, ih]; rfl
  | case3 p kind text spelling ps ih =>
    rw [List.cons_append, place, ih, spellings_cons, Pos.after_append]
    rfl

/-- Pieces without a line break have the same tokens wherever they begin, moved there. -/
theorem Pos.Moves.place {f : Pos → Pos} (hf : Pos.Moves f) {ps : List Lexeme}
    (h : '\n' ∉ spellings ps) (p : Pos) :
    Source.place (f p) ps = (Source.place p ps).map (·.relocate f) := by
  fun_induction Source.place p ps with
  | case1 => rfl
  | case2 p c ps ih =>
    simp only [spellings_cons, Lexeme.spelling, List.mem_append, not_or, List.mem_singleton] at h
    rw [Source.place, hf c (Ne.symm h.1), ih h.2]
  | case3 p kind text spelling ps ih =>
    simp only [spellings_cons, Lexeme.spelling, List.mem_append, not_or] at h
    rw [Source.place, hf.after h.1, ih h.2]
    rfl

/-- The tokens of a text that begins at `p`, as far as it can be read. -/
def tokensAt (p : Pos) (cs : List Char) : List Token := place p (scan cs).pieces

theorem spellings_eq {cs : List Char} (h : (scan cs).obstacle = none) :
    spellings (scan cs).pieces = cs := by
  obtain ⟨rest, hcs, hrest⟩ := scan_spelling cs
  rw [hrest.mp h, List.append_nil] at hcs
  exact hcs

theorem noBreak_spellings {cs : List Char} (h : '\n' ∉ cs) : '\n' ∉ spellings (scan cs).pieces := by
  obtain ⟨rest, hcs, -⟩ := scan_spelling cs
  intro hmem
  rw [← hcs] at h
  exact h (List.mem_append_left _ hmem)

/-- A line on line `n` has the tokens that it has alone, moved to line `n`. -/
theorem tokensAt_line {l : List Char} (h : '\n' ∉ l) (n : Nat) :
    tokensAt ⟨n, 1⟩ l = (tokensAt .start l).map (·.relocate (Pos.onLine n)) :=
  (Pos.moves_onLine n).place (noBreak_spellings h) .start

theorem tokensAt_append_break {l : List Char} (ds : List Char) (h : '\n' ∉ l)
    (hread : (scan l).obstacle = none) (n : Nat) :
    ∃ q, tokensAt ⟨n, 1⟩ (l ++ '\n' :: ds) =
      tokensAt ⟨n, 1⟩ l ++ ⟨.lineBreak, "\\n", q⟩ :: tokensAt ⟨n + 1, 1⟩ ds := by
  have hpieces : (scan (l ++ '\n' :: ds)).pieces =
      (scan l).pieces ++ lineBreakPiece :: (scan ds).pieces := by
    rw [scan_append_break ds h, hread]
  have hafter : (Pos.after ⟨n, 1⟩ l).line = n := by
    rw [show (⟨n, 1⟩ : Pos) = Pos.start.onLine n from rfl, Pos.after_onLine h]
    rfl
  have hnext : (Pos.after ⟨n, 1⟩ l).after ['\n'] = ⟨n + 1, 1⟩ := by
    show (Pos.after ⟨n, 1⟩ l).next '\n' = ⟨n + 1, 1⟩
    rw [Pos.next, if_pos rfl, hafter]
  refine ⟨Pos.after ⟨n, 1⟩ l, ?_⟩
  rw [tokensAt, hpieces, place_append, spellings_eq hread, lineBreakPiece, place, hnext]
  rfl

theorem readLexeme_token {c : Char} {cs rest : List Char} {piece : Lexeme}
    (hgap : isGap c = false) (h : readLexeme c cs = .ok (piece, rest)) :
    ∃ kind text spelling, piece = .token kind text spelling := by
  unfold readLexeme at h
  split at h
  · cases h
    exact ⟨_, _, _, rfl⟩
  rw [hgap] at h
  split at h
  · next hfalse => cases hfalse
  split at h
  · cases h
    exact ⟨_, _, _, rfl⟩
  split at h
  · unfold readQuoted at h
    split at h <;> cases h
    exact ⟨_, _, _, rfl⟩
  split at h
  · cases h
    exact ⟨_, _, _, rfl⟩
  split at h <;> cases h
  exact ⟨_, _, _, rfl⟩

/-- Some token stands on a content line, since the line does not begin with white space. -/
theorem tokensAt_ne_nil {l : List Char} (h : ContentLine l) (hread : (scan l).obstacle = none)
    (p : Pos) : tokensAt p l ≠ [] := by
  obtain ⟨c, cs, rfl⟩ := List.exists_cons_of_ne_nil h.ne_nil
  have hblank : Text.isBlank c = false := h.trimmed.1 c rfl
  have hgap : isGap c = false := by
    rw [isGap, Bool.or_eq_false_iff, Bool.or_eq_false_iff]
    refine ⟨⟨?_, ?_⟩, ?_⟩ <;>
    · rw [decide_eq_false_iff_not]
      rintro rfl
      exact absurd hblank (by decide)
  cases hlex : readLexeme c cs with
  | error o =>
    rw [scan_cons_error hlex] at hread
    cases hread
  | ok r =>
    obtain ⟨kind, text, spelling, hpiece⟩ := readLexeme_token hgap hlex
    rw [tokensAt, scan_cons_ok hlex, hpiece]
    exact List.cons_ne_nil _ _

end Tariff.Source
