/-
  What pieces of a text look like. A line break is a piece of its own and lies in no other piece; no
  piece marks the end of the source. Hence the tokens of a text end in the only `finish` among them
  (`lex_shape`).
-/
import Tariff.Source.Lexeme

namespace Tariff.Source

/-- A line break alone, or a piece without one that does not mark the end either. -/
def Lexeme.Sound : Lexeme → Prop
  | .blank c => c ≠ '\n'
  | .token kind _ spelling =>
    (kind = .lineBreak ∧ spelling = ['\n']) ∨
      (kind ≠ .lineBreak ∧ kind ≠ .finish ∧ '\n' ∉ spelling)

theorem not_mem_takeWhile {p : Char → Bool} (hp : p '\n' = false) (cs : List Char) :
    '\n' ∉ cs.takeWhile p := by
  intro hmem
  have hall := List.all_eq_true.mp (List.all_takeWhile (l := cs)) _ hmem
  rw [hp] at hall
  cases hall

theorem splitQuoted_noBreak {quote : Char} {cs body rest : List Char}
    (h : splitQuoted quote cs = some (body, rest)) : '\n' ∉ body := by
  fun_induction splitQuoted quote cs generalizing body rest with
  | case3 c cs hc ih =>
    simp only [Option.map_eq_some_iff, Prod.exists, Prod.mk.injEq] at h
    obtain ⟨b, r, hs, rfl, rfl⟩ := h
    have hb := ih hs
    simp [hb, Ne.symm hc]
  | case5 => cases h; simp
  | case6 c cs _ hn hc ih =>
    simp only [Option.map_eq_some_iff, Prod.exists, Prod.mk.injEq] at h
    obtain ⟨b, r, hs, rfl, rfl⟩ := h
    have hb := ih hs
    simp [hb, Ne.symm hn]
  | _ => cases h

theorem splitNumber_noBreak (cs : List Char) : '\n' ∉ (splitNumber cs).1 := by
  have hdigits := fun ds : List Char => not_mem_takeWhile (p := Char.isDigit) (by decide) ds
  unfold splitNumber
  split
  · next d ds h =>
    split
    · next hd =>
      have hne : '\n' ≠ d := by
        rintro rfl
        exact absurd hd (by decide)
      simp [hdigits, hne]
    · exact hdigits cs
  · exact hdigits cs

theorem wordKind_ne (w : List Char) : wordKind w ≠ .lineBreak ∧ wordKind w ≠ .finish := by
  unfold wordKind
  split
  · decide
  · split <;> decide

theorem punctuation?_ne {c : Char} {kind : Token.Kind} (h : punctuation? c = some kind) :
    kind ≠ .lineBreak ∧ kind ≠ .finish := by
  unfold punctuation? at h
  split at h <;> cases h <;> decide

theorem readNumber_sound {c : Char} (cs : List Char) (hc : c ≠ '\n') :
    (readNumber c cs).1.Sound := by
  refine Or.inr ⟨by decide, by decide, ?_⟩
  rw [List.mem_cons, not_or]
  exact ⟨Ne.symm hc, splitNumber_noBreak cs⟩

theorem readWord_sound {c : Char} (cs : List Char) (hc : c ≠ '\n') :
    (readWord c cs).1.Sound := by
  refine Or.inr ⟨(wordKind_ne _).1, (wordKind_ne _).2, ?_⟩
  rw [List.mem_cons, not_or]
  exact ⟨Ne.symm hc, not_mem_takeWhile (by decide) cs⟩

theorem readQuoted_sound {quote : Char} {cs rest : List Char} {piece : Lexeme}
    (hq : quote ≠ '\n') (h : readQuoted quote cs = .ok (piece, rest)) : piece.Sound := by
  unfold readQuoted at h
  split at h
  · next hs =>
    cases h
    refine Or.inr ⟨by decide, by decide, ?_⟩
    simp [splitQuoted_noBreak hs, Ne.symm hq]
  · cases h

theorem readLexeme_sound {c : Char} {cs rest : List Char} {piece : Lexeme}
    (h : readLexeme c cs = .ok (piece, rest)) : piece.Sound := by
  unfold readLexeme at h
  split at h
  · next hc =>
    cases h
    exact Or.inl ⟨rfl, by rw [hc]⟩
  next hc =>
  split at h
  · cases h
    exact hc
  split at h
  · next hk =>
    cases h
    obtain ⟨hl, hf⟩ := punctuation?_ne hk
    exact Or.inr ⟨hl, hf, by simpa using Ne.symm hc⟩
  split at h
  · exact readQuoted_sound hc h
  split at h
  · have hpiece : (readNumber c cs).1 = piece := congrArg Prod.fst (Except.ok.inj h)
    exact hpiece ▸ readNumber_sound cs hc
  split at h
  · have hpiece : (readWord c cs).1 = piece := congrArg Prod.fst (Except.ok.inj h)
    exact hpiece ▸ readWord_sound cs hc
  · cases h

theorem scan_sound (cs : List Char) : ∀ piece ∈ (scan cs).pieces, piece.Sound := by
  fun_induction scan cs with
  | case1 => simp
  | case2 => simp
  | case3 c cs piece rest h _ tail ih =>
    intro piece' hmem
    rcases List.mem_cons.mp hmem with rfl | hmem
    · exact readLexeme_sound h
    · exact ih piece' hmem

theorem place_kind_ne_finish {p : Pos} {ps : List Lexeme} (h : ∀ piece ∈ ps, piece.Sound) :
    ∀ t ∈ place p ps, t.kind ≠ .finish := by
  fun_induction place p ps with
  | case1 => simp
  | case2 p c ps ih => exact ih fun piece hp => h piece (List.mem_cons_of_mem _ hp)
  | case3 p kind text spelling ps ih =>
    intro t ht
    rcases List.mem_cons.mp ht with rfl | ht
    · rcases h _ (List.mem_cons_self ..) with ⟨hk, -⟩ | ⟨-, hk, -⟩
      · show kind ≠ .finish
        rw [hk]
        decide
      · exact hk
    · exact ih (fun piece hp => h piece (List.mem_cons_of_mem _ hp)) t ht

theorem lex_eq_ok_iff {cs : List Char} {ts : List Token} :
    lex cs = .ok ts ↔ (scan cs).obstacle = none ∧
      ts = place .start (scan cs).pieces ++
        [.finishAt (Pos.start.after (spellings (scan cs).pieces))] := by
  unfold lex
  cases h : (scan cs).obstacle with
  | some o => simp [h]
  | none => simp [h, eq_comm]

/-- The tokens of a text end in the only token that marks the end. -/
theorem lex_shape {cs : List Char} {ts : List Token} (h : lex cs = .ok ts) :
    ∃ body p, ts = body ++ [.finishAt p] ∧ ∀ t ∈ body, t.kind ≠ .finish :=
  ⟨_, _, (lex_eq_ok_iff.mp h).2, place_kind_ne_finish (scan_sound cs)⟩

end Tariff.Source
