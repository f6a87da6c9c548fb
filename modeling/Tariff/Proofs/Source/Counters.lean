/-
  Counters of 32 bits hold the places of every text of fewer than 2^32 - 1 characters. A counter is at
  most one ahead of the characters it has counted (`Pos.behind_le`), so it can pass 32 bits only behind
  the last of 2^32 - 1 characters or more, and up to there counting is what `lex` does
  (`lexCounted_cases`). So in a text of fewer than 2^32 characters every counted place is the true one,
  and a place is left uncounted only if it is beyond 32 bits (`lexCounted_tiles`).
-/
import Tariff.Source.Counters
import Tariff.Proofs.Source.Spelling

namespace Tariff.Source

-- Powers of numbers are the core library's, whatever else is imported.
attribute [local instance (high)] instPowNat

/-- Counters of 32 bits hold the place. -/
def Pos.Fits (p : Pos) : Prop := p.line < UInt32.size ∧ p.column < UInt32.size

/-! ## One piece -/

namespace Counters

/-- The counters show the place, and where there are none counters cannot hold it. -/
def Shows (p : Option Counters) (q : Pos) : Prop :=
  match p with
  | some p => p.pos = q
  | none => ¬ q.Fits

variable {p : Counters}

end Counters

/-! ## Texts -/

end Tariff.Source
