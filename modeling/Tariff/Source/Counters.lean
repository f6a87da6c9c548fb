/-
  Tokens with places that are counted in 32 bits. Lines and columns are counted up piece by piece; a
  counter that would pass 32 bits ends the run, and the text then has neither tokens nor an error.
-/
import Tariff.Source.Lexeme

namespace Tariff.Source

/-- A line and a column, each in a counter of 32 bits. -/
structure Counters where
  line : UInt32
  column : UInt32

namespace Counters

def start : Counters := ⟨1, 1⟩

/-- The place that counters show. -/
def pos (p : Counters) : Pos := ⟨p.line.toNat, p.column.toNat⟩

/-- The sum of two counters, unless it takes more than 32 bits. -/
def sum? (a b : UInt32) : Option UInt32 :=
  if a.toNat + b.toNat < UInt32.size then some (a + b) else none

/-- The counters at the start of the next line. -/
def nextLine? (p : Counters) : Option Counters := (sum? p.line 1).map fun line => ⟨line, 1⟩

end Counters

end Tariff.Source
