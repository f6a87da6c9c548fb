/-
  Where compiled formulas are kept. A compiled formula is an instance with a serial number of its own;
  a memory cache keeps the first instance for each key for ever, the empty cache keeps nothing.
-/
import Tariff.Formula.Basic

namespace Tariff

/-- A compiled formula. Two instances are the same one when their serials agree. -/
structure Instance where
  serial : Nat
  formula : Formula
deriving DecidableEq

/-- A cache: entries in the order in which they came, no key twice, or no memory at all. -/
inductive Cache
  | memory (entries : List (String × Instance))
  | absent

namespace Cache

/-- A memory cache without entries. -/
def empty : Cache := .memory []

def get? (key : String) : Cache → Option Instance
  | .memory entries => entries.lookup key
  | .absent => none

/-- Keeps an instance unless the key has one already; returns the instance that the key has now. -/
def insert (c : Cache) (key : String) (i : Instance) : Instance × Cache :=
  match c with
  | .memory entries =>
    match entries.lookup key with
    | some kept => (kept, c)
    | none => (i, .memory (entries ++ [(key, i)]))
  | .absent => (i, c)

def size : Cache → Nat
  | .memory entries => entries.length
  | .absent => 0

end Cache

end Tariff
