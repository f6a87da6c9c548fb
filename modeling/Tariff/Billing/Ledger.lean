/-
  The ledger: recorded charges. A charge is refused when one with its key but another id is recorded.
-/
import Tariff.Billing.Charge

namespace Tariff

/-- The charge that is refused, by its id, and the key it shares with a recorded one. -/
structure Overlap where
  id : Option String
  key : String
deriving DecidableEq

def Overlap.message (o : Overlap) : String :=
  "Charge " ++ o.id.getD "<unsaved>" ++
    " being saved overlaps a previously saved one. Unique key: " ++ o.key

/-- Recorded charges, the latest last. -/
abbrev Ledger := List Charge

namespace Ledger

/-- Whether a charge may not be recorded next to one that is. -/
def clash (recorded c : Charge) : Bool := recorded.id ≠ c.id && recorded.key = c.key

/-- Lets a charge pass that overlaps no recorded one. -/
def ensureNoOverlap (ledger : Ledger) (c : Charge) : Except Overlap Unit :=
  if ledger.any (clash · c) then .error ⟨c.id, c.key⟩ else .ok ()

/-- Records a charge if it may be. -/
def record (ledger : Ledger) (c : Charge) : Except Overlap Ledger :=
  match ledger.ensureNoOverlap c with
  | .ok () => .ok (ledger ++ [c])
  | .error e => .error e

end Ledger

end Tariff
