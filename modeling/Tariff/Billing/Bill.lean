/-
  Bills and their aggregation. Every charge is first made a bill of its own; bills of one key are merged
  into the first of them, so that bills keep the order in which their keys appear. An index tells where
  the bill of a key stands.
-/
import Tariff.Billing.Charge

namespace Tariff

structure Bill where
  id : Option String
  type : ChargeType
  time : Moment
  sum : Money
  quantity : Quantity
  customer : String
  target : String
  plan : Option String
  charges : List Charge
  interval : Interval
deriving DecidableEq

/-- Why bills cannot be merged. -/
inductive AggregationError
  | conflictingIds (first other : String)
  | currencyMismatch (first other : String)
  | overflow
deriving DecidableEq

def AggregationError.message : AggregationError → String
  | .conflictingIds first other =>
    "cannot aggregate bills with different IDs: " ++ first ++ " and " ++ other
  | .currencyMismatch first other =>
    "cannot aggregate bill sums: " ++ (MoneyError.currencyMismatch first other).message
  | .overflow => overflowMessage

namespace Bill

def key (b : Bill) : String :=
  joinKey [b.sum.currency, b.customer, b.target, b.type.uniqueId,
    String.ofList b.time.secondsChars, b.plan.getD ""]

def toJson (b : Bill) : Json :=
  .obj [("id", Json.ofText? b.id), ("type", b.type.toJson), ("time", .str b.time.isoText),
    ("sum", b.sum.toJson), ("quantity", b.quantity.toJson), ("customer", .str b.customer),
    ("target", .str b.target), ("plan", Json.ofText? b.plan),
    ("charges", .arr (b.charges.map Charge.toJson)), ("usage_interval", b.interval.toJson)]

/-- The id of two bills together: the one that is set, and no two different ones. -/
def mergeIds : Option String → Option String → Except AggregationError (Option String)
  | none, id => .ok id
  | id, none => .ok id
  | some a, some b => if a = b then .ok (some b) else .error (.conflictingIds a b)

/-- The sum of two bills together. -/
def mergeSums (a b : Money) : Except AggregationError Money :=
  match a.add b with
  | .ok total => .ok total
  | .error (.currencyMismatch first other) => .error (.currencyMismatch first other)
  | .error .overflow => .error .overflow

/-- The quantity of two bills together; a quantity in another unit is not counted. -/
def mergeQuantities (a b : Quantity) : Except AggregationError Quantity :=
  match a.add b with
  | .ok total => .ok total
  | .error .unitMismatch => .ok a
  | .error .overflow => .error .overflow

/-- Merges `other` into `first`, which lends the result all that is not added up. -/
def merge (first other : Bill) : Except AggregationError Bill := do
  let id ← mergeIds first.id other.id
  let sum ← mergeSums first.sum other.sum
  let quantity ← mergeQuantities first.quantity other.quantity
  return { first with
    id := id, sum := sum, quantity := quantity
    interval := first.interval.cover other.interval
    charges := first.charges ++ other.charges }

end Bill

/-- Bills with different keys, in the order in which the keys appeared. -/
abbrev Bills := List Bill

/-- Bills under collection, and at which place the bill of each key stands. -/
structure BillSet where
  order : Bills
  index : List (String × Nat)
  index_lt : ∀ key n, index.lookup key = some n → n < order.length

namespace BillSet

def empty : BillSet where
  order := []
  index := []
  index_lt := by simp

/-- Puts a bill at the end. -/
def push (s : BillSet) (b : Bill) : BillSet where
  order := s.order ++ [b]
  index := (b.key, s.order.length) :: s.index
  index_lt := by
    intro key n h
    rw [List.length_append, List.length_singleton]
    rw [List.lookup_cons] at h
    split at h
    · cases h
      omega
    · have := s.index_lt key n h
      omega

/-- Puts a bill in the place of another. -/
def replace (s : BillSet) (n : Nat) (b : Bill) : BillSet where
  order := s.order.set n b
  index := s.index
  index_lt := by
    intro key n h
    rw [List.length_set]
    exact s.index_lt key n h

/-- Merges a bill into the one that stands under its key, or puts it at the end. -/
def merge (s : BillSet) (b : Bill) : Except AggregationError BillSet :=
  match h : s.index.lookup b.key with
  | none => .ok (s.push b)
  | some n =>
    match (s.order.get ⟨n, s.index_lt _ _ h⟩).merge b with
    | .ok merged => .ok (s.replace n merged)
    | .error e => .error e

/-- Merges bills one after the other, up to the first that cannot be merged. -/
def mergeAll (s : BillSet) : List Bill → Except AggregationError BillSet
  | [] => .ok s
  | b :: bs =>
    match s.merge b with
    | .ok s => s.mergeAll bs
    | .error e => .error e

end BillSet

/-- The bills of charges, each charge made a bill by `toBill`. -/
def aggregate (toBill : Charge → Bill) (charges : List Charge) : Except AggregationError Bills :=
  match BillSet.empty.mergeAll (charges.map toBill) with
  | .ok s => .ok s.order
  | .error e => .error e

/-- Merges the bills of each batch of charges into a set. -/
def BillSet.mergeBatches (toBill : Charge → Bill) (s : BillSet) :
    List (List Charge) → Except AggregationError BillSet
  | [] => .ok s
  | batch :: batches =>
    match aggregate toBill batch with
    | .error e => .error e
    | .ok bills =>
      match s.mergeAll bills with
      | .error e => .error e
      | .ok s => s.mergeBatches toBill batches

/-- The bills of batches of charges: those of each batch, merged. -/
def aggregateBatches (toBill : Charge → Bill) (batches : List (List Charge)) :
    Except AggregationError Bills :=
  match BillSet.empty.mergeBatches toBill batches with
  | .ok s => .ok s.order
  | .error e => .error e

/-- What a bill takes from outside its charges. -/
structure BillContext where
  customer : String
  plan : Option String
  time : Moment

/-- The bill of a single charge. -/
def BillContext.bill (ctx : BillContext) (c : Charge) : Bill where
  id := none
  type := c.type
  time := ctx.time
  sum := c.sum
  quantity := c.usage
  customer := ctx.customer
  target := c.target
  plan := ctx.plan
  charges := [c]
  interval := c.interval

/-- The bill of a single charge under the charge's own id. -/
def BillContext.billWithId (ctx : BillContext) (c : Charge) : Bill :=
  { ctx.bill c with id := c.id }

end Tariff
