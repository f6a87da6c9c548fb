/-
  Intervals of usage. The bounds are kept in order, so an interval never ends before it starts.
-/
import Tariff.Calendar.Moment
import Tariff.Json

namespace Tariff

structure Interval where
  start : Moment
  finish : Moment
  start_le_finish : start ≤ finish
deriving DecidableEq

namespace Interval

/-- The interval between two moments, in whichever order they are given. -/
def between (a b : Moment) : Interval :=
  if h : b < a then ⟨b, a, Int.le_of_lt h⟩ else ⟨a, b, Int.not_lt.mp h⟩

/-- The smallest interval that covers two intervals. -/
def cover (i j : Interval) : Interval where
  start := i.start.earlier j.start
  finish := i.finish.later j.finish
  start_le_finish := by
    have hi : i.start.ordinal ≤ i.finish.ordinal := i.start_le_finish
    show (i.start.earlier j.start).ordinal ≤ (i.finish.later j.finish).ordinal
    rw [Moment.ordinal_earlier, Moment.ordinal_later]
    omega

def toJson (i : Interval) : Json :=
  .obj [("start", .str i.start.isoText), ("end", .str i.finish.isoText)]

end Interval

end Tariff
