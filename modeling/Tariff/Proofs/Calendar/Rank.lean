/-
  The rank of a moment tells it: each of its numbers is below what its place counts to, so the places
  can be read off again.
-/
import Tariff.Calendar.Moment
import Mathlib.Algebra.Group.Int.Defs

namespace Tariff

/-- A number in base `k` tells its last place and the places in front of it. -/
theorem eq_of_places {a b x y k : Int} (hx : 0 ≤ x ∧ x < k) (hy : 0 ≤ y ∧ y < k)
    (h : a * k + x = b * k + y) : a = b ∧ x = y := by
  have hmod : x = y := by
    have hrest := congrArg (· % k) h
    simp only [Int.mul_add_emod_self_right] at hrest
    rwa [Int.emod_eq_of_lt hx.1 hx.2, Int.emod_eq_of_lt hy.1 hy.2] at hrest
  subst hmod
  have hk : k ≠ 0 := by omega
  exact ⟨Int.eq_of_mul_eq_mul_right hk (add_right_cancel h), rfl⟩

theorem daysInMonth_lt (year : Int) (month : Nat) : daysInMonth year month < 32 := by
  unfold daysInMonth
  split
  · split <;> decide
  all_goals decide

/-- A rank tells moments apart. -/
theorem Moment.ordinal_injective {a b : Moment} (h : a.ordinal = b.ordinal) : a = b := by
  obtain ⟨⟨year, month, day, _, hm, hd⟩, hour, minute, second, nanos, hh, hmi, hs, hn⟩ := a
  obtain ⟨⟨year', month', day', _, hm', hd'⟩, hour', minute', second', nanos', hh', hmi', hs',
    hn'⟩ := b
  have hlast := daysInMonth_lt year month
  have hlast' := daysInMonth_lt year' month'
  simp only [ordinal] at h
  obtain ⟨h, hnanos⟩ := eq_of_places (by omega) (by omega) h
  obtain ⟨h, hsecond⟩ := eq_of_places (by omega) (by omega) h
  obtain ⟨h, hminute⟩ := eq_of_places (by omega) (by omega) h
  obtain ⟨h, hhour⟩ := eq_of_places (by omega) (by omega) h
  obtain ⟨h, hday⟩ := eq_of_places (by omega) (by omega) h
  obtain ⟨hyear, hmonth⟩ := eq_of_places (by omega) (by omega) h
  rw [Int.natCast_inj] at hnanos hsecond hminute hhour hday hmonth
  subst hyear hmonth hday hhour hminute hsecond hnanos
  rfl

end Tariff
