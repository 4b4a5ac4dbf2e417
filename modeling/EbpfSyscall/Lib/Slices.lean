import Mathlib

/-!
# Slices

The part of a list between two bounds, either of which may be negative and then counts from the end of the list, and may lie beyond the
list.
-/

namespace Slices

variable {α : Type}

/-- The place that a bound means. -/
def place (length : Nat) (bound : Int) : Nat := if bound < 0 then (bound + length).toNat else min bound.toNat length

/-- `items[start:stop]`. -/
def slice (items : List α) (start stop : Int) : List α := (items.take (place items.length stop)).drop (place items.length start)

theorem place_natCast (length bound : Nat) : place length bound = min bound length := by
  rw [place, if_neg (by omega), Int.toNat_natCast]

/-- Between two bounds that are not negative. -/
theorem slice_natCast (items : List α) (start count : Nat) : slice items start ((start : Int) + count) = (items.drop start).take count := by
  rw [← Nat.cast_add, slice, place_natCast, place_natCast]
  rcases Nat.le_total start items.length with hle | hle
  · rw [Nat.min_eq_left hle, List.drop_take, List.take_eq_take_iff, List.length_drop]
    omega
  · rw [Nat.min_eq_right hle, List.drop_eq_nil_of_le hle, List.take_nil]
    exact List.drop_eq_nil_of_le (List.length_take_le' _ _)

/-- The first items. -/
theorem slice_zero (items : List α) (count : Nat) : slice items 0 count = items.take count := by
  have h := slice_natCast items 0 count
  simpa using h

end Slices
