import Mathlib

/-!
# Sequences made of blocks

A sequence without an end on either side that is given block by block, all of one width. A part of one block, and a run of whole blocks,
are ranges of the sequence, so ranges that were put together in different ways can be compared item by item.
-/

namespace Blocks

open List

variable {α : Type} {f : Int → List α} {width : Nat} {d : α}

/-- The item at a place of the sequence. -/
def item (f : Int → List α) (width : Nat) (d : α) (i : Int) : α := (f (i / width)).getD (i % width).toNat d

/-- The items of a range. -/
def range (f : Int → List α) (width : Nat) (d : α) (start : Int) (length : Nat) : List α :=
  (List.range length).map fun k : Nat => item f width d (start + k)

@[simp] theorem length_range (start : Int) (length : Nat) : (range f width d start length).length = length := by
  rw [range, List.length_map, List.length_range]

@[simp] theorem range_zero (start : Int) : range f width d start 0 = [] := rfl

/-- Two ranges that follow each other are one. -/
theorem range_append (start : Int) (first second : Nat) :
    range f width d start first ++ range f width d (start + first) second = range f width d start (first + second) := by
  rw [range, range, range, range_add, map_append, map_map]
  congr 1
  refine map_congr_left fun k _ => ?_
  rw [Function.comp_apply, Nat.cast_add, Int.add_assoc]

/-- A part of a range is a range. -/
theorem take_drop_range (start : Int) (length offset count : Nat) (h : offset + count ≤ length) :
    ((range f width d start length).drop offset).take count = range f width d (start + offset) count := by
  obtain ⟨rest, rfl⟩ : ∃ rest, length = offset + (count + rest) := ⟨length - offset - count, by omega⟩
  rw [← range_append, ← range_append, drop_left' (length_range _ _), take_left' (length_range _ _)]

/-- A part of one block. -/
theorem take_drop_block (hlength : ∀ b, (f b).length = width) (block : Int) (offset count : Nat) (h : offset + count ≤ width)
    (hcount : 0 < count) : ((f block).drop offset).take count = range f width d (block * width + offset) count := by
  refine ext_getElem ?_ fun i hi _ => ?_
  · rw [length_range, length_take, length_drop, hlength]
    omega
  · rw [length_take, length_drop, hlength] at hi
    obtain ⟨hdiv, hmod⟩ : (block * width + offset + i) / (width : Int) = block ∧ (block * width + offset + i) % (width : Int) = offset + i := by
      rw [Int.ediv_emod_unique (by omega)]
      refine ⟨?_, by omega, by omega⟩
      rw [Int.mul_comm]
      omega
    rw [getElem_take, getElem_drop]
    simp only [range, getElem_map, getElem_range, item, hdiv, hmod]
    rw [← Nat.cast_add, Int.toNat_natCast, getD_eq_getElem _ _ (by rw [hlength]; omega)]

/-- A run of whole blocks. -/
theorem flatMap_blocks (hlength : ∀ b, (f b).length = width) (hwidth : 0 < width) (first : Int) (count : Nat) :
    ((List.range count).flatMap fun k : Nat => f (first + k)) = range f width d (first * width) (count * width) := by
  induction count with
  | zero => simp [range]
  | succ count ih =>
    have hlast : f (first + count) = range f width d (first * width + (count * width : Nat)) width := by
      have hblock := take_drop_block (d := d) hlength (first + count) 0 width (by omega) hwidth
      rw [drop_zero, take_of_length_le (hlength _).le, Int.add_mul, Nat.cast_zero, Int.add_zero] at hblock
      rw [hblock, Nat.cast_mul]
    rw [range_succ, flatMap_append, ih, flatMap_singleton, hlast, range_append, Nat.add_mul, Nat.one_mul]

end Blocks
