import Mathlib

/-!
# Nested loops that number what they add

A loop body that appends a fixed number of items to a list and counts them. The items of nested loops stand in one list, and the place
of an item tells its indices: the outer one is a quotient by the number of items of the inner loop, and the inner loop sees the
remainder.
-/

namespace Nested

open List

variable {β : Type}

/-- A list with the number of its items. -/
def numbered (items : List β) : List β × Int := (items, items.length)

/-- The body appends `m` items; the item at place `j` of them, and at place `q` of the whole list, is `g q j`. -/
def Appends (body : List β × Int → List β × Int) (m : Nat) (g : Nat → Nat → β) : Prop :=
  ∀ items, body (numbered items) = numbered (items ++ (List.range m).map fun j => g (items.length + j) j)

/-- `for k in range(n)`. -/
def loop (n : Nat) (body : Nat → List β × Int → List β × Int) (s : List β × Int) : List β × Int :=
  (List.range n).foldl (fun s k => body k s) s

/-- The items of a loop over a body. -/
theorem Appends.loop {body : Nat → List β × Int → List β × Int} {m : Nat} {g : Nat → Nat → Nat → β} (h : ∀ k, Appends (body k) m (g k))
    (n : Nat) : Appends (loop n body) (n * m) fun q j => g (j / m) q (j % m) := by
  intro items
  induction n with
  | zero => simp [Nested.loop]
  | succ n ih =>
    have hlast : Nested.loop (n + 1) body (numbered items) = body n (Nested.loop n body (numbered items)) := by
      rw [Nested.loop, range_succ, foldl_append]
      rfl
    rw [hlast, ih, h n, Nat.add_mul, Nat.one_mul, range_add, map_append, map_map, append_assoc]
    congr 2
    congr 1
    refine map_congr_left fun j hj => ?_
    have hlt : j < m := mem_range.mp hj
    have hpos : 0 < m := by omega
    simp only [Function.comp_apply, length_append, length_map, length_range]
    rw [Nat.mul_comm n m, Nat.mul_add_div hpos, Nat.div_eq_of_lt hlt, Nat.mul_add_mod, Nat.mod_eq_of_lt hlt, Nat.add_zero, Nat.add_assoc]

/-- The innermost loop, whose body appends one item in a turn. -/
theorem Appends.loop_push {push : Nat → List β × Int → List β × Int} {item : Nat → Nat → β}
    (h : ∀ k items, push k (numbered items) = numbered (items ++ [item k items.length])) (n : Nat) :
    Appends (Nested.loop n push) n fun q j => item j q := by
  have hone : ∀ k, Appends (push k) 1 fun q _ => item k q := by
    intro k items
    rw [h]
    rfl
  have hloop := Appends.loop hone n
  simpa using hloop

end Nested
