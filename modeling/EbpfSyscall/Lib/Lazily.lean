import Mathlib

/-!
# Fading at every step, and only when looked at

Every value of a store fades at every step of the time. An eager store applies the fading to all of its values at each step. A lazy
store keeps with each value the time at which it was written, and applies the fading for the time since then when the value is read.
The two have the same values.
-/

namespace Lazily

variable {α : Type}

/-- A value and when it was written. -/
structure Cell (α : Type) where
  value : α
  stamp : Nat

/-- What is left of the value. -/
def Cell.valueAt (fade : α → α) (cell : Cell α) (now : Nat) : α := fade^[now - cell.stamp] cell.value

/-- The eager store. -/
structure Eager (α : Type) where
  values : List α
  now : Nat
  deriving DecidableEq, Repr

/-- One step of the time. -/
def Eager.tick (fade : α → α) (store : Eager α) : Eager α := ⟨store.values.map fade, store.now + 1⟩

/-- The steps to a later time. -/
def Eager.advance (fade : α → α) (store : Eager α) (later : Nat) : Eager α := (Eager.tick fade)^[later - store.now] store

/-- A write of one value. -/
def Eager.touch (add : α → α) (store : Eager α) (i : Nat) : Eager α := { store with values := store.values.modify i add }

/-- The lazy store has the values of the eager one, and none of them is from the future. -/
structure Follows (fade : α → α) (cells : List (Cell α)) (store : Eager α) : Prop where
  values : store.values = cells.map fun cell => cell.valueAt fade store.now
  stamps : ∀ cell ∈ cells, cell.stamp ≤ store.now

variable {fade : α → α} {cells : List (Cell α)} {store : Eager α}

theorem now_iterate_tick (n : Nat) (store : Eager α) : ((Eager.tick fade)^[n] store).now = store.now + n := by
  induction n generalizing store with
  | zero => rfl
  | succ n ih =>
    rw [Function.iterate_succ_apply, ih]
    dsimp only [Eager.tick]
    omega

theorem now_advance {later : Nat} (h : store.now ≤ later) : (store.advance fade later).now = later := by
  rw [Eager.advance, now_iterate_tick]
  omega

/-- A store whose values were all written at the start. -/
theorem follows_start (fade : α → α) (values : List α) : Follows fade (values.map fun value => ⟨value, 0⟩) ⟨values, 0⟩ := by
  refine ⟨?_, by simp⟩
  rw [List.map_map]
  exact (List.map_id' values).symm

theorem Follows.tick (h : Follows fade cells store) : Follows fade cells (store.tick fade) := by
  refine ⟨?_, fun cell hcell => Nat.le_succ_of_le (h.stamps cell hcell)⟩
  rw [Eager.tick, h.values, List.map_map]
  refine List.map_congr_left fun cell hcell => ?_
  rw [Function.comp_apply, Cell.valueAt, Cell.valueAt, Nat.succ_sub (h.stamps cell hcell), Function.iterate_succ_apply']

theorem Follows.advance (h : Follows fade cells store) (later : Nat) : Follows fade cells (store.advance fade later) := by
  rw [Eager.advance]
  generalize later - store.now = n
  induction n generalizing store with
  | zero => exact h
  | succ n ih => exact ih h.tick

theorem Follows.getElem? (h : Follows fade cells store) (i : Nat) : store.values[i]? = cells[i]?.map fun cell => cell.valueAt fade store.now := by
  rw [h.values, List.getElem?_map]

/-- A write through the lazy store: the value is read, changed, and written with the time of the write. -/
theorem Follows.touch (h : Follows fade cells store) (add : α → α) {i : Nat} {cell : Cell α} (hcell : cells[i]? = some cell) :
    Follows fade (cells.set i ⟨add (cell.valueAt fade store.now), store.now⟩) (store.touch add i) := by
  refine ⟨List.ext_getElem? fun j => ?_, fun other hother => ?_⟩
  · rw [Eager.touch, List.getElem?_modify, h.getElem?, List.getElem?_map, List.getElem?_set]
    by_cases hij : i = j
    · subst hij
      obtain ⟨hlt, rfl⟩ := List.getElem?_eq_some_iff.mp hcell
      simp [hlt, Cell.valueAt]
    · simp [hij]
  · rcases List.mem_or_eq_of_mem_set hother with hmem | rfl
    · exact h.stamps other hmem
    · exact le_refl store.now

theorem Follows.touch_none (h : Follows fade cells store) (add : α → α) {i : Nat} (hcell : cells[i]? = none) :
    Follows fade cells (store.touch add i) := by
  have hlen : store.values.length ≤ i := by
    rw [h.values, List.length_map]
    exact List.getElem?_eq_none_iff.mp hcell
  rw [Eager.touch, List.modify_eq_self hlen]
  exact h

end Lazily
