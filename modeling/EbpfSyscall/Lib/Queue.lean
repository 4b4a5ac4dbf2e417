import Mathlib

/-!
# Queues ordered by time

A priority queue of items with a time, as `heapq` keeps it over tuples whose second part is a running number: the item with the
smallest time comes out first, and of two with one time the one that was put in first. The queue is the list of its entries in the
order in which they come out.
-/

namespace Queue

variable {α : Type}

structure Entry (α : Type) where
  time : Int
  number : Nat
  item : α
  deriving DecidableEq, Repr

/-- The order of the tuples; the numbers of two entries differ. -/
def Entry.before (a b : Entry α) : Prop := a.time < b.time ∨ (a.time = b.time ∧ a.number ≤ b.number)

instance : DecidableRel (Entry.before (α := α)) := fun _ _ => inferInstanceAs (Decidable (_ ∨ _))

/-- `heappush`. -/
def push (e : Entry α) (queue : List (Entry α)) : List (Entry α) := queue.orderedInsert Entry.before e

/-- The items of a queue. -/
def items (queue : List (Entry α)) : List α := queue.map Entry.item

/-- The entries come out by time. -/
def Ordered (queue : List (Entry α)) : Prop := queue.Pairwise Entry.before

theorem Entry.before_total (a b : Entry α) : a.before b ∨ b.before a := by
  unfold Entry.before
  omega

theorem Entry.before_trans {a b c : Entry α} (hab : a.before b) (hbc : b.before c) : a.before c := by
  unfold Entry.before at *
  omega

instance : Std.Total (Entry.before (α := α)) := ⟨Entry.before_total⟩

instance : IsTrans (Entry α) Entry.before := ⟨fun _ _ _ => Entry.before_trans⟩

theorem push_perm (e : Entry α) (queue : List (Entry α)) : (push e queue).Perm (e :: queue) := List.perm_orderedInsert _ _ _

variable {queue : List (Entry α)} {e : Entry α}

@[simp] theorem mem_push {x : Entry α} : x ∈ push e queue ↔ x = e ∨ x ∈ queue := by
  rw [(push_perm e queue).mem_iff, List.mem_cons]

theorem ordered_push (h : Ordered queue) (e : Entry α) : Ordered (push e queue) :=
  List.Pairwise.orderedInsert _ _ h

theorem items_push_perm (e : Entry α) (queue : List (Entry α)) : (items (push e queue)).Perm (e.item :: items queue) :=
  (push_perm e queue).map Entry.item

@[simp] theorem length_push (e : Entry α) (queue : List (Entry α)) : (push e queue).length = queue.length + 1 := by
  rw [(push_perm e queue).length_eq, List.length_cons]

/-- The first entry has the smallest time. -/
theorem Ordered.head_le (h : Ordered (e :: queue)) : ∀ x ∈ e :: queue, e.time ≤ x.time := by
  intro x hx
  rcases List.mem_cons.mp hx with rfl | hx
  · exact le_refl _
  · have hbefore := (List.pairwise_cons.mp h).1 x hx
    unfold Entry.before at hbefore
    omega

theorem Ordered.tail (h : Ordered (e :: queue)) : Ordered queue :=
  (List.pairwise_cons.mp h).2

end Queue
