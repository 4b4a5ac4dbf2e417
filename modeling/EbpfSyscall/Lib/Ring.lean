import Mathlib

/-!
# Circular buffers

A buffer of slots on a circle with the position where the next item goes and the position of the oldest one. It is empty when the two
are equal, so one slot stays free; a buffer that counts its items can use all slots. What it holds is the list of the slots from the
oldest on; a push adds to the end of that list, a pop takes its first item.
-/

namespace Ring

open List Function

structure Buffer (n : Nat) (α : Type) where
  slots : Fin n → α
  head : Fin n
  tail : Fin n

namespace Buffer

variable {n : Nat} [NeZero n] {α : Type} {b : Buffer n α}

def Empty (b : Buffer n α) : Prop := b.head = b.tail

def Full (b : Buffer n α) : Prop := b.head + 1 = b.tail

def push (b : Buffer n α) (a : α) : Buffer n α := { b with slots := Function.update b.slots b.head a, head := b.head + 1 }

def pop (b : Buffer n α) : Buffer n α := { b with tail := b.tail + 1 }

/-- How many items there are. -/
def size (b : Buffer n α) : Nat := (b.head - b.tail).val

/-- The items, from the oldest on. -/
def contents (b : Buffer n α) : List α := (List.range b.size).map fun i => b.slots (b.tail + Fin.ofNat n i)

@[simp] theorem length_contents (b : Buffer n α) : b.contents.length = b.size := by
  simp [contents]

theorem size_eq_zero : b.size = 0 ↔ b.Empty := by
  rw [size, Empty, Fin.val_eq_zero_iff, sub_eq_zero]

theorem contents_eq_nil : b.contents = [] ↔ b.Empty := by
  rw [← length_eq_zero_iff, length_contents, size_eq_zero]

/-- The position after one is one further, unless the circle ends there. -/
theorem val_add_one {x : Fin n} (h : x + 1 ≠ 0) : (x + 1).val = x.val + 1 := by
  have hx := x.isLt
  have hval : (x + 1).val = (x.val + 1) % n := by
    rw [Fin.val_add, Fin.val_one', Nat.add_mod_mod]
  by_cases hlast : x.val + 1 = n
  · have hzero : (x + 1).val = 0 := by rw [hval, hlast, Nat.mod_self]
    exact absurd (Fin.val_eq_zero_iff.mp hzero) h
  · rw [hval, Nat.mod_eq_of_lt (by omega)]

theorem ofNat_size (b : Buffer n α) : Fin.ofNat n b.size = b.head - b.tail := by
  apply Fin.ext
  simp [size]

theorem contents_push (h : ¬b.Full) (a : α) : (b.push a).contents = b.contents ++ [a] := by
  have hsize : (b.push a).size = b.size + 1 := by
    have hmove : b.head + 1 - b.tail = b.head - b.tail + 1 := by abel
    rw [size, size, push, hmove]
    refine val_add_one fun hzero => h ?_
    rw [← hmove] at hzero
    exact sub_eq_zero.mp hzero
  rw [contents, hsize, range_succ, map_append, map_singleton]
  congr 1
  · -- The slots of the items are not the one that is written.
    refine map_congr_left fun i hi => ?_
    have hi : i < b.size := mem_range.mp hi
    refine update_of_ne (fun heq => ?_) _ _
    have hpos : Fin.ofNat n i = b.head - b.tail := by
      rw [← heq]
      change _ = b.tail + Fin.ofNat n i - b.tail
      abel
    have hval := congrArg Fin.val hpos
    rw [Fin.val_ofNat, Nat.mod_eq_of_lt (hi.trans (b.head - b.tail).isLt)] at hval
    exact absurd hval hi.ne
  · have hhead : b.tail + Fin.ofNat n b.size = b.head := by
      rw [ofNat_size]
      abel
    change [update b.slots b.head a (b.tail + Fin.ofNat n b.size)] = [a]
    rw [hhead, update_self]

theorem contents_pop (h : ¬b.Empty) : b.contents = b.slots b.tail :: b.pop.contents := by
  have hne : b.head - b.tail ≠ 0 := fun hzero => h (sub_eq_zero.mp hzero)
  have hsize : b.size = b.pop.size + 1 := by
    have hmove : b.head - b.tail = b.head - (b.tail + 1) + 1 := by abel
    rw [size, size, pop, hmove]
    rw [hmove] at hne
    exact val_add_one hne
  rw [contents, contents, hsize, range_succ_eq_map, map_cons, map_map]
  congr 1
  · congr 1
    apply Fin.ext
    simp
  · refine map_congr_left fun i _ => congrArg b.slots ?_
    change b.tail + Fin.ofNat n (i + 1) = b.tail + 1 + Fin.ofNat n i
    have hsucc : Fin.ofNat n (i + 1) = Fin.ofNat n i + 1 := by
      apply Fin.ext
      simp [Fin.val_add]
    rw [hsucc]
    abel

end Buffer

/-! ## With a count -/

/-- A circular buffer that counts its items; they are taken at the head and put at the tail. -/
structure Counted (α : Type) where
  slots : Nat → α
  capacity : Nat
  head : Nat
  tail : Nat
  count : Nat

namespace Counted

variable {α : Type}

def take (q : Counted α) : Option (α × Counted α) :=
  if q.count = 0 then none else some (q.slots q.head, { q with head := (q.head + 1) % q.capacity, count := q.count - 1 })

def put (q : Counted α) (a : α) : Option (Counted α) :=
  if q.capacity ≤ q.count then none
  else some { q with slots := Function.update q.slots q.tail a, tail := (q.tail + 1) % q.capacity, count := q.count + 1 }

/-- The items, from the oldest on. -/
def contents (q : Counted α) : List α := (List.range q.count).map fun i => q.slots ((q.head + i) % q.capacity)

/-- The count fits, and the tail is that far behind the head. -/
structure WellFormed (q : Counted α) : Prop where
  count_le : q.count ≤ q.capacity
  head_lt : 0 < q.capacity → q.head < q.capacity
  tail_eq : 0 < q.capacity → q.tail = (q.head + q.count) % q.capacity

@[simp] theorem length_contents (q : Counted α) : q.contents.length = q.count := by
  simp [contents]

/-- Positions less than a circle apart differ. -/
theorem add_mod_ne {start i j capacity : Nat} (hij : i < j) (hj : j < capacity) : (start + i) % capacity ≠ (start + j) % capacity := by
  intro heq
  have hsame : i ≡ j [MOD capacity] := Nat.ModEq.add_left_cancel' start heq
  rw [Nat.ModEq, Nat.mod_eq_of_lt (hij.trans hj), Nat.mod_eq_of_lt hj] at hsame
  omega

theorem take_spec {q : Counted α} (h : q.WellFormed) {a : α} {rest : List α} (hcontents : q.contents = a :: rest) :
    ∃ q', q.take = some (a, q') ∧ q'.WellFormed ∧ q'.contents = rest ∧ q'.capacity = q.capacity := by
  obtain ⟨n, hn⟩ : ∃ n, q.count = n + 1 := by
    have hlength := congrArg length hcontents
    rw [length_contents, length_cons] at hlength
    exact ⟨_, hlength⟩
  have hcapacity : 0 < q.capacity := lt_of_lt_of_le (by omega) h.count_le
  have hhead := h.head_lt hcapacity
  rw [contents, hn, range_succ_eq_map, map_cons, map_map] at hcontents
  obtain ⟨hfirst, hrest⟩ := cons.inj hcontents
  rw [Nat.add_zero, Nat.mod_eq_of_lt hhead] at hfirst
  refine ⟨{ q with head := (q.head + 1) % q.capacity, count := q.count - 1 }, ?_, ?_, ?_, rfl⟩
  · rw [take, if_neg (by omega), hfirst]
  · refine ⟨(Nat.sub_le _ _).trans h.count_le, fun _ => Nat.mod_lt _ hcapacity, fun _ => ?_⟩
    change q.tail = ((q.head + 1) % q.capacity + (q.count - 1)) % q.capacity
    rw [h.tail_eq hcapacity, Nat.mod_add_mod]
    congr 1
    omega
  · rw [contents, ← hrest]
    change (range (q.count - 1)).map (fun i => q.slots (((q.head + 1) % q.capacity + i) % q.capacity)) = _
    rw [hn, Nat.add_sub_cancel]
    refine map_congr_left fun i _ => ?_
    rw [Nat.mod_add_mod]
    change q.slots _ = q.slots _
    congr 2
    omega

theorem put_spec {q : Counted α} (h : q.WellFormed) (a : α) (hroom : q.count < q.capacity) :
    ∃ q', q.put a = some q' ∧ q'.WellFormed ∧ q'.contents = q.contents ++ [a] ∧ q'.capacity = q.capacity := by
  have hcapacity : 0 < q.capacity := by omega
  have htail := h.tail_eq hcapacity
  refine ⟨_, if_neg (not_le.mpr hroom), ?_, ?_, rfl⟩
  · refine ⟨hroom, fun _ => h.head_lt hcapacity, fun _ => ?_⟩
    change (q.tail + 1) % q.capacity = (q.head + (q.count + 1)) % q.capacity
    rw [htail, Nat.mod_add_mod, Nat.add_assoc]
  · rw [contents]
    change (range (q.count + 1)).map (fun i => update q.slots q.tail a ((q.head + i) % q.capacity)) = _
    rw [range_succ, map_append, map_singleton, ← htail, update_self]
    congr 1
    refine map_congr_left fun i hi => update_of_ne ?_ _ _
    rw [htail]
    exact add_mod_ne (mem_range.mp hi) hroom

end Counted

end Ring
