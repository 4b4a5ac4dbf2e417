import Mathlib

/-!
# Pairs of two lists

Places of one list are paired with places of another that hold no smaller value, each place at most once. Whatever the pairs, for every
threshold there are at most as many as values of the first list up to the threshold and values of the second above it together.
-/

namespace Assignments

open List

variable {τ : Type} [LinearOrder τ]

/-- Pairs of a place of the first list and a place of the second. -/
structure IsAssignment (left right : List τ) (pairs : List (Nat × Nat)) : Prop where
  leftOnce : (pairs.map Prod.fst).Nodup
  rightOnce : (pairs.map Prod.snd).Nodup
  ordered : ∀ p ∈ pairs, ∃ a b, left[p.1]? = some a ∧ right[p.2]? = some b ∧ a ≤ b

/-- Different places with a property are at most as many as the values with it. -/
theorem length_le_countP {α : Type} {l : List α} {p : α → Bool} {places : List Nat} (hnodup : places.Nodup)
    (h : ∀ i ∈ places, ∃ a, l[i]? = some a ∧ p a = true) : places.length ≤ l.countP p := by
  have hsub : places ⊆ (l.zipIdx.filter fun x => p x.1).map Prod.snd := by
    intro i hi
    obtain ⟨a, ha, hp⟩ := h i hi
    exact mem_map.mpr ⟨(a, i), mem_filter.mpr ⟨mk_mem_zipIdx_iff_getElem?.mpr ha, hp⟩, rfl⟩
  calc places.length ≤ ((l.zipIdx.filter fun x => p x.1).map Prod.snd).length := (hnodup.subperm hsub).length_le
    _ = l.countP p := by
      rw [length_map, ← countP_eq_length_filter]
      conv_rhs => rw [← zipIdx_map_fst 0 l, countP_map]
      rfl

variable {left right : List τ} {pairs : List (Nat × Nat)}

theorem IsAssignment.length_le_right (h : IsAssignment left right pairs) : pairs.length ≤ right.length := by
  have hle := length_le_countP (l := right) (p := fun _ => true) h.rightOnce fun i hi => by
    obtain ⟨p, hp, rfl⟩ := mem_map.mp hi
    obtain ⟨_, b, _, hb, _⟩ := h.ordered p hp
    exact ⟨b, hb, rfl⟩
  rwa [length_map, countP_true] at hle

/-- A pair takes a value of the first list up to the threshold, or one of the second above it. -/
theorem IsAssignment.length_le_threshold (h : IsAssignment left right pairs) (t : τ) : pairs.length ≤ left.countP (· ≤ t) + right.countP (t < ·) := by
  let low (p : Nat × Nat) : Bool := (left[p.1]?).any (· ≤ t)
  have hlow : ((pairs.filter low).map Prod.fst).length ≤ left.countP (· ≤ t) := by
    refine length_le_countP (h.leftOnce.sublist (filter_sublist.map _)) fun i hi => ?_
    obtain ⟨p, hp, rfl⟩ := mem_map.mp hi
    exact (Option.any_eq_true _ _).mp (mem_filter.mp hp).2
  have hhigh : ((pairs.filter fun p => !low p).map Prod.snd).length ≤ right.countP (t < ·) := by
    refine length_le_countP (h.rightOnce.sublist (filter_sublist.map _)) fun i hi => ?_
    obtain ⟨p, hp, rfl⟩ := mem_map.mp hi
    obtain ⟨hmem, hnot⟩ := mem_filter.mp hp
    obtain ⟨a, b, ha, hb, hle⟩ := h.ordered p hmem
    have hlt : t < a := by simpa [low, ha] using hnot
    exact ⟨b, hb, decide_eq_true (hlt.trans_le hle)⟩
  rw [length_map] at hlow hhigh
  have hsplit := length_eq_length_filter_add (l := pairs) low
  omega

end Assignments
