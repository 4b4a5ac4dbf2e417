import Mathlib

/-!
# Sorting

`sortBy` puts items in the order of their keys and leaves those with one key in the order they had.

Sorting moves the values of a list, so that the front of the sorted list need not be the sorted front. It is exactly when no value of
the front is greater than one of the rest.
-/

namespace Sorting

open List

section Keys

variable {α κ : Type} [LinearOrder κ]

/-- The items in the order of their keys. -/
def sortBy (key : α → κ) (l : List α) : List α := l.insertionSort fun a b => key a ≤ key b

theorem sortBy_perm (key : α → κ) (l : List α) : (sortBy key l).Perm l := perm_insertionSort _ l

theorem pairwise_sortBy (key : α → κ) (l : List α) : (sortBy key l).Pairwise fun a b => key a ≤ key b := by
  have : Std.Total fun a b => key a ≤ key b := ⟨fun a b => le_total (key a) (key b)⟩
  have : IsTrans α fun a b => key a ≤ key b := ⟨fun _ _ _ => le_trans⟩
  exact pairwise_insertionSort _ l

end Keys

/-! ## Dropping the front of a sorted list -/

variable {α : Type} [LinearOrder α]

/-- The values in increasing order. -/
def sort (l : List α) : List α := l.mergeSort fun a b => a ≤ b

theorem sort_perm (l : List α) : (sort l).Perm l := mergeSort_perm l _

theorem length_sort (l : List α) : (sort l).length = l.length := (sort_perm l).length_eq

theorem pairwise_sort (l : List α) : (sort l).Pairwise (· ≤ ·) := by
  have h : (sort l).Pairwise fun a b => decide (a ≤ b) = true :=
    pairwise_mergeSort (by simpa using fun a b c => le_trans) (by simpa using fun a b => le_total a b) l
  exact h.imp fun hle => of_decide_eq_true hle

/-- There is one sorted list of the values. -/
theorem eq_sort_of_perm {l sorted : List α} (hperm : sorted.Perm l) (hsorted : sorted.Pairwise (· ≤ ·)) : sorted = sort l :=
  Perm.eq_of_pairwise (fun _ _ _ _ => le_antisymm) hsorted (pairwise_sort l) (hperm.trans (sort_perm l).symm)

theorem sort_of_pairwise {l : List α} (h : l.Pairwise (· ≤ ·)) : sort l = l := (eq_sort_of_perm (Perm.refl l) h).symm

theorem sort_append_of_le {front rest : List α} (h : ∀ a ∈ front, ∀ b ∈ rest, a ≤ b) : sort (front ++ rest) = sort front ++ sort rest := by
  refine (eq_sort_of_perm ((sort_perm front).append (sort_perm rest)) ?_).symm
  refine pairwise_append.mpr ⟨pairwise_sort front, pairwise_sort rest, fun a ha b hb => ?_⟩
  exact h a ((sort_perm front).mem_iff.mp ha) b ((sort_perm rest).mem_iff.mp hb)

/-- Dropping as many sorted values as the front has leaves the rest exactly when no value of the front is greater than one of the rest. -/
theorem drop_sort_perm_iff (front rest : List α) : ((sort (front ++ rest)).drop front.length).Perm rest ↔ ∀ a ∈ front, ∀ b ∈ rest, a ≤ b := by
  constructor
  · intro hperm a ha b hb
    -- what was dropped is then the front
    have hwhole := sort_perm (front ++ rest)
    rw [← take_append_drop front.length (sort (front ++ rest))] at hwhole
    have hfront : ((sort (front ++ rest)).take front.length).Perm front :=
      (perm_append_right_iff rest).mp ((hperm.append_left _).symm.trans hwhole)
    have hsorted := pairwise_sort (front ++ rest)
    rw [← take_append_drop front.length (sort (front ++ rest)), pairwise_append] at hsorted
    exact hsorted.2.2 a (hfront.mem_iff.mpr ha) b (hperm.mem_iff.mpr hb)
  · intro hle
    rw [sort_append_of_le hle, drop_left' (length_sort front)]
    exact sort_perm rest

end Sorting
