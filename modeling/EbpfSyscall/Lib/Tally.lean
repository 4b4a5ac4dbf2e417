import Mathlib

/-!
# Counting the members of a family

How many members of a finite family pass a test, what a change of one member does to the count, and what equal counts say.
-/

namespace Tally

open Finset

variable {ι α : Type} [Fintype ι] {p q : α → Bool} {f : ι → α}

/-- The number of members that pass the test. -/
def tally (p : α → Bool) (f : ι → α) : Nat := (Finset.univ.filter fun i => p (f i) = true).card

theorem tally_eq_sum (p : α → Bool) (f : ι → α) : tally p f = ∑ i, (p (f i)).toNat := by
  rw [tally, card_filter]
  refine sum_congr rfl fun i _ => ?_
  cases p (f i) <;> rfl

/-- One member changes. -/
theorem tally_update [DecidableEq ι] (p : α → Bool) (f : ι → α) (i : ι) (a : α) :
    tally p (Function.update f i a) + (p (f i)).toNat = tally p f + (p a).toNat := by
  have hrest : ∑ j ∈ univ.erase i, (p (Function.update f i a j)).toNat = ∑ j ∈ univ.erase i, (p (f j)).toNat := by
    refine sum_congr rfl fun j hj => ?_
    rw [Function.update_of_ne (ne_of_mem_erase hj)]
  rw [tally_eq_sum, tally_eq_sum, ← add_sum_erase _ _ (mem_univ i), hrest, Function.update_self,
    ← add_sum_erase _ (fun j => (p (f j)).toNat) (mem_univ i)]
  omega

theorem tally_le (h : ∀ a, p a = true → q a = true) : tally p f ≤ tally q f :=
  card_le_card fun i hi => by
    rw [mem_filter] at hi ⊢
    exact ⟨hi.1, h _ hi.2⟩

/-- A test that implies another and is passed by as many members is passed by the same. -/
theorem of_tally_le (h : ∀ a, p a = true → q a = true) (hle : tally q f ≤ tally p f) {i : ι} (hi : q (f i) = true) : p (f i) = true := by
  have hsub : (univ.filter fun i => p (f i) = true) ⊆ univ.filter fun i => q (f i) = true := by
    intro j hj
    rw [mem_filter] at hj ⊢
    exact ⟨hj.1, h _ hj.2⟩
  have heq := eq_of_subset_of_card_le hsub hle
  have hmem : i ∈ univ.filter fun i => q (f i) = true := mem_filter.mpr ⟨mem_univ i, hi⟩
  rw [← heq] at hmem
  exact (mem_filter.mp hmem).2

theorem tally_eq_zero (h : ∀ i, p (f i) = false) : tally p f = 0 := by
  rw [tally, card_eq_zero, filter_eq_empty_iff]
  intro i _
  simp [h i]

theorem tally_eq_card (h : ∀ i, p (f i) = true) : tally p f = Fintype.card ι := by
  rw [tally, filter_true_of_mem fun i _ => h i, card_univ]

end Tally
