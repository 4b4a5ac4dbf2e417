import Mathlib

/-!
# Orders that respect prerequisites

A list of items in which every item comes after its prerequisites. As long as not every item of such a list is done, one of those
that are left has all of its prerequisites done; and items that form a chain of prerequisites stand in the same order in every such
list.
-/

namespace Precedence

open List

variable {ι : Type} {deps : ι → List ι} {order : List ι}

/-- Every item of the list comes after its prerequisites. -/
def Respects (deps : ι → List ι) (order : List ι) : Prop :=
  ∀ before i after, order = before ++ i :: after → ∀ d ∈ deps i, d ∈ before

theorem respects_nil : Respects deps [] := by
  intro before i after h
  simp at h

theorem respects_concat {i : ι} : Respects deps (order ++ [i]) ↔ Respects deps order ∧ ∀ d ∈ deps i, d ∈ order := by
  constructor
  · intro h
    refine ⟨fun before j after heq d hd => h before j (after ++ [i]) (by simp [heq]) d hd, h order i [] rfl⟩
  · rintro ⟨h, hi⟩ before j after heq d hd
    rcases eq_nil_or_concat after with rfl | ⟨front, last, rfl⟩
    · obtain ⟨rfl, hij⟩ := append_inj' heq rfl
      obtain rfl : i = j := by simpa using hij
      exact hi d hd
    · have hsplit : order ++ [i] = (before ++ j :: front) ++ [last] := by simpa using heq
      obtain ⟨rfl, -⟩ := append_inj' hsplit rfl
      exact h before j front rfl d hd

/-- As long as not every item is done, one that is left has its prerequisites done. -/
theorem Respects.exists_ready (h : Respects deps order) {p : ι → Prop} (hleft : ∃ i ∈ order, ¬p i) : ∃ i ∈ order, ¬p i ∧ ∀ d ∈ deps i, p d := by
  induction order using reverseRecOn with
  | nil => simp at hleft
  | append_singleton order i ih =>
    obtain ⟨horder, hi⟩ := respects_concat.mp h
    by_cases hearlier : ∃ j ∈ order, ¬p j
    · obtain ⟨j, hj, hready⟩ := ih horder hearlier
      exact ⟨j, by simp [hj], hready⟩
    · push Not at hearlier
      obtain ⟨j, hj, hnot⟩ := hleft
      rcases mem_append.mp hj with hj | hj
      · exact absurd (hearlier j hj) hnot
      · obtain rfl : j = i := by simpa using hj
        exact ⟨j, by simp, hnot, fun d hd => hearlier d (hi d hd)⟩

variable [DecidableEq ι]

/-- A prerequisite stands before the item. -/
theorem Respects.idxOf_lt (h : Respects deps order) (hnodup : order.Nodup) {i d : ι} (hi : i ∈ order)
    (hd : d ∈ deps i) : order.idxOf d < order.idxOf i := by
  obtain ⟨before, after, rfl⟩ := append_of_mem hi
  have hbefore := h before i after rfl d hd
  have hnot : i ∉ before := by
    intro hin
    exact (disjoint_of_nodup_append hnodup) hin (by simp)
  rw [idxOf_append_of_mem hbefore, idxOf_append_of_notMem hnot, idxOf_cons_self]
  exact Nat.lt_add_right 0 (idxOf_lt_length_of_mem hbefore)

theorem pairwise_idxOf (hnodup : order.Nodup) : order.Pairwise (fun a b => order.idxOf a < order.idxOf b) := by
  rw [pairwise_iff_getElem]
  intro i j hi hj hij
  rw [hnodup.idxOf_getElem i hi, hnodup.idxOf_getElem j hj]
  exact hij

/-- Items that form a chain of prerequisites stand in the order of the chain in every list that respects the prerequisites. -/
theorem Respects.filter_eq_of_chain {chain : List ι} (h : Respects deps order) (hnodup : order.Nodup) {p : ι → Bool}
    (hperm : chain.Perm (order.filter p)) (hchain : chain.IsChain (fun a b => a ∈ deps b)) : order.filter p = chain := by
  have hmem : ∀ i ∈ chain, i ∈ order := fun i hi => (mem_filter.mp (hperm.mem_iff.mp hi)).1
  have hsorted : chain.Pairwise (fun a b => order.idxOf a < order.idxOf b) := by
    refine isChain_iff_pairwise.mp ?_
    exact hchain.imp_of_mem_imp fun a b _ hb hab => h.idxOf_lt hnodup (hmem b hb) hab
  have hfiltered := (pairwise_idxOf hnodup).filter p
  refine hperm.symm.eq_of_pairwise (fun a b _ _ hab hba => absurd hab (by omega)) hfiltered hsorted

end Precedence
