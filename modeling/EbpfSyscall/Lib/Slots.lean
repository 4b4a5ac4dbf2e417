import Mathlib

/-!
# Tables of slots that are searched one by one

A table of a fixed number of slots, each free or with a key and a value. An entry is found by going through the slots; a new key takes
the first free slot. As long as no key has two slots the table is a finite map, and a key finds a slot if the keys do not outnumber the
slots.
-/

namespace Slots

open Function Finset

/-- A table with `n` slots. -/
abbrev Table (n : Nat) (κ ν : Type) := Fin n → Option (κ × ν)

variable {n : Nat} {κ ν : Type} [DecidableEq κ]

/-- The first slot with the key. -/
def slotOf (t : Table n κ ν) (k : κ) : Option (Fin n) := (List.finRange n).find? fun i => (t i).any fun entry => entry.1 = k

/-- The first free slot. -/
def freeSlot (t : Table n κ ν) : Option (Fin n) := (List.finRange n).find? fun i => (t i).isNone

/-- The value of a key. -/
def get (t : Table n κ ν) (k : κ) : Option ν := (slotOf t k).bind fun i => (t i).map Prod.snd

/-- A value for a key, in its slot or in the first free one; there may be none. -/
def set (t : Table n κ ν) (k : κ) (v : ν) : Option (Table n κ ν) :=
  match slotOf t k with
  | some i => some (Function.update t i (some (k, v)))
  | none => (freeSlot t).map fun i => Function.update t i (some (k, v))

/-- The slot of a key is freed. -/
def clear (t : Table n κ ν) (k : κ) : Table n κ ν :=
  match slotOf t k with
  | some i => Function.update t i none
  | none => t

/-- No key has two slots. -/
def Unique (t : Table n κ ν) : Prop := ∀ i j k v w, t i = some (k, v) → t j = some (k, w) → i = j

variable {t : Table n κ ν} {k : κ}

theorem slotOf_eq_some {i : Fin n} (h : slotOf t k = some i) : ∃ v, t i = some (k, v) := by
  have hfound := List.find?_some h
  cases hi : t i with
  | none =>
    rw [hi] at hfound
    cases hfound
  | some entry =>
    rw [hi] at hfound
    exact ⟨entry.2, by rw [← of_decide_eq_true hfound]⟩

theorem slotOf_eq_none (h : slotOf t k = none) (i : Fin n) (v : ν) : t i ≠ some (k, v) := by
  intro hi
  have hnone := List.find?_eq_none.mp h i (List.mem_finRange i)
  rw [hi] at hnone
  simp at hnone

/-- The value of a key is the one in its slot. -/
theorem get_eq_some (hunique : Unique t) {v : ν} : get t k = some v ↔ ∃ i, t i = some (k, v) := by
  rw [get, Option.bind_eq_some_iff]
  constructor
  · rintro ⟨i, hslot, hvalue⟩
    obtain ⟨w, hi⟩ := slotOf_eq_some hslot
    rw [hi] at hvalue
    cases hvalue
    exact ⟨i, hi⟩
  · rintro ⟨i, hi⟩
    cases hslot : slotOf t k with
    | none => exact absurd hi (slotOf_eq_none hslot i v)
    | some j =>
      obtain ⟨w, hj⟩ := slotOf_eq_some hslot
      obtain rfl := hunique i j k v w hi hj
      exact ⟨i, rfl, by rw [hi]; rfl⟩

theorem get_eq_none (hunique : Unique t) : get t k = none ↔ ∀ i v, t i ≠ some (k, v) := by
  rw [Option.eq_none_iff_forall_ne_some]
  constructor
  · intro h i v hi
    exact h v ((get_eq_some hunique).mpr ⟨i, hi⟩)
  · intro h v hv
    obtain ⟨i, hi⟩ := (get_eq_some hunique).mp hv
    exact h i v hi

/-- A key and a value in a slot that is free or has the key, when no other slot has it. -/
theorem update_spec (hunique : Unique t) {i : Fin n} (v : ν) (hslot : ∀ l w, t i = some (l, w) → l = k) (hother : ∀ j w, t j = some (k, w) → j = i) :
    Unique (Function.update t i (some (k, v))) ∧
      ∀ l, get (Function.update t i (some (k, v))) l = if l = k then some v else get t l := by
  have hnew : Unique (update t i (some (k, v))) := by
    intro a b l x y ha hb
    by_cases hai : a = i
    · by_cases hbi : b = i
      · rw [hai, hbi]
      · rw [hai, update_self] at ha
        rw [update_of_ne hbi] at hb
        cases ha
        exact absurd (hother b y hb) hbi
    · rw [update_of_ne hai] at ha
      by_cases hbi : b = i
      · rw [hbi, update_self] at hb
        cases hb
        exact absurd (hother a x ha) hai
      · rw [update_of_ne hbi] at hb
        exact hunique a b l x y ha hb
  refine ⟨hnew, fun l => ?_⟩
  by_cases hl : l = k
  · subst hl
    rw [if_pos rfl]
    exact (get_eq_some hnew).mpr ⟨i, update_self _ _ _⟩
  · rw [if_neg hl]
    refine Option.ext fun w => ?_
    rw [get_eq_some hnew, get_eq_some hunique]
    constructor
    · rintro ⟨j, hj⟩
      by_cases hji : j = i
      · rw [hji, update_self] at hj
        cases hj
        exact absurd rfl hl
      · rw [update_of_ne hji] at hj
        exact ⟨j, hj⟩
    · rintro ⟨j, hj⟩
      refine ⟨j, ?_⟩
      rw [update_of_ne]
      · exact hj
      · rintro rfl
        exact hl (hslot l w hj)

theorem set_spec (hunique : Unique t) {v : ν} {t' : Table n κ ν} (h : set t k v = some t') :
    Unique t' ∧ ∀ l, get t' l = if l = k then some v else get t l := by
  unfold set at h
  cases hslot : slotOf t k with
  | some i =>
    rw [hslot] at h
    cases h
    obtain ⟨w, hi⟩ := slotOf_eq_some hslot
    refine update_spec hunique v (fun l x hx => ?_) (fun j x hj => hunique j i k x w hj hi)
    rw [hi] at hx
    cases hx
    rfl
  | none =>
    rw [hslot] at h
    obtain ⟨i, hfree, rfl⟩ := Option.map_eq_some_iff.mp h
    have hnone := List.find?_some hfree
    refine update_spec hunique v (fun l x hx => ?_) (fun j x hj => absurd hj (slotOf_eq_none hslot j x))
    rw [hx] at hnone
    cases hnone

theorem clear_spec (hunique : Unique t) (k : κ) : Unique (clear t k) ∧ ∀ l, get (clear t k) l = if l = k then none else get t l := by
  unfold clear
  cases hslot : slotOf t k with
  | none =>
    refine ⟨hunique, fun l => ?_⟩
    by_cases hl : l = k
    · subst hl
      rw [if_pos rfl]
      exact (get_eq_none hunique).mpr (slotOf_eq_none hslot)
    · rw [if_neg hl]
  | some i =>
    obtain ⟨w, hi⟩ := slotOf_eq_some hslot
    have hnew : Unique (update t i none) := by
      intro a b l x y ha hb
      have hai : a ≠ i := by
        rintro rfl
        rw [update_self] at ha
        cases ha
      have hbi : b ≠ i := by
        rintro rfl
        rw [update_self] at hb
        cases hb
      rw [update_of_ne hai] at ha
      rw [update_of_ne hbi] at hb
      exact hunique a b l x y ha hb
    refine ⟨hnew, fun l => Option.ext fun x => ?_⟩
    by_cases hl : l = k
    · subst hl
      rw [if_pos rfl, get_eq_some hnew]
      constructor
      · rintro ⟨j, hj⟩
        by_cases hji : j = i
        · rw [hji, update_self] at hj
          cases hj
        · rw [update_of_ne hji] at hj
          exact absurd (hunique j i l x w hj hi) hji
      · intro hx
        cases hx
    · rw [if_neg hl, get_eq_some hnew, get_eq_some hunique]
      constructor
      · rintro ⟨j, hj⟩
        by_cases hji : j = i
        · rw [hji, update_self] at hj
          cases hj
        · rw [update_of_ne hji] at hj
          exact ⟨j, hj⟩
      · rintro ⟨j, hj⟩
        refine ⟨j, ?_⟩
        rw [update_of_ne]
        · exact hj
        · rintro rfl
          rw [hi] at hj
          cases hj
          exact absurd rfl hl

/-- If the keys of the table and the new key do not outnumber the slots, the new key finds one. -/
theorem exists_set (hunique : Unique t) (k : κ) (v : ν) (keys : Finset κ) (hkeys : ∀ l w, get t l = some w → l ∈ keys) (hk : k ∈ keys)
    (hcard : keys.card ≤ n) : ∃ t', set t k v = some t' := by
  unfold set
  cases hslot : slotOf t k with
  | some i => exact ⟨_, rfl⟩
  | none =>
    cases hfree : freeSlot t with
    | some i => exact ⟨_, rfl⟩
    | none =>
      -- Every slot has a key of its own, and none has the new one.
      have hfull : ∀ i, ∃ entry : κ × ν, t i = some entry := by
        intro i
        have hnone := List.find?_eq_none.mp hfree i (List.mem_finRange i)
        exact Option.ne_none_iff_exists'.mp (by simpa using hnone)
      choose entry hentry using hfull
      have hinj : Set.InjOn (fun i => (entry i).1) (univ : Finset (Fin n)) := by
        intro i _ j _ heq
        refine hunique i j (entry i).1 (entry i).2 (entry j).2 (hentry i) ?_
        rw [hentry j]
        exact congrArg some (Prod.ext heq.symm rfl)
      have hmaps : ∀ i ∈ (univ : Finset (Fin n)), (entry i).1 ∈ keys.erase k := by
        intro i _
        refine mem_erase.mpr ⟨fun heq => ?_, hkeys _ (entry i).2 ((get_eq_some hunique).mpr ⟨i, hentry i⟩)⟩
        exact slotOf_eq_none hslot i (entry i).2 (by rw [← heq]; exact hentry i)
      have hle := card_le_card_of_injOn _ hmaps hinj
      rw [card_univ, Fintype.card_fin, card_erase_of_mem hk] at hle
      have hpos := card_pos.mpr ⟨k, hk⟩
      omega

-- Comparing two tables must not start a search through all slots.
attribute [irreducible] slotOf freeSlot

end Slots
