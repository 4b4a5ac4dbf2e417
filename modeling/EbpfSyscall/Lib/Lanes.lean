import Mathlib

/-!
# Intervals on lanes

Closed intervals of a linear order are put on numbered lanes, so that two on one lane share no point. The intervals around a point are on
different lanes, so there are at least as many lanes as intervals around any point. Intervals that come in the order of their lower ends can be
packed one by one: a new lane is opened only when the last interval of every lane reaches the lower end. Then all these intervals are around that
point, and no placement has fewer lanes.
-/

namespace Lanes

variable {τ α : Type} [LinearOrder τ] (lo hi : α → τ)

/-- The number of intervals around a point. -/
def depth (l : List α) (t : τ) : Nat := l.countP fun a => lo a ≤ t ∧ t ≤ hi a

/-- Two intervals share no point. -/
def Apart (a b : α) : Prop := ∀ t, ¬((lo a ≤ t ∧ t ≤ hi a) ∧ lo b ≤ t ∧ t ≤ hi b)

/-- Intervals on one lane share no point. -/
def Proper (placed : List (Nat × α)) : Prop := placed.Pairwise fun p q => p.1 = q.1 → Apart lo hi p.2 q.2

/-- The number of lanes that are used. -/
def lanesUsed (placed : List (Nat × α)) : Nat := (placed.map Prod.fst).toFinset.card

/-- A placement of intervals, in any order. -/
structure IsPlacement (l : List α) (placed : List (Nat × α)) : Prop where
  perm : (placed.map Prod.snd).Perm l
  proper : Proper lo hi placed

variable {lo hi} {placed : List (Nat × α)} {l : List α}

theorem depth_perm {l' : List α} (h : l.Perm l') (t : τ) : depth lo hi l t = depth lo hi l' t := h.countP_eq _

/-- The intervals around a point, with their lanes. -/
def around (lo hi : α → τ) (placed : List (Nat × α)) (t : τ) : List (Nat × α) := placed.filter fun p => lo p.2 ≤ t ∧ t ≤ hi p.2

theorem mem_around {p : Nat × α} {t : τ} : p ∈ around lo hi placed t ↔ p ∈ placed ∧ lo p.2 ≤ t ∧ t ≤ hi p.2 := by
  rw [around, List.mem_filter, decide_eq_true_iff]

theorem length_around (t : τ) : (around lo hi placed t).length = depth lo hi (placed.map Prod.snd) t := by
  rw [around, depth, List.countP_map, List.countP_eq_length_filter]
  rfl

/-- The intervals around a point are on different lanes. -/
theorem depth_le_lanesUsed (h : Proper lo hi placed) (t : τ) : depth lo hi (placed.map Prod.snd) t ≤ lanesUsed placed := by
  have hlanes : ((around lo hi placed t).map Prod.fst).Nodup := by
    refine List.pairwise_map.mpr ((h.sublist List.filter_sublist).imp_of_mem ?_)
    intro p q hp hq happart heq
    exact happart heq t ⟨(mem_around.mp hp).2, (mem_around.mp hq).2⟩
  calc depth lo hi (placed.map Prod.snd) t
      = ((around lo hi placed t).map Prod.fst).length := by rw [List.length_map, length_around]
    _ = ((around lo hi placed t).map Prod.fst).toFinset.card := (List.toFinset_card_of_nodup hlanes).symm
    _ ≤ lanesUsed placed := by
      refine Finset.card_le_card fun lane hlane => ?_
      rw [List.mem_toFinset, List.mem_map] at hlane ⊢
      obtain ⟨p, hp, hlane⟩ := hlane
      exact ⟨p, (mem_around.mp hp).1, hlane⟩

/-- Intervals packed on lanes, with the upper end of the last one on each lane. -/
structure Packed (lo hi : α → τ) (placed : List (Nat × α)) (ends : List τ) : Prop where
  proper : Proper lo hi placed
  lane : ∀ p ∈ placed, ∃ last, ends[p.1]? = some last ∧ hi p.2 ≤ last
  last : ∀ i last, ends[i]? = some last → ∃ p ∈ placed, p.1 = i ∧ hi p.2 = last
  full : ends = [] ∨ ∃ t, ends.length ≤ depth lo hi (placed.map Prod.snd) t

theorem packed_nil : Packed lo hi [] [] := ⟨List.Pairwise.nil, nofun, nofun, Or.inl rfl⟩

variable {ends : List τ} {a : α}

theorem Proper.concat (h : Proper lo hi placed) {i : Nat} (hlane : ∀ p ∈ placed, p.1 = i → hi p.2 < lo a) : Proper lo hi (placed ++ [(i, a)]) := by
  refine List.pairwise_append.mpr ⟨h, List.pairwise_singleton _ _, fun p hp q hq heq t hshared => ?_⟩
  rw [List.mem_singleton] at hq
  subst hq
  exact absurd ((hshared.1.2.trans_lt (hlane p hp heq)).trans_le hshared.2.1) (lt_irrefl t)

/-- An interval goes on a lane whose last interval ends before it. -/
theorem Packed.reuse (h : Packed lo hi placed ends) (hle : lo a ≤ hi a) {i : Nat} {last : τ} (hlast : ends[i]? = some last)
    (hbefore : last < lo a) : Packed lo hi (placed ++ [(i, a)]) (ends.set i (hi a)) := by
  have hi' : i < ends.length := (List.getElem?_eq_some_iff.mp hlast).1
  have hself : (ends.set i (hi a))[i]? = some (hi a) := List.getElem?_set_self hi'
  refine ⟨h.proper.concat ?_, ?_, ?_, ?_⟩
  · intro p hp heq
    obtain ⟨last', hlast', hle'⟩ := h.lane p hp
    rw [heq, hlast, Option.some.injEq] at hlast'
    exact hle'.trans_lt (hlast' ▸ hbefore)
  · intro p hp
    rcases List.mem_append.mp hp with hold | hnew
    · obtain ⟨last', hlast', hle'⟩ := h.lane p hold
      by_cases heq : p.1 = i
      · rw [heq, hlast, Option.some.injEq] at hlast'
        subst hlast'
        exact ⟨hi a, heq ▸ hself, (hle'.trans hbefore.le).trans hle⟩
      · exact ⟨last', by rw [List.getElem?_set_ne (Ne.symm heq), hlast'], hle'⟩
    · rw [List.mem_singleton] at hnew
      subst hnew
      exact ⟨hi a, hself, le_refl _⟩
  · intro j last' hlast'
    by_cases heq : j = i
    · subst heq
      rw [hself, Option.some.injEq] at hlast'
      exact ⟨(j, a), List.mem_append_right _ List.mem_cons_self, rfl, hlast'⟩
    · rw [List.getElem?_set_ne (Ne.symm heq)] at hlast'
      obtain ⟨p, hp, hlane⟩ := h.last j last' hlast'
      exact ⟨p, List.mem_append_left _ hp, hlane⟩
  · right
    obtain ⟨t, ht⟩ := h.full.resolve_left (List.ne_nil_of_length_pos (Nat.zero_lt_of_lt hi'))
    refine ⟨t, ?_⟩
    rw [List.length_set, depth, List.map_append, List.countP_append]
    exact ht.trans (Nat.le_add_right _ _)

/-- An interval opens a lane when the last interval of every lane reaches its lower end. -/
theorem Packed.opened (h : Packed lo hi placed ends) (hle : lo a ≤ hi a) (hbusy : ∀ last ∈ ends, lo a ≤ last)
    (hsorted : ∀ p ∈ placed, lo p.2 ≤ lo a) : Packed lo hi (placed ++ [(ends.length, a)]) (ends ++ [hi a]) := by
  have hself : (ends ++ [hi a])[ends.length]? = some (hi a) := List.getElem?_concat_length
  refine ⟨h.proper.concat ?_, ?_, ?_, ?_⟩
  · intro p hp heq
    obtain ⟨last, hlast, _⟩ := h.lane p hp
    rw [heq, List.getElem?_eq_none (le_refl _)] at hlast
    nomatch hlast
  · intro p hp
    rcases List.mem_append.mp hp with hold | hnew
    · obtain ⟨last, hlast, hle'⟩ := h.lane p hold
      exact ⟨last, by rw [List.getElem?_append_left (List.getElem?_eq_some_iff.mp hlast).1, hlast], hle'⟩
    · rw [List.mem_singleton] at hnew
      subst hnew
      exact ⟨hi a, hself, le_refl _⟩
  · intro j last hlast
    rcases lt_or_ge j ends.length with hlt | hge
    · rw [List.getElem?_append_left hlt] at hlast
      obtain ⟨p, hp, hlane⟩ := h.last j last hlast
      exact ⟨p, List.mem_append_left _ hp, hlane⟩
    · have hj : j < (ends ++ [hi a]).length := (List.getElem?_eq_some_iff.mp hlast).1
      obtain rfl : j = ends.length := by
        rw [List.length_append, List.length_singleton] at hj
        omega
      rw [hself, Option.some.injEq] at hlast
      exact ⟨(ends.length, a), List.mem_append_right _ List.mem_cons_self, rfl, hlast⟩
  · -- the last intervals of all lanes are around the lower end, and so is the new one
    right
    refine ⟨lo a, ?_⟩
    have hlanes : Finset.range ends.length ⊆ ((around lo hi placed (lo a)).map Prod.fst).toFinset := by
      intro i hlt
      obtain ⟨last, hlast⟩ : ∃ last, ends[i]? = some last := ⟨_, List.getElem?_eq_getElem (Finset.mem_range.mp hlt)⟩
      obtain ⟨p, hp, hlane, hlastp⟩ := h.last i last hlast
      rw [List.mem_toFinset, List.mem_map]
      exact ⟨p, mem_around.mpr ⟨hp, hsorted p hp, hlastp ▸ hbusy last (List.mem_of_getElem? hlast)⟩, hlane⟩
    have hcard : ends.length ≤ depth lo hi (placed.map Prod.snd) (lo a) := by
      calc ends.length = (Finset.range ends.length).card := (Finset.card_range _).symm
        _ ≤ ((around lo hi placed (lo a)).map Prod.fst).toFinset.card := Finset.card_le_card hlanes
        _ ≤ ((around lo hi placed (lo a)).map Prod.fst).length := List.toFinset_card_le _
        _ = depth lo hi (placed.map Prod.snd) (lo a) := by rw [List.length_map, length_around]
    have hnew : depth lo hi [a] (lo a) = 1 := by
      simp [depth, hle]
    rw [depth, List.map_append, List.countP_append, List.length_append]
    exact Nat.add_le_add hcard hnew.ge

theorem Packed.lanesUsed_eq (h : Packed lo hi placed ends) : lanesUsed placed = ends.length := by
  have heq : (placed.map Prod.fst).toFinset = Finset.range ends.length := by
    ext i
    rw [List.mem_toFinset, List.mem_map, Finset.mem_range]
    constructor
    · rintro ⟨p, hp, rfl⟩
      obtain ⟨last, hlast, _⟩ := h.lane p hp
      exact (List.getElem?_eq_some_iff.mp hlast).1
    · intro hlt
      obtain ⟨p, hp, hlane, _⟩ := h.last i _ (List.getElem?_eq_getElem hlt)
      exact ⟨p, hp, hlane⟩
  rw [lanesUsed, heq, Finset.card_range]

/-- There are as many lanes as intervals around some point. -/
theorem Packed.isGreatest [Inhabited τ] (h : Packed lo hi placed ends) (hperm : (placed.map Prod.snd).Perm l) :
    IsGreatest (Set.range (depth lo hi l)) ends.length := by
  have hle : ∀ t, depth lo hi l t ≤ ends.length := fun t => by
    rw [← depth_perm hperm, ← h.lanesUsed_eq]
    exact depth_le_lanesUsed h.proper t
  refine ⟨?_, ?_⟩
  · rcases h.full with hnil | ⟨t, ht⟩
    · exact ⟨default, Nat.le_antisymm (hle default) (by rw [hnil]; exact Nat.zero_le _)⟩
    · exact ⟨t, Nat.le_antisymm (hle t) (by rwa [← depth_perm hperm])⟩
  · rintro n ⟨t, rfl⟩
    exact hle t

/-- No placement uses fewer lanes. -/
theorem Packed.isLeast [Inhabited τ] (h : Packed lo hi placed ends) (hperm : (placed.map Prod.snd).Perm l) :
    IsLeast {n | ∃ other, IsPlacement lo hi l other ∧ lanesUsed other = n} ends.length := by
  refine ⟨⟨placed, ⟨hperm, h.proper⟩, h.lanesUsed_eq⟩, ?_⟩
  rintro n ⟨other, hother, rfl⟩
  obtain ⟨t, ht⟩ := (h.isGreatest hperm).1
  rw [← ht, ← depth_perm hother.perm]
  exact depth_le_lanesUsed hother.proper t

end Lanes
