import EbpfSyscall.Lib.Lanes
import EbpfSyscall.Perfetto.Helpers

/-!
# The lanes of a track

`assign_lanes` packs the spans in the order in which they begin, and so needs no more lanes than there are spans around some point.
-/

namespace EbpfSyscall.Perfetto

open Lanes List

variable {τ ι : Type} [LinearOrder τ]

namespace LanesAux

theorem pairwise_sortedSpans (spans : List (Span τ ι)) : (sortedSpans spans).Pairwise fun a b => a.beginTs ≤ b.beginTs := by
  refine (Sorting.pairwise_sortBy _ spans).imp fun h => ?_
  rcases Prod.Lex.toLex_le_toLex.mp h with hlt | ⟨heq, _⟩
  · exact hlt.le
  · exact heq.le

/-- The spans that have been placed, packed on their lanes. -/
structure Placed (s : LaneState τ ι) (placed : List (Nat × Span τ ι)) : Prop where
  packed : Packed Span.beginTs Span.endTs placed s.laneFree
  out : s.out = placed.map fun p => (p.1, p.2.item)

theorem Placed.step {s : LaneState τ ι} {placed : List (Nat × Span τ ι)} (h : Placed s placed) {span : Span τ ι}
    (hspan : span.beginTs ≤ span.endTs) (hsorted : ∀ p ∈ placed, p.2.beginTs ≤ span.beginTs) :
    ∃ lane, Placed (laneStep s span) (placed ++ [(lane, span)]) := by
  unfold laneStep
  cases hfind : s.laneFree.findIdx? fun freeAt => freeAt < span.beginTs with
  | some i =>
    obtain ⟨hi, hfree, _⟩ := findIdx?_eq_some_iff_getElem.mp hfind
    refine ⟨i, h.packed.reuse hspan (getElem?_eq_getElem hi) (of_decide_eq_true hfree), ?_⟩
    rw [h.out, map_append]
    rfl
  | none =>
    have hbusy : ∀ last ∈ s.laneFree, span.beginTs ≤ last := fun last hlast => by
      have hnot := findIdx?_eq_none_iff.mp hfind last hlast
      exact not_lt.mp (of_decide_eq_false hnot)
    refine ⟨s.laneFree.length, h.packed.opened hspan hbusy hsorted, ?_⟩
    rw [h.out, map_append]
    rfl

theorem Placed.foldl {s : LaneState τ ι} {placed : List (Nat × Span τ ι)} (h : Placed s placed) {spans : List (Span τ ι)}
    (hspans : ∀ span ∈ spans, span.beginTs ≤ span.endTs) (hsorted : (placed.map Prod.snd ++ spans).Pairwise fun a b => a.beginTs ≤ b.beginTs) :
    ∃ all, Placed (spans.foldl laneStep s) all ∧ all.map Prod.snd = placed.map Prod.snd ++ spans := by
  induction spans generalizing s placed with
  | nil => exact ⟨placed, h, (append_nil _).symm⟩
  | cons span rest ih =>
    have hbefore : ∀ p ∈ placed, p.2.beginTs ≤ span.beginTs := fun p hp =>
      (pairwise_append.mp hsorted).2.2 p.2 (mem_map_of_mem hp) span mem_cons_self
    obtain ⟨lane, hstep⟩ := h.step (hspans span mem_cons_self) hbefore
    have hmap : (placed ++ [(lane, span)]).map Prod.snd ++ rest = placed.map Prod.snd ++ span :: rest := by
      rw [map_append, append_assoc]
      rfl
    obtain ⟨all, hall, hsnd⟩ := ih hstep (fun other hother => hspans other (mem_cons_of_mem _ hother)) (hmap ▸ hsorted)
    exact ⟨all, hall, hsnd.trans hmap⟩

end LanesAux

open LanesAux

/-- Every span is placed on one lane; spans on one lane share no point; and the number of lanes is the largest number of spans around a point,
and the smallest number of lanes of any such placement. -/
theorem assignLanes_optimal [Inhabited τ] (spans : List (Span τ ι)) (hspans : ∀ span ∈ spans, span.beginTs ≤ span.endTs) :
    ∃ placed, (assignLanes spans).1 = placed.map (fun p => (p.1, p.2.item)) ∧ IsPlacement Span.beginTs Span.endTs spans placed ∧
      lanesUsed placed = (assignLanes spans).2 ∧
      IsGreatest (Set.range (depth Span.beginTs Span.endTs spans)) (assignLanes spans).2 ∧
      IsLeast {n | ∃ other, IsPlacement Span.beginTs Span.endTs spans other ∧ lanesUsed other = n} (assignLanes spans).2 := by
  have hstart : Placed (⟨[], []⟩ : LaneState τ ι) [] := ⟨packed_nil, rfl⟩
  have hperm : (sortedSpans spans).Perm spans := Sorting.sortBy_perm _ spans
  obtain ⟨placed, hplaced, hsnd⟩ := hstart.foldl (fun span hspan => hspans span (hperm.mem_iff.mp hspan)) (pairwise_sortedSpans spans)
  have hpermPlaced : (placed.map Prod.snd).Perm spans := hsnd ▸ hperm
  exact ⟨placed, hplaced.out, ⟨hpermPlaced, hplaced.packed.proper⟩, hplaced.packed.lanesUsed_eq, hplaced.packed.isGreatest hpermPlaced,
    hplaced.packed.isLeast hpermPlaced⟩

/-- Two spans that touch, and one that begins after the first has ended. -/
def touchingSpans : List (Span Int String) := [⟨5, 9, "b"⟩, ⟨0, 5, "a"⟩, ⟨6, 7, "c"⟩]

theorem assignLanes_optimal_touching : assignLanes touchingSpans = ([(0, "a"), (1, "b"), (0, "c")], 2) ∧
    ∃ placed, (assignLanes touchingSpans).1 = placed.map (fun p => (p.1, p.2.item)) ∧
      IsPlacement Span.beginTs Span.endTs touchingSpans placed ∧ lanesUsed placed = (assignLanes touchingSpans).2 ∧
      IsGreatest (Set.range (depth Span.beginTs Span.endTs touchingSpans)) (assignLanes touchingSpans).2 ∧
      IsLeast {n | ∃ other, IsPlacement Span.beginTs Span.endTs touchingSpans other ∧ lanesUsed other = n} (assignLanes touchingSpans).2 :=
  ⟨by decide +kernel, assignLanes_optimal touchingSpans (by decide)⟩

end EbpfSyscall.Perfetto
