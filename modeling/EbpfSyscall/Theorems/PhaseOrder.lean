import EbpfSyscall.Lemmas.Intent1
import EbpfSyscall.Theorems.Simulated

/-!
# The order of generated workloads

Carrying a v1 record into the v2 form keeps its partial order exactly, and the v2 record can be replayed: everything is stored before
it is loaded.
-/

namespace EbpfSyscall.Kvio

open Checked Intent1 Intent1Aux

/-- A valid v1 record is normalized, operation by operation. One operation is an ancestor of another in the v2 form exactly when it is
before it in the order of the v1 record, and every run on an empty target with no injected failures gives every operation its payload. -/
theorem normalizeV1_ordered {intent : Intent1} (hvalid : validateIntent intent = .ok ()) : ∃ v2, normalizeV1 intent = .ok v2 ∧
      v2.operations.map (fun operation => (operation.opId, operation.op, operation.objectId)) =
        intent.operations.map (fun operation => (opId operation.sequence, operation.phase, operation.logicalObject)) ∧
      (∀ a ∈ intent.operations, ∀ b ∈ intent.operations, v2.Ancestor (opId a.sequence) (opId b.sequence) ↔ Intent1.Before a b) ∧
      ∀ (H : ContentHost) (backend : FakeBackend) (settings : Settings) (fuel : Nat), (∀ opId, backend.fail opId = none) →
        settings.profile ≠ .offered → 8 * intent.operations.length + 4 ≤ fuel →
        ∃ last, simulateIntent2 H v2 backend settings fuel = .ok (some last) ∧
          ∀ operation ∈ intent.operations, (last.board.rows (opId operation.sequence)).outcome =
            some ⟨.success, operation.payloadBytes.toNat, []⟩ := by
  obtain ⟨s, c, r, objects, hshape, hoperations, hobjects, hvalid', hnormalize⟩ := normalizeV1_eq hvalid
  have hplace : ∀ {operation}, operation ∈ intent.operations →
      ∃ q < intent.operations.length, operation = canonical intent s c r q := by
    intro operation hmem
    rw [hoperations] at hmem
    obtain ⟨q, hq, rfl⟩ := List.mem_map.mp hmem
    exact ⟨q, List.mem_range.mp hq, rfl⟩
  refine ⟨result intent s c r objects, hnormalize, ?_, ?_, ?_⟩
  · conv_rhs => rw [hoperations]
    rw [operations_result, List.map_map, List.map_map]
    rfl
  · intro a ha b hb
    obtain ⟨p, -, rfl⟩ := hplace ha
    obtain ⟨q, hq, rfl⟩ := hplace hb
    rw [before_canonical, ← ancestor_iff hshape]
    exact ancestor_result hshape hq
  · intro H backend settings fuel hfail hprofile hfuel
    have hfuel' : 8 * (result intent s c r objects).operations.length + 4 ≤ fuel := by
      rw [operations_result, List.length_map, List.length_range]
      exact hfuel
    obtain ⟨last, hrun, -, houtcomes⟩ := simulateIntent2_sequential H backend settings hvalid' (linked_result hshape)
      (fun hoffered => hprofile hoffered.1) hfuel'
    refine ⟨last, hrun, fun operation hmem => ?_⟩
    obtain ⟨q, hq, rfl⟩ := hplace hmem
    have houtcome := houtcomes (carried intent s c r q) (List.mem_map.mpr ⟨q, List.mem_range.mpr hq, rfl⟩)
    exact houtcome.trans (result_carried hshape hvalid' hobjects hfail settings.cancelledSkip hq)

/-- One pass of two streams with one object each. -/
def sampleIntent1 : Intent1 where
  name := "model".toList
  dtype := "bf16".toList
  chunkTokens := 16
  payloadBytes := 4
  storeMetadataBytes := 0
  ranksPerChunk := 1
  numChunks := 1
  streams := 2
  iters := 1
  warmup := 0
  phaseOrder := [.store, .load]
  crossStreamOrder := "unordered-within-phase".toList
  operations :=
    [⟨0, 0, .store, 0, 0, "pass=0/stream=0/chunk=0/rank=0".toList, 0, 0, 4, true⟩,
      ⟨1, 0, .store, 1, 0, "pass=0/stream=1/chunk=0/rank=0".toList, 0, 0, 4, true⟩,
      ⟨2, 0, .load, 0, 0, "pass=0/stream=0/chunk=0/rank=0".toList, 0, 0, 4, true⟩,
      ⟨3, 0, .load, 1, 0, "pass=0/stream=1/chunk=0/rank=0".toList, 0, 0, 4, true⟩]

theorem normalizeV1_ordered_sample : validateIntent sampleIntent1 = .ok () ∧ ∃ v2, normalizeV1 sampleIntent1 = .ok v2 ∧
    v2.Ancestor (opId 0) (opId 3) ∧ ¬v2.Ancestor (opId 0) (opId 1) := by
  have hvalid : validateIntent sampleIntent1 = .ok () := by decide +kernel
  refine ⟨hvalid, ?_⟩
  obtain ⟨v2, hv2, -, horder, -⟩ := normalizeV1_ordered hvalid
  refine ⟨v2, hv2, ?_, ?_⟩
  · exact (horder sampleIntent1.operations[0] (by decide) sampleIntent1.operations[3] (by decide)).mpr (Or.inr (Or.inl (by decide)))
  · intro hancestor
    have hbefore := (horder sampleIntent1.operations[0] (by decide) sampleIntent1.operations[1] (by decide)).mp hancestor
    exact absurd hbefore (by unfold Intent1.Before; decide)

end EbpfSyscall.Kvio
