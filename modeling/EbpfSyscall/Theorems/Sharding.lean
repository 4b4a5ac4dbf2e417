import EbpfSyscall.Lemmas.Coordinator

/-!
# Splitting a workload over clients

The shards of an accepted workload partition it exactly when every stream goes to one of the clients: an operation whose stream is
assigned to a client that is not in the list is in no shard, and nothing says so.
-/

namespace EbpfSyscall.Kvio

open Checked Coordinator List

/-- Every operation is in exactly one shard, as it is and in its order, and nothing else is in a shard. -/
structure Partitions (wl : Workload3) (shards : Assoc Text Workload3) : Prop where
  inOrder : ∀ client shard, shards.get client = some shard →
    (shard.operations.map Operation3.unnumbered).Sublist (wl.operations.map Operation3.unnumbered)
  once : ∀ operation ∈ wl.operations, ∃! client, ∃ shard, shards.get client = some shard ∧
    operation.unnumbered ∈ shard.operations.map Operation3.unnumbered
  together : (shards.entries.flatMap fun entry => entry.2.operations.map Operation3.unnumbered).Perm
    (wl.operations.map Operation3.unnumbered)

namespace Coordinator.Sharded

variable {wl : Workload3} {clients : List Text} {given : Option Assignment} {shards : Assoc Text Workload3} {used : Assignment}
  {owner : Assoc Text Text} (h : Sharded wl clients given shards used owner) {client : Text}

include h

/-- The shard of a client holds its operations. -/
theorem shard_operations {shard : Workload3} (hget : shards.get client = some shard) :
    client ∈ clients ∧ shard.operations.map Operation3.unnumbered = (owned wl owner client).map Operation3.unnumbered ∧
      ((owned wl owner client).map Operation3.opId).Nodup := by
  have hclient := h.mem_clients hget
  obtain ⟨shard', hshard, hget'⟩ := h.shards_get hclient
  obtain rfl : shard = shard' := Option.some.inj (hget.symm.trans hget')
  obtain ⟨hoperations, hvalid⟩ := shardFor_eq_ok hshard
  refine ⟨hclient, ?_, ?_⟩
  · rw [hoperations, map_share (fun _ _ => rfl)]
  · rw [← map_share (f := Operation3.opId) (fun _ _ => rfl), ← hoperations]
    exact hvalid.opIds_nodup

/-- An operation that some shard holds is owned by the client of the shard. -/
theorem owner_of_mem {shard : Workload3} (hget : shards.get client = some shard) {operation : Operation3}
    (hin : operation.unnumbered ∈ shard.operations.map Operation3.unnumbered) : owner.get operation.opId = some client := by
  rw [(h.shard_operations hget).2.1] at hin
  obtain ⟨other, hother, heq⟩ := mem_map.mp hin
  have hid : other.unnumbered.opId = operation.unnumbered.opId := congrArg Operation3.opId heq
  change other.opId = operation.opId at hid
  rw [← hid]
  simpa using (mem_filter.mp hother).2

/-- In an accepted split, an operation that is in a shard has the stream of the client. -/
theorem owner_eq (hclient : client ∈ clients) {operation : Operation3} (hmem : operation ∈ wl.operations)
    (howner : owner.get operation.opId = some client) : used.get operation.stream = some client := by
  obtain ⟨shard, -, hget⟩ := h.shards_get hclient
  obtain ⟨other, hother, hid, client', hstream, hget'⟩ := h.owner_get hmem
  obtain rfl : client = client' := Option.some.inj (howner.symm.trans hget')
  have hin : operation ∈ owned wl owner client := mem_filter.mpr ⟨hmem, by simpa using howner⟩
  have hin' : other ∈ owned wl owner client := mem_filter.mpr ⟨hother, by rw [hid]; simpa using howner⟩
  -- Two operations of one shard with one id are the same operation.
  obtain rfl := inj_on_of_nodup_map (h.shard_operations hget).2.2 hin' hin hid
  exact hstream

theorem partitions (hall : ∀ operation ∈ wl.operations, ∃ client ∈ clients, owner.get operation.opId = some client) : Partitions wl shards := by
  refine ⟨?_, ?_, ?_⟩
  · intro client shard hget
    rw [(h.shard_operations hget).2.1]
    exact filter_sublist.map _
  · intro operation hmem
    obtain ⟨client, hclient, howner⟩ := hall operation hmem
    obtain ⟨shard, -, hget⟩ := h.shards_get hclient
    refine ⟨client, ⟨shard, hget, ?_⟩, ?_⟩
    · rw [(h.shard_operations hget).2.1]
      exact mem_map_of_mem (mem_filter.mpr ⟨hmem, by simpa using howner⟩)
    · rintro client' ⟨shard', hget', hin'⟩
      exact Option.some.inj ((h.owner_of_mem hget' hin').symm.trans howner)
  · have hshares : (shards.entries.flatMap fun entry => entry.2.operations.map Operation3.unnumbered) =
        (shards.keys.flatMap fun client => owned wl owner client).map Operation3.unnumbered := by
      rw [Assoc.keys, map_flatMap, flatMap_map]
      refine flatMap_congr fun entry hentry => ?_
      exact (h.shard_operations (Assoc.get_eq_some_iff.mpr hentry)).2.1
    have howned : (wl.operations.filter fun operation => ∃ client ∈ shards.keys, owner.get operation.opId = some client) =
        wl.operations := by
      rw [filter_eq_self]
      intro operation hmem
      obtain ⟨client, hclient, howner⟩ := hall operation hmem
      obtain ⟨shard, -, hget⟩ := h.shards_get hclient
      exact decide_eq_true ⟨client, Assoc.mem_keys_iff.mpr ⟨shard, hget⟩, howner⟩
    rw [hshares]
    refine Perm.map _ ((flatMap_filter_perm (fun operation : Operation3 => owner.get operation.opId) wl.operations
      shards.nodup).trans ?_)
    exact Perm.of_eq howned

end Coordinator.Sharded

/-- The round robin gives every stream to a client of the list. -/
theorem Coordinator.Sharded.partitions_default {wl : Workload3} {clients : List Text} {shards : Assoc Text Workload3} {used : Assignment}
    {owner : Assoc Text Text} (h : Sharded wl clients none shards used owner) : Partitions wl shards := by
  refine h.partitions fun operation hmem => ?_
  obtain ⟨other, -, -, client, hstream, howner⟩ := h.owner_get hmem
  exact ⟨client, roundRobin_mem h.assigned hstream, howner⟩

/-- The shards of an accepted workload partition it exactly when the assignment that was given, if any, gives the streams of the
workload to clients of the list. -/
theorem shardWorkload_partitions {wl : Workload3} {clients : List Text} {given : Option Assignment} {shards : Assoc Text Workload3}
    {used : Assignment} (haccepted : shardWorkload wl clients given = .ok (shards, used)) :
    Partitions wl shards ↔ ∀ assignment, given = some assignment → ∀ operation ∈ wl.operations, ∀ client,
      assignment.get operation.stream = some client → client ∈ clients := by
  obtain ⟨owner, h⟩ := shardWorkload_eq_ok haccepted
  constructor
  · rintro hpartitions assignment rfl operation hmem client hstream
    have hused : used = assignment := (Except.ok.inj h.assigned).symm
    obtain ⟨client', ⟨shard, hget, hin⟩, -⟩ := hpartitions.once operation hmem
    have hclient' := h.mem_clients hget
    have hstream' := h.owner_eq hclient' hmem (h.owner_of_mem hget hin)
    rw [hused, hstream] at hstream'
    exact Option.some.inj hstream' ▸ hclient'
  · intro hgiven
    cases given with
    | none => exact h.partitions_default
    | some assignment =>
      refine h.partitions fun operation hmem => ?_
      obtain ⟨other, hother, -, client, hstream, howner⟩ := h.owner_get hmem
      obtain rfl : assignment = used := Except.ok.inj h.assigned
      exact ⟨client, hgiven assignment rfl other hother client hstream, howner⟩

/-! ## A small workload -/

/-- Two streams with one store each. -/
def sampleWorkload : Workload3 :=
  { newWorkload .generated .declared .synthetic .declared ⟨"object".toList, "engine".toList, "1".toList, []⟩ with
    nodes := (Assoc.empty.set "a@1".toList ⟨.object, 1, 4⟩).set "b@1".toList ⟨.object, 1, 4⟩
    operations :=
      [{ opId := "x".toList, seq := 0, family := .object, call := .store, args := { node := "a@1".toList, size := some 4 }
         stream := "s".toList, deps := [], releaseNs := some 10, declaredDelayNs := none },
        { opId := "y".toList, seq := 1, family := .object, call := .store, args := { node := "b@1".toList, size := some 4 }
          stream := "t".toList, deps := [], releaseNs := some 25, declaredDelayNs := none }] }

/-- The round robin gives each stream to one client. -/
theorem shardWorkload_partitions_sample : ∃ shards used,
    shardWorkload sampleWorkload ["c0".toList, "c1".toList] none = .ok (shards, used) ∧ Partitions sampleWorkload shards := by
  have hany : (shardWorkload sampleWorkload ["c0".toList, "c1".toList] none).toOption.any (fun _ => true) = true := by decide +kernel
  obtain ⟨⟨shards, used⟩, hresult, -⟩ := exists_ok_of_any hany
  exact ⟨shards, used, hresult, (shardWorkload_partitions hresult).mpr fun assignment hgiven => by cases hgiven⟩

/-- An assignment that gives a stream to a client that is not in the list is accepted, and the operation of the stream is in no
shard. -/
theorem shardWorkload_drops : ∃ shards used, shardWorkload sampleWorkload ["c0".toList]
      (some ((Assoc.empty.set (some "s".toList) "c0".toList).set (some "t".toList) "c9".toList)) = .ok (shards, used) ∧
      ¬Partitions sampleWorkload shards := by
  have hany : (shardWorkload sampleWorkload ["c0".toList]
      (some ((Assoc.empty.set (some "s".toList) "c0".toList).set (some "t".toList) "c9".toList))).toOption.any (fun result =>
        (result.1.entries.flatMap fun entry => entry.2.operations.map Operation3.unnumbered).length = 1) = true := by
    decide +kernel
  obtain ⟨⟨shards, used⟩, hresult, hone⟩ := exists_ok_of_any hany
  refine ⟨shards, used, hresult, fun hpartitions => ?_⟩
  have hlength := hpartitions.together.length_eq
  rw [decide_eq_true_eq] at hone
  rw [hone] at hlength
  exact absurd hlength (by decide)

end EbpfSyscall.Kvio
