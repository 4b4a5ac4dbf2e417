import EbpfSyscall.Kvio.Coordinator
import EbpfSyscall.Lemmas.Workload3

/-!
# Shares of a workload

The stages of an accepted `shard_workload`: who owns an operation, and what the shard of a client holds.
-/

namespace EbpfSyscall.Kvio

open Checked Coordinator List

/-- An operation without its position. -/
def Operation3.unnumbered (operation : Operation3) : Operation3 := { operation with seq := 0 }

namespace Coordinator

variable {wl : Workload3} {clients : List Text} {given : Option Assignment} {shards : Assoc Text Workload3} {used : Assignment}

/-- The stages of `shard_workload`. -/
structure Sharded (wl : Workload3) (clients : List Text) (given : Option Assignment) (shards : Assoc Text Workload3)
    (used : Assignment) (owner : Assoc Text Text) : Prop where
  assigned : assigned wl clients given = .ok used
  known : ∀ stream ∈ used.keys, stream ∈ streamsOf wl
  owners : owners wl used = .ok owner
  noCross : crossEdges wl owner = .ok []
  shards : clients.foldlM (fun shards client => shardFor wl used owner client >>= fun shard => pure (shards.set client shard))
    .empty = .ok shards

theorem shardWorkload_eq_ok (h : shardWorkload wl clients given = .ok (shards, used)) : ∃ owner, Sharded wl clients given shards used owner := by
  simp only [shardWorkload, bind_eq_ok, exists_const, ensure_eq_ok, pure_eq_ok, Except.ok.injEq, Prod.mk.injEq] at h
  obtain ⟨_, hassigned, _, -, hunknown, owner, howners, cross, hcross, hnone, _, hshards, rfl, rfl⟩ := h
  refine ⟨owner, hassigned, ?_, howners, hnone ▸ hcross, hshards⟩
  intro stream hin
  by_contra hnot
  exact filter_eq_nil_iff.mp hunknown stream hin (by simpa using hnot)

/-- The clients of a round robin are among the given ones. -/
theorem roundRobin_mem {streams : List (Option Text)} {assignment : Assignment} (h : roundRobin clients streams = .ok assignment)
    {stream : Option Text} {client : Text} (hget : assignment.get stream = some client) : client ∈ clients := by
  have hinv := foldFrom_invariant (fun _ (assignment : Assignment) => ∀ stream client, assignment.get stream = some client →
    client ∈ clients) ?_ ?_ h
  · exact hinv stream client hget
  · intro i assignment stream assignment' _ hall hstep other client hother
    obtain ⟨first, hfirst, heq⟩ := bind_eq_ok.mp hstep
    rw [require_eq_ok] at hfirst
    rw [pure_eq_ok, Except.ok.injEq] at heq
    subst heq
    rw [Assoc.get_set] at hother
    split at hother
    · obtain rfl := Option.some.inj hother
      exact mem_of_getElem? hfirst
    · exact hall other client hother
  · intro stream client hget
    cases hget

namespace Sharded

variable {owner : Assoc Text Text} (h : Sharded wl clients given shards used owner)

include h

/-- The owner of an operation has the stream of an operation with its id. -/
theorem owner_get {operation : Operation3} (hmem : operation ∈ wl.operations) :
    ∃ other ∈ wl.operations, other.opId = operation.opId ∧ ∃ client, used.get other.stream = some client ∧
      owner.get operation.opId = some client := by
  obtain ⟨other, hother, hid, client, hclient, hget⟩ := (Assoc.foldlM_set Operation3.opId h.owners).1 operation hmem
  rw [require_eq_ok] at hclient
  exact ⟨other, hother, hid, client, hclient, hget⟩

theorem shards_get {client : Text} (hmem : client ∈ clients) :
    ∃ shard, shardFor wl used owner client = .ok shard ∧ shards.get client = some shard := by
  obtain ⟨_, -, rfl, shard, hshard, hget⟩ := (Assoc.foldlM_set id h.shards).1 client hmem
  exact ⟨shard, hshard, hget⟩

theorem mem_clients {client : Text} {shard : Workload3} (hget : shards.get client = some shard) : client ∈ clients := by
  by_contra hnot
  have hnone := (Assoc.foldlM_set id h.shards).2 client (by
    rintro other hother rfl
    exact hnot hother)
  rw [hget] at hnone
  cases hnone

end Sharded

/-! ## Shares -/

/-- The operations of a client in the whole workload. -/
def owned (wl : Workload3) (owner : Assoc Text Text) (client : Text) : List Operation3 :=
  wl.operations.filter fun operation => owner.get operation.opId = some client

theorem map_share {β : Type} {f : Operation3 → β} (hf : ∀ operation seq, f { operation with seq } = f operation)
    (wl : Workload3) (owner : Assoc Text Text) (client : Text) :
    (share wl owner client).map f = (owned wl owner client).map f := by
  refine ext_getElem (by simp [share, owned]) fun i hi hi' => ?_
  rw [getElem_map, getElem_map]
  simp only [share, getElem_mapIdx, hf]
  rfl

theorem shardFor_eq_ok {owner : Assoc Text Text} {client : Text} {shard : Workload3} (h : shardFor wl used owner client = .ok shard) :
    shard.operations = share wl owner client ∧ Workload3.Valid shard := by
  simp only [shardFor, bind_eq_ok, exists_const, require_eq_ok, validateWorkload_eq_ok, pure_eq_ok, Except.ok.injEq] at h
  obtain ⟨notes, -, streams, -, hvalid, rfl⟩ := h
  exact ⟨rfl, hvalid⟩

/-- The items of different owners, one owner after the other, are all the items of these owners. -/
theorem flatMap_filter_perm {α κ : Type} [DecidableEq κ] (f : α → Option κ) (items : List α) {keys : List κ} (hnodup : keys.Nodup) :
    (keys.flatMap fun k => items.filter fun a => f a = some k).Perm (items.filter fun a => ∃ k ∈ keys, f a = some k) := by
  induction keys with
  | nil => simp
  | cons k rest ih =>
    rw [nodup_cons] at hnodup
    have hsplit := filter_append_perm (fun a => decide (f a = some k)) (items.filter fun a => ∃ k' ∈ k :: rest, f a = some k')
    rw [filter_filter, filter_filter] at hsplit
    refine Perm.trans ?_ hsplit
    rw [flatMap_cons]
    have hfirst : (items.filter fun a => f a = some k) =
        items.filter fun a => decide (f a = some k) && decide (∃ k' ∈ k :: rest, f a = some k') := by
      refine filter_congr fun a _ => ?_
      by_cases hk : f a = some k
      · simp [hk]
      · simp [hk]
    have hrest : (items.filter fun a => ∃ k' ∈ rest, f a = some k') =
        items.filter fun a => !decide (f a = some k) && decide (∃ k' ∈ k :: rest, f a = some k') := by
      refine filter_congr fun a _ => ?_
      by_cases hk : f a = some k
      · have hnot : ¬∃ k' ∈ rest, k = k' := by
          rintro ⟨k', hk', rfl⟩
          exact hnodup.1 hk'
        simp [hk, hnot, hnodup.1]
      · simp [hk]
    rw [← hfirst, ← hrest]
    exact (ih hnodup.2).append_left _

end Coordinator

end EbpfSyscall.Kvio
