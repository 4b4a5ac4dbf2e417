import EbpfSyscall.Theorems.Sharding

/-!
# Release times of shards

Every executor counts release times from the earliest one of its own operations, so the clients of a split workload keep the timing of
the whole exactly when their earliest release times agree.
-/

namespace EbpfSyscall.Kvio

open Checked Coordinator

/-- The earliest release time of a workload. -/
def Workload3.earliest (wl : Workload3) : Option Int := (wl.operations.filterMap Operation3.releaseNs).min?

/-- All shards that have a release time have the same earliest one, and if an operation has none it is that of the whole workload. -/
structure StartsTogether (wl : Workload3) (shards : Assoc Text Workload3) : Prop where
  same : ∀ client client' shard shard' a b, shards.get client = some shard → shards.get client' = some shard' →
    shard.earliest = some a → shard'.earliest = some b → a = b
  whole : (∃ client shard, shards.get client = some shard ∧ ∃ operation ∈ shard.operations, operation.releaseNs = none) →
    ∀ client shard a, shards.get client = some shard → shard.earliest = some a → wl.earliest = some a

namespace OfferedShardsAux

variable {σ : Type} {wl : Workload3} {settings : Settings} {perform : Operation3 → σ → Except PyError (Outcome × σ)}
  {serviceNs : Text → Int}

theorem base_executor : (wl.executor settings perform serviceNs).base = wl.earliest.getD 0 := by
  rw [Executor.base, Workload3.earliest]
  show (((wl.operations.map Operation3.task).filterMap Task.releaseNs).min?).getD 0 = _
  rw [List.filterMap_map]
  rfl

theorem release_executor (hprofile : settings.profile = .offered) (operation : Operation3) :
    (wl.executor settings perform serviceNs).release operation.task =
      operation.releaseNs.elim 0 (fun release => release - wl.earliest.getD 0) := by
  rw [Executor.release, base_executor, show (wl.executor settings perform serviceNs).profile = .offered from hprofile]
  have htask : operation.task.releaseNs = operation.releaseNs := rfl
  rw [htask]
  cases operation.releaseNs with
  | none => rfl
  | some release => rfl

theorem exists_release {a : Int} (h : wl.earliest = some a) : ∃ operation ∈ wl.operations, operation.releaseNs = some a := by
  obtain ⟨operation, hmem, heq⟩ := List.mem_filterMap.mp (List.min?_mem h)
  exact ⟨operation, hmem, heq⟩

theorem earliest_isSome {operation : Operation3} (hmem : operation ∈ wl.operations) {release : Int}
    (hrelease : operation.releaseNs = some release) : ∃ a, wl.earliest = some a := by
  rw [← Option.isSome_iff_exists, Workload3.earliest, List.isSome_min?_iff]
  exact List.ne_nil_of_mem (List.mem_filterMap.mpr ⟨operation, hmem, hrelease⟩)

end OfferedShardsAux

open OfferedShardsAux

/-- Under the offered profile the release offsets of the clients differ from those of the whole workload by one constant exactly when
the shards start together. -/
theorem shardWorkload_offered {σ : Type} {wl : Workload3} {clients : List Text} {given : Option Assignment}
    {shards : Assoc Text Workload3} {used : Assignment} (haccepted : shardWorkload wl clients given = .ok (shards, used))
    {settings : Settings} (hprofile : settings.profile = .offered) (perform : Operation3 → σ → Except PyError (Outcome × σ))
    (serviceNs : Text → Int) :
    (∃ shift, ∀ client shard, shards.get client = some shard → ∀ operation ∈ shard.operations,
      (shard.executor settings perform serviceNs).release operation.task =
        (wl.executor settings perform serviceNs).release operation.task + shift) ↔ StartsTogether wl shards := by
  obtain ⟨owner, h⟩ := shardWorkload_eq_ok haccepted
  have hwhole : ∀ {client shard}, shards.get client = some shard → ∀ {operation}, operation ∈ shard.operations →
      ∀ {release}, operation.releaseNs = some release → ∃ m, wl.earliest = some m := by
    intro client shard hget operation hmem release hrelease
    have hin := List.mem_map_of_mem (f := Operation3.unnumbered) hmem
    rw [(h.shard_operations hget).2.1] at hin
    obtain ⟨other, hother, heq⟩ := List.mem_map.mp hin
    have hsame : other.unnumbered.releaseNs = operation.unnumbered.releaseNs := congrArg Operation3.releaseNs heq
    exact earliest_isSome (List.mem_filter.mp hother).1 (hsame.trans hrelease)
  constructor
  · rintro ⟨shift, hshift⟩
    -- The shift that a shard with a release time asks for.
    have hvalue : ∀ {client shard a}, shards.get client = some shard → shard.earliest = some a → ∃ m, wl.earliest = some m ∧
        shift = m - a := by
      intro client shard a hget ha
      obtain ⟨operation, hmem, hrelease⟩ := exists_release ha
      obtain ⟨m, hm⟩ := hwhole hget hmem hrelease
      have heq := hshift client shard hget operation hmem
      rw [release_executor hprofile, release_executor hprofile, hrelease, ha, hm] at heq
      simp only [Option.elim_some, Option.getD_some] at heq
      exact ⟨m, hm, by omega⟩
    refine ⟨?_, ?_⟩
    · intro client client' shard shard' a b hget hget' ha hb
      obtain ⟨m, hm, hfirst⟩ := hvalue hget ha
      obtain ⟨m', hm', hsecond⟩ := hvalue hget' hb
      obtain rfl : m = m' := Option.some.inj (hm.symm.trans hm')
      omega
    · rintro ⟨other, otherShard, hother, operation, hmem, hnone⟩ client shard a hget ha
      obtain ⟨m, hm, hfirst⟩ := hvalue hget ha
      have heq := hshift other otherShard hother operation hmem
      rw [release_executor hprofile, release_executor hprofile, hnone] at heq
      simp only [Option.elim_none] at heq
      rw [hm, show m = a by omega]
  · intro htogether
    by_cases hsome : ∃ client shard a, shards.get client = some shard ∧ shard.earliest = some a
    · obtain ⟨client₀, shard₀, a, hget₀, ha⟩ := hsome
      refine ⟨wl.earliest.getD 0 - a, fun client shard hget operation hmem => ?_⟩
      rw [release_executor hprofile, release_executor hprofile]
      cases hrelease : operation.releaseNs with
      | none =>
        have hm := htogether.whole ⟨client, shard, hget, operation, hmem, hrelease⟩ client₀ shard₀ a hget₀ ha
        rw [hm]
        simp
      | some release =>
        obtain ⟨b, hb⟩ := earliest_isSome hmem hrelease
        obtain rfl := htogether.same _ _ _ _ _ _ hget hget₀ hb ha
        rw [hb]
        simp only [Option.elim_some, Option.getD_some]
        omega
    · refine ⟨0, fun client shard hget operation hmem => ?_⟩
      rw [release_executor hprofile, release_executor hprofile]
      cases hrelease : operation.releaseNs with
      | none => rfl
      | some release =>
        obtain ⟨b, hb⟩ := earliest_isSome hmem hrelease
        exact absurd ⟨client, shard, b, hget, hb⟩ hsome

/-- With one client there is nothing to disagree. -/
theorem shardWorkload_offered_sample : ∃ shards used, shardWorkload sampleWorkload ["c0".toList] none = .ok (shards, used) ∧
    ∃ shift, ∀ client shard, shards.get client = some shard → ∀ operation ∈ shard.operations,
      (shard.executor { profile := .offered } (fun _ s => .ok (⟨.success, 0, []⟩, s)) (fun _ => 1) : Executor Unit).release
          operation.task =
        (sampleWorkload.executor { profile := .offered } (fun _ s => .ok (⟨.success, 0, []⟩, s)) (fun _ => 1) : Executor Unit).release
          operation.task + shift := by
  have hany : (shardWorkload sampleWorkload ["c0".toList] none).toOption.any (fun result =>
      result.1.entries.all fun entry => entry.2.earliest = some 10) = true := by
    decide +kernel
  obtain ⟨⟨shards, used⟩, hresult, hall⟩ := exists_ok_of_any hany
  have hearliest : ∀ client shard, shards.get client = some shard → shard.earliest = some 10 := by
    intro client shard hget
    simpa using List.all_eq_true.mp hall _ (Assoc.get_eq_some_iff.mp hget)
  refine ⟨shards, used, hresult, (shardWorkload_offered hresult rfl _ _).mpr ⟨?_, ?_⟩⟩
  · intro client client' shard shard' a b hget hget' ha hb
    rw [hearliest client shard hget] at ha
    rw [hearliest client' shard' hget'] at hb
    exact Option.some.inj (ha.symm.trans hb)
  · intro _ client shard a hget ha
    rw [hearliest client shard hget] at ha
    rw [← ha]
    decide

/-- Two clients with one operation each, released at 10 and at 25: each client counts from its own. -/
theorem shardWorkload_offered_apart : ∃ shards used, shardWorkload sampleWorkload ["c0".toList, "c1".toList] none = .ok (shards, used) ∧
      ¬∃ shift, ∀ client shard, shards.get client = some shard → ∀ operation ∈ shard.operations,
        (shard.executor { profile := .offered } (fun _ s => .ok (⟨.success, 0, []⟩, s)) (fun _ => 1) : Executor Unit).release
            operation.task =
          (sampleWorkload.executor { profile := .offered } (fun _ s => .ok (⟨.success, 0, []⟩, s)) (fun _ => 1) : Executor Unit).release
            operation.task + shift := by
  have hany : (shardWorkload sampleWorkload ["c0".toList, "c1".toList] none).toOption.any (fun result =>
      decide ((result.1.get "c0".toList).bind Workload3.earliest = some 10) &&
        decide ((result.1.get "c1".toList).bind Workload3.earliest = some 25)) = true := by
    decide +kernel
  obtain ⟨⟨shards, used⟩, hresult, hearliest⟩ := exists_ok_of_any hany
  rw [Bool.and_eq_true, decide_eq_true_eq, decide_eq_true_eq] at hearliest
  obtain ⟨first, hfirst, hten⟩ := Option.bind_eq_some_iff.mp hearliest.1
  obtain ⟨second, hsecond, htwentyFive⟩ := Option.bind_eq_some_iff.mp hearliest.2
  have hwhole : sampleWorkload.earliest = some 10 := by decide
  refine ⟨shards, used, hresult, ?_⟩
  rintro ⟨shift, hshift⟩
  obtain ⟨x, hx, hxrelease⟩ := exists_release hten
  obtain ⟨y, hy, hyrelease⟩ := exists_release htwentyFive
  have hzero := hshift _ _ hfirst x hx
  have hlate := hshift _ _ hsecond y hy
  rw [release_executor rfl, release_executor rfl, hxrelease, hten, hwhole] at hzero
  rw [release_executor rfl, release_executor rfl, hyrelease, htwentyFive, hwhole] at hlate
  simp only [Option.elim_some, Option.getD_some] at hzero hlate
  omega

end EbpfSyscall.Kvio
