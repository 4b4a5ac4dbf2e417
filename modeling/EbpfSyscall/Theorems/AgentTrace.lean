import EbpfSyscall.Lemmas.AgentTrace

/-!
# Compiled plans can be executed

The operations of a plan, run in order on a set of keys that begins with the warm keys, always find the keys that they load or delete and
never the keys that they store.
-/

namespace EbpfSyscall.Kvio

namespace AgentTrace

open Checked Residency AgentAux List

variable {Key : Type} [DecidableEq Key]

/-- The operations of all requests. -/
def Plan.operations (plan : Plan Key) : List (Operation Key) := plan.requests.flatMap Request.operations

/-- The operations of a plan run from its warm keys, with no more keys than the summary says; its totals are right, and no warm key is
stored. -/
structure Plan.Executable (plan : Plan Key) : Prop where
  legal : Legal plan.warmKeys.toFinset (plan.operations.map Operation.action)
  within : Within plan.summary.maxResidentChunks plan.warmKeys.toFinset (plan.operations.map Operation.action)
  loads : plan.summary.loads = plan.operations.countP Operation.isLoad
  stores : plan.summary.stores = plan.operations.countP Operation.isStore
  evictions : plan.summary.evictions = plan.operations.countP Operation.isDelete
  warm : ∀ key ∈ plan.warmKeys, ∀ index, .store key index ∉ plan.operations

namespace AgentAux

theorem mem_storedKeys {operations : List (Operation Key)} {key : Key} {index : Nat} (h : .store key index ∈ operations) :
    key ∈ storedKeys operations := mem_filterMap.mpr ⟨_, h, rfl⟩

theorem compileLmcacheAgent_executable {H : AgentHost Key} {records : List SourceRecord} {chunkTokens capacityChunks : Int}
    {policy : Policy} {sessionScope : SessionScope} {plan : Plan Key}
    (h : compileLmcacheAgent H records chunkTokens policy capacityChunks sessionScope = .ok plan) :
    plan.warmKeys = [] ∧ plan.Executable ∧
      (capacityChunks ≠ 0 → Within capacityChunks.toNat ∅ (plan.operations.map Operation.action)) := by
  simp only [compileLmcacheAgent, bind_eq_ok, exists_const, ensure_eq_ok, pure_eq_ok, Except.ok.injEq] at h
  obtain ⟨-, hcapacity, enriched, -, -, st, hst, rfl⟩ := h
  have hok := progressOk_foldFrom hcapacity hst
  have hexec := hok.executes
  refine ⟨rfl, ⟨hexec.legal, hexec.within, hexec.loads, hexec.stores, hexec.evictions, fun key hkey => ?_⟩, fun hne => ?_⟩
  · cases hkey
  · refine hexec.within.mono ?_
    have hfits := hok.fits hne
    omega

theorem compileTraceLab_executable {H : AgentHost Key} {records : List SourceRecord} {chunkTokens : Int} {provider : Text}
    {plan : Plan Key} (h : compileTraceLab H records chunkTokens provider = .ok plan) : plan.Executable := by
  simp only [compileTraceLab, bind_eq_ok, exists_const, ensure_eq_ok, pure_eq_ok, Except.ok.injEq] at h
  obtain ⟨-, selected, -, -, st, hst, rfl⟩ := h
  obtain ⟨earlier, hrounds, hops⟩ := traceLabOk_foldFrom hst
  have hperm : (st.rounds.warm.insertionSort fun a b => H.keyLe a b = true).Perm st.rounds.warm := perm_insertionSort _ _
  have hnodup := hrounds.known.nodup_iff.mp hrounds.nodup
  have hfresh : ∀ key ∈ storedKeys (earlier ++ st.rounds.operations), key ∉ st.rounds.warm := fun key hkey hwarm =>
    disjoint_of_nodup_append hnodup hwarm hkey
  have hexec := hrounds.executes st.rounds.warm.toFinset (fun key hkey => mem_toFinset.mpr hkey)
    (fun key hkey => by rw [mem_toFinset]; exact hfresh key hkey)
  have hbound : st.rounds.warm.toFinset.card + (storedKeys (earlier ++ st.rounds.operations)).length = st.rounds.known.length := by
    rw [toFinset_card_of_nodup (nodup_append.mp hnodup).1, hrounds.known.length_eq, length_append]
  rw [hbound, hops] at hexec
  have hstart : (st.rounds.warm.insertionSort fun a b => H.keyLe a b = true).toFinset = st.rounds.warm.toFinset :=
    toFinset_eq_of_perm _ _ hperm
  refine ⟨?_, ?_, hexec.loads, hexec.stores, hexec.evictions, fun key hkey index hmem => ?_⟩
  · dsimp only
    rw [hstart]
    exact hexec.legal
  · dsimp only
    rw [hstart]
    exact hexec.within
  · refine hfresh key ?_ (hperm.mem_iff.mp hkey)
    rw [hops]
    exact mem_storedKeys hmem

end AgentAux

/-- Both compilers: the plan can be executed, from no keys for `compile_lmcache_agent`, which also keeps to a capacity. -/
theorem compiled_plans_execute : (∀ (H : AgentHost Key) (records : List SourceRecord) (chunkTokens : Int) (policy : Policy) (capacityChunks : Int)
      (sessionScope : SessionScope) (plan : Plan Key),
      compileLmcacheAgent H records chunkTokens policy capacityChunks sessionScope = .ok plan →
        plan.warmKeys = [] ∧ plan.Executable ∧
          (capacityChunks ≠ 0 → Within capacityChunks.toNat ∅ (plan.operations.map Operation.action))) ∧
    ∀ (H : AgentHost Key) (records : List SourceRecord) (chunkTokens : Int) (provider : Text) (plan : Plan Key),
      compileTraceLab H records chunkTokens provider = .ok plan → plan.Executable :=
  ⟨fun _ _ _ _ _ _ _ => compileLmcacheAgent_executable, fun _ _ _ _ _ => compileTraceLab_executable⟩

/-- A host whose keys are the chunks themselves, and whose tokens are characters. -/
def plainHost : AgentHost (List (List Nat)) where
  encode text := text.map fun c => .int c.toNat
  chunkHash
    | none, tokens => [tokens]
    | some predecessor, tokens => tokens :: [] :: predecessor
  roundHash session index := [session.map Char.toNat, [index]]
  sessionDigest _ := []
  recordTimestamp _ _ := .ok 0
  keyLe _ _ := true

/-- Two requests with one prompt of two chunks of one token. -/
def twicePrompted : List SourceRecord :=
  [⟨[("input".toList, .str "ab".toList)], "trace.jsonl", 1, 0⟩, ⟨[("input".toList, .str "ab".toList)], "trace.jsonl", 2, 1⟩]

theorem compiled_plans_execute_twice : ∃ plan, compileLmcacheAgent plainHost twicePrompted 1 .byPrefix 1 .file = .ok plan ∧
    plan.summary.loads = 1 ∧ plan.summary.stores = 3 ∧ plan.summary.evictions = 2 ∧ plan.Executable := by
  have hplan : ((compileLmcacheAgent plainHost twicePrompted 1 .byPrefix 1 .file).toOption.any fun plan =>
      plan.summary.loads == 1 && plan.summary.stores == 3 && plan.summary.evictions == 2) = true := by decide +kernel
  obtain ⟨plan, hok, htotals⟩ := exists_ok_of_any hplan
  simp only [Bool.and_eq_true, beq_iff_eq] at htotals
  exact ⟨plan, hok, htotals.1.1, htotals.1.2, htotals.2, (compiled_plans_execute.1 _ _ _ _ _ _ plan hok).2.1⟩

end AgentTrace

end EbpfSyscall.Kvio
