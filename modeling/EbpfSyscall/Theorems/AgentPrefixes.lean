import EbpfSyscall.Lemmas.AgentPrefixes
import EbpfSyscall.Lemmas.Capture
import EbpfSyscall.Theorems.AgentTrace

/-!
# Prefixes of prompts in a bounded cache

With room for all chunks of a trace a request loads a beginning of its prompt. With less room there is a trace that breaks this: a prompt
with one chunk more than there is room for, twice.
-/

namespace EbpfSyscall.Kvio

namespace AgentTrace

open Checked Residency AgentAux List

namespace AgentAux

variable {Key : Type} {H : AgentHost Key}

theorem enrich_ok {sessionScope : SessionScope} {record : SourceRecord} {item : Stamped Text}
    (h : enrich H sessionScope record = .ok item) : inputOf record = some item.value := by
  simp only [enrich, bind_eq_ok, exists_const, ensure_eq_ok, require_eq_ok, pure_eq_ok, Except.ok.injEq] at h
  obtain ⟨input, hinput, -, timestamp, -, rfl⟩ := h
  exact hinput

/-- The keys of a prompt are among those of the trace. -/
theorem mem_traceKeys {chunkTokens tokens : Nat} {records : List SourceRecord} {record : SourceRecord}
    (hrecord : record ∈ records) {input : Text} (hinput : inputOf record = some input) {keys : List Key}
    (hkeys : promptKeys H chunkTokens .byPrefix input = .ok (tokens, keys)) {key : Key} (hkey : key ∈ keys) :
    key ∈ traceKeys H chunkTokens records := by
  refine mem_flatMap.mpr ⟨record, hrecord, ?_⟩
  rw [hinput, Option.map_some, hkeys]
  exact hkey

/-- With room for all keys every request loads a beginning of its prompt. -/
theorem prefixLoads_of_room [DecidableEq Key] (hfree : CollisionFree H) {records : List SourceRecord}
    {chunkTokens capacity : Int} {sessionScope : SessionScope} {plan : Plan Key}
    (hroom : Room capacity (traceKeys H chunkTokens.toNat records).toFinset)
    (h : compileLmcacheAgent H records chunkTokens .byPrefix capacity sessionScope = .ok plan) :
    ∀ request ∈ plan.requests, PrefixLoads request.operations := by
  simp only [compileLmcacheAgent, bind_eq_ok, exists_const, ensure_eq_ok, pure_eq_ok, Except.ok.injEq] at h
  obtain ⟨-, hcapacity, enriched, henriched, -, st, hst, rfl⟩ := h
  refine (foldFrom_invariant (fun _ st => Whole H chunkTokens.toNat (traceKeys H chunkTokens.toNat records).toFinset st) ?_ ?_ hst).loads
  · intro index st item st' hitem hwhole hstep
    refine whole_step hfree hcapacity hroom (fun tokens keys hkeys key hkey => ?_) hwhole hstep
    have hmem : item ∈ enriched := (perm_insertionSort _ enriched).mem_iff.mp hitem
    obtain ⟨record, hrecord, hok⟩ := Checked.exists_of_forall₂_right (mapM_eq_ok.mp henriched) item hmem
    exact mem_toFinset.mpr (mem_traceKeys hrecord (enrich_ok hok) hkeys hkey)
  · exact ⟨nodup_nil, by simp, ⟨[], by simp, by simp⟩, by simp⟩

/-! ## A prompt that does not fit -/

/-- A host whose prompts are all `length` times the token 0. -/
def zeroHost (length : Nat) : AgentHost (List (List Nat)) := { plainHost with encode := fun _ => (List.replicate length 0).map .int }

theorem collisionFree_plain : CollisionFree plainHost := by
  intro p q s t _ heq
  cases p with
  | none =>
    cases q with
    | none => exact ⟨rfl, (cons.inj heq).1⟩
    | some q => cases (cons.inj heq).2
  | some p =>
    cases q with
    | none => cases (cons.inj heq).2
    | some q =>
      obtain ⟨hs, hrest⟩ := cons.inj heq
      exact ⟨congrArg some (cons.inj hrest).2, hs⟩

theorem collisionFree_zero (length : Nat) : CollisionFree (zeroHost length) := fun p q s t hlength heq =>
  collisionFree_plain p q s t hlength heq

/-- The two records in their order. -/
theorem enriched_twice (length : Nat) : ∃ enriched first second, twicePrompted.mapM (enrich (zeroHost length) .file) = .ok enriched ∧
    enriched ≠ [] ∧ sortStamped enriched = [first, second] ∧ first.value = "ab".toList ∧ second.value = "ab".toList :=
  ⟨_, _, _, rfl, by simp, rfl, rfl, rfl⟩

/-- A request with a prompt that has keys. -/
theorem exists_requestStep [DecidableEq Key] {chunkTokens tokens : Nat} {policy : Policy} {item : Stamped Text}
    {keys : List Key} (hkeys : promptKeys H chunkTokens policy item.value = .ok (tokens, keys)) (capacity : Int) (sessionScope : SessionScope)
    (st : Progress Key) (index : Nat) : ∃ st' request, requestStep H chunkTokens policy capacity sessionScope st index item = .ok st' ∧
      st'.resident = (serve capacity st.resident keys).2.resident ∧ request ∈ st'.requests ∧
        request.operations = (serve capacity st.resident keys).2.operations := by
  have hok : ∃ st', requestStep H chunkTokens policy capacity sessionScope st index item = .ok st' := by
    rw [requestStep, hkeys]
    exact ⟨_, rfl⟩
  obtain ⟨st', hst'⟩ := hok
  obtain ⟨tokens', keys', request, hkeys', hops, hresident, -, -, -, -, hrequests⟩ := requestStep_ok hst'
  obtain ⟨-, rfl⟩ : tokens = tokens' ∧ keys = keys' := by simpa [hkeys] using hkeys'
  refine ⟨st', request, hst', hresident, ?_, hops⟩
  rw [hrequests]
  simp

theorem intTokens_map (tokens : List Int) : intTokens (tokens.map .int) = some tokens := by
  rw [intTokens]
  induction tokens with
  | nil => rfl
  | cons token tokens ih =>
    rw [map_cons, mapM_cons, ih]
    rfl

/-- Chunks of zeros have keys. -/
theorem keysOf_zeros (H : AgentHost Key) (predecessor : Option Key) {chunks : List (List Int)} (hzero : ∀ chunk ∈ chunks, ∀ token ∈ chunk, token = 0) :
    ∃ keys, keysOf H .byPrefix predecessor chunks = .ok keys ∧ keys.length = chunks.length := by
  induction chunks generalizing predecessor with
  | nil => exact ⟨[], rfl, rfl⟩
  | cons chunk chunks ih =>
    rw [forall_mem_cons] at hzero
    have hdigest : chunkDigest H chunk predecessor = .ok (H.chunkHash predecessor (chunk.map Int.toNat)) := by
      simp only [chunkDigest, bind_eq_ok, pure_eq_ok, checkAll_eq_ok, exists_const, ensure_eq_ok, and_true]
      intro token htoken
      rw [hzero.1 token htoken]
      decide
    obtain ⟨keys, hkeys, hlength⟩ := ih (some (H.chunkHash predecessor (chunk.map Int.toNat))) hzero.2
    refine ⟨H.chunkHash predecessor (chunk.map Int.toNat) :: keys, ?_, by rw [length_cons, hlength, length_cons]⟩
    rw [keysOf, if_pos rfl, hdigest, ok_bind, hkeys]
    rfl

theorem promptKeys_zeros (length : Nat) (input : Text) :
    ∃ keys, promptKeys (zeroHost length) 1 .byPrefix input = .ok (length, keys) ∧ keys.length = length := by
  have hzero : ∀ chunk ∈ chunksOf 1 (replicate length (0 : Int)), ∀ token ∈ chunk, token = 0 := by
    intro chunk hchunk token htoken
    obtain ⟨i, -, rfl⟩ := mem_map.mp hchunk
    exact eq_of_mem_replicate (mem_of_mem_drop (mem_of_mem_take htoken))
  obtain ⟨keys, hkeys, hlength⟩ := keysOf_zeros (zeroHost length) none hzero
  refine ⟨keys, ?_, ?_⟩
  · have htokens : intTokens ((zeroHost length).encode input) = some (replicate length 0) := intTokens_map _
    rw [promptKeys, htokens]
    simp only [require, ok_bind, hkeys, pure_eq_ok, length_replicate]
  · rw [hlength, chunksOf, length_map, length_range, length_replicate, Nat.div_one]

/-- One prompt too long for the cache, twice. -/
theorem exists_not_prefixLoads {capacity : Nat} (hpos : 1 ≤ capacity) :
    ∃ plan, compileLmcacheAgent (zeroHost (capacity + 1)) twicePrompted 1 .byPrefix capacity .file = .ok plan ∧
      (traceKeys (zeroHost (capacity + 1)) 1 twicePrompted).toFinset.card ≤ capacity + 1 ∧
        ¬∀ request ∈ plan.requests, PrefixLoads request.operations := by
  obtain ⟨keys, hkeys, hlength⟩ := promptKeys_zeros (capacity + 1) "ab".toList
  have hnodup : keys.Nodup := (promptKeys_chained hkeys).nodup (collisionFree_zero _)
  obtain ⟨enriched, first, second, henriched, hne, hsorted, hfirst, hsecond⟩ := enriched_twice (capacity + 1)
  obtain ⟨st, -, hst, hresident, -, -⟩ := exists_requestStep (hfirst ▸ hkeys) capacity .file {} 0
  obtain ⟨st', request, hst', -, hrequest, hops⟩ := exists_requestStep (hsecond ▸ hkeys) capacity .file st 1
  rw [serve_empty hpos hnodup hlength] at hresident
  have hfold : foldFrom (requestStep (zeroHost (capacity + 1)) 1 .byPrefix capacity .file) 0 {} (sortStamped enriched) = .ok st' := by
    rw [hsorted, foldFrom_cons, hst, ok_bind, foldFrom_cons, hst']
    rfl
  have hplan : ∃ plan, compileLmcacheAgent (zeroHost (capacity + 1)) twicePrompted 1 .byPrefix capacity .file = .ok plan ∧
      plan.requests = st'.requests := by
    simp only [compileLmcacheAgent, bind_eq_ok, exists_const, ensure_eq_ok, pure_eq_ok, Except.ok.injEq]
    exact ⟨_, ⟨by decide, Int.natCast_nonneg capacity, enriched, henriched, hne, st', hfold, rfl⟩, rfl⟩
  obtain ⟨plan, hplan, hrequests⟩ := hplan
  refine ⟨plan, hplan, ?_, fun hall => ?_⟩
  · have hall : traceKeys (zeroHost (capacity + 1)) 1 twicePrompted = keys ++ keys := by
      rw [traceKeys, twicePrompted, flatMap_cons, flatMap_singleton]
      have hinput : ∀ line ingest, inputOf ⟨[("input".toList, .str "ab".toList)], "trace.jsonl", line, ingest⟩ = some "ab".toList :=
        fun _ _ => rfl
      rw [hinput, hinput, Option.map_some, hkeys]
    rw [hall, toFinset_append, Finset.union_self, ← hlength]
    exact toFinset_card_le keys
  · refine not_prefixLoads_again hpos hnodup hlength ?_
    have hloads := hall request (hrequests ▸ hrequest)
    rwa [hops, hresident] at hloads

end AgentAux

/-- For a capacity and a number of chunks: in all traces with at most so many different chunks, under any digest without collisions, the
loads of every request are a beginning of its prompt, exactly when the capacity is not bounded or no less than the number. -/
theorem prefixLoads_iff (capacity chunks : Nat) :
    (∀ (Key : Type) [DecidableEq Key] (H : AgentHost Key), CollisionFree H → ∀ (records : List SourceRecord) (chunkTokens : Int)
      (sessionScope : SessionScope) (plan : Plan Key),
      compileLmcacheAgent H records chunkTokens .byPrefix capacity sessionScope = .ok plan →
        (traceKeys H chunkTokens.toNat records).toFinset.card ≤ chunks → ∀ request ∈ plan.requests, PrefixLoads request.operations) ↔
      capacity = 0 ∨ chunks ≤ capacity := by
  constructor
  · intro h
    by_contra hnot
    rw [not_or] at hnot
    obtain ⟨plan, hplan, hcard, hloads⟩ := exists_not_prefixLoads (Nat.one_le_iff_ne_zero.mpr hnot.1)
    exact hloads (h _ _ (collisionFree_zero _) _ _ _ plan hplan (hcard.trans (by omega)))
  · intro hroom Key _ H hfree records chunkTokens sessionScope plan hplan hcard
    refine prefixLoads_of_room hfree ?_ hplan
    rcases hroom with hzero | hle
    · exact .inl (by rw [hzero]; rfl)
    · exact .inr (by exact_mod_cast hcard.trans hle)

/-- One prompt of two chunks, twice, with room for one: the second request loads its second chunk but not its first. -/
theorem prefixLoads_not : CollisionFree plainHost ∧ ∃ plan, compileLmcacheAgent plainHost twicePrompted 1 .byPrefix 1 .file = .ok plan ∧
      ¬∀ request ∈ plan.requests, PrefixLoads request.operations := by
  have hplan : ((compileLmcacheAgent plainHost twicePrompted 1 .byPrefix 1 .file).toOption.any fun plan =>
      !decide (∀ request ∈ plan.requests, PrefixLoads request.operations)) = true := by decide +kernel
  obtain ⟨plan, hok, hloads⟩ := exists_ok_of_any hplan
  rw [Bool.not_eq_true', decide_eq_false_iff_not] at hloads
  exact ⟨collisionFree_plain, plan, hok, hloads⟩

end AgentTrace

end EbpfSyscall.Kvio
