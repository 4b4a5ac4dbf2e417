import EbpfSyscall.Lemmas.AgentTrace

/-!
# Chained keys in the cache

Under the prefix policy the key of a chunk depends on all chunks before it. As long as nothing is evicted, the cache has with a key the
keys of all chunks before it; when it is full, the oldest key goes first, and that is the beginning of a prompt.
-/

namespace EbpfSyscall.Kvio

namespace AgentTrace

open Checked Residency List

variable {Key : Type}

/-- Digests of chunks of one length have no collisions. -/
def CollisionFree (H : AgentHost Key) : Prop :=
  ∀ p q s t, s.length = t.length → H.chunkHash p s = H.chunkHash q t → p = q ∧ s = t

/-- The indices of the chunks that are loaded. -/
def loadedIndices (operations : List (Operation Key)) : List Nat := operations.filterMap Operation.loadedIndex?

/-- With a chunk all chunks before it are loaded. -/
def PrefixLoads (operations : List (Operation Key)) : Prop :=
  ∀ i ∈ loadedIndices operations, ∀ j < i, j ∈ loadedIndices operations

instance (operations : List (Operation Key)) : Decidable (PrefixLoads operations) := inferInstanceAs (Decidable (∀ i ∈ _, ∀ j < i, _))

/-- The keys of all complete chunks of a trace. -/
def traceKeys (H : AgentHost Key) (chunkTokens : Nat) (records : List SourceRecord) : List Key :=
  records.flatMap fun record =>
    match (inputOf record).map (promptKeys H chunkTokens .byPrefix) with
    | some (.ok (_, keys)) => keys
    | _ => []

namespace AgentAux

/-! ## Chains -/

/-- Every key is the digest of the one before it and a chunk. -/
def Chained (H : AgentHost Key) (length : Nat) : Option Key → List Key → Prop
  | _, [] => True
  | predecessor, key :: keys => (∃ tokens : List Nat, tokens.length = length ∧ key = H.chunkHash predecessor tokens) ∧ Chained H length (some key) keys

variable {H : AgentHost Key} {predecessor : Option Key} {key : Key} {keys : List Key} {length chunkTokens : Nat} {capacity : Int}
  {all : Finset Key}

theorem chunkDigest_ok {tokens : List Int}
    (h : chunkDigest H tokens predecessor = .ok key) : key = H.chunkHash predecessor (tokens.map Int.toNat) := by
  simp only [chunkDigest, bind_eq_ok, pure_eq_ok, Except.ok.injEq] at h
  obtain ⟨-, -, rfl⟩ := h
  rfl

theorem keysOf_chained {chunks : List (List Int)}
    (hlength : ∀ chunk ∈ chunks, chunk.length = length) (h : keysOf H .byPrefix predecessor chunks = .ok keys) :
    Chained H length predecessor keys := by
  induction chunks generalizing predecessor keys with
  | nil =>
    rw [keysOf, Except.ok.injEq] at h
    rw [← h]
    trivial
  | cons chunk chunks ih =>
    rw [forall_mem_cons] at hlength
    simp only [keysOf, if_true, bind_eq_ok, pure_eq_ok, Except.ok.injEq] at h
    obtain ⟨key, hkey, rest, hrest, rfl⟩ := h
    exact ⟨⟨_, by rw [length_map, hlength.1], chunkDigest_ok hkey⟩, ih hlength.2 hrest⟩

/-- The key before a place. -/
def before (predecessor : Option Key) (keys : List Key) : Nat → Option Key
  | 0 => predecessor
  | i + 1 => keys[i]?

theorem Chained.at (h : Chained H length predecessor keys) {i : Nat} (hkey : keys[i]? = some key) :
    ∃ tokens : List Nat, tokens.length = length ∧ key = H.chunkHash (before predecessor keys i) tokens := by
  induction keys generalizing predecessor i with
  | nil => cases hkey
  | cons first keys ih =>
    cases i with
    | zero =>
      cases hkey
      exact h.1
    | succ i =>
      obtain ⟨tokens, hlength, heq⟩ := ih h.2 hkey
      refine ⟨tokens, hlength, heq.trans ?_⟩
      cases i <;> rfl

/-- A key determines its place and all keys before it. -/
theorem Chained.eq_upTo (hfree : CollisionFree H) {keys' : List Key} (h : Chained H length none keys)
    (h' : Chained H length none keys') {i j : Nat} (hi : keys[i]? = some key) (hj : keys'[j]? = some key) :
    i = j ∧ ∀ m ≤ i, keys[m]? = keys'[m]? := by
  induction i generalizing j key with
  | zero =>
    obtain ⟨tokens, hlength, heq⟩ := h.at hi
    obtain ⟨tokens', hlength', heq'⟩ := h'.at hj
    have hsame := (hfree _ _ _ _ (hlength.trans hlength'.symm) (heq.symm.trans heq')).1
    cases j with
    | zero => exact ⟨rfl, fun m hm => by rw [Nat.le_zero.mp hm, hi, hj]⟩
    | succ j =>
      have hlt := (List.getElem?_eq_some_iff.mp hj).1
      have hnone := List.getElem?_eq_none_iff.mp hsame.symm
      omega
  | succ i ih =>
    obtain ⟨tokens, hlength, heq⟩ := h.at hi
    obtain ⟨tokens', hlength', heq'⟩ := h'.at hj
    have hsame := (hfree _ _ _ _ (hlength.trans hlength'.symm) (heq.symm.trans heq')).1
    have hlt := (List.getElem?_eq_some_iff.mp hi).1
    have hprev : keys[i]? = some keys[i] := List.getElem?_eq_getElem (by omega)
    cases j with
    | zero =>
      change keys[i]? = none at hsame
      rw [hprev] at hsame
      cases hsame
    | succ j =>
      change keys[i]? = keys'[j]? at hsame
      obtain ⟨rfl, hupTo⟩ := ih hprev (hsame.symm.trans hprev)
      refine ⟨rfl, fun m hm => ?_⟩
      rcases Nat.le_succ_iff.mp hm with hm | rfl
      · exact hupTo m hm
      · rw [hi, hj]

theorem Chained.nodup (hfree : CollisionFree H) (h : Chained H length none keys) : keys.Nodup := by
  rw [nodup_iff_getElem?_ne_getElem?]
  intro i j hij hj heq
  have hkey := getElem?_eq_getElem hj
  exact absurd (Chained.eq_upTo hfree h h (heq.trans hkey) hkey).1 hij.ne

theorem length_of_mem_chunksOf {tokens chunk : List Int} (h : chunk ∈ chunksOf chunkTokens tokens) : chunk.length = chunkTokens := by
  obtain ⟨i, hi, rfl⟩ := mem_map.mp h
  have hlt := mem_range.mp hi
  have hle : (i + 1) * chunkTokens ≤ tokens.length :=
    (Nat.mul_le_mul_right chunkTokens hlt).trans (Nat.div_mul_le_self tokens.length chunkTokens)
  rw [Nat.add_mul, Nat.one_mul] at hle
  rw [length_take, length_drop]
  omega

theorem promptKeys_chained {tokens : Nat} {input : Text}
    (h : promptKeys H chunkTokens .byPrefix input = .ok (tokens, keys)) : Chained H chunkTokens none keys := by
  simp only [promptKeys, bind_eq_ok, pure_eq_ok, Except.ok.injEq, Prod.mk.injEq] at h
  obtain ⟨tokenIds, -, rest, hrest, -, rfl⟩ := h
  exact keysOf_chained (fun chunk hchunk => length_of_mem_chunksOf hchunk) hrest

/-! ## Without evictions -/

variable [DecidableEq Key]

/-- There is room for some keys. -/
def Room (capacity : Int) (keys : Finset Key) : Prop := capacity = 0 ∨ (keys.card : Int) ≤ capacity

theorem missStep_of_room (hroom : Room capacity all) {st : Misses Key} (hnodup : st.resident.Nodup)
    (hresident : ∀ key ∈ st.resident, key ∈ all) {miss : Nat × Key} (hmiss : miss.2 ∈ all) (hnew : miss.2 ∉ st.resident) :
    (missStep capacity st miss).resident = st.resident ++ [miss.2] := by
  have hnot : ¬(capacity ≠ 0 ∧ capacity ≤ st.resident.length) := by
    rintro ⟨hne, hfull⟩
    have hsub : insert miss.2 st.resident.toFinset ⊆ all := by
      intro key hkey
      rcases Finset.mem_insert.mp hkey with rfl | hkey
      · exact hmiss
      · exact hresident key (mem_toFinset.mp hkey)
    have hcard := Finset.card_le_card hsub
    rw [Finset.card_insert_of_notMem (by simpa using hnew), toFinset_card_of_nodup hnodup] at hcard
    have hle := hroom.resolve_left hne
    omega
  rw [missStep, evict, if_neg hnot]
  exact if_neg hnew

theorem misses_of_room (hroom : Room capacity all) (st : Misses Key) (hnodup : st.resident.Nodup)
    (hresident : ∀ key ∈ st.resident, key ∈ all) {misses : List (Nat × Key)} (hmisses : (misses.map Prod.snd).Nodup)
    (hall : ∀ miss ∈ misses, miss.2 ∈ all) (hnew : ∀ miss ∈ misses, miss.2 ∉ st.resident) :
    (misses.foldl (missStep capacity) st).resident = st.resident ++ misses.map Prod.snd := by
  induction misses generalizing st with
  | nil => simp
  | cons miss misses ih =>
    rw [map_cons, nodup_cons] at hmisses
    rw [forall_mem_cons] at hall hnew
    have hone := missStep_of_room hroom hnodup hresident hall.1 hnew.1
    rw [foldl_cons, ih (missStep capacity st miss) ?_ ?_ hmisses.2 hall.2 ?_, hone, append_assoc]
    · rfl
    · rw [hone]
      exact Nodup.append hnodup (nodup_singleton _) (disjoint_singleton.mpr hnew.1)
    · rw [hone]
      intro key hkey
      rcases mem_append.mp hkey with hkey | hkey
      · exact hresident key hkey
      · rw [mem_singleton.mp hkey]
        exact hall.1
    · rw [hone]
      intro other hother hmem
      rcases mem_append.mp hmem with hmem | hmem
      · exact hnew.2 other hother hmem
      · exact hmisses.1 (mem_singleton.mp hmem ▸ mem_map_of_mem hother)

/-- With room for all, a request adds its keys to the cache. -/
theorem mem_serve_of_room (hroom : Room capacity all) {resident : List Key} (hnodup : resident.Nodup)
    (hresident : ∀ key ∈ resident, key ∈ all) (hkeys : ∀ key ∈ keys, key ∈ all) (key : Key) :
    key ∈ (serve capacity resident keys).2.resident ↔ key ∈ resident ∨ key ∈ keys := by
  have hhits := hitsOk_foldl (hitsOk_start resident) keys.zipIdx
  rw [nil_append] at hhits
  rw [serve]
  dsimp only
  generalize keys.zipIdx.foldl (hitStep resident) ⟨[], 0, resident, [], []⟩ = hits at hhits ⊢
  have hseen : ∀ other, (∃ index, (other, index) ∈ keys.zipIdx) ↔ other ∈ keys := by
    intro other
    simp only [mem_zipIdx_iff_getElem?]
    exact mem_iff_getElem?.symm
  have hmisses : ∀ miss ∈ hits.misses, miss.2 ∉ resident ∧ miss.2 ∈ keys := by
    intro miss hmiss
    have hmem : miss.2 ∈ hits.newInRequest := by
      rw [← hhits.misses]
      exact mem_map_of_mem hmiss
    rwa [hhits.new, hseen] at hmem
  rw [misses_of_room hroom ⟨hits.operations, 0, 0, hits.resident⟩ (hhits.resident.nodup_iff.mpr hnodup)
    (fun other hother => hresident other (hhits.resident.mem_iff.mp hother)) (by rw [hhits.misses]; exact hhits.nodup)
    (fun miss hmiss => hkeys _ (hmisses miss hmiss).2) (fun miss hmiss hmem => (hmisses miss hmiss).1 (hhits.resident.mem_iff.mp hmem)),
    mem_append, hhits.resident.mem_iff, hhits.misses, hhits.new, hseen]
  tauto

/-- A cache of the keys of whole prompts: a prompt that finds a chunk finds all chunks before it. -/
theorem prefixLoads_serve (hfree : CollisionFree H) (hcapacity : 0 ≤ capacity)
    {served : List (List Key)} (hserved : ∀ keys ∈ served, Chained H length none keys) {resident : List Key} (hnodup : resident.Nodup)
    (hresident : ∀ key, key ∈ resident ↔ ∃ old ∈ served, key ∈ old) (hkeys : Chained H length none keys) :
    PrefixLoads (serve capacity resident keys).2.operations := by
  have hloaded := (serveOk hcapacity hnodup keys).loaded
  intro i hi j hj
  rw [loadedIndices, hloaded] at hi ⊢
  obtain ⟨key, hkey, hmem⟩ := hi
  obtain ⟨old, hold, holdMem⟩ := (hresident key).mp hmem
  obtain ⟨k, hk⟩ := List.mem_iff_getElem?.mp holdMem
  obtain ⟨-, hupTo⟩ := Chained.eq_upTo hfree hkeys (hserved old hold) hkey hk
  have hlt : j < keys.length := hj.trans (List.getElem?_eq_some_iff.mp hkey).1
  refine ⟨keys[j], List.getElem?_eq_getElem hlt, (hresident _).mpr ⟨old, hold, List.mem_iff_getElem?.mpr ⟨j, ?_⟩⟩⟩
  rw [← hupTo j hj.le]
  exact List.getElem?_eq_getElem hlt

/-- What holds after some requests when there is room for all keys. -/
structure Whole (H : AgentHost Key) (chunkTokens : Nat) (all : Finset Key) (st : Progress Key) : Prop where
  nodup : st.resident.Nodup
  bounded : ∀ key ∈ st.resident, key ∈ all
  served : ∃ served : List (List Key), (∀ keys ∈ served, Chained H chunkTokens none keys) ∧
    ∀ key, key ∈ st.resident ↔ ∃ old ∈ served, key ∈ old
  loads : ∀ request ∈ st.requests, PrefixLoads request.operations

theorem whole_step (hfree : CollisionFree H) (hcapacity : 0 ≤ capacity)
    {sessionScope : SessionScope} (hroom : Room capacity all) {st st' : Progress Key} {index : Nat} {item : Stamped Text}
    (hall : ∀ tokens keys, promptKeys H chunkTokens .byPrefix item.value = .ok (tokens, keys) → ∀ key ∈ keys, key ∈ all)
    (hst : Whole H chunkTokens all st) (h : requestStep H chunkTokens .byPrefix capacity sessionScope st index item = .ok st') :
    Whole H chunkTokens all st' := by
  obtain ⟨tokens, keys, request, hprompt, hops, hresident, -, -, -, -, hrequests⟩ := requestStep_ok h
  have hchained := promptKeys_chained hprompt
  have hmem := mem_serve_of_room hroom hst.nodup hst.bounded (hall tokens keys hprompt)
  obtain ⟨served, hserved, hcached⟩ := hst.served
  refine ⟨?_, ?_, ⟨served ++ [keys], ?_, ?_⟩, ?_⟩
  · rw [hresident]
    exact (serveOk hcapacity hst.nodup keys).nodup
  · rw [hresident]
    intro key hkey
    rcases (hmem key).mp hkey with hkey | hkey
    · exact hst.bounded key hkey
    · exact hall tokens keys hprompt key hkey
  · intro old hold
    rcases mem_append.mp hold with hold | hold
    · exact hserved old hold
    · rw [mem_singleton.mp hold]
      exact hchained
  · intro key
    rw [hresident, hmem, hcached]
    simp [or_and_right, exists_or]
  · rw [hrequests]
    intro other hother
    rcases mem_append.mp hother with hother | hother
    · exact hst.loads other hother
    · rw [mem_singleton.mp hother, hops]
      exact prefixLoads_serve hfree hcapacity hserved hst.nodup hcached hchained

/-! ## With evictions -/

/-- The last keys stay in the cache. -/
theorem resident_misses {capacity : Nat} (hpos : 1 ≤ capacity) (st : Misses Key) (hnodup : st.resident.Nodup) (hle : st.resident.length ≤ capacity)
    {misses : List (Nat × Key)} (hmisses : (misses.map Prod.snd).Nodup) (hnew : ∀ miss ∈ misses, miss.2 ∉ st.resident) :
    (misses.foldl (missStep capacity) st).resident =
      (st.resident ++ misses.map Prod.snd).drop (st.resident.length + misses.length - capacity) := by
  induction misses generalizing st with
  | nil =>
    have hzero : st.resident.length - capacity = 0 := by omega
    simp [hzero]
  | cons miss misses ih =>
    rw [map_cons, nodup_cons] at hmisses
    rw [forall_mem_cons] at hnew
    have hcapacity : (0 : Int) ≤ capacity := Int.natCast_nonneg capacity
    have hone := missOk_step hcapacity hnodup hnew.1
    have hrestNew : ∀ other ∈ misses, other.2 ∉ (missStep capacity st miss).resident := by
      intro other hother hmem
      rcases hone.mem _ hmem with heq | hold
      · exact hmisses.1 (heq ▸ mem_map_of_mem hother)
      · exact hnew.2 other hother hold
    have hfits : (missStep capacity st miss).resident.length ≤ capacity := by
      have := hone.fits (by omega)
      omega
    rw [foldl_cons, ih _ hone.nodup hfits hmisses.2 hrestNew]
    by_cases hfull : st.resident.length = capacity
    · cases hresident : st.resident with
      | nil =>
        rw [hresident] at hfull
        simp at hfull
        omega
      | cons old rest =>
        have hmiss : miss.2 ∉ rest := by
          have := hnew.1
          rw [hresident, mem_cons, not_or] at this
          exact this.2
        have hafter : (missStep capacity st miss).resident = rest ++ [miss.2] := by
          have hcond : (capacity : Int) ≠ 0 ∧ (capacity : Int) ≤ st.resident.length := ⟨by omega, by omega⟩
          rw [missStep, evict, if_pos hcond, hresident]
          exact if_neg hmiss
        rw [hresident, length_cons] at hfull
        rw [hafter, length_append, length_singleton, length_cons, length_cons, map_cons, cons_append,
          append_assoc, singleton_append]
        have hfirst : rest.length + 1 + misses.length - capacity = misses.length := by omega
        have hsecond : rest.length + 1 + (misses.length + 1) - capacity = misses.length + 1 := by omega
        rw [hfirst, hsecond, drop_succ_cons]
    · have hafter : (missStep capacity st miss).resident = st.resident ++ [miss.2] := by
        have hcond : ¬((capacity : Int) ≠ 0 ∧ (capacity : Int) ≤ st.resident.length) := by omega
        rw [missStep, evict, if_neg hcond]
        exact if_neg hnew.1
      rw [hafter, length_append, length_singleton, length_cons, map_cons, append_assoc, singleton_append]
      congr 1
      omega

/-- Without a cache every key is a miss, in order. -/
theorem misses_of_empty (items : List (Key × Nat)) (st : Hits Key) (hnodup : (items.map Prod.fst).Nodup)
    (hnew : ∀ item ∈ items, item.1 ∉ st.newInRequest) :
    (items.foldl (hitStep []) st).misses = st.misses ++ items.map (fun item => (item.2, item.1)) ∧
      (items.foldl (hitStep []) st).operations = st.operations ∧ (items.foldl (hitStep []) st).resident = st.resident := by
  induction items generalizing st with
  | nil => simp
  | cons item items ih =>
    rw [map_cons, nodup_cons] at hnodup
    rw [forall_mem_cons] at hnew
    have hstep : hitStep [] st item =
        { st with newInRequest := st.newInRequest ++ [item.1], misses := st.misses ++ [(item.2, item.1)] } := by
      rw [hitStep, if_neg not_mem_nil, if_neg hnew.1]
    have hrest : ∀ other ∈ items, other.1 ∉ (hitStep [] st item).newInRequest := by
      rw [hstep]
      intro other hother hmem
      rcases mem_append.mp hmem with hmem | hmem
      · exact hnew.2 other hother hmem
      · exact hnodup.1 (mem_singleton.mp hmem ▸ mem_map_of_mem hother)
    obtain ⟨hmisses, hops, hresident⟩ := ih (hitStep [] st item) hnodup.2 hrest
    rw [foldl_cons]
    refine ⟨?_, ?_, ?_⟩
    · rw [hmisses, hstep, append_assoc]
      rfl
    · rw [hops, hstep]
    · rw [hresident, hstep]

/-- A prompt with one chunk more than there is room for pushes its own first chunk out. -/
theorem serve_empty {capacity : Nat} (hpos : 1 ≤ capacity) (hnodup : keys.Nodup) (hlength : keys.length = capacity + 1) :
    (serve capacity [] keys).2.resident = keys.tail := by
  have hkeys : keys.zipIdx.map Prod.fst = keys := zipIdx_map_fst 0 keys
  obtain ⟨hmisses, hops, hresident⟩ := misses_of_empty keys.zipIdx ⟨[], 0, [], [], []⟩ (by rw [hkeys]; exact hnodup) (by simp)
  rw [serve]
  dsimp only
  generalize keys.zipIdx.foldl (hitStep []) ⟨[], 0, [], [], []⟩ = hits at *
  have hmap : hits.misses.map Prod.snd = keys := by
    rw [hmisses, nil_append, map_map]
    exact hkeys
  have hcount : hits.misses.length = capacity + 1 := by rw [← length_map Prod.snd, hmap, hlength]
  dsimp only at hresident
  rw [resident_misses hpos ⟨hits.operations, 0, 0, hits.resident⟩ (by rw [hresident]; exact nodup_nil) (by rw [hresident]; simp)
    (by rw [hmap]; exact hnodup) (by rw [hresident]; simp)]
  dsimp only
  rw [hresident, hmap, hcount, nil_append, length_nil]
  have hone : 0 + (capacity + 1) - capacity = 1 := by omega
  rw [hone, drop_one]

/-- The same prompt again finds all chunks but the first. -/
theorem not_prefixLoads_again {capacity : Nat} (hpos : 1 ≤ capacity) (hnodup : keys.Nodup)
    (hlength : keys.length = capacity + 1) : ¬PrefixLoads (serve capacity keys.tail keys).2.operations := by
  have htail : keys.tail.Nodup := hnodup.sublist (tail_sublist keys)
  have hloaded := (serveOk (Int.natCast_nonneg capacity) htail keys).loaded
  intro h
  match keys, hnodup, hlength with
  | first :: second :: rest, hnodup, hlength =>
    have hone : 1 ∈ loadedIndices (serve capacity (second :: rest) (first :: second :: rest)).2.operations :=
      (hloaded 1).mpr ⟨second, rfl, by simp⟩
    obtain ⟨key, hkey, hmem⟩ := (hloaded 0).mp (h 1 hone 0 Nat.one_pos)
    cases hkey
    exact (nodup_cons.mp hnodup).1 hmem
  | [first], _, hlength =>
    simp at hlength
    omega

end AgentAux

end AgentTrace

end EbpfSyscall.Kvio
