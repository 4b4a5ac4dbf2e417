import EbpfSyscall.Kvio.AgentTrace
import EbpfSyscall.Lib.Checked

/-!
# Plans and the keys they need

The operations of a request on the set of the cached keys: which of them are allowed, how many keys there are on the way, and how many
operations of each kind there are. Blocks of operations that follow each other compose.
-/

namespace EbpfSyscall.Kvio

namespace AgentTrace

open Checked Residency List Finset

variable {Key : Type} [DecidableEq Key]

namespace Operation

/-- What an operation does to the set of the keys. -/
def action : Operation Key → KeyAction Key
  | load key _ => .load key
  | store key _ => .store key
  | delete key => .delete key

def isLoad : Operation Key → Bool
  | load _ _ => true
  | _ => false

def isStore : Operation Key → Bool
  | store _ _ => true
  | _ => false

def isDelete : Operation Key → Bool
  | delete _ => true
  | _ => false

/-- The key that is stored. -/
def storedKey? : Operation Key → Option Key
  | store key _ => some key
  | _ => none

/-- The index of the chunk that is loaded. -/
def loadedIndex? : Operation Key → Option Nat
  | load _ index => some index
  | _ => none

end Operation

/-- The totals of a block of operations. -/
structure Totals where
  loads : Nat
  stores : Nat
  evictions : Nat
  deriving DecidableEq, Repr

/-- Operations that find what they need from a set of keys to another, never with more keys than the bound, and their totals. -/
structure Executes (start finish : Finset Key) (operations : List (Operation Key)) (totals : Totals) (bound : Nat) : Prop where
  legal : Legal start (operations.map Operation.action)
  ends : after start (operations.map Operation.action) = finish
  within : Within bound start (operations.map Operation.action)
  loads : totals.loads = operations.countP Operation.isLoad
  stores : totals.stores = operations.countP Operation.isStore
  evictions : totals.evictions = operations.countP Operation.isDelete

theorem Executes.mono {start finish : Finset Key} {operations : List (Operation Key)} {totals : Totals} {bound larger : Nat}
    (h : Executes start finish operations totals bound) (hle : bound ≤ larger) : Executes start finish operations totals larger :=
  ⟨h.legal, h.ends, h.within.mono hle, h.loads, h.stores, h.evictions⟩

theorem Executes.append {start middle finish : Finset Key} {a b : List (Operation Key)} {first second : Totals} {bound : Nat}
    (ha : Executes start middle a first bound) (hb : Executes middle finish b second bound) :
    Executes start finish (a ++ b)
      ⟨first.loads + second.loads, first.stores + second.stores, first.evictions + second.evictions⟩ bound := by
  refine ⟨?_, ?_, ?_, ?_, ?_, ?_⟩
  · rw [map_append, legal_append, ha.ends]
    exact ⟨ha.legal, hb.legal⟩
  · rw [map_append, after_append, ha.ends, hb.ends]
  · rw [map_append, within_append, ha.ends]
    exact ⟨ha.within, hb.within⟩
  · rw [countP_append, ← ha.loads, ← hb.loads]
  · rw [countP_append, ← ha.stores, ← hb.stores]
  · rw [countP_append, ← ha.evictions, ← hb.evictions]

namespace AgentAux

/-! ## Blocks of operations -/

variable {keys : Finset Key} {bound : Nat} {key : Key} {capacity : Int}

theorem executes_nil (h : keys.card ≤ bound) : Executes keys keys [] ⟨0, 0, 0⟩ bound :=
  ⟨trivial, rfl, h, rfl, rfl, rfl⟩

theorem executes_load (h : key ∈ keys) (index : Nat) (hbound : keys.card ≤ bound) : Executes keys keys [.load key index] ⟨1, 0, 0⟩ bound :=
  ⟨⟨h, trivial⟩, rfl, ⟨hbound, hbound⟩, rfl, rfl, rfl⟩

theorem executes_store (h : key ∉ keys) (index : Nat) (hbound : keys.card + 1 ≤ bound) :
    Executes keys (insert key keys) [.store key index] ⟨0, 1, 0⟩ bound := by
  refine ⟨⟨h, trivial⟩, rfl, ⟨by omega, ?_⟩, rfl, rfl, rfl⟩
  exact (card_insert_le key keys).trans hbound

theorem executes_delete (h : key ∈ keys) (hbound : keys.card ≤ bound) : Executes keys (keys.erase key) [.delete key] ⟨0, 0, 1⟩ bound :=
  ⟨⟨h, trivial⟩, rfl, ⟨hbound, (card_erase_le).trans hbound⟩, rfl, rfl, rfl⟩

/-! ## One request -/

/-- What holds in the loop over the keys of a request, after some of them. -/
structure HitsOk (preexisting : List Key) (seen : List (Key × Nat)) (st : Hits Key) : Prop where
  resident : st.resident.Perm preexisting
  executes : Executes preexisting.toFinset preexisting.toFinset st.operations ⟨st.loads, 0, 0⟩ preexisting.length
  loaded : ∀ index, index ∈ st.operations.filterMap Operation.loadedIndex? ↔ ∃ key, (key, index) ∈ seen ∧ key ∈ preexisting
  misses : st.misses.map Prod.snd = st.newInRequest
  nodup : st.newInRequest.Nodup
  new : ∀ key, key ∈ st.newInRequest ↔ key ∉ preexisting ∧ ∃ index, (key, index) ∈ seen

theorem hitsOk_step {preexisting : List Key} {seen : List (Key × Nat)} {st : Hits Key} (h : HitsOk preexisting seen st) (item : Key × Nat) :
    HitsOk preexisting (seen ++ [item]) (hitStep preexisting st item) := by
  obtain ⟨key, index⟩ := item
  unfold hitStep
  dsimp only
  split
  · rename_i hmem
    have hload : Executes preexisting.toFinset preexisting.toFinset [.load key index] ⟨1, 0, 0⟩ preexisting.length :=
      executes_load (List.mem_toFinset.mpr hmem) index (List.toFinset_card_le _)
    refine ⟨?_, h.executes.append hload, fun other => ?_, h.misses, h.nodup, fun other => ?_⟩
    · exact (moveToEnd_perm (h.resident.mem_iff.mpr hmem)).trans h.resident
    · dsimp only
      rw [List.filterMap_append, List.mem_append, h.loaded]
      simp only [Operation.loadedIndex?, List.filterMap_cons, List.filterMap_nil, List.mem_singleton, List.mem_append, Prod.mk.injEq]
      constructor
      · rintro (⟨old, hold, hpre⟩ | rfl)
        · exact ⟨old, .inl hold, hpre⟩
        · exact ⟨key, .inr ⟨rfl, rfl⟩, hmem⟩
      · rintro ⟨old, hold | ⟨rfl, rfl⟩, hpre⟩
        · exact .inl ⟨old, hold, hpre⟩
        · exact .inr rfl
    · dsimp only
      rw [h.new]
      refine and_congr_right fun hother => exists_congr fun i => ?_
      rw [List.mem_append, List.mem_singleton, Prod.mk.injEq]
      refine ⟨.inl, fun hcases => hcases.resolve_right ?_⟩
      rintro ⟨rfl, -⟩
      exact hother hmem
  · rename_i hmem
    have hloaded : ∀ other, other ∈ st.operations.filterMap Operation.loadedIndex? ↔
        ∃ old, (old, other) ∈ seen ++ [(key, index)] ∧ old ∈ preexisting := by
      intro other
      rw [h.loaded]
      refine exists_congr fun old => and_congr_left fun hpre => ?_
      rw [List.mem_append, List.mem_singleton, Prod.mk.injEq]
      refine ⟨.inl, fun hcases => hcases.resolve_right ?_⟩
      rintro ⟨rfl, -⟩
      exact hmem hpre
    split
    · rename_i hnew
      refine ⟨h.resident, h.executes, hloaded, h.misses, h.nodup, fun other => ?_⟩
      rw [h.new]
      refine and_congr_right fun _ => ?_
      constructor
      · rintro ⟨i, hi⟩
        exact ⟨i, List.mem_append_left _ hi⟩
      · rintro ⟨i, hi⟩
        rcases List.mem_append.mp hi with hi | hi
        · exact ⟨i, hi⟩
        · rw [List.mem_singleton, Prod.mk.injEq] at hi
          rw [hi.1]
          exact ((h.new key).mp hnew).2
    · rename_i hnew
      refine ⟨h.resident, h.executes, hloaded, ?_, ?_, fun other => ?_⟩
      · dsimp only
        rw [List.map_append, h.misses]
        rfl
      · exact List.Nodup.append h.nodup (List.nodup_singleton key) (List.disjoint_singleton.mpr hnew)
      · dsimp only
        rw [List.mem_append, h.new, List.mem_singleton]
        constructor
        · rintro (⟨hpre, i, hi⟩ | rfl)
          · exact ⟨hpre, i, List.mem_append_left _ hi⟩
          · exact ⟨hmem, index, by simp⟩
        · rintro ⟨hpre, i, hi⟩
          rcases List.mem_append.mp hi with hi | hi
          · exact .inl ⟨hpre, i, hi⟩
          · rw [List.mem_singleton, Prod.mk.injEq] at hi
            exact .inr hi.1

theorem hitsOk_foldl {preexisting : List Key} {seen : List (Key × Nat)} {st : Hits Key} (h : HitsOk preexisting seen st)
    (items : List (Key × Nat)) : HitsOk preexisting (seen ++ items) (items.foldl (hitStep preexisting) st) := by
  induction items generalizing seen st with
  | nil => simpa using h
  | cons item items ih =>
    have hrest := ih (hitsOk_step h item)
    rwa [append_assoc, singleton_append] at hrest

theorem hitsOk_start (preexisting : List Key) : HitsOk preexisting [] ⟨[], 0, preexisting, [], []⟩ := by
  refine ⟨Perm.refl _, executes_nil (toFinset_card_le _), ?_, rfl, nodup_nil, ?_⟩
  · simp
  · simp

/-- A miss that is stored: at most one key is evicted first. -/
structure MissOk (capacity : Int) (key : Key) (st st' : Misses Key) : Prop where
  executes : ∃ operations evictions, st'.operations = st.operations ++ operations ∧ st'.stores = st.stores + 1 ∧
    st'.evictions = st.evictions + evictions ∧ operations.filterMap Operation.loadedIndex? = [] ∧
    Executes st.resident.toFinset st'.resident.toFinset operations ⟨0, 1, evictions⟩ st'.resident.length
  nodup : st'.resident.Nodup
  grows : st.resident.length ≤ st'.resident.length
  fits : capacity ≠ 0 → (st'.resident.length : Int) ≤ max capacity st.resident.length
  mem : ∀ other ∈ st'.resident, other = key ∨ other ∈ st.resident

theorem missOk_step (hcapacity : 0 ≤ capacity) {st : Misses Key} (hnodup : st.resident.Nodup) {miss : Nat × Key}
    (hkey : miss.2 ∉ st.resident) : MissOk capacity miss.2 st (missStep capacity st miss) := by
  obtain ⟨index, key⟩ := miss
  dsimp only at hkey
  unfold missStep evict
  split
  · rename_i hfull
    cases hresident : st.resident with
    | nil =>
      rw [hresident] at hfull
      simp at hfull
      omega
    | cons old rest =>
      rw [hresident] at hnodup hkey hfull
      rw [List.nodup_cons] at hnodup
      rw [List.mem_cons, not_or] at hkey
      have hset : setKey rest key = rest ++ [key] := if_neg hkey.2
      have hrestCard : rest.toFinset.card = rest.length := List.toFinset_card_of_nodup hnodup.2
      have hcard : (old :: rest).toFinset.card = rest.length + 1 := by
        rw [List.toFinset_cons, Finset.card_insert_of_notMem (by simpa using hnodup.1), hrestCard]
      have herase : (old :: rest).toFinset.erase old = rest.toFinset := by
        rw [List.toFinset_cons, Finset.erase_insert (by simpa using hnodup.1)]
      have hdelete : Executes (old :: rest).toFinset rest.toFinset [.delete old] ⟨0, 0, 1⟩ (rest.length + 1) := by
        have hone := executes_delete (List.mem_toFinset.mpr (List.mem_cons_self (a := old) (l := rest))) hcard.le
        rwa [herase] at hone
      have hstore : Executes rest.toFinset (insert key rest.toFinset) [.store key index] ⟨0, 1, 0⟩ (rest.length + 1) :=
        executes_store (by simpa using hkey.2) index (by rw [hrestCard])
      refine ⟨⟨[.delete old, .store key index], 1, ?_, rfl, rfl, rfl, ?_⟩, ?_, ?_, ?_, ?_⟩
      · simp
      · dsimp only
        rw [toFinset_setKey, hset, hresident, List.length_append, List.length_singleton]
        exact hdelete.append hstore
      · exact nodup_setKey hnodup.2 key
      · dsimp only
        rw [hset, hresident]
        simp
      · intro _
        dsimp only
        rw [hset, hresident]
        simp
      · intro other hother
        dsimp only at hother
        rw [hset, List.mem_append, List.mem_singleton] at hother
        rw [hresident]
        rcases hother with hother | rfl
        · exact .inr (List.mem_cons_of_mem _ hother)
        · exact .inl rfl
  · rename_i hroom
    have hset : setKey st.resident key = st.resident ++ [key] := if_neg hkey
    have hcard : st.resident.toFinset.card = st.resident.length := List.toFinset_card_of_nodup hnodup
    refine ⟨⟨[.store key index], 0, rfl, rfl, rfl, rfl, ?_⟩, nodup_setKey hnodup key, ?_, ?_, ?_⟩
    · dsimp only
      rw [toFinset_setKey, hset, List.length_append, List.length_singleton]
      exact executes_store (by simpa using hkey) index (by rw [hcard])
    · dsimp only
      rw [hset]
      simp
    · intro hne
      dsimp only
      rw [hset, List.length_append, List.length_singleton]
      have hlt : (st.resident.length : Int) < capacity := by
        by_contra hle
        exact hroom ⟨hne, by omega⟩
      push_cast
      omega
    · intro other hother
      dsimp only at hother
      rw [hset, List.mem_append, List.mem_singleton] at hother
      exact hother.symm

/-- All misses, one after the other. -/
theorem misses_foldl (hcapacity : 0 ≤ capacity) (st : Misses Key) (hnodup : st.resident.Nodup) {misses : List (Nat × Key)}
    (hmisses : (misses.map Prod.snd).Nodup) (hnew : ∀ miss ∈ misses, miss.2 ∉ st.resident) :
    let st' := misses.foldl (missStep capacity) st
    ∃ operations evictions, st'.operations = st.operations ++ operations ∧ st'.stores = st.stores + misses.length ∧
      st'.evictions = st.evictions + evictions ∧ operations.filterMap Operation.loadedIndex? = [] ∧
      Executes st.resident.toFinset st'.resident.toFinset operations ⟨0, misses.length, evictions⟩ st'.resident.length ∧
      st'.resident.Nodup ∧ st.resident.length ≤ st'.resident.length ∧
      (capacity ≠ 0 → (st'.resident.length : Int) ≤ max capacity st.resident.length) := by
  induction misses generalizing st with
  | nil =>
    refine ⟨[], 0, by simp, rfl, rfl, rfl, executes_nil ?_, hnodup, le_rfl, fun _ => le_max_right _ _⟩
    exact toFinset_card_le _
  | cons miss misses ih =>
    rw [List.map_cons, List.nodup_cons] at hmisses
    rw [List.forall_mem_cons] at hnew
    have hone := missOk_step hcapacity hnodup hnew.1
    obtain ⟨first, evicted, hops, hstores, hevictions, hloads, hexec⟩ := hone.executes
    have hrestNew : ∀ other ∈ misses, other.2 ∉ (missStep capacity st miss).resident := by
      intro other hother hmem
      rcases hone.mem _ hmem with heq | hold
      · exact hmisses.1 (heq ▸ mem_map_of_mem hother)
      · exact hnew.2 other hother hold
    obtain ⟨rest, others, hops', hstores', hevictions', hloads', hexec', hnodup', hgrows', hfits'⟩ := ih _ hone.nodup hmisses.2 hrestNew
    refine ⟨first ++ rest, evicted + others, ?_, ?_, ?_, ?_, ?_, hnodup', hone.grows.trans hgrows', fun hne => ?_⟩
    · rw [foldl_cons, hops', hops, append_assoc]
    · rw [foldl_cons, hstores', hstores, length_cons]
      omega
    · rw [foldl_cons, hevictions', hevictions, Nat.add_assoc]
    · rw [filterMap_append, hloads, hloads']
      rfl
    · have hboth := (hexec.mono hgrows').append hexec'
      rw [length_cons, Nat.add_comm misses.length 1]
      exact hboth
    · have hfirst := hone.fits hne
      have hrest := hfits' hne
      rw [foldl_cons]
      omega

/-- A request: what it does to the cache, and which chunks it loads. -/
structure ServeOk (capacity : Int) (resident keys : List Key) (hits : Hits Key) (misses : Misses Key) : Prop where
  executes : Executes resident.toFinset misses.resident.toFinset misses.operations ⟨hits.loads, misses.stores, misses.evictions⟩
    misses.resident.length
  nodup : misses.resident.Nodup
  grows : resident.length ≤ misses.resident.length
  fits : capacity ≠ 0 → (misses.resident.length : Int) ≤ max capacity resident.length
  loaded : ∀ index, index ∈ misses.operations.filterMap Operation.loadedIndex? ↔ ∃ key, keys[index]? = some key ∧ key ∈ resident

theorem serveOk (hcapacity : 0 ≤ capacity) {resident : List Key} (hnodup : resident.Nodup) (keys : List Key) :
    ServeOk capacity resident keys (serve capacity resident keys).1 (serve capacity resident keys).2 := by
  have hhits := hitsOk_foldl (hitsOk_start resident) keys.zipIdx
  rw [nil_append] at hhits
  rw [serve]
  dsimp only
  generalize keys.zipIdx.foldl (hitStep resident) ⟨[], 0, resident, [], []⟩ = hits at hhits ⊢
  have hnew : ∀ miss ∈ hits.misses, miss.2 ∉ hits.resident := by
    intro miss hmiss hmem
    have hmiss' : miss.2 ∈ hits.newInRequest := by
      rw [← hhits.misses]
      exact mem_map_of_mem hmiss
    exact ((hhits.new _).mp hmiss').1 (hhits.resident.mem_iff.mp hmem)
  obtain ⟨operations, evictions, hops, hstores, hevictions, hloads, hexec, hnodup', hgrows, hfits⟩ :=
    misses_foldl hcapacity ⟨hits.operations, 0, 0, hits.resident⟩ (hhits.resident.nodup_iff.mpr hnodup)
      (by rw [hhits.misses]; exact hhits.nodup) hnew
  generalize hits.misses.foldl (missStep capacity) ⟨hits.operations, 0, 0, hits.resident⟩ = misses at *
  dsimp only at *
  have hsame : hits.resident.toFinset = resident.toFinset := toFinset_eq_of_perm _ _ hhits.resident
  rw [hhits.resident.length_eq] at hgrows hfits
  rw [hsame] at hexec
  refine ⟨?_, hnodup', hgrows, hfits, fun index => ?_⟩
  · have hboth := (hhits.executes.mono hgrows).append hexec
    rw [hops, hstores, hevictions]
    simpa using hboth
  · rw [hops, filterMap_append, hloads, append_nil, hhits.loaded]
    simp only [mem_zipIdx_iff_getElem?]

/-! ## All requests -/

section

variable {H : AgentHost Key} {chunkTokens : Nat} {policy : Policy} {capacity : Int} {sessionScope : SessionScope}
  {st : Progress Key}

/-- What a request leaves behind. -/
theorem requestStep_ok {st' : Progress Key} {index : Nat} {item : Stamped Text}
    (h : requestStep H chunkTokens policy capacity sessionScope st index item = .ok st') :
    ∃ tokens keys request, promptKeys H chunkTokens policy item.value = .ok (tokens, keys) ∧
      request.operations = (serve capacity st.resident keys).2.operations ∧
      st'.resident = (serve capacity st.resident keys).2.resident ∧
      st'.stores = st.stores + (serve capacity st.resident keys).2.stores ∧
      st'.loads = st.loads + (serve capacity st.resident keys).1.loads ∧
      st'.evictions = st.evictions + (serve capacity st.resident keys).2.evictions ∧
      st'.maxResident = max st.maxResident (serve capacity st.resident keys).2.resident.length ∧
      st'.requests = st.requests ++ [request] := by
  simp only [requestStep, bind_eq_ok, pure_eq_ok, Except.ok.injEq] at h
  obtain ⟨⟨tokens, keys⟩, hkeys, rfl⟩ := h
  exact ⟨tokens, keys, _, hkeys, rfl, rfl, rfl, rfl, rfl, rfl, rfl⟩

/-- What holds after some requests. -/
structure ProgressOk (capacity : Int) (st : Progress Key) : Prop where
  executes : Executes ∅ st.resident.toFinset (st.requests.flatMap Request.operations) ⟨st.loads, st.stores, st.evictions⟩ st.maxResident
  nodup : st.resident.Nodup
  most : st.resident.length ≤ st.maxResident
  fits : capacity ≠ 0 → (st.maxResident : Int) ≤ capacity

theorem progressOk_step (hcapacity : 0 ≤ capacity) {st' : Progress Key} {index : Nat} {item : Stamped Text} (hst : ProgressOk capacity st)
    (h : requestStep H chunkTokens policy capacity sessionScope st index item = .ok st') : ProgressOk capacity st' := by
  obtain ⟨tokens, keys, request, -, hops, hresident, hstores, hloads, hevictions, hmax, hrequests⟩ := requestStep_ok h
  have hserve := serveOk hcapacity hst.nodup keys
  refine ⟨?_, ?_, ?_, fun hne => ?_⟩
  · rw [hresident, hstores, hloads, hevictions, hmax, hrequests, flatMap_append, flatMap_singleton, hops]
    exact (hst.executes.mono (le_max_left _ _)).append (hserve.executes.mono (le_max_right _ _))
  · rw [hresident]
    exact hserve.nodup
  · rw [hresident, hmax]
    exact le_max_right _ _
  · have hold := hst.fits hne
    have hnew := hserve.fits hne
    have hmost := hst.most
    rw [hmax]
    push_cast
    omega

theorem progressOk_foldFrom (hcapacity : 0 ≤ capacity) {items : List (Stamped Text)}
    (h : foldFrom (requestStep H chunkTokens policy capacity sessionScope) 0 {} items = .ok st) : ProgressOk capacity st := by
  refine foldFrom_invariant (fun _ st => ProgressOk capacity st) (fun _ _ _ _ _ hst hstep => progressOk_step hcapacity hst hstep) ?_ h
  exact ⟨executes_nil le_rfl, nodup_nil, le_rfl, fun _ => hcapacity⟩

end

/-! ## Rounds -/

section

variable {H : AgentHost Key} {session : Text} {earlier : List (Operation Key)} {st : Rounds Key}

/-- The keys that operations store. -/
def storedKeys (operations : List (Operation Key)) : List Key := operations.filterMap Operation.storedKey?

/-- What holds in a round after some operations: the known keys were there before or have been stored. From any keys with those that
were there before, and without the stored ones, the operations find what they need. -/
structure RoundsOk (earlier : List (Operation Key)) (st : Rounds Key) : Prop where
  known : st.known.Perm (st.warm ++ storedKeys (earlier ++ st.operations))
  nodup : st.known.Nodup
  executes : ∀ start : Finset Key, (∀ key ∈ st.warm, key ∈ start) → (∀ key ∈ storedKeys (earlier ++ st.operations), key ∉ start) →
    Executes start (start ∪ (storedKeys (earlier ++ st.operations)).toFinset) (earlier ++ st.operations) ⟨st.loads, st.stores, 0⟩
      (start.card + (storedKeys (earlier ++ st.operations)).length)

theorem card_union_stored (start : Finset Key) (stored : List Key) : (start ∪ stored.toFinset).card ≤ start.card + stored.length :=
  (card_union_le _ _).trans (Nat.add_le_add_left (toFinset_card_le _) _)

omit [DecidableEq Key] in
theorem storedKeys_concat (operations : List (Operation Key)) (operation : Operation Key) :
    storedKeys (operations ++ [operation]) = storedKeys operations ++ operation.storedKey?.toList := by
  rw [storedKeys, filterMap_append]
  cases h : operation.storedKey? <;> simp [storedKeys, h]

theorem roundsOk_prefixStep (h : RoundsOk earlier st) (index : Nat) : RoundsOk earlier (prefixStep H session st index) := by
  have hstored : storedKeys (earlier ++ (st.operations ++ [.load (H.roundHash session index) index])) = storedKeys (earlier ++ st.operations) := by
    rw [← append_assoc, storedKeys_concat]
    exact append_nil _
  unfold prefixStep
  dsimp only
  split
  · rename_i hknown
    refine ⟨by dsimp only; rw [hstored]; exact h.known, h.nodup, fun start hwarm hfresh => ?_⟩
    dsimp only at hwarm hfresh ⊢
    rw [hstored] at hfresh ⊢
    have hmem : H.roundHash session index ∈ start ∪ (storedKeys (earlier ++ st.operations)).toFinset := by
      rw [h.known.mem_iff, List.mem_append] at hknown
      rw [Finset.mem_union, List.mem_toFinset]
      exact hknown.imp (hwarm _) id
    rw [← append_assoc]
    exact (h.executes start hwarm hfresh).append (executes_load hmem index (card_union_stored _ _))
  · rename_i hknown
    have hnot : H.roundHash session index ∉ st.known := hknown
    refine ⟨?_, ?_, fun start hwarm hfresh => ?_⟩
    · dsimp only
      rw [hstored, append_assoc]
      refine (h.known.append_right _).trans ?_
      rw [append_assoc]
      exact Perm.append_left _ perm_append_comm
    · exact Nodup.append h.nodup (nodup_singleton _) (disjoint_singleton.mpr hnot)
    · dsimp only at hwarm hfresh ⊢
      rw [hstored] at hfresh ⊢
      have hmem : H.roundHash session index ∈ start ∪ (storedKeys (earlier ++ st.operations)).toFinset :=
        mem_union_left _ (hwarm _ (by simp))
      rw [← append_assoc]
      exact (h.executes start (fun key hkey => hwarm key (mem_append_left _ hkey)) hfresh).append
        (executes_load hmem index (card_union_stored _ _))

theorem roundsOk_storeStep (h : RoundsOk earlier st) (index : Nat) : RoundsOk earlier (storeStep H session st index) := by
  unfold storeStep
  dsimp only
  split
  · exact h
  · rename_i hknown
    have hstored : storedKeys (earlier ++ (st.operations ++ [.store (H.roundHash session index) index])) =
        storedKeys (earlier ++ st.operations) ++ [H.roundHash session index] := by
      rw [← List.append_assoc, storedKeys_concat]
      rfl
    refine ⟨?_, ?_, fun start hwarm hfresh => ?_⟩
    · dsimp only
      rw [hstored, ← List.append_assoc]
      exact h.known.append_right _
    · exact List.Nodup.append h.nodup (List.nodup_singleton _) (List.disjoint_singleton.mpr hknown)
    · dsimp only at hwarm hfresh ⊢
      rw [hstored] at hfresh ⊢
      have hnot : H.roundHash session index ∉ start ∪ (storedKeys (earlier ++ st.operations)).toFinset := by
        rw [Finset.mem_union, List.mem_toFinset]
        rintro (hstart | hold)
        · exact hfresh _ (by simp) hstart
        · exact hknown (h.known.mem_iff.mpr (List.mem_append_right _ hold))
      have hbefore := h.executes start hwarm fun key hkey => hfresh key (List.mem_append_left _ hkey)
      have hcard := card_union_stored start (storedKeys (earlier ++ st.operations))
      have hone : Executes _ _ [.store (H.roundHash session index) index] ⟨0, 1, 0⟩
          (start.card + (storedKeys (earlier ++ st.operations) ++ [H.roundHash session index]).length) :=
        executes_store hnot index (by rw [List.length_append, List.length_singleton]; omega)
      have hboth := (hbefore.mono (by rw [List.length_append]; omega)).append hone
      have hunion : insert (H.roundHash session index) (start ∪ (storedKeys (earlier ++ st.operations)).toFinset) =
          start ∪ (storedKeys (earlier ++ st.operations) ++ [H.roundHash session index]).toFinset := by
        ext key
        simp only [Finset.mem_insert, Finset.mem_union, List.mem_toFinset, List.mem_append, List.mem_singleton]
        tauto
      rw [hunion] at hboth
      rw [← List.append_assoc]
      exact hboth

theorem roundsOk_foldl (step : Rounds Key → Nat → Rounds Key)
    (hstep : ∀ st index, RoundsOk earlier st → RoundsOk earlier (step st index)) (indices : List Nat)
    (h : RoundsOk earlier st) : RoundsOk earlier (indices.foldl step st) := by
  induction indices generalizing st with
  | nil => exact h
  | cons index indices ih => exact ih (hstep st index h)

/-- A round after others. -/
theorem roundsOk_round (h : RoundsOk earlier st) (first last : Nat) :
    RoundsOk (earlier ++ st.operations) (roundOperations H session first last st) := by
  have hstart : RoundsOk (earlier ++ st.operations) { st with operations := [] } := by
    refine ⟨?_, h.nodup, fun start hwarm hfresh => ?_⟩
    · dsimp only
      rw [append_nil]
      exact h.known
    · dsimp only at hwarm hfresh ⊢
      rw [append_nil] at hfresh ⊢
      exact h.executes start hwarm hfresh
  exact roundsOk_foldl _ (fun _ index hst => roundsOk_storeStep hst index) _
    (roundsOk_foldl _ (fun _ index hst => roundsOk_prefixStep hst index) _ hstart)

/-- What holds after some rounds. -/
def TraceLabOk (st : TraceLabState Key) : Prop :=
  ∃ earlier, RoundsOk earlier st.rounds ∧ earlier ++ st.rounds.operations = st.requests.flatMap Request.operations

theorem traceLabOk_foldFrom {chunkTokens : Nat} {items : List (Stamped Unit)} {st : TraceLabState Key}
    (h : foldFrom (roundStep H chunkTokens) 0 {} items = .ok st) : TraceLabOk st := by
  refine foldFrom_invariant (fun _ st => TraceLabOk st) ?_ ?_ h
  · intro index st item st' _ ⟨earlier, hrounds, hops⟩ hstep
    simp only [roundStep, bind_eq_ok, exists_const, ensure_eq_ok, pure_eq_ok, Except.ok.injEq] at hstep
    obtain ⟨total, -, observed, -, -, rfl⟩ := hstep
    refine ⟨earlier ++ st.rounds.operations, roundsOk_round hrounds _ _, ?_⟩
    rw [flatMap_append, flatMap_singleton, hops]
  · refine ⟨[], ⟨Perm.refl _, nodup_nil, fun start _ _ => ?_⟩, rfl⟩
    simpa [storedKeys] using executes_nil (le_refl start.card)

end

end AgentAux

end AgentTrace

end EbpfSyscall.Kvio
