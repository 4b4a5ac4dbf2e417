import EbpfSyscall.Replayer.Mappings

/-!
# Every `munmap` removes the mapping of its own record

The table is keyed by the captured address alone, and two captured processes may use one address. While a process has a mapping at an
address that no other process has, its entry is its own from the `mmap` to the `munmap`; the invariant says so pair by pair, a pair
being a process and a captured address.
-/

namespace EbpfSyscall.Replayer

open Function Option Finset

/-- The `mmap` record of an entry, if it is one of the process at the address, and whether it made a mapping. -/
def MapLogEntry.mmapAt (pid : UInt32) (capAddr : UInt64) : MapLogEntry → Option (Nat × Bool)
  | .mmap p a record made => if p = pid ∧ a = capAddr then some (record, made) else none
  | _ => none

/-- The latest `mmap` record of the process at the address. -/
def latestMmap (log : List MapLogEntry) (pid : UInt32) (capAddr : UInt64) : Option (Nat × Bool) :=
  (log.filterMap (MapLogEntry.mmapAt pid capAddr)).getLast?

/-- A `munmap` removed the mapping that was made for the latest `mmap` record of the same process at the address, all of it; it was
skipped only where that record made none. -/
def OwnMapping (before : List MapLogEntry) : MapLogEntry → Prop
  | .mmap .. => True
  | .munmap pid capAddr size removed =>
    ∃ record, latestMmap before pid capAddr = some (record, true) ∧ removed = some ⟨pid, capAddr, record, size⟩
  | .skipped pid capAddr => ∃ record, latestMmap before pid capAddr = some (record, false)

/-- Every entry of the log is right. -/
def UnmapsOwn (log : List MapLogEntry) : Prop := Runs.Logged OwnMapping log

namespace MapEvent

/-- The records of each process are consistent: a process maps where it has no mapping, and unmaps a mapping that it has, all of it. -/
def Consistent (s : MapState) : MapEvent → Prop
  | .mmap pid capAddr _ _ => capAddr ≠ 0 ∧ (pid, capAddr) ∉ s.held
  | .lookup pid capAddr size => (pid, capAddr) ∈ s.held ∧ size = s.lengths pid capAddr
  | _ => True

/-- At most 1024 mappings are live at once. -/
def Room (s : MapState) : MapEvent → Prop
  | .mmap .. => s.held.card < 1024
  | _ => True

/-- No process maps an address at which another has a mapping. -/
def Apart (s : MapState) : MapEvent → Prop
  | .mmap _ capAddr _ _ => capAddr ∉ s.held.image Prod.snd
  | _ => True

instance (s : MapState) : ∀ e, Decidable (Consistent s e)
  | .mmap pid capAddr _ _ => inferInstanceAs (Decidable (capAddr ≠ 0 ∧ (pid, capAddr) ∉ s.held))
  | .lookup pid capAddr size => inferInstanceAs (Decidable ((pid, capAddr) ∈ s.held ∧ size = s.lengths pid capAddr))
  | .set _ | .munmap _ | .clear _ => inferInstanceAs (Decidable True)

instance (s : MapState) : ∀ e, Decidable (Room s e)
  | .mmap .. => inferInstanceAs (Decidable (s.held.card < 1024))
  | .set _ | .lookup .. | .munmap _ | .clear _ => inferInstanceAs (Decidable True)

instance (s : MapState) : ∀ e, Decidable (Apart s e)
  | .mmap _ capAddr _ _ => inferInstanceAs (Decidable (capAddr ∉ s.held.image Prod.snd))
  | .set _ | .lookup .. | .munmap _ | .clear _ => inferInstanceAs (Decidable True)

end MapEvent

namespace MappingsAux

/-! ## What is known of a pair -/

/-- The captured address of the record that a worker replays. -/
def busyAt : MapWorker → Option UInt64
  | .idle => none
  | .mapped capAddr _ _ | .found capAddr _ _ | .unmapped capAddr => some capAddr

/-- The replay address has the mapping of the latest record of the pair. -/
def Made (s : MapState) (pid : UInt32) (capAddr replayAddr : UInt64) : Prop :=
  ∃ record, latestMmap s.log pid capAddr = some (record, true) ∧
    s.mappings replayAddr = some ⟨pid, capAddr, record, s.lengths pid capAddr⟩

/-- A pair that its worker is not at: the entry of the table has its mapping, or it has none. -/
def Settled (s : MapState) (pid : UInt32) (capAddr : UInt64) : Prop :=
  (∃ entry, Slots.get s.table capAddr = some entry ∧ Made s pid capAddr entry.replayAddr) ∨
    Slots.get s.table capAddr = none ∧ ∃ record, latestMmap s.log pid capAddr = some (record, false)

/-- A pair that its worker is at. -/
def Busy (s : MapState) (pid : UInt32) (capAddr : UInt64) : MapWorker → Prop
  | .idle => False
  | .mapped _ replayAddr _ => Made s pid capAddr replayAddr
  | .found _ replayAddr size => Made s pid capAddr replayAddr ∧ size = s.lengths pid capAddr
  | .unmapped _ => True

/-- A pair, by where its worker stands. -/
def Known (s : MapState) (pid : UInt32) (capAddr : UInt64) (w : MapWorker) : Prop :=
  if busyAt w = some capAddr then Busy s pid capAddr w else Settled s pid capAddr

structure MapInv (s : MapState) : Prop where
  unique : Slots.Unique s.table
  owner : ∀ capAddr entry, Slots.get s.table capAddr = some entry → ∃ pid, (pid, capAddr) ∈ s.held
  apart : ∀ p q capAddr, (p, capAddr) ∈ s.held → (q, capAddr) ∈ s.held → p = q
  nonzero : ∀ pid capAddr, (pid, capAddr) ∈ s.held → capAddr ≠ 0
  room : s.held.card ≤ 1024
  busy : ∀ pid capAddr, busyAt (s.workers pid) = some capAddr → (pid, capAddr) ∈ s.held
  known : ∀ pid capAddr, (pid, capAddr) ∈ s.held → Known s pid capAddr (s.workers pid)
  good : UnmapsOwn s.log

theorem known_of_not_busy {s : MapState} {pid : UInt32} {capAddr : UInt64} {w : MapWorker} (h : busyAt w ≠ some capAddr) :
    Known s pid capAddr w ↔ Settled s pid capAddr := by
  rw [Known, if_neg h]

theorem known_of_busy {s : MapState} {pid : UInt32} {capAddr : UInt64} {w : MapWorker} (h : busyAt w = some capAddr) :
    Known s pid capAddr w ↔ Busy s pid capAddr w := by
  rw [Known, if_pos h]

theorem latestMmap_concat (log : List MapLogEntry) (e : MapLogEntry) (pid : UInt32) (capAddr : UInt64) :
    latestMmap (log ++ [e]) pid capAddr = (e.mmapAt pid capAddr).or (latestMmap log pid capAddr) := by
  rw [latestMmap, List.filterMap_append, List.getLast?_append]
  cases h : e.mmapAt pid capAddr with
  | none => simp [h, latestMmap]
  | some r => simp [h]

/-! ## What a step leaves alone -/

/-- A worker's step at a captured address: the parts of the state that belong to other pairs stay. -/
structure MovesAt (s s' : MapState) (pid : UInt32) (capAddr : UInt64) : Prop where
  table : ∀ a, a ≠ capAddr → Slots.get s'.table a = Slots.get s.table a
  mappings : ∀ r m, s.mappings r = some m → (m.pid, m.capAddr) ≠ (pid, capAddr) → s'.mappings r = some m
  workers : ∀ q, q ≠ pid → s'.workers q = s.workers q
  held : ∀ pair, pair ≠ (pid, capAddr) → (pair ∈ s'.held ↔ pair ∈ s.held)
  lengths : ∀ q a, (q, a) ≠ (pid, capAddr) → s'.lengths q a = s.lengths q a
  latest : ∀ q a, (q, a) ≠ (pid, capAddr) → latestMmap s'.log q a = latestMmap s.log q a
  before : ∀ a, busyAt (s.workers pid) = some a → a = capAddr
  after : ∀ a, busyAt (s'.workers pid) = some a → a = capAddr ∧ (pid, capAddr) ∈ s'.held

section Frame

variable {s s' : MapState} {pid q : UInt32} {capAddr a : UInt64}

theorem Made.frame (hmoves : MovesAt s s' pid capAddr) (hpair : (q, a) ≠ (pid, capAddr)) {r : UInt64} (h : Made s q a r) : Made s' q a r := by
  obtain ⟨record, hlatest, hmapping⟩ := h
  refine ⟨record, ?_, ?_⟩
  · rw [hmoves.latest q a hpair]
    exact hlatest
  · rw [hmoves.lengths q a hpair]
    exact hmoves.mappings r _ hmapping hpair

theorem Settled.frame (hmoves : MovesAt s s' pid capAddr) (ha : a ≠ capAddr) (h : Settled s q a) : Settled s' q a := by
  have hpair : (q, a) ≠ (pid, capAddr) := fun heq => ha (Prod.mk.inj heq).2
  rw [Settled, hmoves.table a ha, hmoves.latest q a hpair]
  rcases h with ⟨entry, hget, hmade⟩ | hnone
  · exact .inl ⟨entry, hget, hmade.frame hmoves hpair⟩
  · exact .inr hnone

theorem Known.frame (hmoves : MovesAt s s' pid capAddr) (ha : a ≠ capAddr) {w : MapWorker} (h : Known s q a w) : Known s' q a w := by
  have hpair : (q, a) ≠ (pid, capAddr) := fun heq => ha (Prod.mk.inj heq).2
  by_cases hbusy : busyAt w = some a
  · rw [known_of_busy hbusy] at h ⊢
    cases w with
    | idle => exact h
    | mapped _ r _ => exact Made.frame hmoves hpair h
    | found _ r size =>
      refine ⟨h.1.frame hmoves hpair, ?_⟩
      rw [hmoves.lengths q a hpair]
      exact h.2
    | unmapped _ => trivial
  · rw [known_of_not_busy hbusy] at h ⊢
    exact h.frame hmoves ha

/-- A step keeps the invariant if it keeps what concerns its own pair. -/
theorem mapInv_move (pid : UInt32) {capAddr : UInt64} (h : MapInv s) (hmoves : MovesAt s s' pid capAddr) (hunique : Slots.Unique s'.table)
    (hapart : ∀ q, (q, capAddr) ∈ s.held → q = pid) (hnonzero : capAddr ≠ 0) (hroom : s'.held.card ≤ 1024)
    (howner : ∀ entry, Slots.get s'.table capAddr = some entry → (pid, capAddr) ∈ s'.held)
    (hknown : (pid, capAddr) ∈ s'.held → Known s' pid capAddr (s'.workers pid)) (hgood : UnmapsOwn s'.log) : MapInv s' := by
  -- The pairs at the captured address are the worker's own, before and after.
  have hown : ∀ q, (q, capAddr) ∈ s'.held → q = pid := by
    intro q hq
    by_contra hne
    have hpair : (q, capAddr) ≠ (pid, capAddr) := fun heq => hne (Prod.mk.inj heq).1
    exact hne (hapart q ((hmoves.held _ hpair).mp hq))
  have hother : ∀ q a, a ≠ capAddr → ((q, a) ∈ s'.held ↔ (q, a) ∈ s.held) := fun q a ha =>
    hmoves.held _ fun heq => ha (Prod.mk.inj heq).2
  constructor
  case unique => exact hunique
  case owner =>
    intro a entry hget
    by_cases ha : a = capAddr
    · subst ha
      exact ⟨pid, howner entry hget⟩
    · rw [hmoves.table a ha] at hget
      obtain ⟨q, hq⟩ := h.owner a entry hget
      exact ⟨q, (hother q a ha).mpr hq⟩
  case apart =>
    intro p q a hp hq
    by_cases ha : a = capAddr
    · subst ha
      rw [hown p hp, hown q hq]
    · exact h.apart p q a ((hother p a ha).mp hp) ((hother q a ha).mp hq)
  case nonzero =>
    intro q a hq
    by_cases ha : a = capAddr
    · exact ha ▸ hnonzero
    · exact h.nonzero q a ((hother q a ha).mp hq)
  case room => exact hroom
  case busy =>
    intro q a hq
    by_cases hpid : q = pid
    · subst hpid
      obtain ⟨rfl, hheld⟩ := hmoves.after a hq
      exact hheld
    · rw [hmoves.workers q hpid] at hq
      exact (hmoves.held _ fun heq => hpid (Prod.mk.inj heq).1).mpr (h.busy q a hq)
  case known =>
    intro q a hq
    by_cases ha : a = capAddr
    · subst ha
      obtain rfl := hown q hq
      exact hknown hq
    · have hbefore := h.known q a ((hother q a ha).mp hq)
      by_cases hpid : q = pid
      · subst hpid
        rw [known_of_not_busy fun hbusy => ha (hmoves.before a hbusy)] at hbefore
        rw [known_of_not_busy fun hbusy => ha (hmoves.after a hbusy).1]
        exact hbefore.frame hmoves ha
      · rw [hmoves.workers q hpid]
        exact hbefore.frame hmoves ha
  case good => exact hgood

end Frame

/-! ## One lemma for each step -/

section Steps

variable {s : MapState} {pid : UInt32} {capAddr : UInt64}

theorem ne_of_pair_ne {q : UInt32} {a : UInt64} (h : (q, a) ≠ (pid, capAddr)) : ¬(pid = q ∧ capAddr = a) := by
  rintro ⟨rfl, rfl⟩
  exact h rfl

theorem lengths_update {q : UInt32} {a : UInt64} (f : UInt32 → UInt64 → UInt64) (length : UInt64) :
    Function.update f pid (Function.update (f pid) capAddr length) q a = if q = pid ∧ a = capAddr then length else f q a := by
  by_cases hq : q = pid
  · subst hq
    rw [update_self]
    by_cases ha : a = capAddr
    · subst ha
      simp
    · simp [ha]
  · simp [hq]

theorem mapInv_mmap (h : MapInv s) {length : UInt64} {result : Option UInt64} {s' : MapState} (hidle : s.workers pid = .idle)
    (hconsistent : capAddr ≠ 0 ∧ (pid, capAddr) ∉ s.held) (hroom : s.held.card < 1024) (hapart : capAddr ∉ s.held.image Prod.snd)
    (hstep : s.mmap pid capAddr length result = some s') : MapInv s' := by
  -- Nobody has the address, so the table has no entry for it.
  have hnobody : ∀ q, (q, capAddr) ∈ s.held → q = pid := fun q hq =>
    absurd (mem_image_of_mem Prod.snd hq) hapart
  have hfree : Slots.get s.table capAddr = none := by
    cases hget : Slots.get s.table capAddr with
    | none => rfl
    | some entry =>
      obtain ⟨q, hq⟩ := h.owner capAddr entry hget
      exact absurd (mem_image_of_mem Prod.snd hq) hapart
  have hcard : (insert (pid, capAddr) s.held).card ≤ 1024 := (card_insert_le _ _).trans hroom
  have hheld : ∀ pair, pair ≠ (pid, capAddr) → (pair ∈ insert (pid, capAddr) s.held ↔ pair ∈ s.held) := by
    intro pair hne
    rw [mem_insert, or_iff_right hne]
  have hlatest : ∀ made q a, (q, a) ≠ (pid, capAddr) →
      latestMmap (s.log ++ [.mmap pid capAddr s.records made]) q a = latestMmap s.log q a := by
    intro made q a hpair
    rw [latestMmap_concat, MapLogEntry.mmapAt, if_neg (ne_of_pair_ne hpair), none_or]
  have hnow : ∀ made, latestMmap (s.log ++ [.mmap pid capAddr s.records made]) pid capAddr = some (s.records, made) := by
    intro made
    rw [latestMmap_concat, MapLogEntry.mmapAt, if_pos ⟨rfl, rfl⟩, some_or]
  have hlengths : ∀ q a, (q, a) ≠ (pid, capAddr) →
      update s.lengths pid (update (s.lengths pid) capAddr length) q a = s.lengths q a := by
    intro q a hpair
    rw [lengths_update, if_neg fun hand => ne_of_pair_ne hpair ⟨hand.1.symm, hand.2.symm⟩]
  have hgood : ∀ made, UnmapsOwn (s.log ++ [.mmap pid capAddr s.records made]) := fun made => h.good.concat trivial
  cases result with
  | none =>
    obtain rfl := some.inj hstep
    refine mapInv_move pid h ?_ h.unique hnobody hconsistent.1 hcard ?_ ?_ (hgood false)
    · refine ⟨fun _ _ => rfl, fun _ _ hm _ => hm, fun _ _ => rfl, hheld, hlengths, hlatest false, ?_, ?_⟩
      · intro a ha
        rw [hidle] at ha
        cases ha
      · intro a (ha : busyAt (s.workers pid) = some a)
        rw [hidle] at ha
        cases ha
    · intro entry (hget : Slots.get s.table capAddr = some entry)
      rw [hfree] at hget
      cases hget
    · intro _
      change Known _ pid capAddr (s.workers pid)
      rw [hidle]
      exact .inr ⟨hfree, s.records, hnow false⟩
  | some addr =>
    rw [MapState.mmap, if_pos hconsistent.1] at hstep
    split at hstep
    · cases hstep
    rename_i hunused
    obtain ⟨-, hunused⟩ : addr ≠ 0 ∧ s.mappings addr = none := by simpa using hunused
    obtain rfl := some.inj hstep
    have hworker : update s.workers pid (.mapped capAddr addr length) pid = .mapped capAddr addr length :=
      update_self ..
    refine mapInv_move pid h ?_ h.unique hnobody hconsistent.1 hcard ?_ ?_ (hgood true)
    · refine ⟨fun _ _ => rfl, ?_, fun q hq => update_of_ne hq _ _, hheld, hlengths, hlatest true, ?_, ?_⟩
      · intro r m hm _
        have hr : r ≠ addr := by
          rintro rfl
          rw [hunused] at hm
          cases hm
        exact (update_of_ne hr _ _).trans hm
      · intro a ha
        rw [hidle] at ha
        cases ha
      · intro a (ha : busyAt (update s.workers pid (.mapped capAddr addr length) pid) = some a)
        rw [hworker] at ha
        exact ⟨(some.inj ha).symm, mem_insert_self ..⟩
    · intro entry (hget : Slots.get s.table capAddr = some entry)
      rw [hfree] at hget
      cases hget
    · intro _
      change Known _ pid capAddr (update s.workers pid (.mapped capAddr addr length) pid)
      rw [hworker, known_of_busy rfl]
      refine ⟨s.records, hnow true, (update_self ..).trans ?_⟩
      change _ = some (⟨pid, capAddr, s.records, update s.lengths pid _ pid capAddr⟩ : ReplayMapping)
      rw [lengths_update, if_pos ⟨rfl, rfl⟩]

theorem mapInv_set (h : MapInv s) {replayAddr length : UInt64} (hworker : s.workers pid = .mapped capAddr replayAddr length) :
    MapInv (s.set pid capAddr replayAddr length) := by
  have hheld : (pid, capAddr) ∈ s.held := h.busy pid capAddr (by rw [hworker]; rfl)
  have hmade : Made s pid capAddr replayAddr := by
    have hknown := h.known pid capAddr hheld
    rwa [hworker, known_of_busy rfl] at hknown
  -- The held pairs count the entries, so there is a slot.
  obtain ⟨table, hset⟩ : ∃ table, mmapMapSet s.table capAddr replayAddr length = some table := by
    refine Slots.exists_set h.unique capAddr ⟨replayAddr, length⟩ (s.held.image Prod.snd) ?_ ?_ ?_
    · intro a entry hget
      obtain ⟨q, hq⟩ := h.owner a entry hget
      exact mem_image_of_mem Prod.snd hq
    · exact mem_image_of_mem Prod.snd hheld
    · exact card_image_le.trans h.room
  obtain ⟨hunique, hget⟩ := Slots.set_spec h.unique hset
  rw [MapState.set, hset]
  have hidle : update s.workers pid MapWorker.idle pid = .idle := update_self ..
  refine mapInv_move pid h ?_ hunique (fun q hq => h.apart q pid capAddr hq hheld) (h.nonzero pid capAddr hheld) h.room
    (fun _ _ => hheld) ?_ h.good
  · refine ⟨fun a ha => (hget a).trans (if_neg ha), fun _ _ hm _ => hm, fun q hq => update_of_ne hq _ _, fun _ _ => Iff.rfl,
      fun _ _ _ => rfl, fun _ _ _ => rfl, ?_, ?_⟩
    · intro a ha
      rw [hworker] at ha
      exact (some.inj ha).symm
    · intro a (ha : busyAt (update s.workers pid MapWorker.idle pid) = some a)
      rw [hidle] at ha
      cases ha
  · intro _
    change Known _ pid capAddr (update s.workers pid MapWorker.idle pid)
    rw [hidle]
    exact .inl ⟨⟨replayAddr, length⟩, (hget capAddr).trans (if_pos rfl), hmade⟩

theorem mapInv_lookup (h : MapInv s) {size : UInt64} (hidle : s.workers pid = .idle) (hheld : (pid, capAddr) ∈ s.held)
    (hsize : size = s.lengths pid capAddr) : MapInv (s.lookup pid capAddr size) := by
  have hsettled : Settled s pid capAddr := by
    have hknown := h.known pid capAddr hheld
    rw [hidle] at hknown
    exact hknown
  have hnonzero := h.nonzero pid capAddr hheld
  have hapart := fun q hq => h.apart q pid capAddr hq hheld
  have hnotBusy : ∀ a, busyAt (s.workers pid) = some a → False := by
    intro a ha
    rw [hidle] at ha
    cases ha
  rw [MapState.lookup, if_neg hnonzero, mmapMapGet]
  rcases hsettled with ⟨entry, hget, hmade⟩ | ⟨hget, record, hlatest⟩
  · rw [hget]
    have hworker : update s.workers pid (MapWorker.found capAddr entry.replayAddr size) pid = .found capAddr entry.replayAddr size :=
      update_self ..
    refine mapInv_move pid h ?_ h.unique hapart hnonzero h.room (fun _ _ => hheld) ?_ h.good
    · refine ⟨fun _ _ => rfl, fun _ _ hm _ => hm, fun q hq => update_of_ne hq _ _, fun _ _ => Iff.rfl, fun _ _ _ => rfl,
        fun _ _ _ => rfl, fun a ha => (hnotBusy a ha).elim, ?_⟩
      intro a (ha : busyAt (update s.workers pid (MapWorker.found capAddr entry.replayAddr size) pid) = some a)
      rw [hworker] at ha
      exact ⟨(some.inj ha).symm, hheld⟩
    · intro _
      change Known _ pid capAddr (update s.workers pid (MapWorker.found capAddr entry.replayAddr size) pid)
      rw [hworker, known_of_busy rfl]
      exact ⟨hmade, hsize⟩
  · rw [hget]
    refine mapInv_move pid h ?_ h.unique hapart hnonzero ((card_erase_le).trans h.room) ?_ ?_ (h.good.concat ⟨record, hlatest⟩)
    · refine ⟨fun _ _ => rfl, fun _ _ hm _ => hm, fun _ _ => rfl, ?_, fun _ _ _ => rfl, ?_, fun a ha => (hnotBusy a ha).elim,
        fun a ha => (hnotBusy a ha).elim⟩
      · intro pair hne
        exact mem_erase.trans (and_iff_right hne)
      · intro q a _
        exact (latestMmap_concat ..).trans (none_or ..)
    · intro entry (hsome : Slots.get s.table capAddr = some entry)
      rw [hget] at hsome
      cases hsome
    · intro hmem
      exact absurd rfl (mem_erase.mp hmem).1

theorem mapInv_munmap (h : MapInv s) {replayAddr size : UInt64} (hworker : s.workers pid = .found capAddr replayAddr size) :
    MapInv (s.munmap pid capAddr replayAddr size) := by
  have hheld : (pid, capAddr) ∈ s.held := h.busy pid capAddr (by rw [hworker]; rfl)
  obtain ⟨⟨record, hlatest, hmapping⟩, hsize⟩ : Made s pid capAddr replayAddr ∧ size = s.lengths pid capAddr := by
    have hknown := h.known pid capAddr hheld
    rwa [hworker, known_of_busy rfl] at hknown
  have hafter : update s.workers pid (MapWorker.unmapped capAddr) pid = .unmapped capAddr := update_self ..
  refine mapInv_move pid h ?_ h.unique (fun q hq => h.apart q pid capAddr hq hheld) (h.nonzero pid capAddr hheld) h.room
    (fun _ _ => hheld) ?_ (h.good.concat ⟨record, hlatest, by rw [hmapping, hsize]⟩)
  · refine ⟨fun _ _ => rfl, ?_, fun q hq => update_of_ne hq _ _, fun _ _ => Iff.rfl, fun _ _ _ => rfl, ?_, ?_, ?_⟩
    · intro r m hm hne
      have hr : r ≠ replayAddr := by
        rintro rfl
        rw [hmapping] at hm
        obtain rfl := some.inj hm
        exact hne rfl
      exact (update_of_ne hr _ _).trans hm
    · intro q a _
      exact (latestMmap_concat ..).trans (none_or ..)
    · intro a ha
      rw [hworker] at ha
      exact (some.inj ha).symm
    · intro a (ha : busyAt (update s.workers pid (MapWorker.unmapped capAddr) pid) = some a)
      rw [hafter] at ha
      exact ⟨(some.inj ha).symm, hheld⟩
  · intro _
    change Known _ pid capAddr (update s.workers pid (MapWorker.unmapped capAddr) pid)
    rw [hafter, known_of_busy rfl]
    trivial

theorem mapInv_clear (h : MapInv s) (hworker : s.workers pid = .unmapped capAddr) : MapInv (s.clear pid capAddr) := by
  have hheld : (pid, capAddr) ∈ s.held := h.busy pid capAddr (by rw [hworker]; rfl)
  obtain ⟨hunique, hget⟩ := Slots.clear_spec h.unique capAddr
  have hidle : update s.workers pid MapWorker.idle pid = .idle := update_self ..
  refine mapInv_move pid h ?_ hunique (fun q hq => h.apart q pid capAddr hq hheld) (h.nonzero pid capAddr hheld)
    ((card_erase_le).trans h.room) ?_ ?_ h.good
  · refine ⟨fun a ha => (hget a).trans (if_neg ha), fun _ _ hm _ => hm, fun q hq => update_of_ne hq _ _, ?_, fun _ _ _ => rfl,
      fun _ _ _ => rfl, ?_, ?_⟩
    · intro pair hne
      exact mem_erase.trans (and_iff_right hne)
    · intro a ha
      rw [hworker] at ha
      exact (some.inj ha).symm
    · intro a (ha : busyAt (update s.workers pid MapWorker.idle pid) = some a)
      rw [hidle] at ha
      cases ha
  · intro entry hsome
    have hnone : Slots.get (Slots.clear s.table capAddr) capAddr = none := (hget capAddr).trans (if_pos rfl)
    exact absurd (hnone.symm.trans hsome) (by simp)
  · intro hmem
    exact absurd rfl (mem_erase.mp hmem).1

end Steps

theorem mapInv_start : MapInv MapState.start where
  unique := by
    intro i j k v w h
    cases h
  owner := by
    intro a entry hget
    have hunique : Slots.Unique MapState.start.table := by
      intro i j k v w h
      cases h
    obtain ⟨i, hi⟩ := (Slots.get_eq_some hunique).mp hget
    cases hi
  apart _ _ _ hp := absurd hp (notMem_empty _)
  nonzero _ _ hp := absurd hp (notMem_empty _)
  room := Nat.zero_le _
  busy _ _ h := by cases h
  known _ _ hp := absurd hp (notMem_empty _)
  good := Runs.logged_nil

theorem mapInv_step (s : MapState) (e : MapEvent) (s' : MapState) (h : MapInv s)
    (hok : e.Consistent s ∧ e.Room s ∧ e.Apart s) (hstep : s.step e = some s') : MapInv s' := by
  obtain ⟨hconsistent, hroom, hapart⟩ := hok
  cases e with
  | mmap pid capAddr length result =>
    rw [MapState.step] at hstep
    split at hstep
    · rename_i hidle
      exact mapInv_mmap h hidle hconsistent hroom hapart hstep
    · cases hstep
  | set pid =>
    rw [MapState.step] at hstep
    split at hstep
    · rename_i hworker
      exact some.inj hstep ▸ mapInv_set h hworker
    · cases hstep
  | lookup pid capAddr size =>
    rw [MapState.step] at hstep
    split at hstep
    · rename_i hidle
      exact some.inj hstep ▸ mapInv_lookup h hidle hconsistent.1 hconsistent.2
    · cases hstep
  | munmap pid =>
    rw [MapState.step] at hstep
    split at hstep
    · rename_i hworker
      exact some.inj hstep ▸ mapInv_munmap h hworker
    · cases hstep
  | clear pid =>
    rw [MapState.step] at hstep
    split at hstep
    · rename_i hworker
      exact some.inj hstep ▸ mapInv_clear h hworker
    · cases hstep

end MappingsAux

open MappingsAux

/-- In every interleaving of the workers over consistent records with at most 1024 mappings at once, in which no process maps an address
at which another has a mapping, every `munmap` removes the mapping of the latest `mmap` record of its own process at its address. -/
theorem mmapMap_unmapsOwn (events : List MapEvent) (s : MapState) (hrun : Runs.run MapState.step MapState.start events = some s)
    (hmeets : Runs.Meets MapState.step (fun s e => e.Consistent s ∧ e.Room s ∧ e.Apart s) MapState.start events) : UnmapsOwn s.log :=
  (Runs.invariant MapInv mapInv_step mapInv_start hmeets hrun).good

/-- Two processes map different addresses; each then unmaps its own. -/
def ownAddresses : List MapEvent :=
  [.mmap 1 0x7000 4096 (some 0x10000), .mmap 2 0x8000 8192 (some 0x20000), .set 2, .set 1, .lookup 1 0x7000 4096, .munmap 1, .clear 1,
    .lookup 2 0x8000 8192, .munmap 2, .clear 2]

theorem mmapMap_unmapsOwn_ownAddresses : ∃ s, Runs.run MapState.step MapState.start ownAddresses = some s ∧ s.log.length = 4 ∧ UnmapsOwn s.log := by
  obtain ⟨s, hrun, hlength⟩ : ∃ s, Runs.run MapState.step MapState.start ownAddresses = some s ∧ decide (s.log.length = 4) = true :=
    Runs.exists_of_any (by decide +kernel)
  exact ⟨s, hrun, of_decide_eq_true hlength, mmapMap_unmapsOwn ownAddresses s hrun (by decide +kernel)⟩

/-- Two processes map one address; the first then unmaps its mapping. -/
def sharedAddress : List MapEvent :=
  [.mmap 1 0x7000 4096 (some 0x10000), .set 1, .mmap 2 0x7000 4096 (some 0x20000), .set 2, .lookup 1 0x7000 4096, .munmap 1]

/-- The second entry replaces the first, and the first process removes the mapping of the second. -/
theorem mmapMap_unmapsOther : Runs.Meets MapState.step (fun s e => e.Consistent s ∧ e.Room s) MapState.start sharedAddress ∧
      ∃ s, Runs.run MapState.step MapState.start sharedAddress = some s ∧
        .munmap 1 0x7000 4096 (some ⟨2, 0x7000, 1, 4096⟩) ∈ s.log ∧ ¬UnmapsOwn s.log := by
  refine ⟨by decide +kernel, ?_⟩
  obtain ⟨s, hrun, hlog⟩ : ∃ s, Runs.run MapState.step MapState.start sharedAddress = some s ∧
      decide (s.log = [.mmap 1 0x7000 0 true, .mmap 2 0x7000 1 true] ++ [.munmap 1 0x7000 4096 (some ⟨2, 0x7000, 1, 4096⟩)]) = true :=
    Runs.exists_of_any (by decide +kernel)
  have hlog := of_decide_eq_true hlog
  refine ⟨s, hrun, by simp [hlog], fun hown => ?_⟩
  obtain ⟨record, -, hremoved⟩ := hown _ _ [] hlog
  simp at hremoved

end EbpfSyscall.Replayer
