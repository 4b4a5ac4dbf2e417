import EbpfSyscall.Theorems.FilterLog

/-!
# The return value that an `openat` gets

The filter gives the entries of `openat` of a pid the return values of its exits one after the other. When entries and exits alternate and the
first is an entry, each entry gets the value of the exit that follows it. When the capture begins with the exit of an earlier
`openat`, each entry gets the value of the exit before it.
-/

namespace EbpfSyscall.FilterLog

open FilterAux List

/-- The exit of an `openat` of the pid. -/
def exitOf (pid : Int) (r : Record) : Bool := isOpenatExit r.entries && decide (r.pid = pid)

/-- The entry of an `openat` of the pid. -/
def entryOf (pid : Int) (r : Record) : Bool := isOpenatEntry r.entries && decide (r.pid = pid)

/-- The entries and exits of `openat` of the pid. -/
def openats (data : List Record) (pid : Int) : List Record := data.filter fun r => exitOf pid r || entryOf pid r

/-- They alternate; the first may be an exit. -/
def Alternates (data : List Record) (pid : Int) : Prop :=
  (openats data pid).IsChain fun a b => isOpenatExit a.entries ≠ isOpenatExit b.entries

def BeginsWithExit (data : List Record) (pid : Int) : Prop := ∃ r, (openats data pid).head? = some r ∧ isOpenatExit r.entries = true

/-- The first exit of the pid after the place. -/
def nextExit (data : List Record) (idx : Nat) (pid : Int) : Option Record := (data.drop (idx + 1)).find? (exitOf pid)

/-- The last exit of the pid before the place. -/
def lastExit (data : List Record) (idx : Nat) (pid : Int) : Option Record := ((data.take idx).filter (exitOf pid)).getLast?

/-- At the place is the entry of an `openat`, and the exit that follows it returns the descriptor. -/
structure Returns (data : List Record) (idx : Nat) (r : Record) (exit : Record) (fd : Int) : Prop where
  place : data[idx]? = some r
  entry : isOpenatEntry r.entries = true
  next : nextExit data idx r.pid = some exit
  ret : exit.ret = some fd
  nonneg : 0 ≤ fd

namespace FilterAux

variable {data : List Record} {lookahead : Int}

/-! ## The queue -/

theorem fst_patchOpenat (r : Record) (queue : List (Option Int)) : (patchOpenat r queue).1 = queue.tail := by
  unfold patchOpenat
  split
  · split <;> rfl
  · rfl
  · rfl

theorem not_exit_of_entry {r : Dict} (h : isOpenatEntry r = true) : isOpenatExit r = false := by
  unfold isOpenatEntry at h
  unfold isOpenatExit
  cases hnr : isNr r openatNr with
  | false => rfl
  | true =>
    rw [hnr, Bool.true_and, Bool.not_eq_true'] at h
    rw [h, Bool.and_false]

theorem not_isExit_of_entry {r : Record} (h : isOpenatEntry r.entries = true) : isExit r = false := by
  have hnr : isNr r.entries openatNr = true := by
    unfold isOpenatEntry at h
    exact (Bool.and_eq_true_iff.mp h).1
  rw [isExit, not_exit_of_entry h, Bool.false_or, isGenericExit, hnr]
  rfl

/-- The values that are left are those that the entries so far have not taken. -/
theorem queue_step (st : State) (idx : Nat) (r : Record) (pid : Int) : (step data lookahead st idx r).openatExitQueue pid =
      if entryOf pid r = true then (st.openatExitQueue pid).tail else st.openatExitQueue pid := by
  rcases step_cases data lookahead st idx r with ⟨hexit, heq⟩ | ⟨_, hentry, heq⟩ | ⟨_, hentry, _, heq⟩ | ⟨_, hentry, _, registered, _, heq⟩
  · have hentry : entryOf pid r = false := by
      by_contra hentry
      rw [Bool.not_eq_false, entryOf, Bool.and_eq_true_iff] at hentry
      rw [not_isExit_of_entry hentry.1] at hexit
      exact Bool.false_ne_true hexit
    rw [heq, hentry]
    rfl
  · rw [heq, openatStep, entryOf, hentry, Bool.true_and]
    dsimp only
    rw [fst_patchOpenat]
    by_cases hpid : r.pid = pid
    · subst hpid
      rw [Function.update_self, if_pos (decide_eq_true rfl)]
    · rw [Function.update_of_ne (Ne.symm hpid), if_neg (by simpa using hpid)]
  · rw [heq, entryOf, hentry]
    rfl
  · rw [heq, entryOf, hentry]
    rfl

theorem queue_stateAfter {count : Nat} (hcount : count ≤ data.length) (pid : Int) : (stateAfter data lookahead count).openatExitQueue pid =
      (collectOpenatExits data pid).drop ((data.take count).countP (entryOf pid)) := by
  induction count with
  | zero => rfl
  | succ idx ih =>
    have hr := getElem?_eq_getElem hcount
    rw [stateAfter_succ hr, queue_step, ih (Nat.le_of_succ_le hcount), take_add_one, hr, Option.toList_some, countP_append,
      countP_singleton]
    split
    · rw [tail_drop]
    · rfl

/-! ## The record that is kept -/

/-- What is held at the place of an entry of an `openat` is the patched entry. -/
theorem held_entry {count : Nat} (hcount : count ≤ data.length) {idx : Nat} {r : Record} (hr : data[idx]? = some r)
    (hentry : isOpenatEntry r.entries = true) (entries : Dict) :
    (⟨idx, entries⟩ : Kept) ∈ held (stateAfter data lookahead count) ↔
      idx < count ∧ entries = (patchOpenat r ((stateAfter data lookahead idx).openatExitQueue r.pid)).2.1 := by
  induction count with
  | zero => exact iff_of_false (Multiset.notMem_zero _) fun h => absurd h.1 (Nat.not_lt_zero idx)
  | succ last ih =>
    have hlast := getElem?_eq_getElem hcount
    rw [stateAfter_succ hlast]
    have hbefore := ih (Nat.le_of_succ_le hcount)
    rcases held_step_place data lookahead (stateAfter data lookahead last) last data[last] with ⟨hexit, heq⟩ | ⟨_, new, heq, hnew⟩
    · have hne : idx ≠ last := by
        rintro rfl
        obtain rfl := Option.some.inj (hr.symm.trans hlast)
        rw [not_isExit_of_entry hentry] at hexit
        exact Bool.false_ne_true hexit
      rw [heq, hbefore]
      exact and_congr_left fun _ => by omega
    · rw [heq, Multiset.mem_add, hbefore, Multiset.mem_singleton, Kept.mk.injEq]
      by_cases hne : idx = last
      · subst hne
        obtain rfl := Option.some.inj (hr.symm.trans hlast)
        obtain ⟨_, rfl⟩ | ⟨hno, _⟩ := hnew
        · exact ⟨fun h => ⟨Nat.lt_succ_self idx, h.elim (fun h => absurd h.1 (lt_irrefl idx)) And.right⟩, fun h => .inr ⟨rfl, h.2⟩⟩
        · rw [hentry] at hno
          exact absurd hno.symm Bool.false_ne_true
      · constructor
        · rintro (⟨hlt, heq⟩ | ⟨heq, _⟩)
          · exact ⟨Nat.lt_succ_of_lt hlt, heq⟩
          · exact absurd heq hne
        · rintro ⟨hlt, heq⟩
          exact .inl ⟨by omega, heq⟩

theorem mem_keptOf (data : List Record) (lookahead : Int) (k : Kept) :
    k ∈ keptOf data lookahead ↔ k ∈ held (stateAfter data lookahead data.length) := by
  rw [held, keptOf, Multiset.coe_add, Multiset.mem_coe, mem_append, mem_append]
  exact or_congr_right ((Buckets.sweep_perm _ keyLe).map _).mem_iff

/-- The return value of a patched entry. -/
theorem patched_ret_iff (r : Record) (queue : List (Option Int)) {fd : Int} (hfd : 0 ≤ fd) : (patchOpenat r queue).2.1.get "ret" = some (.int fd) ↔
      queue.head? = some (some fd) ∨ ((∀ ret, queue.head? = some (some ret) → ret < 0) ∧ r.ret = some fd) := by
  have hown : r.entries.get "ret" = some (.int fd) ↔ r.ret = some fd := by
    unfold Record.ret Dict.getOr
    cases r.entries.get "ret" with
    | none =>
      have hne : (-1 : Int) ≠ fd := by omega
      simp [hne]
    | some value => cases value <;> simp
  match queue with
  | [] => simpa [patchOpenat] using hown
  | none :: rest => simpa [patchOpenat] using hown
  | some ret :: rest =>
    by_cases hret : 0 ≤ ret
    · have hnot : ¬ret < 0 := by omega
      simp [patchOpenat, hret, hnot, Dict.get_set]
    · have hne : ret ≠ fd := by omega
      simpa [patchOpenat, hret, hne, not_le.mp hret] using hown

/-! ## Alternation -/

/-- An alternating list that ends with `true` has one more of it exactly when it begins with it. -/
theorem count_of_alternating (first : Bool) (rest : List Bool) (hchain : (first :: rest).IsChain (· ≠ ·))
    (hlast : (first :: rest).getLast? = some true) :
    (first :: rest).count true = (first :: rest).count false + if first = true then 1 else 0 := by
  induction rest generalizing first with
  | nil =>
    obtain rfl : first = true := by simpa using hlast
    rfl
  | cons second rest ih =>
    obtain ⟨hne, hchain⟩ := isChain_cons_cons.mp hchain
    have hcount := ih second hchain (by simpa using hlast)
    cases first with
    | true =>
      obtain rfl : second = false := by simpa using hne.symm
      rw [count_cons, count_cons (a := false) (b := true), hcount]
      simp
    | false =>
      obtain rfl : second = true := by simpa using hne.symm
      rw [count_cons, count_cons (a := false) (b := false), hcount]
      simp

variable {idx : Nat} {r : Record}

theorem take_append_cons (hr : data[idx]? = some r) : data = data.take idx ++ r :: data.drop (idx + 1) := by
  obtain ⟨hlt, rfl⟩ := List.getElem?_eq_some_iff.mp hr
  rw [← List.drop_eq_getElem_cons hlt, List.take_append_drop]

/-- The exits of the pid, before the entry and after it. -/
theorem exits_split (hr : data[idx]? = some r) (hentry : isOpenatEntry r.entries = true) :
    collectOpenatExits data r.pid = ((data.take idx).filter (exitOf r.pid)).map Record.ret ++
      ((data.drop (idx + 1)).filter (exitOf r.pid)).map Record.ret := by
  have hself : exitOf r.pid r = false := by rw [exitOf, not_exit_of_entry hentry, Bool.false_and]
  have hfilter := congrArg (filter (exitOf r.pid)) (take_append_cons hr)
  rw [filter_append, filter_cons_of_neg (by simp [hself])] at hfilter
  rw [← map_append, ← hfilter]
  rfl

/-- For each entry and exit of `openat` of the pid, whether it is an exit. -/
def exitFlags (data : List Record) (pid : Int) : List Bool := (openats data pid).map fun r => isOpenatExit r.entries

theorem count_exitFlags (data : List Record) (pid : Int) :
    (exitFlags data pid).count true = data.countP (exitOf pid) ∧ (exitFlags data pid).count false = data.countP (entryOf pid) := by
  have hentry : ∀ r : Record, isOpenatEntry r.entries = true → isOpenatExit r.entries = false := fun r => not_exit_of_entry
  constructor
  · rw [exitFlags, openats, count, countP_map, countP_filter]
    refine countP_congr fun r _ => ?_
    have := hentry r
    simp only [Function.comp_apply, exitOf, entryOf]
    grind
  · rw [exitFlags, openats, count, countP_map, countP_filter]
    refine countP_congr fun r _ => ?_
    have := hentry r
    simp only [Function.comp_apply, exitOf, entryOf]
    grind

theorem exitFlags_split (hr : data[idx]? = some r) (hentry : isOpenatEntry r.entries = true) :
    exitFlags data r.pid = exitFlags (data.take idx) r.pid ++ false :: exitFlags (data.drop (idx + 1)) r.pid := by
  have hself : (exitOf r.pid r || entryOf r.pid r) = true := by simp [entryOf, hentry]
  have hsplit := congrArg (fun records => exitFlags records r.pid) (take_append_cons hr)
  dsimp only [exitFlags, openats] at hsplit ⊢
  rw [hsplit, filter_append, filter_cons, if_pos hself, map_append, map_cons, not_exit_of_entry hentry]

/-- Before an entry, exits and entries are as many, or there is one more exit if the first was an exit. -/
theorem countP_before (halternate : Alternates data r.pid) (hr : data[idx]? = some r) (hentry : isOpenatEntry r.entries = true) :
    (¬BeginsWithExit data r.pid ∧ (data.take idx).countP (exitOf r.pid) = (data.take idx).countP (entryOf r.pid)) ∨
      (BeginsWithExit data r.pid ∧ (data.take idx).countP (exitOf r.pid) = (data.take idx).countP (entryOf r.pid) + 1) := by
  have hbegins : BeginsWithExit data r.pid ↔ (exitFlags data r.pid).head? = some true := by
    rw [exitFlags, head?_map, Option.map_eq_some_iff]
    rfl
  have hchain : (exitFlags data r.pid).IsChain (· ≠ ·) := (isChain_map _).mpr halternate
  rw [exitFlags_split hr hentry, isChain_append] at hchain
  rw [hbegins, exitFlags_split hr hentry]
  obtain ⟨htrue, hfalse⟩ := count_exitFlags (data.take idx) r.pid
  rw [← htrue, ← hfalse]
  cases hflags : exitFlags (data.take idx) r.pid with
  | nil => exact .inl ⟨by simp, rfl⟩
  | cons first rest =>
    rw [hflags] at hchain
    obtain ⟨hfront, _, hjoin⟩ := hchain
    have hlast : (first :: rest).getLast? = some true := by
      obtain ⟨last, hlast⟩ : ∃ last, (first :: rest).getLast? = some last := ⟨_, getLast?_eq_some_getLast (cons_ne_nil _ _)⟩
      have hne := hjoin last hlast false rfl
      rw [hlast]
      exact congrArg some (by simpa using hne)
    have hcount := count_of_alternating first rest hfront hlast
    rw [cons_append, head?_cons, Option.some.injEq]
    by_cases hfirst : first = true
    · rw [if_pos hfirst] at hcount
      exact .inr ⟨hfirst, hcount⟩
    · rw [if_neg hfirst] at hcount
      exact .inl ⟨hfirst, hcount⟩

/-- The value that the entry takes from the queue: that of the exit after it, or of the exit before it. -/
theorem head_queue (lookahead : Int) (halternate : Alternates data r.pid) (hr : data[idx]? = some r) (hentry : isOpenatEntry r.entries = true) :
    (¬BeginsWithExit data r.pid ∧
        ((stateAfter data lookahead idx).openatExitQueue r.pid).head? = (nextExit data idx r.pid).map Record.ret) ∨
      (BeginsWithExit data r.pid ∧ ∃ before, lastExit data idx r.pid = some before ∧
        ((stateAfter data lookahead idx).openatExitQueue r.pid).head? = some before.ret) := by
  have hlt : idx < data.length := (List.getElem?_eq_some_iff.mp hr).1
  have hlength : (((data.take idx).filter (exitOf r.pid)).map Record.ret).length = (data.take idx).countP (exitOf r.pid) := by
    rw [List.length_map, List.countP_eq_length_filter]
  rw [queue_stateAfter hlt.le, exits_split hr hentry]
  rcases countP_before halternate hr hentry with ⟨hbegins, hcount⟩ | ⟨hbegins, hcount⟩
  · refine .inl ⟨hbegins, ?_⟩
    rw [List.drop_left' (hlength.trans hcount), List.head?_map, List.head?_filter]
    rfl
  · refine .inr ⟨hbegins, ?_⟩
    have hne : (data.take idx).filter (exitOf r.pid) ≠ [] := by
      rw [← List.length_pos_iff, ← List.countP_eq_length_filter]
      omega
    have hlast := List.getLast?_eq_some_getLast hne
    refine ⟨_, hlast, ?_⟩
    rw [List.head?_drop, List.getElem?_append_left (by omega), List.getElem?_map, ← Option.map_some, ← hlast, List.getLast?_eq_getElem?,
      ← List.countP_eq_length_filter, hcount, Nat.add_sub_cancel]

/-- In records of one pid, only its entries and exits have to alternate. -/
theorem alternates_of_owner (owner : Int) (howner : ∀ r ∈ data, r.pid = owner) (h : Alternates data owner) (pid : Int) : Alternates data pid := by
  by_cases hpid : pid = owner
  · rw [hpid]
    exact h
  · have hnone : openats data pid = [] := by
      refine filter_eq_nil_iff.mpr fun r hr => ?_
      have hne : r.pid ≠ pid := fun heq => hpid (heq.symm.trans (howner r hr))
      simp [exitOf, entryOf, hne]
    rw [Alternates, hnone]
    exact IsChain.nil

end FilterAux

/-- When entries and exits of `openat` alternate for every pid among the records that pass the filters, every entry is kept with the
descriptor that the exit after it returns exactly when, for a pid whose records begin with an exit, the exit before the entry returned
the same descriptor, or none and the entry itself has it. -/
theorem openat_ret_iff (trace : List Record) (targetProcess : List Text) (targetPid : Option Int) (lookahead : Int)
    (halternate : ∀ pid, Alternates (selected targetProcess targetPid trace) pid) :
    let data := selected targetProcess targetPid trace
    (∀ idx r exit fd, Returns data idx r exit fd → ∃ k ∈ keptOf data lookahead, k.place = idx ∧ k.entries.get "ret" = some (.int fd)) ↔
      ∀ idx r exit fd, Returns data idx r exit fd → BeginsWithExit data r.pid → ∀ before, lastExit data idx r.pid = some before →
        before.ret = some fd ∨ ((∀ ret, before.ret = some ret → ret < 0) ∧ r.ret = some fd) := by
  generalize selected targetProcess targetPid trace = data at halternate
  dsimp only
  refine forall_congr' fun idx => forall_congr' fun r => forall_congr' fun exit => forall_congr' fun fd => forall_congr' fun h => ?_
  have hlt : idx < data.length := (List.getElem?_eq_some_iff.mp h.place).1
  -- the one record that is kept for the place is the patched entry
  have hkept : (∃ k ∈ keptOf data lookahead, k.place = idx ∧ k.entries.get "ret" = some (.int fd)) ↔
      (patchOpenat r ((stateAfter data lookahead idx).openatExitQueue r.pid)).2.1.get "ret" = some (.int fd) := by
    constructor
    · rintro ⟨⟨place, entries⟩, hk, rfl, hret⟩
      rw [mem_keptOf, held_entry le_rfl h.place h.entry] at hk
      rw [← hk.2]
      exact hret
    · intro hret
      exact ⟨⟨idx, _⟩, (mem_keptOf data lookahead _).mpr ((held_entry le_rfl h.place h.entry _).mpr ⟨hlt, rfl⟩), rfl, hret⟩
  rw [hkept, patched_ret_iff r _ h.nonneg]
  rcases head_queue lookahead (halternate r.pid) h.place h.entry with ⟨hbegins, hhead⟩ | ⟨hbegins, before, hbefore, hhead⟩
  · rw [hhead, h.next, Option.map_some, h.ret]
    exact iff_of_true (.inl rfl) fun hexit => absurd hexit hbegins
  · simp only [hhead, Option.some.injEq]
    constructor
    · intro hret _ other hother
      obtain rfl := Option.some.inj (hbefore.symm.trans hother)
      exact hret
    · intro hcondition
      exact hcondition hbegins before hbefore

/-- The exit of an `openat` of pid 1 that returns the descriptor. -/
def exitReturning (fd : Int) : Record where
  entries := [("filename".toList, .str []), ("pid".toList, .int 1), ("ret".toList, .int fd), ("syscall_nr".toList, .int 257)]
  pid := 1
  recPid_eq := rfl
  intFd := rfl
  intRet := fun _ => .inl rfl
  hashes := ⟨rfl, rfl⟩

/-- The capture begins with the exit of an earlier `openat`, whose descriptor the entry gets. -/
theorem openat_ret_not : (∀ pid, Alternates [exitReturning 5, sampleOpenatEntry, sampleOpenatExit] pid) ∧
      Returns [exitReturning 5, sampleOpenatEntry, sampleOpenatExit] 1 sampleOpenatEntry sampleOpenatExit 3 ∧
      filterLog [exitReturning 5, sampleOpenatEntry, sampleOpenatExit] [] none defaultLookahead =
        [sampleOpenatEntry.entries.set "ret" (.int 5)] := by
  refine ⟨alternates_of_owner 1 (by decide) ?_, ⟨rfl, by decide, by decide, by decide, by decide⟩, by decide +kernel⟩
  unfold Alternates
  decide +kernel

/-- Without the earlier exit, the entry gets the descriptor of its own. -/
theorem openat_ret_entry :
    ∃ k ∈ keptOf [sampleOpenatEntry, sampleOpenatExit] defaultLookahead, k.place = 0 ∧ k.entries.get "ret" = some (.int 3) := by
  have halternate : ∀ pid, Alternates (selected [] none [sampleOpenatEntry, sampleOpenatExit]) pid := by
    refine alternates_of_owner 1 (by decide) ?_
    unfold Alternates
    decide +kernel
  refine (openat_ret_iff [sampleOpenatEntry, sampleOpenatExit] [] none defaultLookahead halternate).mpr ?_ 0 sampleOpenatEntry
    sampleOpenatExit 3 ⟨rfl, by decide, by decide, by decide, by decide⟩
  rintro idx r exit fd h ⟨first, hfirst, hexit⟩
  have hpids : ∀ r ∈ [sampleOpenatEntry, sampleOpenatExit], r.pid = 1 := by decide
  have hpid : r.pid = 1 := hpids r (List.mem_of_getElem? h.place)
  rw [hpid] at hfirst
  obtain rfl : sampleOpenatEntry = first := Option.some.inj hfirst
  exact absurd hexit (by decide)

end EbpfSyscall.FilterLog
