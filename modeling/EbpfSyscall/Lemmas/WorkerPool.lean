import EbpfSyscall.Replayer.WorkerPool

/-!
# Lemmas about rings and the worker pool

The ring of a worker is a circular buffer, so what it holds is a list: `ring_buf_enqueue` adds to its end and `ring_buf_dequeue` takes
its first record. `worker_pool_get` gives one worker to each process for good.
-/

namespace EbpfSyscall.Replayer

variable {ρ : Type} {keys : List UInt32} {serial : Bool} {pid : UInt32} {i : Nat}

/-! ## The ring -/

namespace RingBuf

theorem toNat_next {i : UInt32} (h : i < ringBufSize) : (next i).toNat = (i.toNat + 1) % 4096 := by
  have hlt := toNat_lt h
  rw [next, UInt32.toNat_mod, UInt32.toNat_add]
  change (i.toNat + 1) % 2 ^ 32 % 4096 = (i.toNat + 1) % 4096
  omega

theorem fin_next {i : UInt32} (h : i < ringBufSize) : (⟨(next i).toNat, toNat_lt (next_lt i)⟩ : Fin 4096) = ⟨i.toNat, toNat_lt h⟩ + 1 := by
  apply Fin.ext
  rw [Fin.val_add]
  exact toNat_next h

theorem full_iff (rb : RingBuf ρ) : next rb.head = rb.tail ↔ rb.buffer.Full := by
  rw [Ring.Buffer.Full, buffer, ← fin_next rb.headLt, Fin.mk.injEq, UInt32.toNat_inj]

theorem empty_iff (rb : RingBuf ρ) : rb.head = rb.tail ↔ rb.contents = [] := by
  rw [contents, Ring.Buffer.contents_eq_nil, Ring.Buffer.Empty, buffer, Fin.mk.injEq, UInt32.toNat_inj]

theorem toNat_count (rb : RingBuf ρ) : rb.count.toNat = rb.contents.length := by
  have hhead := toNat_lt rb.headLt
  have htail := toNat_lt rb.tailLt
  rw [contents, Ring.Buffer.length_contents, Ring.Buffer.size, buffer, count, UInt32.toNat_mod, UInt32.toNat_sub, Fin.val_sub]
  change (2 ^ 32 - rb.tail.toNat + rb.head.toNat) % 2 ^ 32 % 4096 = (4096 - rb.tail.toNat + rb.head.toNat) % 4096
  omega

theorem contents_init [Inhabited ρ] : (init : RingBuf ρ).contents = [] := (empty_iff _).mp rfl

theorem contents_close (rb : RingBuf ρ) : rb.close.contents = rb.contents := rfl

/-- `ring_buf_enqueue`: it waits on a full ring, is refused after the shutdown, or adds the record to the end. -/
theorem enqueue_cases (rb : RingBuf ρ) (opt : ρ) :
    (rb.enqueue opt = .wait ∧ rb.contents ≠ [] ∧ rb.shutdown = false) ∨ (rb.enqueue opt = .refused ∧ rb.shutdown = true) ∨
      ∃ rb', rb.enqueue opt = .stored rb' ∧ rb'.contents = rb.contents ++ [opt] ∧ rb'.shutdown = false ∧ rb.shutdown = false := by
  unfold enqueue
  by_cases hshutdown : rb.shutdown = true
  · right; left
    refine ⟨?_, hshutdown⟩
    rw [if_neg fun hand => Bool.noConfusion (hand.2.symm.trans hshutdown), if_pos hshutdown]
  have hopen : rb.shutdown = false := Bool.not_eq_true _ ▸ hshutdown
  by_cases hfull : next rb.head = rb.tail
  · left
    refine ⟨if_pos ⟨hfull, hopen⟩, ?_, hopen⟩
    intro hnil
    have hempty : rb.head = rb.tail := (empty_iff rb).mpr hnil
    have hnext := toNat_next rb.headLt
    have hlt := toNat_lt rb.headLt
    rw [hfull, ← hempty] at hnext
    omega
  · right; right
    rw [if_neg fun hand => hfull hand.1, if_neg hshutdown]
    refine ⟨_, rfl, ?_, hopen, hopen⟩
    rw [contents, contents, ← Ring.Buffer.contents_push (fun h => hfull ((full_iff rb).mpr h)) opt]
    congr 1
    rw [Ring.Buffer.push]
    exact congrArg (fun i => (⟨_, i, _⟩ : Ring.Buffer 4096 ρ)) (fin_next rb.headLt)

/-- `ring_buf_dequeue`: it waits on an empty ring, returns -1 on one that is closed, or takes the first record. -/
theorem dequeue_cases (rb : RingBuf ρ) :
    (rb.dequeue = .wait ∧ rb.contents = [] ∧ rb.shutdown = false) ∨ (rb.dequeue = .closed ∧ rb.contents = [] ∧ rb.shutdown = true) ∨
      ∃ opt rb', rb.dequeue = .taken opt rb' ∧ rb.contents = opt :: rb'.contents ∧ rb'.shutdown = rb.shutdown := by
  unfold dequeue
  by_cases hempty : rb.head = rb.tail
  · have hnil := (empty_iff rb).mp hempty
    cases hshutdown : rb.shutdown with
    | false =>
      left
      exact ⟨if_pos ⟨hempty, rfl⟩, hnil, rfl⟩
    | true =>
      right; left
      rw [if_neg (by simp), if_pos hempty]
      exact ⟨rfl, hnil, rfl⟩
  · right; right
    rw [if_neg fun hand => hempty hand.1, if_neg hempty]
    refine ⟨_, _, rfl, ?_, rfl⟩
    have hne : ¬rb.buffer.Empty := fun h => hempty ((empty_iff rb).mpr (Ring.Buffer.contents_eq_nil.mpr h))
    rw [contents, Ring.Buffer.contents_pop hne]
    congr 2
    rw [Ring.Buffer.pop]
    exact congrArg (fun i => (⟨_, _, i⟩ : Ring.Buffer 4096 ρ)) (fin_next rb.tailLt).symm

end RingBuf

/-! ## The worker of a process -/

/-- The processes of the workers. -/
def poolKeys (workers : List (ReplayWorker ρ)) : List UInt32 := workers.map ReplayWorker.pid

/-- The pool gives the process this worker: its own, or the first one when the pool is full and it has none. -/
def Assigned (serial : Bool) (keys : List UInt32) (pid : UInt32) (i : Nat) : Prop :=
  let key := if serial then 0 else pid
  keys.findIdx? (fun k => k = key) = some i ∨ (keys.findIdx? (fun k => k = key) = none ∧ maxWorkers ≤ keys.length ∧ i = 0)

theorem Assigned.lt (h : Assigned serial keys pid i) : i < keys.length := by
  rcases h with h | ⟨-, hfull, rfl⟩
  · exact (List.findIdx?_eq_some_iff_findIdx_eq.mp h).1
  · exact lt_of_lt_of_le (by decide) hfull

/-- A process has one worker. -/
theorem Assigned.unique {j : Nat} (hi : Assigned serial keys pid i) (hj : Assigned serial keys pid j) : i = j := by
  rcases hi with hi | ⟨hi, -, rfl⟩
  · rcases hj with hj | ⟨hj, -, -⟩
    · exact Option.some.inj (hi.symm.trans hj)
    · exact absurd (hi.symm.trans hj) (by simp)
  · rcases hj with hj | ⟨-, -, rfl⟩
    · exact absurd (hi.symm.trans hj) (by simp)
    · rfl

/-- It keeps it when the pool grows. -/
theorem Assigned.append (h : Assigned serial keys pid i) {key : UInt32}
    (hroom : keys.length < maxWorkers) : Assigned serial (keys ++ [key]) pid i := by
  rcases h with h | ⟨-, hfull, -⟩
  · left
    rw [List.findIdx?_append, h]
    rfl
  · exact absurd hfull (not_le.mpr hroom)

/-- `worker_pool_get`: no memory for a new worker, a worker that is there, or a new one at the end. -/
theorem workerPoolGet_cases [Inhabited ρ] (serial allocated : Bool) (workers : List (ReplayWorker ρ)) (pid : UInt32) :
    workerPoolGet serial allocated workers pid = (workers, none) ∨
      (∃ i, workerPoolGet serial allocated workers pid = (workers, some i) ∧ Assigned serial (poolKeys workers) pid i) ∨
      (∃ key, workerPoolGet serial allocated workers pid = (workers ++ [⟨key, RingBuf.init, .running⟩], some workers.length) ∧
        workers.length < maxWorkers ∧ Assigned serial (poolKeys workers ++ [key]) pid workers.length) := by
  have hkeys : ∀ key : UInt32, workers.findIdx? (fun w => w.pid = key) = (poolKeys workers).findIdx? (fun k => k = key) := by
    intro key
    rw [poolKeys, List.findIdx?_map]
    rfl
  have hlength : (poolKeys workers).length = workers.length := List.length_map _
  simp only [workerPoolGet, hkeys]
  cases hfind : (poolKeys workers).findIdx? (fun k => k = if serial then 0 else pid) with
  | some i =>
    right; left
    exact ⟨i, rfl, .inl hfind⟩
  | none =>
    by_cases hfull : maxWorkers ≤ workers.length
    · right; left
      refine ⟨0, if_pos hfull, .inr ⟨hfind, ?_, rfl⟩⟩
      rw [hlength]
      exact hfull
    · cases allocated with
      | false =>
        left
        exact if_neg hfull
      | true =>
        right; right
        refine ⟨if serial then 0 else pid, if_neg hfull, not_le.mp hfull, .inl ?_⟩
        rw [List.findIdx?_append, hfind, hlength]
        simp

/-- A worker that changes without changing its process. -/
theorem poolKeys_set {workers : List (ReplayWorker ρ)} {w w' : ReplayWorker ρ} (hw : workers[i]? = some w) (hpid : w'.pid = w.pid) :
    poolKeys (workers.set i w') = poolKeys workers := by
  apply List.ext_getElem?
  intro j
  rw [poolKeys, poolKeys, List.getElem?_map, List.getElem?_map, List.getElem?_set]
  by_cases hij : i = j
  · subst hij
    obtain ⟨hlt, hget⟩ := List.getElem?_eq_some_iff.mp hw
    simp [hlt, hpid, hget]
  · simp [hij]

end EbpfSyscall.Replayer
