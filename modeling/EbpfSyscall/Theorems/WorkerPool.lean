import EbpfSyscall.Lemmas.WorkerPool

/-!
# Every record is replayed once, in order

For each worker, what came out of its ring and what the ring holds is what went in. A worker sleeps only on an empty ring that is open and
exits only on an empty ring that is closed, and a ring is closed only after the last record; the main thread sleeps only on a ring that is
not empty. So no wake-up is lost, every step that is not a spurious wake-up brings the end closer, and the run can only end when all
workers have exited.
-/

namespace EbpfSyscall.Replayer

open List Option

variable {ρ : Type}

/-- The records of a log that belong to a worker. -/
def onWorker (i : Nat) (log : List (Nat × ρ)) : List ρ := (log.filter fun entry => entry.1 = i).map Prod.snd

/-- The records of a log that belong to a process. -/
def ofPid (pid : ρ → UInt32) (p : UInt32) (log : List (Nat × ρ)) : List ρ := (log.map Prod.snd).filter fun record => pid record = p

namespace PoolState

def mainEffort (count : Nat) : MainStage ρ → Nat
  | .reading => 3 * count + 3
  | .enqueueing .. => 3 * count + 7
  | .sleeping .. => 3 * count + 6
  | .shuttingDown i => 2 * (count - i) + count + 2
  | .joining i => count - i + 1
  | .done => 0

def stageEffort : WorkerStage → Nat
  | .running => 3
  | .sleeping => 2
  | .closing => 1
  | .exited => 0

def workerEffort (w : ReplayWorker ρ) : Nat := 2 * w.rb.contents.length + stageEffort w.stage

/-- A bound on the steps that are still to be made. -/
def effort (s : PoolState ρ) : Nat := 11 * s.trace.length + mainEffort s.workers.length s.main + (s.workers.map workerEffort).sum

end PoolState

namespace WorkerPoolAux

/-! ## The invariant -/

/-- The ring of the worker has been closed. -/
def past (i : Nat) : MainStage ρ → Bool
  | .shuttingDown j => i < j
  | .joining _ | .done => true
  | _ => false

/-- The record that the main thread has in its hands. -/
def inHand : MainStage ρ → List ρ
  | .enqueueing _ record | .sleeping _ record => [record]
  | _ => []

structure WorkerOk (s : PoolState ρ) (i : Nat) (w : ReplayWorker ρ) : Prop where
  queue : onWorker i s.dequeued ++ w.rb.contents = onWorker i s.enqueued
  shutdown : w.rb.shutdown = past i s.main
  sleeping : w.stage = .sleeping → w.rb.contents = [] ∧ w.rb.shutdown = false
  closing : w.stage = .closing ∨ w.stage = .exited → w.rb.contents = [] ∧ w.rb.shutdown = true

def MainOk (pid : ρ → UInt32) (serial : Bool) (workers : List (ReplayWorker ρ)) : MainStage ρ → Prop
  | .enqueueing i record => Assigned serial (poolKeys workers) (pid record) i
  | .sleeping i record =>
    Assigned serial (poolKeys workers) (pid record) i ∧ ∃ w, workers[i]? = some w ∧ w.rb.contents ≠ []
  | .joining j => ∀ (i : Nat) (w : ReplayWorker ρ), i < j → workers[i]? = some w → w.stage = .exited
  | .done => ∀ (i : Nat) (w : ReplayWorker ρ), workers[i]? = some w → w.stage = .exited
  | .reading | .shuttingDown _ => True

structure PoolInv (pid : ρ → UInt32) (serial : Bool) (trace : List ρ) (s : PoolState ρ) : Prop where
  workers : ∀ i w, s.workers[i]? = some w → WorkerOk s i w
  absent : ∀ i, s.workers.length ≤ i → onWorker i s.enqueued = [] ∧ onWorker i s.dequeued = []
  main : MainOk pid serial s.workers s.main
  assigned : ∀ entry ∈ s.enqueued, Assigned serial (poolKeys s.workers) (pid entry.2) entry.1
  order : (s.enqueued.map Prod.snd ++ inHand s.main ++ s.trace).Sublist trace

/-! ## Small facts -/

theorem onWorker_concat (i j : Nat) (log : List (Nat × ρ)) (record : ρ) :
    onWorker i (log ++ [(j, record)]) = if j = i then onWorker i log ++ [record] else onWorker i log := by
  by_cases h : j = i
  · subst h
    simp [onWorker]
  · simp [onWorker, h]

theorem wake_ne_sleeping (stage : WorkerStage) : stage.wake ≠ .sleeping := by
  cases stage <;> decide

theorem wake_closing {stage : WorkerStage} : stage.wake = .closing ∨ stage.wake = .exited ↔ stage = .closing ∨ stage = .exited := by
  cases stage <;> decide

theorem stageEffort_wake (stage : WorkerStage) : PoolState.stageEffort stage.wake ≤ PoolState.stageEffort stage + 1 := by
  cases stage <;> decide

theorem past_wake (i j : Nat) (stage : MainStage ρ) : past i (stage.wake j) = past i stage := by
  cases stage with
  | sleeping k record =>
    rw [MainStage.wake]
    split <;> rfl
  | _ => rfl

theorem inHand_wake (i : Nat) (stage : MainStage ρ) : inHand (stage.wake i) = inHand stage := by
  cases stage with
  | sleeping k record =>
    rw [MainStage.wake]
    split <;> rfl
  | _ => rfl

theorem mainEffort_wake (count i : Nat) (stage : MainStage ρ) : PoolState.mainEffort count (stage.wake i) ≤ PoolState.mainEffort count stage + 1 := by
  cases stage with
  | sleeping k record =>
    rw [MainStage.wake]
    split
    · exact le_rfl
    · exact Nat.le_succ _
  | _ => exact Nat.le_succ _

variable {w : ReplayWorker ρ} {s' s : PoolState ρ} {i : Nat} {workers : List (ReplayWorker ρ)} {pid : ρ → UInt32} {serial : Bool}

theorem WorkerOk.frame (h : WorkerOk s i w)
    (hin : onWorker i s'.enqueued = onWorker i s.enqueued) (hout : onWorker i s'.dequeued = onWorker i s.dequeued)
    (hpast : past i s'.main = past i s.main) : WorkerOk s' i w where
  queue := by
    rw [hin, hout]
    exact h.queue
  shutdown := by
    rw [hpast]
    exact h.shutdown
  sleeping := h.sleeping
  closing := h.closing

/-- After one worker has changed, it is enough to look at it. -/
theorem workers_set {w' : ReplayWorker ρ} (h : ∀ j w, s.workers[j]? = some w → WorkerOk s j w)
    (hset : s'.workers = s.workers.set i w') (hnew : WorkerOk s' i w')
    (hin : ∀ j, j ≠ i → onWorker j s'.enqueued = onWorker j s.enqueued) (hout : ∀ j, j ≠ i → onWorker j s'.dequeued = onWorker j s.dequeued)
    (hpast : ∀ j, j ≠ i → past j s'.main = past j s.main) : ∀ j w, s'.workers[j]? = some w → WorkerOk s' j w := by
  intro j w hj
  rw [hset, getElem?_set] at hj
  by_cases hij : i = j
  · subst hij
    rw [if_pos rfl] at hj
    split at hj
    · exact some.inj hj ▸ hnew
    · cases hj
  · rw [if_neg hij] at hj
    exact (h j w hj).frame (hin j (Ne.symm hij)) (hout j (Ne.symm hij)) (hpast j (Ne.symm hij))

/-- A worker that changes keeps what is known of the main thread, unless it leaves its exit or empties the ring that the thread sleeps on. -/
theorem mainOk_set {w' : ReplayWorker ρ} {stage : MainStage ρ}
    (hw : workers[i]? = some w) (hpid : w'.pid = w.pid) (h : MainOk pid serial workers stage)
    (hexited : w.stage = .exited → w'.stage = .exited) (hcontents : ∀ record, stage = .sleeping i record → w.rb.contents ≠ [] → w'.rb.contents ≠ []) :
    MainOk pid serial (workers.set i w') stage := by
  have hkeys := poolKeys_set hw hpid
  have hlt : i < workers.length := (List.getElem?_eq_some_iff.mp hw).1
  have hget : ∀ {P : ReplayWorker ρ → Prop}, (P w → P w') →
      ∀ (j : Nat) (v : ReplayWorker ρ), (∀ u, workers[j]? = some u → P u) → (workers.set i w')[j]? = some v → P v := by
    intro P hP j v hold hv
    rw [getElem?_set] at hv
    by_cases hij : i = j
    · subst hij
      rw [if_pos rfl, if_pos hlt] at hv
      exact some.inj hv ▸ hP (hold w hw)
    · rw [if_neg hij] at hv
      exact hold v hv
  cases stage with
  | reading => trivial
  | shuttingDown j => trivial
  | enqueueing j record =>
    rw [MainOk, hkeys]
    exact h
  | sleeping j record =>
    rw [MainOk, hkeys]
    obtain ⟨hassigned, v, hv, hne⟩ := h
    refine ⟨hassigned, ?_⟩
    by_cases hij : i = j
    · subst hij
      obtain rfl := some.inj (hw.symm.trans hv)
      exact ⟨w', by rw [getElem?_set, if_pos rfl, if_pos hlt], hcontents record rfl hne⟩
    · exact ⟨v, by rw [getElem?_set, if_neg hij]; exact hv, hne⟩
  | joining j => exact fun k v hk => hget hexited k v fun u hu => h k u hk hu
  | done => exact fun k v => hget hexited k v fun u hu => h k u hu

theorem main_wake_ne_sleeping (i : Nat) (stage : MainStage ρ) (record : ρ) : stage.wake i ≠ .sleeping i record := by
  cases stage with
  | sleeping j other =>
    rw [MainStage.wake]
    split
    · simp
    · rename_i hne
      simp [hne]
  | _ => simp [MainStage.wake]

theorem mainOk_wake (i : Nat) {stage : MainStage ρ} (h : MainOk pid serial workers stage) : MainOk pid serial workers (stage.wake i) := by
  cases stage with
  | sleeping j record =>
    rw [MainStage.wake]
    split
    · exact h.1
    · exact h
  | _ => exact h

theorem sum_map_set (f : ReplayWorker ρ → Nat) (hw : workers[i]? = some w)
    (w' : ReplayWorker ρ) : ((workers.set i w').map f).sum + f w = (workers.map f).sum + f w' := by
  induction workers generalizing i with
  | nil => simp at hw
  | cons first rest ih =>
    cases i with
    | zero =>
      obtain rfl : first = w := by simpa using hw
      simp only [set_cons_zero, map_cons, sum_cons]
      omega
    | succ i =>
      have hrest := ih (by simpa using hw)
      simp only [set_cons_succ, map_cons, sum_cons]
      omega

/-! ## One lemma for each step -/

section Steps

variable {pid : ρ → UInt32} {serial : Bool} {trace : List ρ} {s : PoolState ρ} {w : ReplayWorker ρ} {i : Nat}
  {stage : WorkerStage}

theorem feed_ok [Inhabited ρ] (h : PoolInv pid serial trace s) (hmain : s.main = .reading) (allocated : Bool) :
    PoolInv pid serial trace (s.feed pid serial allocated) ∧ (s.feed pid serial allocated).effort < s.effort := by
  have horder := h.order
  have hpast : ∀ i, past i s.main = false := by
    intro i
    rw [hmain]
    rfl
  rw [hmain] at horder
  unfold PoolState.feed
  cases htrace : s.trace with
  | nil =>
    rw [htrace] at horder
    constructor
    · refine ⟨fun i w hw => (h.workers i w hw).frame rfl rfl ?_, h.absent, trivial, h.assigned, ?_⟩
      · rw [hpast i]
        exact decide_eq_false (Nat.not_lt_zero i)
      · exact horder
    · simp only [PoolState.effort, hmain, htrace, PoolState.mainEffort]
      omega
  | cons record rest =>
    rw [htrace] at horder
    have hskip : (s.enqueued.map Prod.snd ++ [] ++ rest).Sublist trace :=
      ((List.Sublist.refl _).append (List.sublist_cons_self record rest)).trans horder
    have htake : (s.enqueued.map Prod.snd ++ [record] ++ rest).Sublist trace := by
      simpa [inHand] using horder
    rcases workerPoolGet_cases serial allocated s.workers (pid record) with hget | ⟨i, hget, hassigned⟩ | ⟨key, hget, hroom, hassigned⟩
    · simp only [hget]
      constructor
      · refine ⟨fun i w hw => (h.workers i w hw).frame rfl rfl rfl, h.absent, h.main, h.assigned, ?_⟩
        change (_ ++ inHand s.main ++ rest).Sublist trace
        rw [hmain]
        exact hskip
      · simp only [PoolState.effort, htrace, List.length_cons]
        omega
    · simp only [hget]
      constructor
      · exact ⟨fun j w hw => (h.workers j w hw).frame rfl rfl (hpast j).symm, h.absent, hassigned, h.assigned, htake⟩
      · simp only [PoolState.effort, hmain, htrace, PoolState.mainEffort, List.length_cons]
        omega
    · simp only [hget]
      have hkeys : poolKeys (s.workers ++ [⟨key, RingBuf.init, .running⟩]) = poolKeys s.workers ++ [key] := List.map_append
      have hlength : (poolKeys s.workers).length < maxWorkers := by
        rw [poolKeys, List.length_map]
        exact hroom
      constructor
      · constructor
        case workers =>
          intro j w hw
          by_cases hj : j < s.workers.length
          · rw [List.getElem?_append_left hj] at hw
            exact (h.workers j w hw).frame rfl rfl (hpast j).symm
          · obtain ⟨hin, hout⟩ := h.absent j (not_lt.mp hj)
            have hnew : w = ⟨key, RingBuf.init, .running⟩ := by
              rw [List.getElem?_append_right (not_lt.mp hj), List.getElem?_singleton] at hw
              split at hw
              · exact (Option.some.inj hw).symm
              · cases hw
            subst hnew
            refine ⟨?_, rfl, by simp, by simp⟩
            change onWorker j s.dequeued ++ RingBuf.init.contents = onWorker j s.enqueued
            rw [hin, hout, RingBuf.contents_init]
            rfl
        case absent =>
          intro j hj
          rw [List.length_append] at hj
          exact h.absent j (by omega)
        case main =>
          change Assigned serial (poolKeys _) (pid record) s.workers.length
          rw [hkeys]
          exact hassigned
        case assigned =>
          intro entry hentry
          rw [hkeys]
          exact (h.assigned entry hentry).append hlength
        case order => exact htake
      · simp only [PoolState.effort, hmain, htrace, PoolState.mainEffort, List.length_cons, List.length_append, List.map_append,
          List.sum_append, List.map_singleton, List.sum_singleton, PoolState.workerEffort, RingBuf.contents_init, PoolState.stageEffort,
          List.length_nil]
        omega

theorem enqueue_ok (h : PoolInv pid serial trace s) {record : ρ} (hmain : s.main = .enqueueing i record)
    (hw : s.workers[i]? = some w) : PoolInv pid serial trace (s.enqueue i record w) ∧ (s.enqueue i record w).effort < s.effort := by
  have hassigned : Assigned serial (poolKeys s.workers) (pid record) i := by
    have hok := h.main
    rwa [hmain] at hok
  have horder : (s.enqueued.map Prod.snd ++ [record] ++ s.trace).Sublist trace := by
    have hold := h.order
    rwa [hmain] at hold
  have hpast : ∀ j, past j s.main = false := by
    intro j
    rw [hmain]
    rfl
  have hopen : w.rb.shutdown = false := (h.workers i w hw).shutdown.trans (hpast i)
  unfold PoolState.enqueue
  rcases w.rb.enqueue_cases record with ⟨heq, hne, -⟩ | ⟨heq, hclosed⟩ | ⟨rb, heq, hcontents, hnew, -⟩
  · simp only [heq]
    constructor
    · exact ⟨fun j v hv => (h.workers j v hv).frame rfl rfl (hpast j).symm, h.absent, ⟨hassigned, w, hw, hne⟩, h.assigned, horder⟩
    · simp only [PoolState.effort, hmain, PoolState.mainEffort]
      omega
  · rw [hopen] at hclosed
    cases hclosed
  · simp only [heq]
    have hlt : i < s.workers.length := (List.getElem?_eq_some_iff.mp hw).1
    have hkeys : poolKeys (s.workers.set i { w with rb, stage := w.stage.wake }) = poolKeys s.workers := poolKeys_set hw rfl
    constructor
    · constructor
      case workers =>
        refine workers_set h.workers rfl ?_ ?_ (fun _ _ => rfl) (fun j _ => (hpast j).symm)
        · refine ⟨?_, hnew, ?_, ?_⟩
          · change onWorker i s.dequeued ++ rb.contents = onWorker i (s.enqueued ++ [(i, record)])
            rw [onWorker_concat, if_pos rfl, hcontents, ← List.append_assoc, (h.workers i w hw).queue]
          · intro hsleeping
            exact absurd hsleeping (wake_ne_sleeping _)
          · intro hclosing
            have hclosed := ((h.workers i w hw).closing (wake_closing.mp hclosing)).2
            rw [hopen] at hclosed
            cases hclosed
        · intro j hj
          exact (onWorker_concat ..).trans (if_neg (Ne.symm hj))
      case absent =>
        intro j hj
        rw [List.length_set] at hj
        have hne : i ≠ j := by omega
        refine ⟨?_, (h.absent j hj).2⟩
        rw [onWorker_concat, if_neg hne]
        exact (h.absent j hj).1
      case main => trivial
      case assigned =>
        intro entry hentry
        rw [hkeys]
        rcases List.mem_append.mp hentry with hold | hlast
        · exact h.assigned entry hold
        · obtain rfl := List.mem_singleton.mp hlast
          exact hassigned
      case order =>
        change ((s.enqueued ++ [(i, record)]).map Prod.snd ++ [] ++ s.trace).Sublist trace
        rw [List.map_append, List.append_nil]
        exact horder
    · have hsum := sum_map_set PoolState.workerEffort hw { w with rb, stage := w.stage.wake }
      have hwake := stageEffort_wake w.stage
      simp only [PoolState.workerEffort, hcontents, List.length_append, List.length_singleton] at hsum
      simp only [PoolState.effort, hmain, PoolState.mainEffort, List.length_set]
      omega

theorem shutdown_ok (h : PoolInv pid serial trace s) (hmain : s.main = .shuttingDown i) :
    PoolInv pid serial trace (s.shutdown i) ∧ (s.shutdown i).effort < s.effort := by
  have horder : (s.enqueued.map Prod.snd ++ [] ++ s.trace).Sublist trace := by
    have hold := h.order
    rwa [hmain] at hold
  unfold PoolState.shutdown
  cases hw : s.workers[i]? with
  | none =>
    have hlength : s.workers.length ≤ i := List.getElem?_eq_none_iff.mp hw
    constructor
    · refine ⟨fun j v hv => (h.workers j v hv).frame rfl rfl ?_, h.absent, ?_, h.assigned, horder⟩
      · have hj : j < i := lt_of_lt_of_le (List.getElem?_eq_some_iff.mp hv).1 hlength
        rw [hmain]
        exact (decide_eq_true hj).symm
      · intro j v hj
        exact absurd hj (Nat.not_lt_zero j)
    · simp only [PoolState.effort, hmain, PoolState.mainEffort]
      omega
  | some w =>
    have hlt : i < s.workers.length := (List.getElem?_eq_some_iff.mp hw).1
    have hpast : ∀ j, j ≠ i → past j (.shuttingDown (i + 1) : MainStage ρ) = past j s.main := by
      intro j hj
      rw [hmain]
      exact decide_eq_decide.mpr (by omega)
    have hkeys : poolKeys (s.workers.set i { w with rb := w.rb.close, stage := w.stage.wake }) = poolKeys s.workers := poolKeys_set hw rfl
    constructor
    · constructor
      case workers =>
        refine workers_set h.workers rfl ?_ (fun _ _ => rfl) (fun _ _ => rfl) hpast
        refine ⟨(h.workers i w hw).queue, (decide_eq_true (Nat.lt_succ_self i)).symm, ?_, ?_⟩
        · intro hsleeping
          exact absurd hsleeping (wake_ne_sleeping _)
        · intro hclosing
          exact ⟨((h.workers i w hw).closing (wake_closing.mp hclosing)).1, rfl⟩
      case absent =>
        intro j hj
        rw [List.length_set] at hj
        exact h.absent j hj
      case main => trivial
      case assigned =>
        intro entry hentry
        rw [hkeys]
        exact h.assigned entry hentry
      case order => exact horder
    · have hsum := sum_map_set PoolState.workerEffort hw { w with rb := w.rb.close, stage := w.stage.wake }
      have hwake := stageEffort_wake w.stage
      simp only [PoolState.workerEffort, RingBuf.contents_close] at hsum
      simp only [PoolState.effort, hmain, PoolState.mainEffort, List.length_set]
      omega

theorem join_ok (h : PoolInv pid serial trace s) (hmain : s.main = .joining i) {s' : PoolState ρ} (hstep : s.join i = some s') :
    PoolInv pid serial trace s' ∧ s'.effort < s.effort := by
  have horder : (s.enqueued.map Prod.snd ++ [] ++ s.trace).Sublist trace := by
    have hold := h.order
    rwa [hmain] at hold
  have hjoined : ∀ j w, j < i → s.workers[j]? = some w → w.stage = .exited := by
    have hok := h.main
    rwa [hmain] at hok
  have hpast : ∀ j, past j s.main = true := by
    intro j
    rw [hmain]
    rfl
  unfold PoolState.join at hstep
  cases hw : s.workers[i]? with
  | none =>
    have hlength : s.workers.length ≤ i := List.getElem?_eq_none_iff.mp hw
    rw [hw] at hstep
    obtain rfl := Option.some.inj hstep
    constructor
    · refine ⟨fun j v hv => (h.workers j v hv).frame rfl rfl (hpast j).symm, h.absent, ?_, h.assigned, horder⟩
      intro j v hv
      exact hjoined j v (lt_of_lt_of_le (List.getElem?_eq_some_iff.mp hv).1 hlength) hv
    · simp only [PoolState.effort, hmain, PoolState.mainEffort]
      omega
  | some w =>
    have hlt : i < s.workers.length := (List.getElem?_eq_some_iff.mp hw).1
    simp only [hw] at hstep
    split at hstep
    · rename_i hexited
      obtain rfl := Option.some.inj hstep
      constructor
      · refine ⟨fun j v hv => (h.workers j v hv).frame rfl rfl (hpast j).symm, h.absent, ?_, h.assigned, horder⟩
        intro j v hj hv
        rcases Nat.lt_succ_iff_lt_or_eq.mp hj with hbefore | rfl
        · exact hjoined j v hbefore hv
        · obtain rfl := Option.some.inj (hw.symm.trans hv)
          exact hexited
      · simp only [PoolState.effort, hmain, PoolState.mainEffort]
        omega
    · cases hstep

/-- A step of a worker that neither touches its ring nor the logs. -/
theorem stage_ok (h : PoolInv pid serial trace s) (hw : s.workers[i]? = some w)
    (hexited : w.stage = .exited → stage = .exited) (hsleeping : stage = .sleeping → w.rb.contents = [] ∧ w.rb.shutdown = false)
    (hclosing : stage = .closing ∨ stage = .exited → w.rb.contents = [] ∧ w.rb.shutdown = true) :
    PoolInv pid serial trace { s with workers := s.workers.set i { w with stage } } := by
  have hkeys : poolKeys (s.workers.set i { w with stage }) = poolKeys s.workers := poolKeys_set hw rfl
  constructor
  case workers =>
    refine workers_set h.workers rfl ?_ (fun _ _ => rfl) (fun _ _ => rfl) (fun _ _ => rfl)
    exact ⟨(h.workers i w hw).queue, (h.workers i w hw).shutdown, hsleeping, hclosing⟩
  case absent =>
    intro j hj
    rw [List.length_set] at hj
    exact h.absent j hj
  case main => exact mainOk_set hw rfl h.main hexited fun _ _ hne => hne
  case assigned =>
    intro entry hentry
    rw [hkeys]
    exact h.assigned entry hentry
  case order => exact h.order

theorem stage_effort (hw : s.workers[i]? = some w) (hless : PoolState.stageEffort stage < PoolState.stageEffort w.stage) :
    ({ s with workers := s.workers.set i { w with stage } } : PoolState ρ).effort < s.effort := by
  have hsum := sum_map_set PoolState.workerEffort hw { w with stage }
  simp only [PoolState.workerEffort] at hsum
  simp only [PoolState.effort, List.length_set]
  omega

theorem dequeue_ok (h : PoolInv pid serial trace s) (hw : s.workers[i]? = some w)
    (hrunning : w.stage = .running) : PoolInv pid serial trace (s.dequeue i w) ∧ (s.dequeue i w).effort < s.effort := by
  unfold PoolState.dequeue
  rcases w.rb.dequeue_cases with ⟨heq, hnil, hopen⟩ | ⟨heq, hnil, hclosed⟩ | ⟨record, rb, heq, hcontents, hshutdown⟩
  · simp only [heq]
    refine ⟨stage_ok h hw (by simp [hrunning]) (fun _ => ⟨hnil, hopen⟩) (by simp), stage_effort hw ?_⟩
    rw [hrunning]
    decide
  · simp only [heq]
    refine ⟨stage_ok h hw (by simp [hrunning]) (by simp) (fun _ => ⟨hnil, hclosed⟩), stage_effort hw ?_⟩
    rw [hrunning]
    decide
  · simp only [heq]
    have hkeys : poolKeys (s.workers.set i { w with rb }) = poolKeys s.workers := poolKeys_set hw rfl
    have hlt : i < s.workers.length := (List.getElem?_eq_some_iff.mp hw).1
    constructor
    · constructor
      case workers =>
        refine workers_set h.workers rfl ?_ (fun _ _ => rfl) ?_ (fun j _ => past_wake j i s.main)
        · refine ⟨?_, ?_, by simp [hrunning], by simp [hrunning]⟩
          · change onWorker i (s.dequeued ++ [(i, record)]) ++ rb.contents = onWorker i s.enqueued
            rw [onWorker_concat, if_pos rfl, List.append_assoc, List.singleton_append, ← hcontents]
            exact (h.workers i w hw).queue
          · change rb.shutdown = past i (s.main.wake i)
            rw [hshutdown, past_wake]
            exact (h.workers i w hw).shutdown
        · intro j hj
          exact (onWorker_concat ..).trans (if_neg (Ne.symm hj))
      case absent =>
        intro j hj
        rw [List.length_set] at hj
        have hne : i ≠ j := by omega
        refine ⟨(h.absent j hj).1, ?_⟩
        rw [onWorker_concat, if_neg hne]
        exact (h.absent j hj).2
      case main =>
        -- The signal wakes a main thread that sleeps on this ring, so it does not matter that the ring may be empty now.
        refine mainOk_set hw rfl (mainOk_wake i h.main) (by simp [hrunning]) ?_
        intro record hsleeps
        exact absurd hsleeps (main_wake_ne_sleeping i s.main record)
      case assigned =>
        intro entry hentry
        rw [hkeys]
        exact h.assigned entry hentry
      case order =>
        change (s.enqueued.map Prod.snd ++ inHand (s.main.wake i) ++ s.trace).Sublist trace
        rw [inHand_wake]
        exact h.order
    · have hsum := sum_map_set PoolState.workerEffort hw { w with rb }
      have hwake := mainEffort_wake s.workers.length i s.main
      simp only [PoolState.workerEffort, hcontents, List.length_cons] at hsum
      simp only [PoolState.effort, List.length_set]
      omega

theorem check_ok (h : PoolInv pid serial trace s) (hw : s.workers[i]? = some w)
    (hclosing : w.stage = .closing) : PoolInv pid serial trace (s.check i w) ∧ (s.check i w).effort < s.effort := by
  obtain ⟨hnil, hclosed⟩ := (h.workers i w hw).closing (.inl hclosing)
  have hcount : w.rb.count = 0 := by
    rw [← UInt32.toNat_inj, w.rb.toNat_count, hnil]
    rfl
  unfold PoolState.check
  rw [if_pos hcount]
  refine ⟨stage_ok h hw (fun _ => rfl) (by simp) (fun _ => ⟨hnil, hclosed⟩), stage_effort hw ?_⟩
  rw [hclosing]
  decide

theorem wakeWorker_ok (h : PoolInv pid serial trace s) (hw : s.workers[i]? = some w)
    (hsleeping : w.stage = .sleeping) : PoolInv pid serial trace { s with workers := s.workers.set i { w with stage := .running } } :=
  stage_ok h hw (by simp [hsleeping]) (by simp) (by simp)

theorem wakeMain_ok (h : PoolInv pid serial trace s) {record : ρ} (hmain : s.main = .sleeping i record) :
    PoolInv pid serial trace { s with main := .enqueueing i record } := by
  have hok := h.main
  have horder := h.order
  rw [hmain] at hok horder
  refine ⟨fun j w hw => (h.workers j w hw).frame rfl rfl ?_, h.absent, hok.1, h.assigned, horder⟩
  rw [hmain]
  rfl

theorem workerStep_eq_some {f : ReplayWorker ρ → PoolState ρ} {s' : PoolState ρ} :
    s.workerStep i stage f = some s' ↔ ∃ w, s.workers[i]? = some w ∧ w.stage = stage ∧ f w = s' := by
  unfold PoolState.workerStep
  cases s.workers[i]? with
  | none => simp
  | some w => simp

end Steps

theorem poolInv_start (pid : ρ → UInt32) (serial : Bool) (trace : List ρ) : PoolInv pid serial trace (PoolState.start trace) where
  workers i w hw := by simp [PoolState.start] at hw
  absent _ _ := ⟨rfl, rfl⟩
  main := trivial
  assigned _ h := absurd h List.not_mem_nil
  order := List.Sublist.refl trace

/-- A step keeps the invariant and, unless it is a spurious wake-up, brings the end closer. -/
theorem poolInv_step [Inhabited ρ] {trace : List ρ} {e : PoolEvent} (h : PoolInv pid serial trace s) (hstep : s.step pid serial e = some s') :
    PoolInv pid serial trace s' ∧ (¬e.Spurious → s'.effort < s.effort) := by
  have hboth : ∀ {t : PoolState ρ}, PoolInv pid serial trace t ∧ t.effort < s.effort → t = s' →
      PoolInv pid serial trace s' ∧ (¬e.Spurious → s'.effort < s.effort) := by
    intro t ht heq
    subst heq
    exact ⟨ht.1, fun _ => ht.2⟩
  cases e with
  | feed allocated =>
    rw [PoolState.step] at hstep
    split at hstep
    · rename_i hmain
      exact hboth (feed_ok h hmain allocated) (Option.some.inj hstep)
    · cases hstep
  | enqueue =>
    rw [PoolState.step] at hstep
    split at hstep
    · rename_i hmain
      obtain ⟨w, hw, heq⟩ := Option.map_eq_some_iff.mp hstep
      exact hboth (enqueue_ok h hmain hw) heq
    · cases hstep
  | shutdown =>
    rw [PoolState.step] at hstep
    split at hstep
    · rename_i hmain
      exact hboth (shutdown_ok h hmain) (Option.some.inj hstep)
    · cases hstep
  | join =>
    rw [PoolState.step] at hstep
    split at hstep
    · rename_i hmain
      exact hboth (join_ok h hmain hstep) rfl
    · cases hstep
  | dequeue i =>
    obtain ⟨w, hw, hrunning, heq⟩ := workerStep_eq_some.mp hstep
    exact hboth (dequeue_ok h hw hrunning) heq
  | check i =>
    obtain ⟨w, hw, hclosing, heq⟩ := workerStep_eq_some.mp hstep
    exact hboth (check_ok h hw hclosing) heq
  | wakeMain =>
    rw [PoolState.step] at hstep
    split at hstep
    · rename_i hmain
      obtain rfl := Option.some.inj hstep
      exact ⟨wakeMain_ok h hmain, fun hnot => absurd trivial hnot⟩
    · cases hstep
  | wakeWorker i =>
    obtain ⟨w, hw, hsleeping, heq⟩ := workerStep_eq_some.mp hstep
    subst heq
    exact ⟨wakeWorker_ok h hw hsleeping, fun hnot => absurd trivial hnot⟩

/-! ## What the invariant says -/

section Meaning

variable {pid : ρ → UInt32} {serial : Bool} {trace : List ρ} {s : PoolState ρ}

theorem mem_onWorker {i : Nat} {record : ρ} {log : List (Nat × ρ)} : record ∈ onWorker i log ↔ (i, record) ∈ log := by
  simp [onWorker]

/-- What came out of a ring is the first part of what went in. -/
theorem onWorker_dequeued (h : PoolInv pid serial trace s) (i : Nat) : onWorker i s.dequeued <+: onWorker i s.enqueued := by
  cases hw : s.workers[i]? with
  | none =>
    rw [(h.absent i (getElem?_eq_none_iff.mp hw)).2]
    exact nil_prefix
  | some w =>
    rw [← (h.workers i w hw).queue]
    exact prefix_append _ _

/-- A log in which the records of a process belong to one worker. -/
theorem ofPid_eq {p : UInt32} {i : Nat} {log : List (Nat × ρ)} (hone : ∀ entry ∈ log, pid entry.2 = p → entry.1 = i) :
    ofPid pid p log = (onWorker i log).filter fun record => pid record = p := by
  rw [ofPid, onWorker, List.filter_map, List.filter_map, List.filter_filter]
  congr 1
  refine List.filter_congr fun entry hentry => ?_
  by_cases hp : pid entry.2 = p
  · simp [hp, hone entry hentry hp]
  · simp [hp]

/-- The records of a process come out in the order in which they went in. -/
theorem ofPid_dequeued (h : PoolInv pid serial trace s) (p : UInt32) : ofPid pid p s.dequeued <+: ofPid pid p s.enqueued := by
  have hsub : ∀ entry ∈ s.dequeued, entry ∈ s.enqueued := by
    intro entry hentry
    exact mem_onWorker.mp ((onWorker_dequeued h entry.1).subset (mem_onWorker.mpr hentry))
  by_cases hsome : ∃ entry ∈ s.enqueued, pid entry.2 = p
  · obtain ⟨first, hfirst, hp⟩ := hsome
    have hone : ∀ entry ∈ s.enqueued, pid entry.2 = p → entry.1 = first.1 := by
      intro entry hentry hq
      have hassigned := h.assigned entry hentry
      rw [hq, ← hp] at hassigned
      exact hassigned.unique (h.assigned first hfirst)
    rw [ofPid_eq hone, ofPid_eq fun entry hentry => hone entry (hsub entry hentry)]
    exact (onWorker_dequeued h first.1).filter _
  · have hnone : ofPid pid p s.dequeued = [] := by
      rw [ofPid, filter_eq_nil_iff]
      intro record hrecord hp
      obtain ⟨entry, hentry, rfl⟩ := mem_map.mp hrecord
      exact hsome ⟨entry, hsub entry hentry, of_decide_eq_true hp⟩
    rw [hnone]
    exact nil_prefix

theorem ofPid_enqueued (h : PoolInv pid serial trace s) (p : UInt32) :
    (ofPid pid p s.enqueued).Sublist (trace.filter fun record => pid record = p) := by
  refine Sublist.filter _ (Sublist.trans ?_ h.order)
  rw [append_assoc]
  exact sublist_append_left _ _

/-- A state without a step other than a spurious wake-up is the end. -/
theorem stuck [Inhabited ρ] (h : PoolInv pid serial trace s) (hstuck : ∀ e, e.Spurious ∨ s.step pid serial e = none) :
    ∀ w ∈ s.workers, w.stage = .exited := by
  have hno : ∀ e {s'}, ¬e.Spurious → s.step pid serial e = some s' → False := by
    intro e s' hnot hstep
    rcases hstuck e with hspurious | hnone
    · exact hnot hspurious
    · rw [hnone] at hstep
      cases hstep
  -- A worker that cannot move sleeps or has exited.
  have hworker : ∀ (i : Nat) (w : ReplayWorker ρ), s.workers[i]? = some w → w.stage = .sleeping ∨ w.stage = .exited := by
    intro i w hw
    cases hstage : w.stage with
    | running => exact (hno (.dequeue i) id (workerStep_eq_some.mpr ⟨w, hw, hstage, rfl⟩)).elim
    | sleeping => exact .inl rfl
    | closing => exact (hno (.check i) id (workerStep_eq_some.mpr ⟨w, hw, hstage, rfl⟩)).elim
    | exited => exact .inr rfl
  have hok := h.main
  cases hmain : s.main with
  | reading => exact (hno (.feed true) id (by rw [PoolState.step, hmain])).elim
  | enqueueing i record =>
    rw [hmain] at hok
    have hlt : i < s.workers.length := by
      have hkeys := Assigned.lt hok
      rwa [poolKeys, List.length_map] at hkeys
    exact (hno .enqueue id (by rw [PoolState.step, hmain]; exact Option.map_eq_some_iff.mpr ⟨_, List.getElem?_eq_getElem hlt, rfl⟩)).elim
  | sleeping i record =>
    -- The ring is not empty and not closed, so its worker neither sleeps nor has exited.
    rw [hmain] at hok
    obtain ⟨-, w, hw, hne⟩ := hok
    rcases hworker i w hw with hsleeping | hexited
    · exact absurd ((h.workers i w hw).sleeping hsleeping).1 hne
    · exact absurd ((h.workers i w hw).closing (.inr hexited)).1 hne
  | shuttingDown i => exact (hno .shutdown id (by rw [PoolState.step, hmain])).elim
  | joining i =>
    cases hw : s.workers[i]? with
    | none => exact (hno .join id (by rw [PoolState.step, hmain]; simp only [PoolState.join, hw]; rfl)).elim
    | some w =>
      rcases hworker i w hw with hsleeping | hexited
      · have hopen := ((h.workers i w hw).sleeping hsleeping).2
        rw [(h.workers i w hw).shutdown, hmain] at hopen
        cases hopen
      · exact (hno .join id (by rw [PoolState.step, hmain]; simp only [PoolState.join, hw, if_pos hexited]; rfl)).elim
  | done =>
    intro w hw
    rw [hmain] at hok
    obtain ⟨i, hi⟩ := List.mem_iff_getElem?.mp hw
    exact hok i w hi

end Meaning

end WorkerPoolAux

open WorkerPoolAux

/-- In every state of every run over every trace: what came out of the ring of a worker, followed by what the ring holds, is what went in;
the count of the ring is their difference; a worker that has exited has replayed everything; the records of each process come out in the
order of the trace. Every step that is not a spurious wake-up lowers a bound, and where there is none all workers have exited. -/
theorem workerPool_dispatches [Inhabited ρ] (pid : ρ → UInt32) (serial : Bool) (trace : List ρ) (events : List PoolEvent) (s : PoolState ρ)
    (hrun : Runs.run (PoolState.step pid serial) (PoolState.start trace) events = some s) :
    (∀ i w, s.workers[i]? = some w →
      onWorker i s.dequeued ++ w.rb.contents = onWorker i s.enqueued ∧
      w.rb.count.toNat + (onWorker i s.dequeued).length = (onWorker i s.enqueued).length ∧
      (w.stage = .exited → onWorker i s.dequeued = onWorker i s.enqueued)) ∧
    (∀ i, s.workers[i]? = none → onWorker i s.dequeued = [] ∧ onWorker i s.enqueued = []) ∧
    (∀ p, ofPid pid p s.dequeued <+: ofPid pid p s.enqueued ∧
      (ofPid pid p s.enqueued).Sublist (trace.filter fun record => pid record = p)) ∧
    (∀ e next, ¬e.Spurious → s.step pid serial e = some next → next.effort < s.effort) ∧
    ((∀ e, e.Spurious ∨ s.step pid serial e = none) → ∀ w ∈ s.workers, w.stage = .exited) := by
  have hinv : PoolInv pid serial trace s :=
    Runs.invariant_of_step (PoolInv pid serial trace) (fun _ _ _ h hstep => (poolInv_step h hstep).1) (poolInv_start pid serial trace) hrun
  refine ⟨?_, ?_, fun p => ⟨ofPid_dequeued hinv p, ofPid_enqueued hinv p⟩, ?_, stuck hinv⟩
  · intro i w hw
    have hqueue := (hinv.workers i w hw).queue
    refine ⟨hqueue, ?_, ?_⟩
    · rw [w.rb.toNat_count, ← hqueue, List.length_append, Nat.add_comm]
    · intro hexited
      rw [((hinv.workers i w hw).closing (.inr hexited)).1, List.append_nil] at hqueue
      exact hqueue
  · intro i hnone
    exact (hinv.absent i (List.getElem?_eq_none_iff.mp hnone)).symm
  · intro e next hnot hstep
    exact (poolInv_step hinv hstep).2 hnot

/-- Records of two processes; the second worker goes to sleep before its record comes. -/
def twoProcesses : List PoolEvent :=
  [.feed true, .enqueue, .feed true, .dequeue 1, .dequeue 0, .enqueue, .feed true, .enqueue, .dequeue 1, .dequeue 0, .feed true, .shutdown,
    .shutdown, .shutdown, .dequeue 0, .dequeue 1, .check 1, .check 0, .join, .join, .join]

theorem workerPool_dispatches_twoProcesses :
    ∃ s, Runs.run (PoolState.step id false) (PoolState.start [7, 9, 7]) twoProcesses = some s ∧ ofPid id 7 s.dequeued = [7, 7] ∧
      ofPid id 7 s.dequeued <+: ofPid id 7 s.enqueued := by
  obtain ⟨s, hrun, hlog⟩ : ∃ s, Runs.run (PoolState.step id false) (PoolState.start [7, 9, 7]) twoProcesses = some s ∧
      decide (ofPid id 7 s.dequeued = [7, 7]) = true := Runs.exists_of_any (by decide +kernel)
  exact ⟨s, hrun, of_decide_eq_true hlog, ((workerPool_dispatches id false [7, 9, 7] twoProcesses s hrun).2.2.1 7).1⟩

end EbpfSyscall.Replayer
