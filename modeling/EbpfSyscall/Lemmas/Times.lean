import EbpfSyscall.Lemmas.Simulated

/-!
# Times of a simulated run

Where no delay and no service time is negative, the clock never passes the completion of an operation in flight, an operation is
offered no earlier than it becomes eligible, and the clock passes the eligible time of a pending operation only while every worker is
busy.
-/

namespace EbpfSyscall.Kvio

open Checked Queue BoardAux SimulatedAux List Option Executor

variable {σ : Type}

/-- The operation of a row has been submitted by the given time and has not completed by then. -/
def Row.inFlightAt (row : Row) (time : Int) : Bool := row.submitNs.any (· ≤ time) && row.completeNs.all (time < ·)

/-- How many operations are in flight at a time. -/
def inFlightAt (order : List Text) (rows : Text → Row) (time : Int) : Nat := order.countP (fun opId => (rows opId).inFlightAt time)

/-- No operation has a negative delay or a negative service time. -/
structure Executor.Timely (ex : Executor σ) : Prop where
  delay : ∀ task ∈ ex.tasks, 0 ≤ ex.delay task
  service : ∀ opId, 0 ≤ ex.serviceNs opId

/-- What the rows, the queues and the clock say of each other. -/
structure TimeInv (ex : Executor σ) (s : Simulation σ) : Prop where
  due : ∀ entry ∈ s.completions, s.now ≤ entry.time
  completed : ∀ opId complete, (s.board.rows opId).completeNs = some complete → complete ≤ s.now
  unsubmitted : ∀ opId, opId ∉ s.performed → (s.board.rows opId).submitNs = none
  submitted : ∀ opId ∈ s.performed, ∃ task eligible submit, ex.task opId = .ok task ∧
    (s.board.rows opId).eligibleNs = some eligible ∧ (s.board.rows opId).submitNs = some submit ∧
    ex.eligibleTime s.board.rows task = .ok eligible ∧ eligible ≤ submit ∧ submit ≤ s.now ∧
    ∀ time, eligible ≤ time → time < submit → inFlightAt ex.order s.board.rows time = ex.workers
  waiting : ∀ entry ∈ s.board.pending, ∀ time, entry.time ≤ time → time < s.now →
    inFlightAt ex.order s.board.rows time = ex.workers
  capacity : ∀ time < s.now, inFlightAt ex.order s.board.rows time ≤ ex.workers

namespace TimesAux

variable {ex : Executor σ} {s t : Simulation σ} {rows : Text → Row} {time : Int} {task : Task} {eligible : Int}

theorem inFlightAt_congr {order : List Text} {rows' : Text → Row} (h : ∀ opId, (rows' opId).inFlightAt time = (rows opId).inFlightAt time) :
    inFlightAt order rows' time = inFlightAt order rows time := by
  unfold inFlightAt
  congr 1
  funext opId
  exact h opId

/-- From now on, as far as the state tells, the operations in flight are those that run. -/
theorem inFlightAt_eq_running (hwf : ex.WellFormed) (h : SimInv ex s) (htimes : TimeInv ex s) (htime : s.now ≤ time) :
    inFlightAt ex.order s.board.rows time = s.running := by
  have hrow : ∀ opId, (s.board.rows opId).inFlightAt time = true ↔ opId ∈ s.inFlight := by
    intro opId
    rw [h.inFlight, Row.inFlightAt]
    by_cases hperformed : opId ∈ s.performed
    · obtain ⟨task, eligible, submit, -, -, hsubmit, -, -, hle, -⟩ := htimes.submitted opId hperformed
      rw [hsubmit, h.completed]
      cases hcomplete : (s.board.rows opId).completeNs with
      | none =>
        simp only [any_some, all_none, Bool.and_true, decide_eq_true_eq, hperformed]
        simp
        omega
      | some complete =>
        have hpast := htimes.completed opId complete hcomplete
        simp
        omega
    · simp [htimes.unsubmitted opId hperformed, hperformed]
  have hperm : (ex.order.filter (fun opId => (s.board.rows opId).inFlightAt time)).Perm s.inFlight := by
    refine (perm_ext_iff_of_nodup (hwf.nodup.filter _) h.inFlightNodup).mpr fun opId => ?_
    rw [mem_filter, hrow]
    exact ⟨fun hin => hin.2, fun hin => ⟨h.performedMem opId ((h.inFlight opId).mp hin).1, hin⟩⟩
  rw [inFlightAt, countP_eq_length_filter, hperm.length_eq, h.running, Simulation.inFlight, length_map, items,
    length_map]

/-- The clock moves to no later than the next completion. -/
theorem nextTime_le_completion (h : SimInv ex s) (hnext : ex.nextTime s = some time) : ∀ entry ∈ s.completions, time ≤ entry.time := by
  intro entry hentry
  cases hcompletions : s.completions with
  | nil =>
    rw [hcompletions] at hentry
    cases hentry
  | cons first rest =>
    have hordered := h.ordered
    rw [hcompletions] at hordered hentry
    have hfirst : first.time ≤ entry.time := hordered.head_le entry hentry
    unfold nextTime at hnext
    rw [hcompletions] at hnext
    split at hnext <;> cases hnext <;> simp_all

/-- With a free worker, the clock moves to no later than the first pending operation. -/
theorem nextTime_le_pending (h : SimInv ex s) (hnext : ex.nextTime s = some time) (hfree : s.running < ex.workers) :
    ∀ entry ∈ s.board.pending, time ≤ entry.time := by
  intro entry hentry
  cases hpending : s.board.pending with
  | nil =>
    rw [hpending] at hentry
    cases hentry
  | cons first rest =>
    have hordered := h.board.ordered
    rw [hpending] at hordered hentry
    have hfirst : first.time ≤ entry.time := hordered.head_le entry hentry
    unfold nextTime at hnext
    rw [hpending, if_pos hfree] at hnext
    split at hnext <;> cases hnext <;> simp_all

theorem task_mem {opId : Text} (h : ex.task opId = .ok task) : task ∈ ex.tasks ∧ task.opId = opId := by
  rw [Executor.task, require_eq_ok] at h
  exact ⟨mem_of_find?_eq_some h, by simpa using find?_some h⟩

/-- Outside the offered profile the release time of every row is 0. -/
theorem release_eq (ex : Executor σ) (task : Task) : (if ex.profile = .offered then ex.release task else 0) = ex.release task := by
  unfold release
  split
  · rfl
  · cases hprofile : ex.profile <;> simp_all

theorem foldl_max_isGreatest {ι : Type} (f : ι → Int) (items : List ι) (first : Int) :
    IsGreatest (insert first {time | ∃ i ∈ items, f i = time}) (items.foldl (fun time i => max time (f i)) first) := by
  induction items generalizing first with
  | nil => simp
  | cons i rest ih =>
    rw [foldl_cons]
    obtain ⟨hmem, hle⟩ := ih (max first (f i))
    constructor
    · rcases hmem with heq | ⟨j, hj, heq⟩
      · rw [heq]
        rcases max_choice first (f i) with hmax | hmax
        · exact Or.inl hmax
        · exact Or.inr ⟨i, by simp, hmax.symm⟩
      · exact Or.inr ⟨j, by simp [hj], heq⟩
    · rintro time (rfl | ⟨j, hj, rfl⟩)
      · exact (le_max_left _ _).trans (hle (Or.inl rfl))
      · rcases mem_cons.mp hj with rfl | hj
        · exact (le_max_right _ _).trans (hle (Or.inl rfl))
        · exact hle (Or.inr ⟨j, hj, rfl⟩)

theorem completed_of_eligibleTime (h : ex.eligibleTime rows task = .ok eligible) : ∀ d ∈ task.deps, (rows d).completeNs.isSome = true := by
  unfold eligibleTime at h
  generalize (if ex.profile = .offered then ex.release task else 0) = time at h
  generalize ex.delay task = delay at h
  generalize task.deps = deps at h
  induction deps generalizing time with
  | nil => simp
  | cons d deps ih =>
    rw [foldlM_cons] at h
    cases hcomplete : (rows d).completeNs with
    | none =>
      rw [hcomplete] at h
      cases h
    | some complete =>
      rw [hcomplete] at h
      intro other hother
      rcases mem_cons.mp hother with rfl | hother
      · rw [hcomplete]
        rfl
      · exact ih _ h other hother

/-- The eligible time is the largest of the release time and, over the dependencies, the completion plus the delay. -/
theorem eligibleTime_isGreatest (h : ex.eligibleTime rows task = .ok eligible) (complete : Text → Int)
    (hcomplete : ∀ d ∈ task.deps, (rows d).completeNs = some (complete d)) :
    IsGreatest (insert (ex.release task) {time | ∃ d ∈ task.deps, complete d + ex.delay task = time}) eligible := by
  rw [eligibleTime_eq complete hcomplete, Except.ok.injEq, release_eq] at h
  rw [← h]
  exact foldl_max_isGreatest (fun d => complete d + ex.delay task) task.deps (ex.release task)

/-- An eligible time is no earlier than a dependency asks for. -/
theorem le_eligibleTime (h : ex.eligibleTime rows task = .ok eligible)
    {d : Text} (hd : d ∈ task.deps) : ∃ complete, (rows d).completeNs = some complete ∧ complete + ex.delay task ≤ eligible := by
  have hsome : ∀ x ∈ task.deps, (rows x).completeNs = some ((rows x).completeNs.getD 0) := by
    intro x hx
    obtain ⟨complete, hcomplete⟩ := isSome_iff_exists.mp (completed_of_eligibleTime h x hx)
    rw [hcomplete]
    rfl
  exact ⟨_, hsome d hd, (eligibleTime_isGreatest h _ hsome).2 (Or.inr ⟨d, hd, rfl⟩)⟩

/-- Release times count from the smallest one. -/
theorem release_nonneg (h : task ∈ ex.tasks) : 0 ≤ ex.release task := by
  unfold release
  split
  · rename_i release hprofile hrelease
    have hmem : release ∈ ex.tasks.filterMap Task.releaseNs := mem_filterMap.mpr ⟨task, h, hrelease⟩
    have hle : ex.base ≤ release := by
      unfold base
      cases hmin : (ex.tasks.filterMap Task.releaseNs).min? with
      | none =>
        rw [min?_eq_none_iff] at hmin
        rw [hmin] at hmem
        cases hmem
      | some least => exact (min?_eq_some_iff.mp hmin).2 release hmem
    omega
  · exact le_refl _

theorem release_le_eligibleTime (h : ex.eligibleTime rows task = .ok eligible) : ex.release task ≤ eligible := by
  have hsome : ∀ x ∈ task.deps, (rows x).completeNs = some ((rows x).completeNs.getD 0) := by
    intro x hx
    obtain ⟨complete, hcomplete⟩ := isSome_iff_exists.mp (completed_of_eligibleTime h x hx)
    rw [hcomplete]
    rfl
  exact (eligibleTime_isGreatest h _ hsome).2 (Or.inl rfl)

/-! ## Steps -/

theorem timeInv_start (hwf : ex.WellFormed) {backend : σ} (hstart : ex.start backend = .ok s) : TimeInv ex s := by
  obtain ⟨first, hfirst, hinv, -, hnow, hcompletions, hperformed, -, hrows⟩ := start_ok hwf backend
  obtain rfl : s = first := Except.ok.inj (hstart.symm.trans hfirst)
  have hbefore : ∀ time < s.now, inFlightAt ex.order s.board.rows time ≤ ex.workers := by
    intro time _
    have hnone : inFlightAt ex.order s.board.rows time = 0 := by
      simp [inFlightAt, hrows, prepared, Row.inFlightAt]
    omega
  refine ⟨by simp [hcompletions], ?_, ?_, by simp [hperformed], ?_, hbefore⟩
  · intro opId complete hcomplete
    simp [hrows, prepared] at hcomplete
  · intro opId _
    simp [hrows, prepared]
  · intro entry hentry time hle hlt
    obtain ⟨task, htask, heligible⟩ := hinv.board.offers entry hentry
    have hrelease := release_nonneg (task_mem htask).1
    have hle' := release_le_eligibleTime heligible
    omega

/-- Moving the clock. -/
theorem timeInv_advance (hwf : ex.WellFormed) (h : SimInv ex s) (htimes : TimeInv ex s)
    (hnext : ex.nextTime s = some time) : TimeInv ex { s with now := max s.now time, phase := .completing } := by
  have hrunning : ∀ x, s.now ≤ x → inFlightAt ex.order s.board.rows x = s.running := fun x hx =>
    inFlightAt_eq_running hwf h htimes hx
  refine ⟨?_, ?_, htimes.unsubmitted, ?_, ?_, ?_⟩
  · intro entry hentry
    exact max_le (htimes.due entry hentry) (nextTime_le_completion h hnext entry hentry)
  · intro opId complete hcomplete
    exact (htimes.completed opId complete hcomplete).trans (le_max_left _ _)
  · intro opId hin
    obtain ⟨task, eligible, submit, htask, heligible, hsubmit, htime, hle, hnow, hbusy⟩ := htimes.submitted opId hin
    exact ⟨task, eligible, submit, htask, heligible, hsubmit, htime, hle, hnow.trans (le_max_left _ _), hbusy⟩
  · intro entry hentry x hle hlt
    by_cases hpast : x < s.now
    · exact htimes.waiting entry hentry x hle hpast
    · -- With a free worker the clock would have stopped at this entry.
      have hfull : ¬s.running < ex.workers := by
        intro hfree
        have hstop := nextTime_le_pending h hnext hfree entry hentry
        rcases lt_max_iff.mp hlt with hlt | hlt
        · exact hpast hlt
        · omega
      have hcapacity := h.capacity
      exact (hrunning x (by omega)).trans (by omega)
  · intro x hlt
    by_cases hpast : x < s.now
    · exact htimes.capacity x hpast
    · exact (hrunning x (by omega)).trans_le h.capacity

/-- Submitting the first pending operation. -/
theorem timeInv_submit (htimely : ex.Timely) (h : SimInv ex s) (htimes : TimeInv ex s) {entry : Entry Text}
    {rest : List (Entry Text)} {outcome : Outcome} {backend : σ} (hpending : s.board.pending = entry :: rest)
    (htime : entry.time ≤ s.now) : TimeInv ex (ex.submitted s entry rest outcome backend) := by
  have hin : entry ∈ s.board.pending := by
    rw [hpending]
    exact mem_cons_self
  have hnew : entry.item ∉ s.performed := by
    simpa using ((h.board.pending _).mp (mem_map_of_mem hin)).2.1
  have hother : ∀ opId, opId ≠ entry.item →
      (ex.submitted s entry rest outcome backend).board.rows opId = s.board.rows opId := by
    intro opId hne
    exact Function.update_of_ne hne _ _
  have hself : (ex.submitted s entry rest outcome backend).board.rows entry.item =
      { s.board.rows entry.item with eligibleNs := some entry.time, submitNs := some s.now } := Function.update_self _ _ _
  have hcomplete : ∀ opId, ((ex.submitted s entry rest outcome backend).board.rows opId).completeNs =
      (s.board.rows opId).completeNs := by
    intro opId
    by_cases heq : opId = entry.item
    · rw [heq, hself]
    · rw [hother opId heq]
  have hstable : ∀ time < s.now, inFlightAt ex.order (ex.submitted s entry rest outcome backend).board.rows time =
      inFlightAt ex.order s.board.rows time := by
    intro time hlt
    refine inFlightAt_congr fun opId => ?_
    by_cases heq : opId = entry.item
    · rw [heq, hself, Row.inFlightAt, Row.inFlightAt, htimes.unsubmitted _ hnew]
      simp
      omega
    · rw [hother opId heq]
  have heligible : ∀ task, ex.eligibleTime (ex.submitted s entry rest outcome backend).board.rows task =
      ex.eligibleTime s.board.rows task := fun task => eligibleTime_congr fun d _ => hcomplete d
  refine ⟨?_, ?_, ?_, ?_, ?_, ?_⟩
  · intro other hmem
    rcases mem_push.mp hmem with rfl | hmem
    · have hservice : 0 ≤ ex.service entry.item outcome := by
        unfold service
        split
        · exact le_refl _
        · exact htimely.service _
      simp only [submitted]
      omega
    · exact htimes.due other hmem
  · intro opId complete hsome
    exact htimes.completed opId complete (hcomplete opId ▸ hsome)
  · intro opId hnot
    simp only [submitted, mem_append, mem_singleton, not_or] at hnot
    rw [hother opId hnot.2]
    exact htimes.unsubmitted opId hnot.1
  · intro opId hmem
    rcases mem_append.mp hmem with hmem | hmem
    · have hne : opId ≠ entry.item := by
        rintro rfl
        exact hnew hmem
      obtain ⟨task, eligible, submit, htask, hel, hsubmit, htime', hle, hnow, hbusy⟩ := htimes.submitted opId hmem
      refine ⟨task, eligible, submit, htask, ?_, ?_, (heligible task).trans htime', hle, hnow, fun time hfrom hto => ?_⟩
      · rw [hother opId hne, hel]
      · rw [hother opId hne, hsubmit]
      · rw [hstable time (by omega)]
        exact hbusy time hfrom hto
    · rw [mem_singleton] at hmem
      subst hmem
      obtain ⟨task, htask, htime'⟩ := h.board.offers entry hin
      refine ⟨task, entry.time, s.now, htask, by rw [hself], by rw [hself], (heligible task).trans htime', htime, le_refl _,
        fun time hfrom hto => ?_⟩
      rw [hstable time hto]
      exact htimes.waiting entry hin time hfrom hto
  · intro other hmem time hfrom hto
    rw [hstable time hto]
    exact htimes.waiting other (by rw [hpending]; exact mem_cons_of_mem _ hmem) time hfrom hto
  · intro time hlt
    rw [hstable time hlt]
    exact htimes.capacity time hlt

/-- Completing the first operation that is due. -/
theorem timeInv_complete (hwf : ex.WellFormed) (htimely : ex.Timely) (h : SimInv ex s) (htimes : TimeInv ex s)
    {entry : Entry (Text × Outcome)} {rest : List (Entry (Text × Outcome))} {board : Board}
    (hcompletions : s.completions = entry :: rest) (htime : entry.time ≤ s.now)
    (hwake : ex.wake (ex.dependents entry.item.1) { s.board with rows := s.completedRows entry } = .ok board) :
    TimeInv ex { s with
      board, completions := rest, running := s.running - 1, finished := s.finished ++ [entry.item.1] } := by
  have hin : entry ∈ s.completions := by
    rw [hcompletions]
    exact mem_cons_self
  have hnow : entry.time = s.now := le_antisymm htime (htimes.due entry hin)
  obtain ⟨-, hnot⟩ := (h.inFlight entry.item.1).mp (mem_map_of_mem (mem_map_of_mem hin))
  obtain ⟨hboardRows, hboard⟩ := wake_completedRows hwf h hnot hwake
  have hnone : (s.board.rows entry.item.1).completeNs = none := by
    rw [h.completed] at hnot
    simpa using hnot
  have hother : ∀ opId, opId ≠ entry.item.1 → board.rows opId = s.board.rows opId := by
    intro opId hne
    rw [hboardRows, Simulation.completedRows, Function.update_of_ne hne]
  have hself : board.rows entry.item.1 =
      { s.board.rows entry.item.1 with completeNs := some entry.time, outcome := some entry.item.2 } := by
    rw [hboardRows, Simulation.completedRows, Function.update_self]
  have hstable : ∀ time < s.now, inFlightAt ex.order board.rows time = inFlightAt ex.order s.board.rows time := by
    intro time hlt
    refine inFlightAt_congr fun opId => ?_
    by_cases heq : opId = entry.item.1
    · rw [heq, hself, Row.inFlightAt, Row.inFlightAt, hnone]
      simp
      omega
    · rw [hother opId heq]
  -- An eligible time that was known does not change: its dependencies had completed before.
  have heligible : ∀ task eligible, ex.eligibleTime s.board.rows task = .ok eligible →
      ex.eligibleTime board.rows task = .ok eligible := by
    intro task eligible hok
    rw [← hok]
    refine eligibleTime_congr fun d hd => ?_
    have hsome := completed_of_eligibleTime hok d hd
    rw [hother d]
    rintro rfl
    rw [hnone] at hsome
    cases hsome
  refine ⟨?_, ?_, ?_, ?_, ?_, ?_⟩
  · intro other hmem
    exact htimes.due other (by rw [hcompletions]; exact mem_cons_of_mem _ hmem)
  · intro opId complete hsome
    dsimp only at hsome ⊢
    by_cases heq : opId = entry.item.1
    · rw [heq, hself] at hsome
      cases hsome
      exact htime
    · rw [hother opId heq] at hsome
      exact htimes.completed opId complete hsome
  · intro opId hnotPerformed
    dsimp only at hnotPerformed ⊢
    have hne : opId ≠ entry.item.1 := by
      rintro rfl
      exact hnotPerformed ((h.inFlight _).mp (mem_map_of_mem (mem_map_of_mem hin))).1
    rw [hother opId hne]
    exact htimes.unsubmitted opId hnotPerformed
  · intro opId hmem
    obtain ⟨task, eligible, submit, htask, hel, hsubmit, htime', hle, hpast, hbusy⟩ := htimes.submitted opId hmem
    have hkept : (board.rows opId).eligibleNs = (s.board.rows opId).eligibleNs ∧
        (board.rows opId).submitNs = (s.board.rows opId).submitNs := by
      by_cases heq : opId = entry.item.1
      · rw [heq, hself]
        exact ⟨rfl, rfl⟩
      · rw [hother opId heq]
        exact ⟨rfl, rfl⟩
    refine ⟨task, eligible, submit, htask, hkept.1.trans hel, hkept.2.trans hsubmit, heligible task eligible htime', hle, hpast,
      fun time hfrom hto => ?_⟩
    dsimp only at *
    rw [hstable time (by omega)]
    exact hbusy time hfrom hto
  · intro other hmem time hfrom hto
    dsimp only at hmem hto ⊢
    rw [hstable time hto]
    obtain ⟨task, htask, htime'⟩ := hboard.offers other hmem
    by_cases hold : other.item ∈ items s.board.pending
    · obtain ⟨old, hin', hitem⟩ := mem_map.mp hold
      obtain ⟨task', htask', htime''⟩ := h.board.offers old hin'
      rw [hitem] at htask'
      obtain rfl : task = task' := Except.ok.inj (htask.symm.trans htask')
      have hsame : old.time = other.time := Except.ok.inj ((heligible task _ htime'').symm.trans htime')
      exact htimes.waiting old hin' time (by omega) hto
    · -- The operation was woken just now, so it becomes eligible no earlier than now.
      obtain ⟨hmem', hnotTaken, hready⟩ := (hboard.pending _).mp (mem_map_of_mem hmem)
      have hdep : entry.item.1 ∈ task.deps := by
        by_contra hnotDep
        refine hold ((h.board.pending _).mpr ⟨hmem', hnotTaken, fun d hd => ?_⟩)
        have hd' := hready d hd
        rw [depsOf_task htask] at hd
        simp only [mem_append, mem_singleton, decide_eq_true_eq] at hd' ⊢
        rcases hd' with hd' | rfl
        · exact hd'
        · exact absurd hd hnotDep
      obtain ⟨complete, hcomplete, hle⟩ := le_eligibleTime htime' hdep
      rw [hself] at hcomplete
      cases hcomplete
      have hdelay := htimely.delay task (task_mem htask).1
      omega
  · intro time hlt
    dsimp only at hlt ⊢
    rw [hstable time hlt]
    exact htimes.capacity time hlt

theorem timeInv_step (hwf : ex.WellFormed) (htimely : ex.Timely) (h : SimInv ex s) (htimes : TimeInv ex s) (hstep : Step ex s t) : TimeInv ex t := by
  cases hstep with
  | submit hphase hpending hfree htime hperform => exact timeInv_submit htimely h htimes hpending htime
  | advance hphase hblocked hnext => exact timeInv_advance hwf h htimes hnext
  | complete hphase hcompletions htime hwake => exact timeInv_complete hwf htimely h htimes hcompletions htime hwake
  | resume =>
    exact ⟨htimes.due, htimes.completed, htimes.unsubmitted, htimes.submitted, htimes.waiting, htimes.capacity⟩

theorem timeInv_of_reach (hwf : ex.WellFormed) (htimely : ex.Timely) (h : SimInv ex s) (htimes : TimeInv ex s)
    (hreach : Relation.ReflTransGen (Step ex) s t) : TimeInv ex t := by
  induction hreach with
  | refl => exact htimes
  | tail hreach hstep ih => exact timeInv_step hwf htimely (simInv_of_reach hwf h hreach) ih hstep

end TimesAux

open TimesAux

/-- What a finished run shows: every operation was submitted once and completed once, at times that its dependencies and the workers
allow. -/
structure Scheduled (ex : Executor σ) (s : Simulation σ) : Prop where
  submittedOnce : s.performed.Perm ex.order
  completedOnce : s.finished.Perm ex.order
  times : ∃ eligible submit complete : Text → Int, ∀ task ∈ ex.tasks,
    (s.board.rows task.opId).eligibleNs = some (eligible task.opId) ∧ (s.board.rows task.opId).submitNs = some (submit task.opId) ∧
    (s.board.rows task.opId).completeNs = some (complete task.opId) ∧
    IsGreatest (insert (ex.release task) {time | ∃ d ∈ task.deps, complete d + ex.delay task = time}) (eligible task.opId) ∧
    eligible task.opId ≤ submit task.opId ∧
    ∀ time, eligible task.opId ≤ time → time < submit task.opId → inFlightAt ex.order s.board.rows time = ex.workers
  dependencies : checkDependencies ex.tasks s.board.rows ex.declaredDelayNs = []
  capacity : ∀ time, inFlightAt ex.order s.board.rows time ≤ ex.workers

namespace TimesAux

variable {ex : Executor σ} {s : Simulation σ}

/-- Rows in which every operation was submitted no earlier than its dependencies ask for show no violation. -/
theorem checkDependencies_eq_nil {tasks : List Task} {rows : Text → Row} {declaredDelayNs : Int}
    (h : ∀ task ∈ tasks, ∃ submit, (rows task.opId).submitNs = some submit ∧ ∀ d ∈ task.deps, ∃ complete,
      (rows d).completeNs = some complete ∧ complete + task.declaredDelayNs.getD declaredDelayNs ≤ submit) :
    checkDependencies tasks rows declaredDelayNs = [] := by
  rw [checkDependencies, flatMap_eq_nil_iff]
  intro task htask
  obtain ⟨submit, hsubmit, hdeps⟩ := h task htask
  rw [hsubmit]
  dsimp only
  rw [map_eq_nil_iff, filter_eq_nil_iff]
  intro d hd
  obtain ⟨complete, hcomplete, hle⟩ := hdeps d hd
  rw [hcomplete]
  simpa using hle

theorem scheduled_of_end (hwf : ex.WellFormed) (h : SimInv ex s) (htimes : TimeInv ex s) (hperformed : s.performed.Perm ex.order)
    (hfinished : s.finished.Perm ex.order) : Scheduled ex s := by
  have hcomplete : ∀ opId ∈ ex.order, (s.board.rows opId).completeNs = some ((s.board.rows opId).completeNs.getD 0) := by
    intro opId hmem
    have hsome := (h.completed opId).mp (hfinished.mem_iff.mpr hmem)
    obtain ⟨complete, heq⟩ := isSome_iff_exists.mp hsome
    rw [heq]
    rfl
  have hsubmitted : ∀ task ∈ ex.tasks, ∃ eligible submit, (s.board.rows task.opId).eligibleNs = some eligible ∧
      (s.board.rows task.opId).submitNs = some submit ∧ ex.eligibleTime s.board.rows task = .ok eligible ∧ eligible ≤ submit ∧
      ∀ time, eligible ≤ time → time < submit → inFlightAt ex.order s.board.rows time = ex.workers := by
    intro task htask
    have hmem : task.opId ∈ s.performed := hperformed.mem_iff.mpr (mem_order.mpr ⟨task, htask, rfl⟩)
    obtain ⟨task', eligible, submit, htask', hel, hsubmit, htime, hle, -, hbusy⟩ := htimes.submitted task.opId hmem
    obtain rfl : task' = task := Except.ok.inj (htask'.symm.trans (task_of_mem hwf.nodup htask))
    exact ⟨eligible, submit, hel, hsubmit, htime, hle, hbusy⟩
  refine ⟨hperformed, hfinished, ⟨fun opId => (s.board.rows opId).eligibleNs.getD 0,
    fun opId => (s.board.rows opId).submitNs.getD 0, fun opId => (s.board.rows opId).completeNs.getD 0, ?_⟩, ?_, ?_⟩
  · intro task htask
    obtain ⟨eligible, submit, hel, hsubmit, htime, hle, hbusy⟩ := hsubmitted task htask
    have hdeps : ∀ d ∈ task.deps, (s.board.rows d).completeNs = some ((s.board.rows d).completeNs.getD 0) := by
      intro d hd
      obtain ⟨complete, heq⟩ := isSome_iff_exists.mp (completed_of_eligibleTime htime d hd)
      rw [heq]
      rfl
    simp only [hel, hsubmit, getD_some]
    exact ⟨trivial, trivial, hcomplete _ (mem_order.mpr ⟨task, htask, rfl⟩), eligibleTime_isGreatest htime _ hdeps, hle, hbusy⟩
  · refine checkDependencies_eq_nil fun task htask => ?_
    obtain ⟨eligible, submit, -, hsubmit, htime, hle, -⟩ := hsubmitted task htask
    refine ⟨submit, hsubmit, fun d hd => ?_⟩
    obtain ⟨complete, heq, hle'⟩ := le_eligibleTime htime hd
    exact ⟨complete, heq, hle'.trans hle⟩
  · intro time
    by_cases hpast : time < s.now
    · exact htimes.capacity time hpast
    · rw [inFlightAt_eq_running hwf h htimes (by omega)]
      exact h.capacity

end TimesAux

/-- A run of a timely executor with enough steps ends as a schedule, and at every step at most the given number of workers is
busy. -/
theorem runSimulated_scheduled {ex : Executor σ} (hwf : ex.WellFormed) (hperforms : ex.Performs) (htimely : ex.Timely)
    (hworkers : 0 < ex.workers) (backend : σ) {fuel : Nat} (hfuel : ex.enough ≤ fuel) :
    ∃ first last, ex.start backend = .ok first ∧ ex.runSimulated backend fuel = .ok (some last) ∧ Scheduled ex last ∧
      ∀ s, Relation.ReflTransGen (Step ex) first s → s.inFlight.length ≤ ex.workers := by
  obtain ⟨first, last, hstart, hrun, hreach, hfirst, hlast, hperformed, hfinished⟩ :=
    runSimulated_ends hwf hperforms hworkers backend hfuel
  have htimes := timeInv_of_reach hwf htimely hfirst (timeInv_start hwf hstart) hreach
  refine ⟨first, last, hstart, hrun, scheduled_of_end hwf hlast htimes hperformed hfinished, fun s hs => ?_⟩
  have hinv := simInv_of_reach hwf hfirst hs
  have hlength : s.inFlight.length = s.running := by
    rw [hinv.running, Simulation.inFlight, length_map, items, length_map]
  rw [hlength]
  exact hinv.capacity

end EbpfSyscall.Kvio
