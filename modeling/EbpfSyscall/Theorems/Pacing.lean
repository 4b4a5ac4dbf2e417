import EbpfSyscall.Replayer.Pacing

/-!
# Records that are issued too early

No sleep is longer than a second and nothing is measured after it. So a record waits long enough, in every run, exactly when it comes at most
a second after the latest of the records that the same worker has issued before: those have held the worker up until then.
-/

namespace EbpfSyscall.Replayer

open Runs Function Option PaceState

/-- Every number is at most `cap` above the largest before it. -/
def GapsWithin (cap : Nat) : Nat → List Nat → Prop
  | _, [] => True
  | base, x :: rest => x ≤ base + cap ∧ GapsWithin cap (max base x) rest

instance decidableGapsWithin (cap : Nat) : ∀ base xs, Decidable (GapsWithin cap base xs)
  | _, [] => inferInstanceAs (Decidable True)
  | base, x :: rest =>
    have := decidableGapsWithin cap (max base x) rest
    inferInstanceAs (Decidable (_ ∧ _))

/-- How long after the start of the capture the records of a worker come. -/
def workerElapsed (captureStartNs : Nat) (trace : List PacedRecord) (worker : Nat) : List Nat :=
  (trace.filter fun record => record.worker = worker).map fun record => captureElapsedNs captureStartNs record.timestampNs

/-- The record was issued as long after the anchor as it lies after the start of the capture, or later. -/
def PacedIssue.OnTime (captureStartNs replayStartNs : Nat) (issue : PacedIssue) : Prop :=
  replayStartNs + captureElapsedNs captureStartNs issue.timestampNs ≤ issue.atNs

instance (captureStartNs replayStartNs : Nat) (issue : PacedIssue) : Decidable (issue.OnTime captureStartNs replayStartNs) :=
  inferInstanceAs (Decidable (_ ≤ _))

namespace PacingAux

variable {captureStartNs worker : Nat} {s next : PaceState} {stage : PaceStage} {ts : Nat} {rest : List Nat}

/-! ## No record is early -/

/-- How long after the start of the capture the records come that the worker has still to issue. -/
def remaining (captureStartNs : Nat) (s : PaceState) (worker : Nat) : List Nat :=
  ((s.stage worker).taken ++ s.queue worker).map (captureElapsedNs captureStartNs) ++ workerElapsed captureStartNs s.trace worker

/-- What holds where a worker stands: the anchor is set by the one that holds the lock, and a worker goes on only when it is set. -/
def StageOk (captureStartNs : Nat) (s : PaceState) (worker : Nat) : PaceStage → Prop
  | .idle | .checking _ | .locking _ => True
  | .rechecking _ => s.startLock = some worker
  | .anchoring _ => s.startLock = some worker ∧ s.startDone = false
  | .flagging _ => s.startLock = some worker ∧ s.startDone = false ∧ s.replayStartNs ≤ s.clock
  | .unlocking _ => s.startLock = some worker ∧ s.startDone = true
  | .measuring _ => s.startDone = true
  | .sleeping ts wakeNs => s.startDone = true ∧ s.replayStartNs + captureElapsedNs captureStartNs ts ≤ wakeNs
  | .issuing ts => s.startDone = true ∧ s.replayStartNs + captureElapsedNs captureStartNs ts ≤ s.clock

/-- So much time has passed since the anchor. -/
def Passed (s : PaceState) (ns : Nat) : Prop := ns = 0 ∨ s.startDone = true ∧ s.replayStartNs + ns ≤ s.clock

/-- Every worker has been held up long enough for the records that are left to it. -/
structure Paced (captureStartNs : Nat) (s : PaceState) : Prop where
  anchor : s.startDone = true → s.replayStartNs ≤ s.clock
  stages : ∀ worker, StageOk captureStartNs s worker (s.stage worker)
  gaps : ∀ worker, ∃ base, Passed s base ∧ GapsWithin maxSleepNs base (remaining captureStartNs s worker)
  issued : ∀ issue ∈ s.issued, s.startDone = true ∧ issue.OnTime captureStartNs s.replayStartNs

theorem Paced.at (h : Paced captureStartNs s) (hstage : s.stage worker = stage) : StageOk captureStartNs s worker stage :=
  hstage ▸ h.stages worker

/-- What is asked of a worker that does not hold the lock does not depend on the lock. -/
theorem StageOk.setLock (h : StageOk captureStartNs s worker stage) (hlock : s.startLock ≠ some worker)
    (lock : Option Nat) : StageOk captureStartNs { s with startLock := lock } worker stage := by
  cases stage with
  | rechecking => exact absurd h hlock
  | anchoring | flagging | unlocking => exact absurd h.1 hlock
  | _ => exact h

/-- While the anchor is not set, a worker that does not hold the lock has still to look at it. -/
theorem StageOk.beforeAnchor (h : StageOk captureStartNs s worker stage) (hlock : s.startLock ≠ some worker)
    (hdone : s.startDone = false) (mid : PaceState) : StageOk captureStartNs mid worker stage := by
  cases stage with
  | rechecking => exact absurd h hlock
  | anchoring | flagging | unlocking => exact absurd h.1 hlock
  | measuring => exact absurd (hdone.symm.trans h) Bool.false_ne_true
  | sleeping | issuing => exact absurd (hdone.symm.trans h.1) Bool.false_ne_true
  | _ => trivial

theorem stageOk_congr (s next : PaceState) (hlock : next.startLock = s.startLock) (hdone : next.startDone = s.startDone)
    (hstart : next.replayStartNs = s.replayStartNs) (hclock : next.clock = s.clock) (stage : PaceStage) :
    StageOk captureStartNs next worker stage ↔ StageOk captureStartNs s worker stage := by
  cases stage <;> simp only [StageOk, hlock, hdone, hstart, hclock]

theorem stages_enter (hworker : StageOk captureStartNs s worker stage)
    (hothers : ∀ other, other ≠ worker → StageOk captureStartNs s other (s.stage other)) :
    ∀ other, StageOk captureStartNs (s.enter worker stage) other ((s.enter worker stage).stage other) := by
  intro other
  rw [stageOk_congr s (s.enter worker stage) rfl rfl rfl rfl]
  by_cases hother : other = worker
  · subst hother
    simpa [PaceState.enter] using hworker
  · simpa [PaceState.enter, hother] using hothers other hother

theorem taken_eq {other : PaceStage} (hstage : s.stage worker = other) (h : stage.taken = other.taken) : stage.taken = (s.stage worker).taken := by
  rw [hstage, h]

theorem remaining_enter (htaken : stage.taken = (s.stage worker).taken) (other : Nat) :
    remaining captureStartNs (s.enter worker stage) other = remaining captureStartNs s other := by
  by_cases hother : other = worker
  · subst hother
    simp [remaining, PaceState.enter, htaken]
  · simp [remaining, PaceState.enter, hother]

/-- A worker goes on with the record it has taken, when what is shared stays as it is. -/
theorem Paced.enter (h : Paced captureStartNs s) (htaken : stage.taken = (s.stage worker).taken)
    (hstage : StageOk captureStartNs s worker stage) : Paced captureStartNs (s.enter worker stage) := by
  refine ⟨h.anchor, stages_enter hstage fun other _ => h.stages other, fun other => ?_, h.issued⟩
  rw [remaining_enter htaken]
  exact h.gaps other

theorem Paced.tick (h : Paced captureStartNs s) (ns : Nat) : Paced captureStartNs { s with clock := s.clock + ns } := by
  refine ⟨fun hdone => (h.anchor hdone).trans (Nat.le_add_right _ _), fun worker => ?_, fun worker => ?_, h.issued⟩
  · have hok := h.stages worker
    dsimp only
    cases hstage : s.stage worker <;> rw [hstage] at hok
    case flagging => exact ⟨hok.1, hok.2.1, hok.2.2.trans (Nat.le_add_right _ _)⟩
    case issuing => exact ⟨hok.1, hok.2.trans (Nat.le_add_right _ _)⟩
    all_goals exact hok
  · obtain ⟨base, hpassed, hgaps⟩ := h.gaps worker
    refine ⟨base, ?_, hgaps⟩
    rcases hpassed with hzero | ⟨hdone, hle⟩
    · exact Or.inl hzero
    · exact Or.inr ⟨hdone, hle.trans (Nat.le_add_right _ _)⟩

/-- The main thread moves a record from the trace to the queue of its worker. -/
theorem remaining_feed (captureStartNs : Nat) (h : s.feed = some next) (worker : Nat) :
    remaining captureStartNs next worker = remaining captureStartNs s worker := by
  unfold PaceState.feed at h
  cases htrace : s.trace with
  | nil =>
    rw [htrace] at h
    nomatch h
  | cons record rest =>
    rw [htrace] at h
    obtain rfl := some.inj h
    by_cases hworker : record.worker = worker
    · subst hworker
      simp [remaining, workerElapsed, htrace]
    · simp [remaining, workerElapsed, htrace, hworker, update_of_ne (Ne.symm hworker)]

theorem Paced.feed (h : Paced captureStartNs s) (hfeed : s.feed = some next) : Paced captureStartNs next := by
  have hremaining := remaining_feed captureStartNs hfeed
  unfold PaceState.feed at hfeed
  cases htrace : s.trace with
  | nil =>
    rw [htrace] at hfeed
    nomatch hfeed
  | cons record rest =>
    rw [htrace] at hfeed
    obtain rfl := some.inj hfeed
    refine ⟨h.anchor, h.stages, fun worker => ?_, h.issued⟩
    rw [hremaining]
    exact h.gaps worker

/-- The worker takes the next record of its queue. -/
theorem Paced.dequeue (h : Paced captureStartNs s) (hidle : s.stage worker = .idle) (hqueue : s.queue worker = ts :: rest) :
    Paced captureStartNs ({ s with queue := Function.update s.queue worker rest }.enter worker (.checking ts)) := by
  have hworker : StageOk captureStartNs { s with queue := Function.update s.queue worker rest } worker (.checking ts) := trivial
  refine ⟨h.anchor, stages_enter hworker fun other _ => ?_, fun other => ?_, h.issued⟩
  · exact (stageOk_congr s _ rfl rfl rfl rfl _).mpr (h.stages other)
  · obtain ⟨base, hpassed, hgaps⟩ := h.gaps other
    refine ⟨base, hpassed, ?_⟩
    by_cases hother : other = worker
    · subst hother
      simpa [remaining, PaceState.enter, PaceStage.taken, hidle, hqueue] using hgaps
    · simpa [remaining, PaceState.enter, hother] using hgaps

/-- A worker takes the lock when no one holds it, or gives it back. -/
theorem Paced.setLock (h : Paced captureStartNs s) (lock : Option Nat) (htaken : stage.taken = (s.stage worker).taken)
    (hothers : ∀ other, other ≠ worker → s.startLock ≠ some other)
    (hworker : StageOk captureStartNs { s with startLock := lock } worker stage) :
    Paced captureStartNs ({ s with startLock := lock }.enter worker stage) := by
  refine ⟨h.anchor, stages_enter hworker fun other hother => (h.stages other).setLock (hothers other hother) _, fun other => ?_, h.issued⟩
  rw [remaining_enter (s := { s with startLock := lock }) htaken]
  exact h.gaps other

/-- The one that holds the lock changes the anchor while it is not set. -/
theorem Paced.beforeAnchor (h : Paced captureStartNs s) (hlock : s.startLock = some worker) (hdone : s.startDone = false) (htaken : stage.taken = (s.stage worker).taken) (done : Bool) (replayStartNs : Nat)
    (hanchor : done = true → replayStartNs ≤ s.clock)
    (hstage : StageOk captureStartNs { s with startDone := done, replayStartNs } worker stage) :
    Paced captureStartNs ({ s with startDone := done, replayStartNs }.enter worker stage) := by
  refine ⟨hanchor, stages_enter hstage fun other hother => (h.stages other).beforeAnchor ?_ hdone _, fun other => ?_, fun issue hissue => ?_⟩
  · rw [hlock]
    exact fun heq => hother (some.inj heq).symm
  · obtain ⟨base, hpassed, hgaps⟩ := h.gaps other
    have hzero : base = 0 := hpassed.resolve_right fun hset => Bool.false_ne_true (hdone.symm.trans hset.1)
    rw [remaining_enter (s := { s with startDone := done, replayStartNs }) htaken]
    exact ⟨base, Or.inl hzero, hgaps⟩
  · exact absurd (hdone.symm.trans (h.issued issue hissue).1) Bool.false_ne_true

/-- After the comparison the worker sleeps long enough, or need not sleep. -/
theorem Paced.compare (h : Paced captureStartNs s) (hstage : s.stage worker = .measuring ts) :
    Paced captureStartNs (s.enter worker (s.compare captureStartNs ts)) := by
  have hdone : s.startDone = true := h.at hstage
  have hanchor := h.anchor hdone
  obtain ⟨base, hpassed, hgaps⟩ := h.gaps worker
  rw [remaining, hstage] at hgaps
  have hgap : captureElapsedNs captureStartNs ts ≤ base + maxSleepNs := hgaps.1
  have hbase : s.replayStartNs + base ≤ s.clock := by
    rcases hpassed with rfl | ⟨_, hle⟩
    · exact hanchor
    · exact hle
  unfold PaceState.compare
  dsimp only
  split
  · refine h.enter (taken_eq hstage rfl) ⟨hdone, ?_⟩
    rcases le_total (captureElapsedNs captureStartNs ts - (s.clock - s.replayStartNs)) maxSleepNs with hle | hle
    · rw [min_eq_left hle]
      omega
    · rw [min_eq_right hle]
      omega
  · refine h.enter (taken_eq hstage rfl) ⟨hdone, ?_⟩
    omega

/-- The record is issued, and the worker has been held up until its time. -/
theorem Paced.issue (h : Paced captureStartNs s) (hstage : s.stage worker = .issuing ts) :
    Paced captureStartNs ({ s with issued := s.issued ++ [PacedIssue.mk worker ts s.clock] }.enter worker .idle) := by
  obtain ⟨hdone, hontime⟩ := h.at hstage
  have hworker : StageOk captureStartNs { s with issued := s.issued ++ [PacedIssue.mk worker ts s.clock] } worker .idle := trivial
  refine ⟨h.anchor, stages_enter hworker fun other _ => ?_, fun other => ?_, fun issue hissue => ?_⟩
  · exact (stageOk_congr s _ rfl rfl rfl rfl _).mpr (h.stages other)
  · obtain ⟨base, hpassed, hgaps⟩ := h.gaps other
    by_cases hother : other = worker
    · subst hother
      rw [remaining, hstage] at hgaps
      refine ⟨max base (captureElapsedNs captureStartNs ts), Or.inr ⟨hdone, ?_⟩, ?_⟩
      · rw [← max_add_add_left]
        refine max_le ?_ hontime
        rcases hpassed with rfl | ⟨_, hle⟩
        · exact h.anchor hdone
        · exact hle
      · simpa [remaining, PaceState.enter, PaceStage.taken] using hgaps.2
    · exact ⟨base, hpassed, by simpa [remaining, PaceState.enter, hother] using hgaps⟩
  · rcases List.mem_append.mp hissue with hold | hnew
    · exact h.issued issue hold
    · rw [List.mem_singleton] at hnew
      subst hnew
      exact ⟨hdone, hontime⟩

theorem Paced.work (h : Paced captureStartNs s) (hwork : s.work captureStartNs worker = some next) : Paced captureStartNs next := by
  have hok := h.stages worker
  unfold PaceState.work at hwork
  cases hstage : s.stage worker with
  | idle =>
    rw [hstage] at hwork
    cases hqueue : s.queue worker with
    | nil =>
      rw [hqueue] at hwork
      nomatch hwork
    | cons ts rest =>
      rw [hqueue] at hwork
      obtain rfl := some.inj hwork
      exact h.dequeue hstage hqueue
  | checking ts =>
    rw [hstage] at hwork
    obtain rfl := some.inj hwork
    split
    · next hdone => exact h.enter (taken_eq hstage rfl) hdone
    · exact h.enter (taken_eq hstage rfl) trivial
  | locking ts =>
    rw [hstage] at hwork
    obtain ⟨hfree, rfl⟩ := guard_eq_some.mp hwork
    refine h.setLock (some worker) (taken_eq hstage rfl) (fun other _ => ?_) rfl
    rw [hfree]
    nofun
  | rechecking ts =>
    rw [hstage] at hwork hok
    obtain rfl := some.inj hwork
    split
    · next hdone => exact h.enter (taken_eq hstage rfl) ⟨hok, hdone⟩
    · next hdone => exact h.enter (taken_eq hstage rfl) ⟨hok, Bool.eq_false_iff.mpr hdone⟩
  | anchoring ts =>
    rw [hstage] at hwork hok
    obtain rfl := some.inj hwork
    refine h.beforeAnchor hok.1 hok.2 ?_ s.startDone s.clock (fun _ => le_refl _) ⟨hok.1, hok.2, le_refl _⟩
    exact taken_eq hstage rfl
  | flagging ts =>
    rw [hstage] at hwork hok
    obtain rfl := some.inj hwork
    refine h.beforeAnchor hok.1 hok.2.1 ?_ true s.replayStartNs (fun _ => hok.2.2) ⟨hok.1, rfl⟩
    exact taken_eq hstage rfl
  | unlocking ts =>
    rw [hstage] at hwork hok
    obtain rfl := some.inj hwork
    refine h.setLock none (taken_eq hstage rfl) (fun other hother => ?_) hok.2
    rw [hok.1]
    exact fun heq => hother (some.inj heq).symm
  | measuring ts =>
    rw [hstage] at hwork
    obtain rfl := some.inj hwork
    exact h.compare hstage
  | sleeping ts wakeNs =>
    rw [hstage] at hwork hok
    obtain ⟨hwake, rfl⟩ := guard_eq_some.mp hwork
    exact h.enter (taken_eq hstage rfl) ⟨hok.1, hok.2.trans hwake⟩
  | issuing ts =>
    rw [hstage] at hwork
    obtain rfl := some.inj hwork
    exact h.issue hstage

theorem Paced.step (h : Paced captureStartNs s) {event : PaceEvent} (hstep : s.step captureStartNs event = some next) :
    Paced captureStartNs next := by
  cases event with
  | tick ns =>
    obtain rfl := some.inj hstep
    exact h.tick ns
  | feed => exact h.feed hstep
  | work worker => exact h.work hstep

theorem paced_start (now : Nat) {trace : List PacedRecord}
    (hgaps : ∀ worker, GapsWithin maxSleepNs 0 (workerElapsed captureStartNs trace worker)) : Paced captureStartNs (.start now trace) :=
  ⟨nofun, fun _ => trivial, fun worker => ⟨0, Or.inl rfl, hgaps worker⟩, nofun⟩

/-! ## A record that is early -/

/-- Some run from the state issues a record early. -/
def IssuesEarly (captureStartNs : Nat) (s : PaceState) : Prop :=
  ∃ events last, run (PaceState.step captureStartNs) s events = some last ∧
    ∃ issue ∈ last.issued, ¬issue.OnTime captureStartNs last.replayStartNs

/-- It is enough that one does so after a step. -/
theorem IssuesEarly.of_step (event : PaceEvent) (hstep : s.step captureStartNs event = some next) (h : IssuesEarly captureStartNs next) :
    IssuesEarly captureStartNs s := by
  obtain ⟨events, last, hrun, hearly⟩ := h
  exact ⟨event :: events, last, run_cons_eq_some.mpr ⟨next, hstep, hrun⟩, hearly⟩

/-- The worker stands before the comparison, and `base` has passed since the anchor. -/
structure Measures (s : PaceState) (worker base ts : Nat) (rest : List Nat) : Prop where
  stage : s.stage worker = .measuring ts
  queue : s.queue worker = rest
  done : s.startDone = true
  clock : s.clock = s.replayStartNs + base

/-- Without any other delay the record is issued when the worker wakes. -/
theorem Measures.issue {base : Nat} (h : Measures s worker base ts rest)
    (hnext : ∀ next : PaceState, next.stage worker = .idle → next.queue worker = rest → next.startDone = true →
      next.clock = next.replayStartNs + max base (min (captureElapsedNs captureStartNs ts) (base + maxSleepNs)) →
      ⟨worker, ts, next.clock⟩ ∈ next.issued → IssuesEarly captureStartNs next) : IssuesEarly captureStartNs s := by
  have hreplay : s.clock - s.replayStartNs = base := by
    rw [h.clock, Nat.add_sub_cancel_left]
  refine .of_step (.work worker) (by rw [PaceState.step, PaceState.work, h.stage]) ?_
  rw [PaceState.compare, hreplay]
  by_cases hsleep : base < captureElapsedNs captureStartNs ts
  · rw [if_pos hsleep]
    refine .of_step (.tick (min (captureElapsedNs captureStartNs ts - base) maxSleepNs)) rfl ?_
    refine .of_step (.work worker) (by simp [PaceState.step, PaceState.work, PaceState.enter]; rfl) ?_
    refine .of_step (.work worker) (by simp [PaceState.step, PaceState.work, PaceState.enter]; rfl) ?_
    apply hnext
    · exact Function.update_self ..
    · exact h.queue
    · exact h.done
    · simp only [h.clock]
      omega
    · exact List.mem_append_right _ List.mem_cons_self
  · rw [if_neg hsleep]
    refine .of_step (.work worker) (by simp [PaceState.step, PaceState.work, PaceState.enter]; rfl) ?_
    apply hnext
    · exact Function.update_self ..
    · exact h.queue
    · exact h.done
    · simp only [h.clock]
      omega
    · exact List.mem_append_right _ List.mem_cons_self

/-- A gap that is too large makes a record early. -/
theorem Measures.early {base : Nat} (h : Measures s worker base ts rest)
    (hgaps : ¬GapsWithin maxSleepNs base ((ts :: rest).map (captureElapsedNs captureStartNs))) : IssuesEarly captureStartNs s := by
  induction rest generalizing s base ts with
  | nil =>
    refine h.issue fun next _ _ _ hclock hissued => ⟨[], next, rfl, _, hissued, fun hontime => hgaps ⟨?_, trivial⟩⟩
    have hle : next.replayStartNs + captureElapsedNs captureStartNs ts ≤ next.clock := hontime
    rw [hclock] at hle
    omega
  | cons ts' rest ih =>
    refine h.issue fun next hstage hqueue hdone hclock hissued => ?_
    by_cases hgap : captureElapsedNs captureStartNs ts ≤ base + maxSleepNs
    · -- the record is on time, and the next one is compared at once
      refine .of_step (.work worker) (by rw [step, PaceState.work, hstage, hqueue]) ?_
      refine .of_step (.work worker) (by simp [step, PaceState.work, PaceState.enter]; rfl) ?_
      refine ih ⟨?_, update_self .., hdone, ?_⟩ fun hrest => hgaps ⟨hgap, hrest⟩
      · simp [hdone]
      · rw [min_eq_left hgap] at hclock
        exact hclock
    · refine ⟨[], next, rfl, _, hissued, fun hontime => hgap ?_⟩
      have hle : next.replayStartNs + captureElapsedNs captureStartNs ts ≤ next.clock := hontime
      rw [hclock] at hle
      omega

/-- The worker that comes first sets the anchor. -/
theorem early_of_first (hidle : s.stage worker = .idle) (hlock : s.startLock = none) (hdone : s.startDone = false)
    (hgaps : ¬GapsWithin maxSleepNs 0 ((s.queue worker).map (captureElapsedNs captureStartNs))) : IssuesEarly captureStartNs s := by
  cases hqueue : s.queue worker with
  | nil =>
    rw [hqueue] at hgaps
    exact absurd trivial hgaps
  | cons ts rest =>
    rw [hqueue] at hgaps
    refine .of_step (.work worker) (by rw [step, PaceState.work, hidle, hqueue]) ?_
    refine .of_step (.work worker) (by simp [step, PaceState.work, PaceState.enter, hdone]; rfl) ?_
    refine .of_step (.work worker) (by simp [step, PaceState.work, hlock]; rfl) ?_
    refine .of_step (.work worker) (by simp [step, PaceState.work, PaceState.enter]; rfl) ?_
    refine .of_step (.work worker) (by simp [step, PaceState.work]; rfl) ?_
    refine .of_step (.work worker) (by simp [step, PaceState.work, PaceState.enter]; rfl) ?_
    refine .of_step (.work worker) (by simp [step, PaceState.work, PaceState.enter]; rfl) ?_
    exact Measures.early ⟨update_self .., update_self .., rfl, rfl⟩ hgaps

/-- The main thread reads the whole trace before a worker starts. -/
theorem early_of_fed (hidle : ∀ worker, s.stage worker = .idle) (hlock : s.startLock = none) (hdone : s.startDone = false)
    (hgaps : ¬GapsWithin maxSleepNs 0 (remaining captureStartNs s worker)) : IssuesEarly captureStartNs s := by
  induction htrace : s.trace generalizing s with
  | nil =>
    refine early_of_first (hidle worker) hlock hdone fun hwithin => hgaps ?_
    simpa [remaining, hidle, htrace, workerElapsed, PaceStage.taken] using hwithin
  | cons record rest ih =>
    have hfeed : s.feed = some { s with
        trace := rest, queue := update s.queue record.worker (s.queue record.worker ++ [record.timestampNs]) } := by
      rw [PaceState.feed, htrace]
    refine .of_step .feed hfeed (ih hidle hlock hdone ?_ rfl)
    rwa [remaining_feed captureStartNs hfeed]

end PacingAux

open PacingAux

/-- In every run no record is issued early, exactly when no record of a worker comes more than a second after all those of the worker
before it, nor the first more than a second after the start of the capture. -/
theorem issued_onTime_iff (captureStartNs now : Nat) (trace : List PacedRecord) :
    (∀ events last, run (PaceState.step captureStartNs) (.start now trace) events = some last →
        ∀ issue ∈ last.issued, issue.OnTime captureStartNs last.replayStartNs) ↔
      ∀ worker, GapsWithin maxSleepNs 0 (workerElapsed captureStartNs trace worker) := by
  constructor
  · intro hontime worker
    by_contra hgaps
    obtain ⟨events, last, hrun, issue, hissue, hearly⟩ : IssuesEarly captureStartNs (.start now trace) :=
      early_of_fed (fun _ => rfl) rfl rfl hgaps
    exact hearly (hontime events last hrun issue hissue)
  · intro hgaps events last hrun issue hissue
    have hpaced := invariant_of_step (Paced captureStartNs) (fun _ _ _ h hstep => h.step hstep) (paced_start now hgaps) hrun
    exact (hpaced.issued issue hissue).2

/-- Two records of one worker, two seconds apart: the second one is issued after one second. -/
theorem issued_onTime_not : ∃ events last, run (PaceState.step 5) (.start 0 [⟨0, 5⟩, ⟨0, 2000000005⟩]) events = some last ∧
      ∃ issue ∈ last.issued, captureElapsedNs 5 issue.timestampNs = 2000000000 ∧ issue.atNs - last.replayStartNs = 1000000000 := by
  have hany : (run (PaceState.step 5) (.start 0 [⟨0, 5⟩, ⟨0, 2000000005⟩])
      ([.feed, .feed] ++ List.replicate 9 (.work 0) ++ List.replicate 3 (.work 0) ++ [.tick 1000000000, .work 0, .work 0])).any (fun last =>
        decide (∃ issue ∈ last.issued,
          captureElapsedNs 5 issue.timestampNs = 2000000000 ∧ issue.atNs - last.replayStartNs = 1000000000)) = true := by
    decide +kernel
  obtain ⟨last, hrun, hissue⟩ := exists_of_any hany
  exact ⟨_, last, hrun, of_decide_eq_true hissue⟩

end EbpfSyscall.Replayer
