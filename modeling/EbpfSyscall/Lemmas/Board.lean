import EbpfSyscall.Kvio.Executor
import EbpfSyscall.Lib.Precedence

/-!
# Pending operations and their counters

What both modes of the executor keep: an operation is pending exactly when it has not been taken and all of its dependencies have
finished, its counter is the number of dependencies that have not, and a pending entry stands under the eligible time of its
operation.
-/

namespace EbpfSyscall.Kvio

open Checked Queue Countdown List Function Executor

variable {σ : Type}

/-- The dependencies of an operation by its id. -/
def Executor.depsOf (ex : Executor σ) (opId : Text) : List Text :=
  (ex.tasks.find? (fun task => task.opId = opId)).elim [] Task.deps

/-- Ids are unique and dependencies name earlier operations. -/
structure Executor.WellFormed (ex : Executor σ) : Prop where
  nodup : ex.order.Nodup
  earlier : Precedence.Respects ex.depsOf ex.order

namespace BoardAux

variable {ex : Executor σ} {task : Task}

theorem find_task (hnodup : ex.order.Nodup) (h : task ∈ ex.tasks) : ex.tasks.find? (fun other => other.opId = task.opId) = some task := by
  unfold order at hnodup
  generalize ex.tasks = tasks at h hnodup
  induction tasks with
  | nil => simp at h
  | cons first rest ih =>
    rw [map_cons, nodup_cons] at hnodup
    rw [find?_cons]
    by_cases heq : first.opId = task.opId
    · rcases mem_cons.mp h with rfl | hrest
      · simp
      · exact absurd (heq ▸ mem_map_of_mem hrest) hnodup.1
    · have hrest : task ∈ rest := by
        rcases mem_cons.mp h with rfl | hrest
        · exact absurd rfl heq
        · exact hrest
      simp only [heq, decide_false]
      exact ih hrest hnodup.2

theorem task_of_mem (hnodup : ex.order.Nodup) (h : task ∈ ex.tasks) : ex.task task.opId = .ok task := by
  rw [Executor.task, find_task hnodup h]
  rfl

theorem depsOf_of_mem (hnodup : ex.order.Nodup) (h : task ∈ ex.tasks) : ex.depsOf task.opId = task.deps := by
  rw [depsOf, find_task hnodup h]
  rfl

theorem mem_order {opId : Text} : opId ∈ ex.order ↔ ∃ task ∈ ex.tasks, task.opId = opId := mem_map

/-! ## Eligible times -/

/-- The eligible time reads of the rows only when the dependencies completed. -/
theorem eligibleTime_congr {rows rows' : Text → Row} (h : ∀ d ∈ task.deps, (rows d).completeNs = (rows' d).completeNs) :
    ex.eligibleTime rows task = ex.eligibleTime rows' task := by
  unfold eligibleTime
  generalize (if ex.profile = .offered then ex.release task else 0) = time
  generalize ex.delay task = delay
  generalize task.deps = deps at h
  induction deps generalizing time with
  | nil => rfl
  | cons d deps ih =>
    rw [foldlM_cons, foldlM_cons, h d (by simp)]
    cases (rows' d).completeNs with
    | none => rfl
    | some complete => exact ih _ (fun other hother => h other (by simp [hother]))

/-- The eligible time is the largest of the release time and the completions with the delay. -/
theorem eligibleTime_eq {rows : Text → Row} (complete : Text → Int) (h : ∀ d ∈ task.deps, (rows d).completeNs = some (complete d)) :
    ex.eligibleTime rows task =
      .ok (task.deps.foldl (fun time d => max time (complete d + ex.delay task))
        (if ex.profile = .offered then ex.release task else 0)) := by
  unfold eligibleTime
  generalize (if ex.profile = .offered then ex.release task else 0) = time
  generalize ex.delay task = delay
  generalize task.deps = deps at h
  induction deps generalizing time with
  | nil => rfl
  | cons d deps ih =>
    rw [foldlM_cons, h d (by simp), foldl_cons]
    exact ih _ (fun other hother => h other (by simp [hother]))

theorem eligibleTime_ok (ex : Executor σ) (rows : Text → Row) (task : Task) (h : ∀ d ∈ task.deps, (rows d).completeNs.isSome = true) :
    ∃ time, ex.eligibleTime rows task = .ok time := by
  refine ⟨_, eligibleTime_eq (fun d => (rows d).completeNs.getD 0) fun d hd => ?_⟩
  obtain ⟨complete, hcomplete⟩ := Option.isSome_iff_exists.mp (h d hd)
  rw [hcomplete]
  rfl

/-! ## Offering operations -/

/-- Entries that stand under the eligible times of their operations. -/
def Offers (ex : Executor σ) (rows : Text → Row) (entries : List (Entry Text)) : Prop :=
  ∀ e ∈ entries, ∃ task, ex.task e.item = .ok task ∧ ex.eligibleTime rows task = .ok e.time

/-- An operation with an eligible time can be offered. -/
def CanOffer (ex : Executor σ) (rows : Text → Row) (opId : Text) : Prop :=
  ∃ task time, ex.task opId = .ok task ∧ ex.eligibleTime rows task = .ok time

/-- One board follows another by offering the listed operations. -/
structure Offered (ex : Executor σ) (board next : Board) (opIds : List Text) : Prop where
  rows : next.rows = board.rows
  pending : ∃ new, items new = opIds ∧ Offers ex board.rows new ∧ next.pending.Perm (new ++ board.pending)
  ordered : Ordered board.pending → Ordered next.pending

theorem offered_nil (board : Board) : Offered ex board board [] :=
  ⟨rfl, ⟨[], rfl, by intro e he; simp at he, Perm.refl _⟩, id⟩

theorem offer_offered (board : Board) {opId : Text} (h : CanOffer ex board.rows opId) :
    ∃ next, ex.offer board opId = .ok next ∧ Offered ex board next [opId] ∧ next.remainingDeps = board.remainingDeps := by
  obtain ⟨task, time, htask, htime⟩ := h
  refine ⟨{ board with pending := push ⟨time, board.seq, opId⟩ board.pending, seq := board.seq + 1 }, ?_,
    ⟨rfl, ⟨[⟨time, board.seq, opId⟩], rfl, ?_, push_perm _ _⟩, fun hordered => ordered_push hordered _⟩, rfl⟩
  · rw [offer, htask, ok_bind, htime, ok_bind, pure_eq_ok]
  · intro e he
    rw [mem_singleton] at he
    subst he
    exact ⟨task, htask, htime⟩

theorem Offered.trans {board middle last : Board} {first second : List Text} (h : Offered ex board middle first)
    (h' : Offered ex middle last second) : Offered ex board last (first ++ second) := by
  obtain ⟨new, hnew, hoffers, hperm⟩ := h.pending
  obtain ⟨new', hnew', hoffers', hperm'⟩ := h'.pending
  refine ⟨h'.rows.trans h.rows, ⟨new ++ new', by rw [← hnew, ← hnew', items, map_append, items, items], ?_, ?_⟩,
    fun hordered => h'.ordered (h.ordered hordered)⟩
  · intro e he
    rcases mem_append.mp he with he | he
    · exact hoffers e he
    · rw [h.rows] at hoffers'
      exact hoffers' e he
  · refine hperm'.trans ((hperm.append_left new').trans ?_)
    rw [← append_assoc]
    exact perm_append_comm.append_right _

/-- The loop over the dependents counts down and offers the operations it wakes. -/
theorem wake_offered {opIds : List Text} (board : Board) (h : ∀ opId ∈ (countdown board.remainingDeps opIds).2, CanOffer ex board.rows opId) :
    ∃ next, ex.wake opIds board = .ok next ∧ Offered ex board next (countdown board.remainingDeps opIds).2 ∧
      next.remainingDeps = (countdown board.remainingDeps opIds).1 := by
  induction opIds generalizing board with
  | nil => exact ⟨board, rfl, offered_nil board, rfl⟩
  | cons opId rest ih =>
    let lowered : Board := { board with
      remainingDeps := update board.remainingDeps opId (board.remainingDeps opId - 1) }
    have hleft : lowered.remainingDeps opId = board.remainingDeps opId - 1 := update_self _ _ _
    rw [countdown_cons] at h ⊢
    dsimp only at h ⊢
    by_cases hzero : board.remainingDeps opId - 1 = 0
    · rw [if_pos hzero] at h ⊢
      obtain ⟨middle, hmiddle, hoffered, hremaining⟩ := offer_offered lowered (h opId (by simp))
      have hrest : ∀ other ∈ (countdown middle.remainingDeps rest).2, CanOffer ex middle.rows other := by
        intro other hother
        rw [hremaining] at hother
        rw [hoffered.rows]
        exact h other (by simp [lowered] at hother; simp [hother])
      obtain ⟨next, hnext, hoffered', hremaining'⟩ := ih middle hrest
      rw [hremaining] at hoffered' hremaining'
      have htrans := hoffered.trans hoffered'
      refine ⟨next, ?_, ⟨htrans.rows, htrans.pending, htrans.ordered⟩, hremaining'⟩
      rw [wake, offerReady, if_pos (hleft.trans hzero), hmiddle, ok_bind, hnext]
    · rw [if_neg hzero] at h ⊢
      obtain ⟨next, hnext, hoffered, hremaining⟩ := ih lowered h
      refine ⟨next, ?_, ⟨hoffered.rows, hoffered.pending, hoffered.ordered⟩, hremaining⟩
      rw [wake, offerReady, if_neg (by rw [hleft]; exact hzero), ok_bind, hnext]

/-- The loop at the start offers the operations without dependencies. -/
theorem offerAll_offered {opIds : List Text} (board : Board) (h : ∀ opId ∈ opIds, board.remainingDeps opId = 0 → CanOffer ex board.rows opId) :
    ∃ next, ex.offerAll opIds board = .ok next ∧
      Offered ex board next (opIds.filter (fun opId => board.remainingDeps opId = 0)) ∧
      next.remainingDeps = board.remainingDeps := by
  induction opIds generalizing board with
  | nil => exact ⟨board, rfl, offered_nil board, rfl⟩
  | cons opId rest ih =>
    by_cases hzero : board.remainingDeps opId = 0
    · obtain ⟨middle, hmiddle, hoffered, hremaining⟩ := offer_offered board (h opId (by simp) hzero)
      obtain ⟨next, hnext, hoffered', hremaining'⟩ := ih middle (by
        intro other hother hother0
        rw [hoffered.rows]
        exact h other (by simp [hother]) (by rw [← hremaining]; exact hother0))
      rw [hremaining] at hoffered' hremaining'
      refine ⟨next, ?_, ?_, hremaining'⟩
      · rw [offerAll, offerReady, if_pos hzero, hmiddle, ok_bind, hnext]
      · rw [filter_cons_of_pos (by simp [hzero])]
        exact hoffered.trans hoffered'
    · obtain ⟨next, hnext, hoffered, hremaining⟩ := ih board fun other hother => h other (by simp [hother])
      refine ⟨next, ?_, ?_, hremaining⟩
      · rw [offerAll, offerReady, if_neg hzero, ok_bind, hnext]
      · rw [filter_cons_of_neg (by simp [hzero])]
        exact hoffered

end BoardAux

/-! ## The invariant -/

open BoardAux

/-- What the board says of the operations that were taken and of those that have finished. -/
structure BoardInv (ex : Executor σ) (board : Board) (taken finished : Text → Bool) : Prop where
  ordered : Ordered board.pending
  nodup : (items board.pending).Nodup
  pending : ∀ opId, opId ∈ items board.pending ↔
    opId ∈ ex.order ∧ taken opId = false ∧ ∀ d ∈ ex.depsOf opId, finished d = true
  remaining : ∀ opId, board.remainingDeps opId = (ex.depsOf opId).countP (fun d => !finished d)
  ready : ∀ opId, taken opId = true → ∀ d ∈ ex.depsOf opId, finished d = true
  offers : Offers ex board.rows board.pending

namespace BoardAux

variable {ex : Executor σ} {board : Board} {taken finished : Text → Bool}

theorem depsOf_of_notMem {opId : Text} (h : opId ∉ ex.order) : ex.depsOf opId = [] := by
  have hnone : ex.tasks.find? (fun task => task.opId = opId) = none := by
    rw [find?_eq_none]
    intro task htask heq
    exact h (mem_order.mpr ⟨task, htask, by simpa using heq⟩)
  rw [depsOf, hnone]
  rfl

/-- How often an operation is listed among the dependents of another. -/
theorem count_dependents (hnodup : ex.order.Nodup) (d opId : Text) : (ex.dependents d).count opId = (ex.depsOf opId).count d := by
  by_cases h : opId ∈ ex.order
  · obtain ⟨task, htask, rfl⟩ := mem_order.mp h
    rw [depsOf_of_mem hnodup htask]
    have hwaits : (task.opId, task.deps) ∈ ex.tasks.map (fun task => (task.opId, task.deps)) :=
      mem_map.mpr ⟨task, htask, rfl⟩
    refine Countdown.count_dependents ?_ hwaits d
    rw [map_map]
    exact hnodup
  · rw [depsOf_of_notMem h, count_nil]
    refine Countdown.count_dependents_of_notMem ?_ d
    rw [map_map]
    exact h

/-- The board of `_prepare` after the first offers. -/
theorem boardInv_start (hwf : ex.WellFormed) : ∃ board, ex.offerAll ex.order ex.prepared = .ok board ∧ board.rows = ex.prepared.rows ∧
      BoardInv ex board (fun _ => false) (fun _ => false) := by
  have hremaining : ∀ opId, ex.prepared.remainingDeps opId = (ex.depsOf opId).length := by
    intro opId
    rw [depsOf, prepared]
    dsimp only
    cases ex.tasks.find? (fun task => task.opId = opId) <;> rfl
  have hoffer : ∀ opId ∈ ex.order, ex.prepared.remainingDeps opId = 0 → CanOffer ex ex.prepared.rows opId := by
    intro opId hmem hzero
    obtain ⟨task, htask, rfl⟩ := mem_order.mp hmem
    rw [hremaining, depsOf_of_mem hwf.nodup htask] at hzero
    have hnil : task.deps = [] := length_eq_zero_iff.mp (by exact_mod_cast hzero)
    obtain ⟨time, htime⟩ := eligibleTime_ok ex ex.prepared.rows task (by simp [hnil])
    exact ⟨task, time, task_of_mem hwf.nodup htask, htime⟩
  obtain ⟨board, hboard, hoffered, hcounters⟩ := offerAll_offered ex.prepared hoffer
  obtain ⟨new, hnew, hoffers, hperm⟩ := hoffered.pending
  have hitems : (items board.pending).Perm (ex.order.filter (fun opId => ex.prepared.remainingDeps opId = 0)) := by
    rw [← hnew]
    have hmap := hperm.map Entry.item
    simpa [items, prepared] using hmap
  refine ⟨board, hboard, hoffered.rows, ⟨hoffered.ordered Pairwise.nil, ?_, ?_, ?_, by simp, ?_⟩⟩
  · exact hitems.nodup_iff.mpr (hwf.nodup.filter _)
  · intro opId
    rw [hitems.mem_iff, mem_filter]
    simp only [decide_eq_true_eq, true_and, reduceCtorEq, imp_false]
    rw [hremaining]
    constructor
    · rintro ⟨hmem, hzero⟩
      have hnil : ex.depsOf opId = [] := length_eq_zero_iff.mp (by exact_mod_cast hzero)
      exact ⟨hmem, by simp [hnil]⟩
    · rintro ⟨hmem, hnone⟩
      have hnil : ex.depsOf opId = [] := eq_nil_iff_forall_not_mem.mpr hnone
      exact ⟨hmem, by simp [hnil]⟩
  · intro opId
    rw [hcounters, hremaining]
    simp
  · intro e he
    rw [hoffered.rows]
    have hmem := hperm.mem_iff.mp he
    simp only [prepared, append_nil] at hmem
    exact hoffers e hmem

theorem depsOf_task {opId : Text} {task : Task} (h : ex.task opId = .ok task) : ex.depsOf opId = task.deps := by
  rw [Executor.task, require_eq_ok] at h
  rw [Executor.depsOf, h]
  rfl

/-- The invariant reads of the rows only when the finished operations completed. -/
theorem BoardInv.withRows (h : BoardInv ex board taken finished) {rows : Text → Row}
    (hrows : ∀ d, finished d = true → (rows d).completeNs = (board.rows d).completeNs) :
    BoardInv ex { board with rows } taken finished := by
  refine ⟨h.ordered, h.nodup, h.pending, h.remaining, h.ready, ?_⟩
  intro e he
  obtain ⟨task, htask, htime⟩ := h.offers e he
  refine ⟨task, htask, ?_⟩
  rw [← htime]
  refine eligibleTime_congr fun d hd => hrows d ?_
  exact ((h.pending e.item).mp (mem_map_of_mem he)).2.2 d (depsOf_task htask ▸ hd)

/-- Taking the first pending operation. -/
theorem BoardInv.take {entry : Entry Text} {rest : List (Entry Text)} (h : BoardInv ex board taken finished)
    (hpending : board.pending = entry :: rest) {next : Board} (hnext : next.pending = rest)
    (hcounters : next.remainingDeps = board.remainingDeps)
    (hrows : ∀ d, finished d = true → (next.rows d).completeNs = (board.rows d).completeNs) :
    BoardInv ex next (Function.update taken entry.item true) finished := by
  have hordered := h.ordered
  have hnodup := h.nodup
  rw [hpending] at hordered hnodup
  have hcons : (entry.item :: items rest).Nodup := hnodup
  have hentry : entry.item ∈ items board.pending := by
    rw [hpending]
    exact mem_cons_self
  refine ⟨hnext ▸ hordered.tail, hnext ▸ (nodup_cons.mp hcons).2, ?_, ?_, ?_, ?_⟩
  · intro opId
    have hmem := h.pending opId
    rw [hpending] at hmem
    rw [hnext]
    by_cases heq : opId = entry.item
    · subst heq
      rw [update_self]
      simp only [reduceCtorEq, false_and, and_false, iff_false]
      exact (nodup_cons.mp hcons).1
    · rw [update_of_ne heq, ← hmem]
      exact ⟨fun hin => mem_cons_of_mem _ hin, fun hin => (mem_cons.mp hin).resolve_left heq⟩
  · intro opId
    rw [hcounters]
    exact h.remaining opId
  · intro opId htaken
    by_cases heq : opId = entry.item
    · subst heq
      exact ((h.pending _).mp hentry).2.2
    · rw [update_of_ne heq] at htaken
      exact h.ready opId htaken
  · intro e he
    have hin : e ∈ board.pending := by
      rw [hpending, ← hnext]
      exact mem_cons_of_mem _ he
    obtain ⟨task, htask, htime⟩ := h.offers e hin
    refine ⟨task, htask, ?_⟩
    rw [← htime]
    refine eligibleTime_congr fun d hd => hrows d ?_
    exact ((h.pending e.item).mp (mem_map_of_mem hin)).2.2 d (depsOf_task htask ▸ hd)

/-- An operation that finishes wakes those that were waiting for it last. -/
theorem BoardInv.finish (hwf : ex.WellFormed) (h : BoardInv ex board taken finished) {d : Text} (hd : finished d = false)
    {rows : Text → Row} (hrows : ∀ x, finished x = true → (rows x).completeNs = (board.rows x).completeNs)
    (hcomplete : ∀ x, Function.update finished d true x = true → (rows x).completeNs.isSome = true) :
    ∃ next, ex.wake (ex.dependents d) { board with rows } = .ok next ∧ next.rows = rows ∧
      BoardInv ex next taken (Function.update finished d true) := by
  have hcount : ∀ opId, (ex.depsOf opId).countP (fun x => !finished x) =
      (ex.depsOf opId).countP (fun x => !update finished d true x) + (ex.depsOf opId).count d := by
    intro opId
    induction ex.depsOf opId with
    | nil => rfl
    | cons x deps ih =>
      rw [countP_cons, countP_cons, count_cons, ih]
      by_cases hx : x = d
      · subst hx
        simp [hd]
        omega
      · simp [hx]
        omega
  have hbound : ∀ opId, ((ex.dependents d).count opId : Int) ≤ board.remainingDeps opId := by
    intro opId
    rw [h.remaining, hcount opId, count_dependents hwf.nodup]
    omega
  obtain ⟨hwoken, hwokenNodup⟩ := countdown_woken hbound
  -- A woken operation names `d`, and nothing it names is left.
  have hwoken' : ∀ opId, opId ∈ (countdown board.remainingDeps (ex.dependents d)).2 ↔
      d ∈ ex.depsOf opId ∧ ∀ x ∈ ex.depsOf opId, update finished d true x = true := by
    intro opId
    rw [hwoken, ← count_pos_iff, h.remaining, hcount opId, count_dependents hwf.nodup, count_pos_iff]
    have hzero : (ex.depsOf opId).countP (fun x => !update finished d true x) = 0 ↔
        ∀ x ∈ ex.depsOf opId, update finished d true x = true := by
      rw [countP_eq_zero]
      simp
    rw [← hzero]
    constructor
    · rintro ⟨hin, heq⟩
      exact ⟨hin, by omega⟩
    · rintro ⟨hin, heq⟩
      exact ⟨hin, by omega⟩
  have hmemOrder : ∀ {opId}, d ∈ ex.depsOf opId → opId ∈ ex.order := by
    intro opId hin
    by_contra hnot
    rw [depsOf_of_notMem hnot] at hin
    simp at hin
  have hoffer : ∀ opId ∈ (countdown board.remainingDeps (ex.dependents d)).2, CanOffer ex rows opId := by
    intro opId hin
    obtain ⟨hdep, hall⟩ := (hwoken' opId).mp hin
    obtain ⟨task, htask, rfl⟩ := mem_order.mp (hmemOrder hdep)
    rw [depsOf_of_mem hwf.nodup htask] at hall
    obtain ⟨time, htime⟩ := eligibleTime_ok ex rows task fun x hx => hcomplete x (hall x hx)
    exact ⟨task, time, task_of_mem hwf.nodup htask, htime⟩
  obtain ⟨next, hnext, hoffered, hcounters⟩ := wake_offered { board with rows } hoffer
  obtain ⟨new, hnew, hoffers, hperm⟩ := hoffered.pending
  have hitems : (items next.pending).Perm ((countdown board.remainingDeps (ex.dependents d)).2 ++ items board.pending) := by
    have hmap := hperm.map Entry.item
    rw [map_append] at hmap
    exact hnew ▸ hmap
  have hmono : ∀ x, finished x = true → update finished d true x = true := by
    intro x hx
    by_cases heq : x = d
    · rw [heq, update_self]
    · rw [update_of_ne heq, hx]
  refine ⟨next, hnext, hoffered.rows, hoffered.ordered h.ordered, ?_, ?_, ?_, ?_, ?_⟩
  · refine hitems.nodup_iff.mpr (nodup_append.mpr ⟨hwokenNodup, h.nodup, ?_⟩)
    intro opId hin other hother heq
    subst heq
    have hfinished := ((h.pending opId).mp hother).2.2 d ((hwoken' opId).mp hin).1
    rw [hd] at hfinished
    cases hfinished
  · intro opId
    rw [hitems.mem_iff, mem_append, hwoken', h.pending]
    constructor
    · rintro (⟨hdep, hall⟩ | ⟨hmem, htaken, hall⟩)
      · refine ⟨hmemOrder hdep, ?_, hall⟩
        by_contra htaken
        have hfinished := h.ready opId (by simpa using htaken) d hdep
        rw [hd] at hfinished
        cases hfinished
      · exact ⟨hmem, htaken, fun x hx => hmono x (hall x hx)⟩
    · rintro ⟨hmem, htaken, hall⟩
      by_cases hdep : d ∈ ex.depsOf opId
      · exact Or.inl ⟨hdep, hall⟩
      · refine Or.inr ⟨hmem, htaken, fun x hx => ?_⟩
        have hx' := hall x hx
        have hne : x ≠ d := by
          rintro rfl
          exact hdep hx
        rw [update_of_ne hne] at hx'
        exact hx'
  · intro opId
    rw [hcounters, countdown_left, h.remaining, hcount opId, count_dependents hwf.nodup]
    omega
  · intro opId htaken x hx
    exact hmono x (h.ready opId htaken x hx)
  · intro e he
    rw [hoffered.rows]
    rcases mem_append.mp (hperm.mem_iff.mp he) with hin | hin
    · exact hoffers e hin
    · obtain ⟨task, htask, htime⟩ := h.offers e hin
      refine ⟨task, htask, ?_⟩
      rw [← htime]
      refine eligibleTime_congr fun x hx => hrows x ?_
      exact ((h.pending e.item).mp (mem_map_of_mem hin)).2.2 x (depsOf_task htask ▸ hx)

/-- As long as some operation has not finished, one is pending or has been taken and not finished. -/
theorem BoardInv.progress (hwf : ex.WellFormed) (h : BoardInv ex board taken finished) (hleft : ∃ opId ∈ ex.order, finished opId = false) :
    ∃ opId ∈ ex.order, finished opId = false ∧ (opId ∈ items board.pending ∨ taken opId = true) := by
  obtain ⟨opId, hmem, hnot, hready⟩ := hwf.earlier.exists_ready (p := fun opId => finished opId = true) (by simpa using hleft)
  refine ⟨opId, hmem, by simpa using hnot, ?_⟩
  by_cases htaken : taken opId = true
  · exact Or.inr htaken
  · exact Or.inl ((h.pending opId).mpr ⟨hmem, by simpa using htaken, hready⟩)

end BoardAux

end EbpfSyscall.Kvio
