import EbpfSyscall.Kvio.Backend
import EbpfSyscall.Lib.Countdown
import EbpfSyscall.Lib.Queue

/-!
# The executor

`Executor` of `tools/kvio/intent_exec.py` and its simulated mode. The scheduler reads of an operation only its id, its dependencies,
its release time and its delay; performing it is a function of the target. The heaps are queues by time, and the two loops of
`_run_simulated` are a machine with two phases.
-/

namespace EbpfSyscall.Kvio

open Checked Queue

/-- `PROFILES`. -/
inductive Profile where
  | offered
  | dependency
  | saturation
  deriving DecidableEq, Repr

/-- What the scheduler reads of an operation. -/
structure Task where
  opId : Text
  deps : List Text
  releaseNs : Option Int
  declaredDelayNs : Option Int
  deriving DecidableEq, Repr

structure Executor (σ : Type) where
  tasks : List Task
  profile : Profile
  workers : Nat
  declaredDelayNs : Int
  /-- `_perform`. -/
  perform : Text → σ → Except PyError (Outcome × σ)
  /-- `backend.service_ns`. -/
  serviceNs : Text → Int

/-- What a row of the ledger holds of the run so far. -/
structure Row where
  eligibleNs : Option Int := none
  submitNs : Option Int := none
  completeNs : Option Int := none
  outcome : Option Outcome := none
  deriving DecidableEq, Repr

/-- What both modes share: the operations that wait for their time, the counters of dependencies, and the rows. -/
structure Board where
  pending : List (Entry Text)
  seq : Nat
  remainingDeps : Text → Int
  rows : Text → Row

namespace Executor

variable {σ : Type} (ex : Executor σ)

/-- `self.order`. -/
def order : List Text := ex.tasks.map Task.opId

/-- `self.by_id[op_id]`. -/
def task (opId : Text) : Except PyError Task :=
  require (ex.tasks.find? (fun task => task.opId = opId)) (.keyError (String.ofList opId))

/-- The smallest release time, or 0. -/
def base : Int := ((ex.tasks.filterMap Task.releaseNs).min?).getD 0

/-- `release_ns` of the row. -/
def release (task : Task) : Int :=
  match ex.profile, task.releaseNs with
  | .offered, some release => release - ex.base
  | _, _ => 0

/-- The delay of an operation: its own, or that of the executor. -/
def delay (task : Task) : Int := task.declaredDelayNs.getD ex.declaredDelayNs

/-- `_eligible_time`. -/
def eligibleTime (rows : Text → Row) (task : Task) : Except PyError Int :=
  task.deps.foldlM (fun time d => do
      let complete ← require (rows d).completeNs .typeError
      pure (max time (complete + ex.delay task)))
    (if ex.profile = .offered then ex.release task else 0)

/-- `self.dependents.get(op_id, [])`. -/
def dependents (opId : Text) : List Text := Countdown.dependents (ex.tasks.map (fun task => (task.opId, task.deps))) opId

/-- `heappush(pending, (self._eligible_time(op_id, …), seq, op_id)); seq += 1`. -/
def offer (board : Board) (opId : Text) : Except PyError Board := do
  let task ← ex.task opId
  let time ← ex.eligibleTime board.rows task
  pure { board with pending := push ⟨time, board.seq, opId⟩ board.pending, seq := board.seq + 1 }

/-- An operation is offered once its counter is zero. -/
def offerReady (board : Board) (opId : Text) : Except PyError Board :=
  if board.remainingDeps opId = 0 then ex.offer board opId else .ok board

/-- The loop over the dependents of an operation that has completed. -/
def wake : List Text → Board → Except PyError Board
  | [], board => .ok board
  | opId :: rest, board => do
    let board ← ex.offerReady
      { board with remainingDeps := Function.update board.remainingDeps opId (board.remainingDeps opId - 1) } opId
    wake rest board

/-- The loop over the operations at the start. -/
def offerAll : List Text → Board → Except PyError Board
  | [], board => .ok board
  | opId :: rest, board => do
    let board ← ex.offerReady board opId
    offerAll rest board

/-- The rows and counters of `_prepare`. -/
def prepared : Board where
  pending := []
  seq := 0
  remainingDeps opId := (ex.tasks.find? (fun task => task.opId = opId)).elim 0 (fun task => task.deps.length)
  rows _ := {}

end Executor

/-! ## Simulated mode -/

/-- Where `_run_simulated` is: in the loop that submits, or in the loop that completes. -/
inductive Phase where
  | submitting
  | completing
  deriving DecidableEq, Repr

structure Simulation (σ : Type) where
  board : Board
  now : Int
  completions : List (Entry (Text × Outcome))
  running : Nat
  backend : σ
  phase : Phase
  /-- The operations in the order in which they were submitted, and in which they completed. The source keeps no such lists. -/
  performed : List Text
  finished : List Text

/-- The test of the outer loop. -/
def Simulation.resume {σ : Type} (s : Simulation σ) : Option (Simulation σ) :=
  if s.board.pending = [] ∧ s.completions = [] then none else some { s with phase := .submitting }

namespace Executor

variable {σ : Type} (ex : Executor σ)

/-- The state at the first test of the outer loop. -/
def start (backend : σ) : Except PyError (Simulation σ) := do
  let board ← ex.offerAll ex.order ex.prepared
  pure { board, now := 0, completions := [], running := 0, backend, phase := .completing, performed := [], finished := [] }

/-- The service time: nothing for an operation that was not submitted because the source cancelled it. -/
def service (opId : Text) (outcome : Outcome) : Int :=
  if outcome.status = .cancelled ∧ "source".toList.isPrefixOf outcome.detail = true then 0 else ex.serviceNs opId

/-- The body of the loop that submits. -/
def submit (entry : Entry Text) (rest : List (Entry Text)) (s : Simulation σ) : Except PyError (Simulation σ) := do
  let (outcome, backend) ← ex.perform entry.item s.backend
  let row := { s.board.rows entry.item with eligibleNs := some entry.time, submitNs := some s.now }
  pure { s with
    board := { s.board with
      pending := rest
      seq := s.board.seq + 1
      rows := Function.update s.board.rows entry.item row }
    completions := push ⟨s.now + ex.service entry.item outcome, s.board.seq, (entry.item, outcome)⟩ s.completions
    running := s.running + 1
    backend
    performed := s.performed ++ [entry.item] }

/-- The time of the next event: a completion, or a pending release if there is a free worker. -/
def nextTime (s : Simulation σ) : Option Int :=
  match s.completions, (if s.running < ex.workers then s.board.pending else []) with
  | [], [] => none
  | completion :: _, [] => some completion.time
  | [], entry :: _ => some entry.time
  | completion :: _, entry :: _ => some (min completion.time entry.time)

/-- `now = max(now, next_t)`, or the end of the run. -/
def advance (s : Simulation σ) : Option (Simulation σ) :=
  (ex.nextTime s).map fun time => { s with now := max s.now time, phase := .completing }

/-- The body of the loop that completes. -/
def complete (entry : Entry (Text × Outcome)) (rest : List (Entry (Text × Outcome))) (s : Simulation σ) :
    Except PyError (Simulation σ) := do
  let row := { s.board.rows entry.item.1 with completeNs := some entry.time, outcome := some entry.item.2 }
  let board ← ex.wake (ex.dependents entry.item.1)
    { s.board with rows := Function.update s.board.rows entry.item.1 row }
  pure { s with board, completions := rest, running := s.running - 1, finished := s.finished ++ [entry.item.1] }

/-- One step of the machine; `none` is the end of the run. -/
def step (s : Simulation σ) : Except PyError (Option (Simulation σ)) :=
  match s.phase with
  | .submitting =>
    match s.board.pending with
    | [] => .ok (ex.advance s)
    | entry :: rest =>
      if s.running < ex.workers ∧ entry.time ≤ s.now then (ex.submit entry rest s).map some else .ok (ex.advance s)
  | .completing =>
    match s.completions with
    | [] => .ok (s.resume)
    | entry :: rest => if entry.time ≤ s.now then (ex.complete entry rest s).map some else .ok (s.resume)

/-- The machine with a bound on its steps; `none` means that the bound was reached. -/
def loop : Nat → Simulation σ → Except PyError (Option (Simulation σ))
  | 0, _ => .ok none
  | fuel + 1, s => do
    match ← ex.step s with
    | none => pure (some s)
    | some next => loop fuel next

/-- `_run_simulated`, with a bound on the steps of its loops. -/
def runSimulated (backend : σ) (fuel : Nat) : Except PyError (Option (Simulation σ)) := do
  let s ← ex.start backend
  ex.loop fuel s

end Executor

/-! ## Constructing an executor -/

/-- The options of `Executor.__init__`. -/
structure Settings where
  profile : Profile := .dependency
  workers : Int := 8
  declaredDelayNs : Int := 0
  cancelledSkip : Bool := true
  deriving DecidableEq, Repr

def Operation.task (operation : Operation) : Task :=
  ⟨operation.opId, operation.deps, operation.releaseNs, operation.declaredDelayNs⟩

/-- `Executor.__init__` for a v2 record and a `FakeBackend`. -/
def Executor.ofIntent2 (H : ContentHost) (intent : Intent2) (backend : FakeBackend) (settings : Settings) :
    Except PyError (Executor Objects) := do
  validateIntent2 intent
  ensure (¬(settings.profile = .offered ∧ intent.provenance.timingModel = .absent))
    (.valueError "offered-load replay needs recorded release times")
  pure { tasks := intent.operations.map Operation.task
         profile := settings.profile
         workers := (max 1 settings.workers).toNat
         declaredDelayNs := settings.declaredDelayNs
         perform := intent.perform H backend settings.cancelledSkip
         serviceNs := fun opId => backend.latencyNs opId }

/-- `Executor(…).run()` of a v2 record in simulated mode on a fresh backend. -/
def simulateIntent2 (H : ContentHost) (intent : Intent2) (backend : FakeBackend) (settings : Settings) (fuel : Nat) :
    Except PyError (Option (Simulation Objects)) := do
  let ex ← Executor.ofIntent2 H intent backend settings
  ex.runSimulated (backend.initialized H intent.initialObjects) fuel

/-- `check_dependencies`: the pairs of an operation and a dependency that had not completed, or not long enough ago, when the
operation was submitted. -/
def checkDependencies (tasks : List Task) (rows : Text → Row) (declaredDelayNs : Int) : List (Text × Text) :=
  tasks.flatMap fun task =>
    match (rows task.opId).submitNs with
    | none => []
    | some submit =>
      (task.deps.filter fun d =>
        (rows d).completeNs.all fun complete => submit < complete + task.declaredDelayNs.getD declaredDelayNs).map
        fun d => (task.opId, d)

end EbpfSyscall.Kvio
