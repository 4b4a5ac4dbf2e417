import EbpfSyscall.Kvio.Workload3

/-!
# Executing a typed workload

`Executor` of `tools/kvio/intent_exec.py` on a v3 workload. Object calls go to the target's store with the node as the identity of the
content, every other call to its `perform`.
-/

namespace EbpfSyscall.Kvio

open Checked

def Operation3.task (operation : Operation3) : Task :=
  ⟨operation.opId, operation.deps.map Dep.op, operation.releaseNs, operation.declaredDelayNs⟩

/-- The executor that `Executor.__init__` makes of a v3 workload. `perform` is what the target does for an operation, and `serviceNs`
its service times. An operation that the source cancelled is not submitted. -/
def Workload3.executor {σ : Type} (wl : Workload3) (settings : Settings) (perform : Operation3 → σ → Except PyError (Outcome × σ))
    (serviceNs : Text → Int) : Executor σ where
  tasks := wl.operations.map Operation3.task
  profile := settings.profile
  workers := (max 1 settings.workers).toNat
  declaredDelayNs := settings.declaredDelayNs
  perform opId state := do
    let operation ← require (wl.operations.find? (fun operation => operation.opId = opId)) (.keyError (String.ofList opId))
    if settings.cancelledSkip = true ∧ operation.outcome = some .cancelled then pure (sourceCancelled, state)
    else perform operation state
  serviceNs := serviceNs

/-- `Executor.__init__` for a v3 workload. -/
def Executor.ofWorkload {σ : Type} (wl : Workload3) (settings : Settings) (perform : Operation3 → σ → Except PyError (Outcome × σ))
    (serviceNs : Text → Int) : Except PyError (Executor σ) := do
  validateWorkload wl
  ensure (¬(settings.profile = .offered ∧ wl.provenance.timingModel = .absent))
    (.valueError "offered-load replay needs recorded release times")
  pure (wl.executor settings perform serviceNs)

/-! ## The in-memory object store -/

/-- `initial_objects` of a v3 workload. -/
def Workload3.initialObjects (wl : Workload3) : List (Text × Version × Nat) :=
  wl.entries.filterMap fun entry =>
    (wl.nodes.get entry.node).bind fun node => if node.kind = .object then some (entry.node, .int 0, node.size.toNat) else none

/-- `a.get("size") or nodes.get(node, {}).get("size", 0)`. -/
def Workload3.sizeOf (wl : Workload3) (args : Args) (node : Text) : Nat :=
  match args.size with
  | some size => if size ≠ 0 then size.toNat else ((wl.nodes.get node).elim 0 Node.size).toNat
  | none => ((wl.nodes.get node).elim 0 Node.size).toNat

/-- The call of an object operation on the versions of its node. -/
def Operation3.callObject (H : ContentHost) (backend : FakeBackend) (operation : Operation3) (node : Text) (size : Nat)
    (versions : Version → Option Bytes) : Except PyError (Outcome × (Version → Option Bytes)) :=
  match operation.call with
  | .store => .ok (backend.store operation.opId (.int 0) (backend.payload H node (.int 0) 0 size) versions)
  | .load =>
    let offset := operation.args.offset.getD 0
    let length := operation.args.length.getD size
    .ok (backend.load H operation.opId node (.int 0) offset.toNat length.toNat versions, versions)
  | .release => .ok (backend.release operation.opId (.int 0) versions)
  -- `FakeBackend` has no method `exists`, and no `perform` for anything else.
  | .exists => .ok (⟨.error, 0, "backend has no exists".toList⟩, versions)
  | _ => .error (.attributeError "perform")

/-- `_perform_v3` on a `FakeBackend`, for an operation that is submitted. -/
def Workload3.performFake (H : ContentHost) (wl : Workload3) (backend : FakeBackend) (operation : Operation3) (objects : Objects) :
    Except PyError (Outcome × Objects) :=
  match operation.family with
  | .object => do
    let node ← require operation.args.node (.keyError "node")
    let (outcome, versions) ← operation.callObject H backend node (wl.sizeOf operation.args node) (objects node)
    pure (outcome, Function.update objects node versions)
  | _ => .error (.attributeError "perform")

/-- `backend.profile` once the executor has been made: its own, or the content of the run. -/
def FakeBackend.withContent (backend : FakeBackend) (content : ContentProfile) : FakeBackend :=
  { backend with profile := some (backend.profile.getD content) }

/-- `Executor(…).run()` of a v3 workload in simulated mode on a fresh `FakeBackend`. -/
def simulateWorkload (H : ContentHost) (wl : Workload3) (backend : FakeBackend) (settings : Settings) (content : ContentProfile)
    (fuel : Nat) : Except PyError (Option (Simulation Objects)) := do
  let target := backend.withContent content
  let ex ← Executor.ofWorkload wl settings (wl.performFake H target) (fun opId => backend.latencyNs opId)
  ex.runSimulated (target.initialized H wl.initialObjects) fuel

end EbpfSyscall.Kvio
