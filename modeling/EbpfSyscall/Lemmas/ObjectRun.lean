import EbpfSyscall.Lemmas.Intent2
import EbpfSyscall.Lemmas.Schedule
import EbpfSyscall.Lemmas.Times

/-!
# Executing a v2 record

The executor of an accepted record has unique operations with earlier dependencies, and every operation can be performed: it acts on
the versions of its object and on nothing else.
-/

namespace EbpfSyscall.Kvio

open Checked Intent2 List

/-- The object of an operation by its id. -/
def Intent2.objectOf (intent : Intent2) (opId : Text) : Text :=
  (intent.operations.find? (fun operation => operation.opId = opId)).elim [] Operation.objectId

/-- The size of the version an operation is about. -/
def Intent2.sizeOf (intent : Intent2) (operation : Operation) : Nat :=
  (intent.version? operation.objectId operation.version).elim 0 (fun version => version.bytes.toNat)

/-- What an operation does to the versions of its object. -/
def Intent2.act (H : ContentHost) (intent : Intent2) (backend : FakeBackend) (cancelledSkip : Bool) (opId : Text)
    (versions : Version → Option Bytes) : Outcome × (Version → Option Bytes) :=
  match intent.operations.find? (fun operation => operation.opId = opId) with
  | none => (sourceCancelled, versions)
  | some operation =>
    if cancelledSkip = true ∧ operation.sourceOutcome = some .cancelled then (sourceCancelled, versions)
    else operation.call H backend (intent.sizeOf operation) versions

namespace ObjectRunAux

variable {H : ContentHost} {intent : Intent2} {backend : FakeBackend} {settings : Settings} {ex : Executor Objects}
  {operation : Operation}

/-- What `Executor.__init__` makes of a record. -/
def executor (H : ContentHost) (intent : Intent2) (backend : FakeBackend) (settings : Settings) : Executor Objects where
  tasks := intent.operations.map Operation.task
  profile := settings.profile
  workers := (max 1 settings.workers).toNat
  declaredDelayNs := settings.declaredDelayNs
  perform := intent.perform H backend settings.cancelledSkip
  serviceNs := fun opId => backend.latencyNs opId

theorem ofIntent2_eq_ok : Executor.ofIntent2 H intent backend settings = .ok ex ↔
    Intent2.Valid intent ∧ ¬(settings.profile = .offered ∧ intent.provenance.timingModel = .absent) ∧
      ex = executor H intent backend settings := by
  rw [Executor.ofIntent2, check_bind_eq_ok, validateIntent2_eq_ok, check_bind_eq_ok, ensure_eq_ok, pure_eq_ok, Except.ok.injEq,
    eq_comm (b := ex)]
  rfl

theorem order_eq : (executor H intent backend settings).order = intent.operations.map Operation.opId := by
  rw [Executor.order, executor, map_map]
  rfl

theorem find_operation (h : Intent2.Valid intent) (hmem : operation ∈ intent.operations) :
    intent.operations.find? (fun other => other.opId = operation.opId) = some operation :=
  find?_of_nodup h.opIds_nodup hmem

theorem depsOf_eq (h : Intent2.Valid intent) (hmem : operation ∈ intent.operations) :
    (executor H intent backend settings).depsOf operation.opId = operation.deps := by
  have hnodup : (executor H intent backend settings).order.Nodup := by
    rw [order_eq]
    exact h.opIds_nodup
  have hin : operation.task ∈ (executor H intent backend settings).tasks := mem_map_of_mem hmem
  exact BoardAux.depsOf_of_mem hnodup hin

theorem wellFormed (h : Intent2.Valid intent) : (executor H intent backend settings).WellFormed := by
  refine ⟨by rw [order_eq]; exact h.opIds_nodup, ?_⟩
  intro before opId after heq d hd
  rw [order_eq] at heq
  obtain ⟨front, rest, hsplit, rfl, hrest⟩ := map_eq_append_iff.mp heq
  obtain ⟨operation, tail, rfl, rfl, rfl⟩ := map_eq_cons_iff.mp hrest
  rw [depsOf_eq h (by rw [hsplit]; simp)] at hd
  have hdeps := (h.operations front operation tail hsplit).deps d hd
  rwa [seenAfter_ids] at hdeps

theorem objectOf_eq (h : Intent2.Valid intent) (hmem : operation ∈ intent.operations) : intent.objectOf operation.opId = operation.objectId := by
  rw [Intent2.objectOf, find_operation h hmem]
  rfl

theorem actsOn (h : Intent2.Valid intent) : (executor H intent backend settings).ActsOn intent.objectOf
    (intent.act H backend settings.cancelledSkip) := by
  intro opId hin objects
  rw [order_eq] at hin
  obtain ⟨operation, hmem, rfl⟩ := mem_map.mp hin
  obtain ⟨before, after, -, haccepts⟩ := h.accepts hmem
  obtain ⟨version, hversion, -⟩ := haccepts.version
  have hsize : intent.sizeOf operation = version.bytes.toNat := by rw [Intent2.sizeOf, hversion]; rfl
  have hobject := objectOf_eq h hmem
  have hact : ∀ versions, intent.act H backend settings.cancelledSkip operation.opId versions =
      if settings.cancelledSkip = true ∧ operation.sourceOutcome = some .cancelled then (sourceCancelled, versions)
      else operation.call H backend version.bytes.toNat versions := by
    intro versions
    rw [Intent2.act, find_operation h hmem, ← hsize]
  show intent.perform H backend settings.cancelledSkip operation.opId objects = _
  rw [Intent2.perform, find_operation h hmem, Cells.step, hobject, hact]
  simp only [require, ok_bind, hversion]
  split
  · rw [Function.update_eq_self]
    rfl
  · rfl

theorem performs (h : Intent2.Valid intent) : (executor H intent backend settings).Performs :=
  fun opId hmem objects => ⟨_, actsOn h opId hmem objects⟩

theorem timely (h : Intent2.Valid intent) (hdelay : 0 ≤ settings.declaredDelayNs) : (executor H intent backend settings).Timely := by
  refine ⟨?_, fun opId => Int.natCast_nonneg _⟩
  intro task htask
  obtain ⟨operation, hmem, rfl⟩ := mem_map.mp htask
  obtain ⟨before, after, -, haccepts⟩ := h.accepts hmem
  show 0 ≤ operation.declaredDelayNs.getD settings.declaredDelayNs
  cases hown : operation.declaredDelayNs with
  | none => exact hdelay
  | some delay => exact haccepts.delay delay hown

theorem workers_pos : 0 < (executor H intent backend settings).workers := by
  show 0 < (max 1 settings.workers).toNat
  omega

theorem enough_eq : (executor H intent backend settings).enough = 8 * intent.operations.length + 4 := by
  rw [Executor.enough, executor, length_map]

/-- The executor's operations on one object are chained where those of the record are. -/
theorem chained (h : Intent2.Valid intent)
    (hlinked : ∀ k, (intent.operations.filter (fun operation => operation.objectId = k)).IsChain (fun a b => a.opId ∈ b.deps)) :
    (executor H intent backend settings).Chained intent.objectOf := by
  intro k
  have hfilter : (executor H intent backend settings).order.filter (fun opId => intent.objectOf opId = k) =
      (intent.operations.filter (fun operation => operation.objectId = k)).map Operation.opId := by
    rw [order_eq, filter_map]
    congr 1
    refine filter_congr fun operation hmem => ?_
    simp only [Function.comp_apply, objectOf_eq h hmem]
  rw [hfilter, isChain_map]
  refine (hlinked k).imp_of_mem_imp fun a b _ hb hab => ?_
  rw [depsOf_eq h (mem_of_mem_filter hb)]
  exact hab

end ObjectRunAux

open ObjectRunAux

/-- A run that has ended does not change with more steps. -/
theorem simulateIntent2_mono {H : ContentHost} {intent : Intent2} {backend : FakeBackend} {settings : Settings} {fuel more : Nat}
    {last : Simulation Objects} (hle : fuel ≤ more) (h : simulateIntent2 H intent backend settings fuel = .ok (some last)) :
    simulateIntent2 H intent backend settings more = .ok (some last) := by
  obtain ⟨ex, hex, hrun⟩ := bind_eq_ok.mp h
  rw [simulateIntent2, hex, ok_bind]
  exact SimulatedAux.runSimulated_mono hle hrun

/-- A run of a record whose operations on each object are chained has the outcomes, and leaves the objects, of performing the
operations in the order of the record. -/
theorem simulateIntent2_sequential (H : ContentHost) {intent : Intent2} (backend : FakeBackend) (settings : Settings) (h : Intent2.Valid intent)
    (hlinked : ∀ k, (intent.operations.filter (fun operation => operation.objectId = k)).IsChain (fun a b => a.opId ∈ b.deps))
    (hprofile : ¬(settings.profile = .offered ∧ intent.provenance.timingModel = .absent)) {fuel : Nat}
    (hfuel : 8 * intent.operations.length + 4 ≤ fuel) :
    ∃ last, simulateIntent2 H intent backend settings fuel = .ok (some last) ∧
      last.backend = Cells.run intent.objectOf (intent.act H backend settings.cancelledSkip) (intent.operations.map Operation.opId)
        (backend.initialized H intent.initialObjects) ∧
      ∀ operation ∈ intent.operations, (last.board.rows operation.opId).outcome =
        Cells.result intent.objectOf (intent.act H backend settings.cancelledSkip) operation.opId
          (intent.operations.map Operation.opId) (backend.initialized H intent.initialObjects) := by
  have hex : Executor.ofIntent2 H intent backend settings = .ok (executor H intent backend settings) :=
    ofIntent2_eq_ok.mpr ⟨h, hprofile, rfl⟩
  have henough : (executor H intent backend settings).enough ≤ fuel := by
    rw [enough_eq]
    exact hfuel
  obtain ⟨last, hrun, hbackend, houtcomes⟩ := runSimulated_sequential (wellFormed h) (actsOn h) (chained h hlinked) workers_pos
    (backend.initialized H intent.initialObjects) henough
  rw [order_eq] at hbackend houtcomes
  refine ⟨last, ?_, hbackend, fun operation hmem => houtcomes _ (mem_map_of_mem hmem)⟩
  rw [simulateIntent2, hex, ok_bind, hrun]

end EbpfSyscall.Kvio
