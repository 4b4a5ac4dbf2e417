import EbpfSyscall.Kvio.Executor
import EbpfSyscall.Lib.Precedence

/-!
# Records that the validator accepts

`validate_intent2` accepts a record exactly when it is `Intent2.Valid`: what it says of the provenance, the engine, the representations,
the objects and the live set, and for every operation what holds of it given the operations before it.
-/

namespace EbpfSyscall.Kvio

open Checked

namespace Intent2

/-- The identity of the version that an operation is about. -/
def versionKey (operation : Operation) : Text × Text := (operation.objectId, operation.version.text)

/-- The visible versions after an operation. -/
def visibleAfter (stored : List (Text × Text)) (operation : Operation) : List (Text × Text) :=
  match operation.op with
  | .store => versionKey operation :: stored
  | .load => stored
  | .release => stored.filter (· ≠ versionKey operation)

/-- What the loop over the operations remembers after one of them. -/
def Seen.next (seen : Seen) (operation : Operation) : Seen :=
  ⟨seen.ids ++ [operation.opId], visibleAfter seen.stored operation⟩

/-- The release time an operation may carry under a timing model. -/
def ReleaseOk (timingModel : TimingModel) (releaseNs : Option Int) : Prop :=
  (∀ release, releaseNs = some release → 0 ≤ release ∧ timingModel ≠ .absent) ∧ (releaseNs = none → timingModel ≠ .captured)

/-- The range an operation on a version of the given size may carry. -/
def RangeOk (size : Int) (verb : Verb) (range : Range) : Prop :=
  0 ≤ range.offset ∧ 1 ≤ range.length ∧ range.offset + range.length ≤ size ∧ verb = .load

/-- What the validator asks of an operation, given what the loop remembers. -/
structure Accepts (intent : Intent2) (seen : Seen) (seq : Nat) (operation : Operation) : Prop where
  seq : operation.seq = seq
  opId : operation.opId ≠ []
  fresh : operation.opId ∉ seen.ids
  version : ∃ version, intent.version? operation.objectId operation.version = some version ∧
    ∀ range, operation.range = some range → RangeOk version.bytes operation.op range
  requested : 0 ≤ operation.requestedBytes
  stream : operation.stream ≠ none
  deps : ∀ d ∈ operation.deps, d ∈ seen.ids
  outcome : ∀ outcome, operation.sourceOutcome = some outcome → outcome ∈ outcomes
  release : ReleaseOk intent.provenance.timingModel operation.releaseNs
  delay : ∀ delay, operation.declaredDelayNs = some delay → 0 ≤ delay
  visible : operation.op = .load →
    versionKey operation ∈ seen.stored ∨ operation.sourceOutcome.any (fun outcome => outcome ∈ excused) = true

variable {path : String} {u : Unit}

theorem checkInt_eq_ok {value minimum : Int} : checkInt value path minimum = .ok u ↔ minimum ≤ value := by
  rw [checkInt, ensure_eq_ok]

theorem checkStr_eq_ok {value : Text} : checkStr value path = .ok u ↔ value ≠ [] := by
  rw [checkStr, ensure_eq_ok]

theorem checkRelease_eq_ok {timingModel : TimingModel} {releaseNs : Option Int} :
    checkRelease path timingModel releaseNs = .ok u ↔ ReleaseOk timingModel releaseNs := by
  unfold ReleaseOk
  cases releaseNs with
  | none => simp [checkRelease]
  | some release => simp [checkRelease, check_bind_eq_ok, checkInt_eq_ok]

theorem checkRange_eq_ok {size : Int} {verb : Verb} {range : Range} : checkRange path size verb range = .ok u ↔ RangeOk size verb range := by
  simp [checkRange, check_bind_eq_ok, checkInt_eq_ok, RangeOk]

theorem visibility_eq_ok {stored next : List (Text × Text)} {operation : Operation} : visibility path stored operation = .ok next ↔
      (operation.op = .load → versionKey operation ∈ stored ∨
        operation.sourceOutcome.any (fun outcome => outcome ∈ excused) = true) ∧ next = visibleAfter stored operation := by
  unfold visibility visibleAfter
  cases hop : operation.op with
  | store =>
    rw [Except.ok.injEq, eq_comm]
    simp [versionKey]
  | release =>
    rw [Except.ok.injEq, eq_comm]
    simp only [reduceCtorEq, false_imp_iff, true_and]
    rfl
  | load =>
    dsimp only
    rw [check_bind_eq_ok, ensure_eq_ok, pure_eq_ok, Except.ok.injEq, eq_comm (a := stored)]
    simp [versionKey]

theorem operationStep_eq_ok {intent : Intent2} {seen next : Seen} {seq : Nat} {operation : Operation} :
    operationStep intent seen seq operation = .ok next ↔ Accepts intent seen seq operation ∧ next = seen.next operation := by
  simp only [operationStep, bind_eq_ok, exists_const, ensure_eq_ok, checkStr_eq_ok, checkInt_eq_ok, whenSome_eq_ok,
    checkAll_eq_ok, require_eq_ok, checkRange_eq_ok, checkRelease_eq_ok, visibility_eq_ok, pure_eq_ok, Except.ok.injEq]
  constructor
  · rintro ⟨hseq, hopId, hfresh, version, hversion, hrange, hrequested, hstream, hdeps, houtcome, hrelease, hdelay, stored,
      ⟨hvisible, rfl⟩, rfl⟩
    exact ⟨⟨hseq, hopId, hfresh, ⟨version, hversion, hrange⟩, hrequested, hstream, hdeps, houtcome, hrelease, hdelay, hvisible⟩, rfl⟩
  · rintro ⟨h, rfl⟩
    obtain ⟨version, hversion, hrange⟩ := h.version
    exact ⟨h.seq, h.opId, h.fresh, version, hversion, hrange, h.requested, h.stream, h.deps, h.outcome, h.release, h.delay, _,
      ⟨h.visible, rfl⟩, rfl⟩

/-- What the loop remembers before the first operation. -/
def firstSeen (intent : Intent2) : Seen := ⟨[], intent.live.map (fun item => (item.objectId, item.version.text))⟩

/-- What the loop remembers after the given operations. -/
def seenAfter (intent : Intent2) (operations : List Operation) : Seen := operations.foldl Seen.next (firstSeen intent)

/-- What the validator accepts. -/
structure Valid (intent : Intent2) : Prop where
  provenance : checkProvenance intent.provenance = .ok ()
  engine : intent.engine.name ≠ [] ∧ intent.engine.revision ≠ []
  represented : intent.representations.entries ≠ []
  representations : ∀ entry ∈ intent.representations.entries, checkRepresentation entry = .ok ()
  objects : ∀ entry ∈ intent.objects.entries, checkObject intent.representations entry = .ok ()
  live : ∀ item ∈ intent.live, (intent.version? item.objectId item.version).isSome = true
  operations : ∀ before operation after, intent.operations = before ++ operation :: after →
    Accepts intent (seenAfter intent before) before.length operation
  timing : intent.provenance.timingModel = .captured →
    intent.timing.sidecar.any (· ≠ []) = true ∧ intent.timing.sidecarSha256.any (· ≠ []) = true

end Intent2

open Intent2

theorem validateIntent2_eq_ok {intent : Intent2} {u : Unit} : validateIntent2 intent = .ok u ↔ Intent2.Valid intent := by
  have hloop : (∃ seen, foldFrom (operationStep intent) 0 (firstSeen intent) intent.operations = .ok seen) ↔
      ∀ before operation after, intent.operations = before ++ operation :: after →
        Accepts intent (seenAfter intent before) before.length operation := by
    have hstep : ∀ seen seq operation next, operationStep intent seen seq operation = .ok next ↔
        Accepts intent seen seq operation ∧ next = seen.next operation := fun _ _ _ _ => operationStep_eq_ok
    exact exists_foldFrom_eq_ok_iff hstep
  simp only [validateIntent2, checkEngine, checkTiming, checkLive, bind_eq_ok, exists_const, ensure_eq_ok, checkStr_eq_ok,
    checkAll_eq_ok]
  rw [← firstSeen]
  constructor
  · rintro ⟨_, hprovenance, hengine, hrepresented, hrepresentations, hobjects, hlive, seen, hseen, htiming⟩
    exact ⟨hprovenance, hengine, hrepresented, hrepresentations, hobjects, hlive, hloop.mp ⟨seen, hseen⟩, htiming⟩
  · intro h
    obtain ⟨seen, hseen⟩ := hloop.mpr h.operations
    exact ⟨(), h.provenance, h.engine, h.represented, h.representations, h.objects, h.live, seen, hseen, h.timing⟩

namespace Intent2

variable {intent : Intent2}

/-- An operation names another one as a dependency. -/
def DependsOn (intent : Intent2) (d opId : Text) : Prop := ∃ operation ∈ intent.operations, operation.opId = opId ∧ d ∈ operation.deps

/-- The ancestors of an operation in the graph of the dependencies. -/
def Ancestor (intent : Intent2) : Text → Text → Prop := Relation.TransGen intent.DependsOn

theorem foldl_next_ids (operations : List Operation) (seen : Seen) :
    (operations.foldl Seen.next seen).ids = seen.ids ++ operations.map Operation.opId := by
  induction operations generalizing seen with
  | nil => simp
  | cons operation rest ih => rw [List.foldl_cons, ih, Seen.next, List.map_cons, List.append_assoc, List.singleton_append]

@[simp] theorem seenAfter_ids (intent : Intent2) (operations : List Operation) :
    (seenAfter intent operations).ids = operations.map Operation.opId := by
  rw [seenAfter, foldl_next_ids]
  rfl

theorem seenAfter_concat (intent : Intent2) (operations : List Operation) (operation : Operation) :
    seenAfter intent (operations ++ [operation]) = (seenAfter intent operations).next operation := by
  rw [seenAfter, List.foldl_append]
  rfl

/-- Every operation of an accepted record is accepted after those before it. -/
theorem Valid.accepts (h : Valid intent) {operation : Operation} (hmem : operation ∈ intent.operations) :
    ∃ before after, intent.operations = before ++ operation :: after ∧
      Accepts intent (seenAfter intent before) before.length operation := by
  obtain ⟨before, after, heq⟩ := List.append_of_mem hmem
  exact ⟨before, after, heq, h.operations before operation after heq⟩

theorem Valid.opIds_nodup (h : Valid intent) : (intent.operations.map Operation.opId).Nodup := by
  refine nodup_of_fresh fun before operation after heq => ?_
  have hfresh := (h.operations before operation after heq).fresh
  rwa [seenAfter_ids] at hfresh

/-- A representation with one component that is the whole payload is accepted. -/
theorem checkRepresentation_payload {repId codec : Text} {bytes : Int} (hrepId : repId ≠ []) (hcodec : codec ≠ [])
    (hbytes : 1 ≤ bytes) : checkRepresentation (repId, ⟨codec, bytes, none, [⟨"payload".toList, 0, bytes⟩]⟩) = .ok () := by
  have hpayload : "payload".toList ≠ [] := by decide
  simp only [checkRepresentation, checkStr, ensure_of hrepId, ensure_of hcodec, checkInt, ensure_of hbytes, whenSome, ok_bind, foldFrom,
    componentStep, ensure_of hpayload, ensure_of (le_refl (0 : Int)), pure_eq_ok]
  simp

end Intent2

end EbpfSyscall.Kvio
