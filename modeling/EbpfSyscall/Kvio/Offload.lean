import EbpfSyscall.Kvio.Intent1
import EbpfSyscall.Lib.Nested

/-!
# Building and lowering generated workloads

`build_kv_offload_intent` and `lower_intent` of `tools/kvio/intent.py`: a record is built by five nested loops, and lowered to the
commands of a target, component by component. Besides, the two `split_commands` functions of `tools/kvio/run_kv_offload_io.py` and
`examples/lmcache/kvio_plan.py`, which project the commands of one transfer.
-/

namespace EbpfSyscall.Kvio

open Checked

namespace Intent1

/-- The arguments of `build_kv_offload_intent`. -/
structure Parameters where
  name : Text
  dtype : Text
  chunkTokens : Int
  payloadBytes : Int
  ranksPerChunk : Int
  numChunks : Int
  streams : Int
  iters : Int
  warmup : Int
  storeMetadataBytes : Int
  deriving DecidableEq, Repr

/-- The parameters that a record states. -/
def parameters (intent : Intent1) : Parameters where
  name := intent.name
  dtype := intent.dtype
  chunkTokens := intent.chunkTokens
  payloadBytes := intent.payloadBytes
  ranksPerChunk := intent.ranksPerChunk
  numChunks := intent.numChunks
  streams := intent.streams
  iters := intent.iters
  warmup := intent.warmup
  storeMetadataBytes := intent.storeMetadataBytes

namespace Parameters

variable (parameters : Parameters)

/-- One turn of the innermost loop, on the operations so far and `sequence`. -/
def push (pass : Nat) (phase : Verb) (stream chunk rank : Nat) (s : List Operation1 × Int) : List Operation1 × Int :=
  (s.1 ++ [{ sequence := s.2, pass, phase, stream, streamSequence := chunk * parameters.ranksPerChunk + rank
             logicalObject := logicalObject pass stream chunk rank, chunkIndex := chunk, kvRank := rank
             payloadBytes := parameters.payloadBytes, timed := decide (parameters.warmup ≤ pass) }], s.2 + 1)

/-- The operations of one phase of a pass. -/
def phaseLoop (pass : Nat) (phase : Verb) : List Operation1 × Int → List Operation1 × Int :=
  Nested.loop parameters.streams.toNat fun stream => Nested.loop parameters.numChunks.toNat fun chunk =>
    Nested.loop parameters.ranksPerChunk.toNat fun rank => parameters.push pass phase stream chunk rank

/-- The operations of all passes. -/
def operations : List Operation1 :=
  (Nested.loop (parameters.warmup + parameters.iters).toNat (fun pass s =>
    [Verb.store, Verb.load].foldl (fun s phase => parameters.phaseLoop pass phase s) s) ([], 0)).1

/-- The record with its operations. -/
def intent : Intent1 where
  name := parameters.name
  dtype := parameters.dtype
  chunkTokens := parameters.chunkTokens
  payloadBytes := parameters.payloadBytes
  storeMetadataBytes := parameters.storeMetadataBytes
  ranksPerChunk := parameters.ranksPerChunk
  numChunks := parameters.numChunks
  streams := parameters.streams
  iters := parameters.iters
  warmup := parameters.warmup
  phaseOrder := [.store, .load]
  crossStreamOrder := "unordered-within-phase".toList
  operations := parameters.operations

end Parameters

end Intent1

open Intent1

/-- `build_kv_offload_intent`. -/
def buildKvOffloadIntent (parameters : Parameters) : Except PyError Intent1 := do
  positive parameters.chunkTokens "chunk_tokens"
  positive parameters.payloadBytes "payload_bytes"
  positive parameters.ranksPerChunk "ranks_per_chunk"
  positive parameters.numChunks "num_chunks"
  positive parameters.streams "streams"
  positive parameters.iters "iters"
  nonnegative parameters.storeMetadataBytes "store_metadata_bytes"
  nonnegative parameters.warmup "warmup"
  validateIntent parameters.intent
  pure parameters.intent

/-! ## Lowering -/

inductive TargetComponent where
  | metadata
  | payload
  deriving DecidableEq, Repr

/-- A command of a target plan. -/
structure TargetCommand where
  logicalSequence : Int
  logicalObject : Text
  op : Verb
  component : TargetComponent
  commandIndex : Nat
  componentOffsetBytes : Int
  bytes : Int
  deriving DecidableEq, Repr

/-- `target_limits`: limits that have been checked. -/
structure TargetLimits where
  mdtsBytes : Int
  dmaCeilingBytes : Option Int
  softwareLimitBytes : Option Int
  mdtsPos : 0 < mdtsBytes
  dmaPos : ∀ bytes ∈ dmaCeilingBytes, 0 < bytes
  softwarePos : ∀ bytes ∈ softwareLimitBytes, 0 < bytes

namespace TargetLimits

variable (limits : TargetLimits)

/-- The limits besides the first. -/
def others : List Int := limits.dmaCeilingBytes.toList ++ limits.softwareLimitBytes.toList

/-- `min(limits.values())`. -/
def effective : Int := limits.others.foldl min limits.mdtsBytes

theorem le_foldl_min {x : Int} (first : Int) (others : List Int) : x ≤ others.foldl min first ↔ x ≤ first ∧ ∀ bytes ∈ others, x ≤ bytes := by
  induction others generalizing first with
  | nil => simp
  | cons bytes others ih => rw [List.foldl_cons, ih, le_min_iff, List.forall_mem_cons, and_assoc]

theorem effective_pos : 0 < limits.effective := by
  refine (le_foldl_min limits.mdtsBytes limits.others).mpr ⟨limits.mdtsPos, fun bytes hbytes => ?_⟩
  rcases List.mem_append.mp hbytes with hbytes | hbytes
  · exact limits.dmaPos bytes (Option.mem_toList.mp hbytes)
  · exact limits.softwarePos bytes (Option.mem_toList.mp hbytes)

end TargetLimits

/-- The checks of the limits. -/
def checkLimits (mdtsBytes : Int) (dmaCeilingBytes softwareLimitBytes : Option Int) : Except PyError TargetLimits :=
  if hmdts : 0 < mdtsBytes then
    if hdma : ∀ bytes ∈ dmaCeilingBytes, 0 < bytes then
      if hsoftware : ∀ bytes ∈ softwareLimitBytes, 0 < bytes then
        .ok ⟨mdtsBytes, dmaCeilingBytes, softwareLimitBytes, hmdts, hdma, hsoftware⟩
      else .error (.intentError "software_limit_bytes must be a positive integer")
    else .error (.intentError "dma_ceiling_bytes must be a positive integer")
  else .error (.intentError "mdts_bytes must be a positive integer")

/-- `while remaining`: the commands of what remains of a component, and the index of the command after them. -/
def fragmentLoop (limits : TargetLimits) (operation : Operation1) (component : TargetComponent) (remaining offset : Int) (commandIndex : Nat) :
    List TargetCommand × Nat :=
  if remaining = 0 then ([], commandIndex)
  else
    let size := min remaining limits.effective
    let (rest, last) := fragmentLoop limits operation component (remaining - size) (offset + size) (commandIndex + 1)
    (⟨operation.sequence, operation.logicalObject, operation.phase, component, commandIndex, offset, size⟩ :: rest, last)
termination_by remaining.natAbs
decreasing_by
  have hpos := limits.effective_pos
  omega

/-- The components of an operation. -/
def components (intent : Intent1) (operation : Operation1) : List (TargetComponent × Int) :=
  (if operation.phase = .store ∧ intent.storeMetadataBytes ≠ 0 then [(.metadata, intent.storeMetadataBytes)] else []) ++
    [(.payload, operation.payloadBytes)]

/-- The commands of an operation; `command_index` runs on from one component to the next. -/
def lowerOperation (limits : TargetLimits) (intent : Intent1) (operation : Operation1) : List TargetCommand :=
  ((components intent operation).foldl (fun s part =>
    let (commands, commandIndex) := fragmentLoop limits operation part.1 part.2 0 s.2
    (s.1 ++ commands, commandIndex)) ([], 0)).1

/-- A target plan. -/
structure TargetPlan where
  intentSha256 : Text
  targetLimits : TargetLimits
  effectiveCommandBytes : Int
  logicalOperations : Nat
  logicalBytes : Int
  commandCount : Nat
  commands : List TargetCommand

/-- `lower_intent`; `intentSha256` is the digest of the canonical JSON of a record. -/
def lowerIntent (intentSha256 : Intent1 → Text) (intent : Intent1) (mdtsBytes : Int) (dmaCeilingBytes softwareLimitBytes : Option Int) :
    Except PyError TargetPlan := do
  validateIntent intent
  let limits ← checkLimits mdtsBytes dmaCeilingBytes softwareLimitBytes
  let commands := intent.operations.flatMap (lowerOperation limits intent)
  pure {
    intentSha256 := intentSha256 intent, targetLimits := limits, effectiveCommandBytes := limits.effective
    logicalOperations := intent.operations.length
    logicalBytes := (intent.operations.map Operation1.payloadBytes).sum
    commandCount := commands.length, commands }

/-! ## Splitting one transfer -/

/-- `math.ceil(a / b)`, taken exactly. -/
def ceilDiv (a b : Int) : Int := -((-a).fdiv b)

/-- The sizes before they are rounded. -/
def transferSizes (nbytes xfer : Int) : Except PyError (List Int) := do
  ensure (xfer ≠ 0) .zeroDivisionError
  let n := ceilDiv nbytes xfer
  pure (List.replicate (n - 1).toNat xfer ++ [nbytes - xfer * (n - 1)])

/-- `((c + lba - 1) // lba) * lba`. -/
def roundToBlock (lba c : Int) : Int := (c + lba - 1).fdiv lba * lba

/-- `split_commands` of `examples/lmcache/kvio_plan.py`. -/
def KvioPlan.splitCommands (nbytes xfer lbaBytes : Int) : Except PyError (List Int) := do
  if nbytes ≤ 0 then pure []
  else
    let cmds ← transferSizes nbytes xfer
    pure (if 1 < lbaBytes then cmds.map (roundToBlock lbaBytes) else cmds)

/-- `split_commands` of `tools/kvio/run_kv_offload_io.py`. -/
def KvOffloadIo.splitCommands (nbytes xfer lba : Int) : Except PyError (List Int) := do
  if nbytes ≤ 0 then pure []
  else
    let cmds ← transferSizes nbytes xfer
    ensure (lba ≠ 0) .zeroDivisionError
    pure (cmds.map (roundToBlock lba))

end EbpfSyscall.Kvio
