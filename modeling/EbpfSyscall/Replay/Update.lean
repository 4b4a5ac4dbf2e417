import EbpfSyscall.Lib.Faults
import EbpfSyscall.Replay.Bundle
import EbpfSyscall.Replay.Compare

/-!
# Updating a bundle

`update_runtime_bundle` of `examples/replay/compare_streams.py` writes the record of a comparison into the certificate of a bundle
and then the checksum list anew, each file through `_atomic_write`. Every call of the operating system is a step that the
environment may let through, make fail with an `OSError`, or stop the process at. `os.replace` is atomic.
-/

namespace EbpfSyscall

open Checked Faults CompareStreams

/-! ## The runtime record as JSON -/

/-- A float, or `None`. -/
def optionalFloat (value : Option Rat) : Json :=
  match value with
  | none => .null
  | some q => .float (.finite q)

def LatencyDistribution.toJson (distribution : LatencyDistribution) : Json :=
  .obj [Dict.entry "p50_us" (optionalFloat distribution.p50Us), Dict.entry "p99_us" (optionalFloat distribution.p99Us),
    Dict.entry "sample_count" (.int distribution.sampleCount)]

def TimingError.toJson (error : TimingError) : Json :=
  .obj [Dict.entry "max" (optionalFloat error.max), Dict.entry "p50" (optionalFloat error.p50),
    Dict.entry "p99" (optionalFloat error.p99)]

def CompletionLatency.toJson (latency : CompletionLatency) : Json :=
  .obj [Dict.entry "replay" latency.replay.toJson, Dict.entry "source" latency.source.toJson]

def CompletionStatusResult.toJson (status : CompletionStatusResult) : Json :=
  .obj [Dict.entry "all_commands_succeeded" (.bool status.allCommandsSucceeded),
    Dict.entry "error_count" (.int status.errorCount)]

def CompletionStatus.toJson (status : CompletionStatus) : Json :=
  .obj [Dict.entry "replay" status.replay.toJson, Dict.entry "source" status.source.toJson]

def CompletionPairing.toJson (pairing : CompletionPairing) : Json :=
  .obj [Dict.entry "absolute_error_max_us" (optionalFloat pairing.absoluteErrorMaxUs),
    Dict.entry "absolute_error_p50_us" (optionalFloat pairing.absoluteErrorP50Us),
    Dict.entry "absolute_error_p99_us" (optionalFloat pairing.absoluteErrorP99Us),
    Dict.entry "per_command_compared" (.bool pairing.perCommandCompared),
    Dict.entry "replay_complete" (.bool pairing.replayComplete),
    Dict.entry "source_complete" (.bool pairing.sourceComplete)]

def RuntimeDeviceValidation.toJson (runtime : RuntimeDeviceValidation) : Json :=
  .obj [Dict.entry "command_count_equal" (.bool runtime.commandCountEqual),
    Dict.entry "completion_latency_us" runtime.completionLatencyUs.toJson,
    Dict.entry "completion_pairing" runtime.completionPairing.toJson,
    Dict.entry "completion_status" runtime.completionStatus.toJson,
    Dict.entry "device_stream_equal" (.bool runtime.deviceStreamEqual),
    Dict.entry "length_sequence_equal" (.bool runtime.lengthSequenceEqual),
    Dict.entry "offset_sequence_equal" (.bool runtime.offsetSequenceEqual),
    Dict.entry "operation_sequence_equal" (.bool runtime.operationSequenceEqual),
    Dict.entry "replay_capture_complete" (.bool runtime.replayCaptureComplete),
    Dict.entry "replay_capture_sha256" (.str runtime.replayCaptureSha256),
    Dict.entry "replay_command_count" (.int runtime.replayCommandCount),
    Dict.entry "schema_version" (.int runtime.schemaVersion.toNat),
    Dict.entry "source_capture_complete" (.bool runtime.sourceCaptureComplete),
    Dict.entry "source_command_count" (.int runtime.sourceCommandCount),
    Dict.entry "timing_error_us" runtime.timingErrorUs.toJson,
    Dict.entry "tuple_sequence_equal" (.bool runtime.tupleSequenceEqual)]

/-- `runtime`: the record of one comparison. -/
def runtimeRecord (replaySha256 : Text) (source replay : LoadedStream) (comparison : Comparison) :
    RuntimeDeviceValidation where
  schemaVersion := 1
  replayCaptureSha256 := replaySha256
  sourceCommandCount := source.commands.length
  replayCommandCount := replay.commands.length
  sourceCaptureComplete := comparison.sourceCaptureComplete
  replayCaptureComplete := comparison.replayCaptureComplete
  commandCountEqual := comparison.commandCountEqual
  operationSequenceEqual := comparison.operationSequenceEqual
  offsetSequenceEqual := comparison.offsetSequenceEqual
  lengthSequenceEqual := comparison.lengthSequenceEqual
  tupleSequenceEqual := comparison.tupleSequenceEqual
  deviceStreamEqual := comparison.deviceStreamEqual
  timingErrorUs := comparison.timingErrorUs
  completionLatencyUs := ⟨latencyDistribution source, latencyDistribution replay⟩
  completionStatus :=
    ⟨⟨comparison.sourceCompletionErrorCount, comparison.sourceAllCommandsSucceeded⟩,
      ⟨comparison.replayCompletionErrorCount, comparison.replayAllCommandsSucceeded⟩⟩
  completionPairing :=
    { sourceComplete := comparison.sourceCompletionPairingComplete
      replayComplete := comparison.replayCompletionPairingComplete
      perCommandCompared := comparison.perCommandCompletionLatencyCompared
      absoluteErrorP50Us := comparison.completionLatencyErrorUs.p50
      absoluteErrorP99Us := comparison.completionLatencyErrorUs.p99
      absoluteErrorMaxUs := comparison.completionLatencyErrorUs.max }

/-- `_normalized_commands`. -/
def normalizedCommands (capture : LoadedStream) (lbaBytes : Int) : List NormalizedCommand :=
  match capture.commands with
  | [] => []
  | first :: _ => capture.commands.mapIdx fun index command =>
    { seq := index, atNs := command.ts - first.ts, op := command.op, offsetBytes := command.slba * lbaBytes,
      lengthBytes := command.bytes }

mutual

/-- What `json.dumps(…, allow_nan=False)` accepts: no `NaN` and no infinity. -/
def Json.finite : Json → Bool
  | .float (.finite _) => true
  | .float _ => false
  | .arr items => Json.finiteList items
  | .obj entries => Json.finiteEntries entries
  | _ => true

def Json.finiteList : List Json → Bool
  | [] => true
  | item :: items => Json.finite item && Json.finiteList items

def Json.finiteEntries : List (Text × Json) → Bool
  | [] => true
  | (_, value) :: entries => Json.finite value && Json.finiteEntries entries

end

/-! ## Writing files -/

/-- The calls of `_atomic_write`. -/
inductive WriteStep where
  | openDirectory
  | openTemporary
  | fdopen
  | write
  | flush
  | fsyncFile
  | closeFile
  | replace
  | fsyncDirectory
  | closeDescriptor
  | unlink
  | closeDirectory
  deriving DecidableEq, Repr

/-- The places where `update_runtime_bundle` meets the operating system. All reads of the verification are one place, since they
change nothing. -/
inductive UpdateStep where
  | verify
  | readSource
  | readReplay
  | digest (name : Text)
  | write (name : Text) (call : WriteStep)
  deriving DecidableEq, Repr

/-- The process and the operating system it runs on. -/
structure Environment (Γ : Host) where
  /-- `os.getpid()`. -/
  pid : Nat
  /-- What happens at each place. -/
  fate : UpdateStep → Fate
  /-- What a temporary file holds while it is written. -/
  torn : Γ.Bytes

/-- The bundle, and whether `descriptor` holds an open file. -/
structure Machine (Γ : Host) where
  bundle : Bundle Γ
  descriptor : Bool := false

section Writing

variable {Γ : Host}

def Machine.insert (machine : Machine Γ) (name : Text) (content : Γ.Bytes) : Machine Γ :=
  { machine with bundle := { machine.bundle with files := machine.bundle.files.insert name (.regular content) } }

def Machine.erase (machine : Machine Γ) (name : Text) : Machine Γ :=
  { machine with bundle := { machine.bundle with files := machine.bundle.files.erase name } }

/-- A file takes the name of another. -/
def Machine.rename (machine : Machine Γ) (old new : Text) : Machine Γ :=
  match machine.bundle.files.lookup old with
  | some entry => { machine with
      bundle := { machine.bundle with files := (machine.bundle.files.erase old).insert new entry } }
  | none => machine

abbrev Update (Γ : Host) (α : Type) := Prog (Machine Γ) PyError α

def Environment.step (env : Environment Γ) (place : UpdateStep) (effect : Machine Γ → Machine Γ := id)
    (left : Machine Γ → Machine Γ := id) : Update Γ Unit :=
  Prog.step (env.fate place) .osError effect left

/-- `f".{path.name}.tmp-{os.getpid()}"`. -/
def temporaryName (env : Environment Γ) (name : Text) : Text := ['.'] ++ name ++ ".tmp-".toList ++ Decimal.print env.pid

/-- `os.open` with `O_CREAT | O_EXCL`: the name must be free. -/
def openTemporary (env : Environment Γ) (name : Text) : Update Γ Unit := do
  Prog.reads fun machine => ensure (temporaryName env name ∉ machine.bundle.files) .osError
  env.step (.write name .openTemporary) fun machine =>
    { machine.insert (temporaryName env name) env.torn with descriptor := true }

/-- The file is opened on the descriptor, filled, and closed whatever happens. -/
def fillTemporary (env : Environment Γ) (name content : Text) : Update Γ Unit := do
  env.step (.write name .fdopen) fun machine => { machine with descriptor := false }
  Prog.always
    (do
      env.step (.write name .write)
      env.step (.write name .flush) fun machine => machine.insert (temporaryName env name) (Γ.encode content)
      env.step (.write name .fsyncFile))
    (env.step (.write name .closeFile))

/-- `os.replace`: the temporary file takes the name. -/
def replaceFile (env : Environment Γ) (name : Text) : Update Γ Unit :=
  env.step (.write name .replace) fun machine => machine.rename (temporaryName env name) name

/-- `os.close(descriptor)`, if it is open. -/
def closeDescriptor (env : Environment Γ) (name : Text) : Update Γ Unit :=
  Prog.whenever Machine.descriptor (env.step (.write name .closeDescriptor) fun machine => { machine with descriptor := false })

/-- The handler of an `OSError`. -/
def cleanUp (env : Environment Γ) (name : Text) (error : PyError) : Update Γ Unit :=
  match error with
  | .osError => do
    closeDescriptor env name
    Prog.handle (env.step (.write name .unlink) fun machine => machine.erase (temporaryName env name)) (fun _ => pure ())
    Prog.raise (.comparisonError s!"cannot update runtime bundle {String.ofList name}")
  | error => Prog.raise error

/-- `_atomic_write`. -/
def atomicWrite (env : Environment Γ) (name content : Text) : Update Γ Unit := do
  env.step (.write name .openDirectory)
  Prog.always
    (Prog.handle
      (do
        openTemporary env name
        fillTemporary env name content
        replaceFile env name
        env.step (.write name .fsyncDirectory))
      (cleanUp env name))
    (env.step (.write name .closeDirectory))

/-! ## The update -/

/-- `value != expected`, for a value that may be missing. -/
def differs (value : Option Json) (expected : Json) : Bool := !value.any (fun value => Python.eq value expected)

/-- What is checked before anything is written. -/
def checkUpdate (sourceSha256 : Text) (certificate workload : Dict) (source : LoadedStream) (lbaBytes : Int) :
    Except PyError Unit := do
  ensure (differs (certificate.get "source_trace_sha256") (.str sourceSha256) = false)
    (.comparisonError "source capture does not match the runtime bundle")
  ensure (differs (certificate.get "lba_bytes") (.int lbaBytes) = false)
    (.comparisonError "comparison LBA size does not match the runtime bundle")
  ensure (Python.eq (.obj workload) (workloadJson (normalizedCommands source lbaBytes)) = true)
    (.comparisonError "source capture does not match the normalized workload")

/-- `json.dumps(certificate, …, allow_nan=False) + "\n"`. -/
def certificateText (Γ : Host) (certificate : Dict) : Except PyError Text := do
  ensure (Json.finite (.obj certificate) = true) (.valueError "Out of range float values are not JSON compliant")
  pure (jsonText Γ (.obj certificate))

/-- `_sha256_file(root / name)`, as a line of the checksum list. -/
def sumLine (env : Environment Γ) (name : Text) : Update Γ Text := do
  env.step (.digest name)
  Prog.reads fun machine => (readFile machine.bundle.files name).map (fun content => checksumLine (Γ.sha256 content) name)

/-- `update_runtime_bundle` up to its first write: the record and the text of the new certificate. -/
def prepareUpdate (Γ : Host) (env : Environment Γ) (root : String) (sourceContent replayContent : Γ.Bytes)
    (source replay : LoadedStream) (comparison : Comparison) (lbaBytes : Int) : Update Γ (RuntimeDeviceValidation × Text) := do
  env.step .verify
  let (certificate, workload) ← Prog.reads fun machine => verifyBundle Γ root machine.bundle
  Prog.reads fun _ => ensure (differs (certificate.get "schema_version") (.int 1) = false)
    (.comparisonError "runtime bundle has an unsupported certificate")
  env.step .readSource
  Prog.reads fun _ => checkUpdate (Γ.sha256 sourceContent) certificate workload source lbaBytes
  env.step .readReplay
  let runtime := runtimeRecord (Γ.sha256 replayContent) source replay comparison
  let text ← Prog.reads fun _ => certificateText Γ (certificate.set "runtime_device_validation" runtime.toJson)
  pure (runtime, text)

/-- The two writes of `update_runtime_bundle`. -/
def commitUpdate (env : Environment Γ) (text : Text) : Update Γ Unit := do
  atomicWrite env "certificate.json".toList text
  let sums ← bundleArtifacts.mapM (sumLine env)
  atomicWrite env sha256Sums (checksumText sums)

def updateRuntimeBundle (Γ : Host) (env : Environment Γ) (root : String) (sourceContent replayContent : Γ.Bytes)
    (source replay : LoadedStream) (comparison : Comparison) (lbaBytes : Int) : Update Γ RuntimeDeviceValidation := do
  let (runtime, text) ← prepareUpdate Γ env root sourceContent replayContent source replay comparison lbaBytes
  commitUpdate env text
  pure runtime

end Writing

end EbpfSyscall
