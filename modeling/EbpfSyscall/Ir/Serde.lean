import EbpfSyscall.Json
import EbpfSyscall.Ir.Types

/-!
# Reading the verifier's records from JSON

What `serde_json::from_slice` makes of a value for the derived `Deserialize` instances of the crate: a field is looked up by its
name, an integer must fit its type, a missing or null field of an `Option` is `None`, and the records of a runtime validation
refuse fields they do not know. A `usize` has 64 bits.
-/

namespace EbpfSyscall

namespace Serde

variable {α : Type}

/-- An integer of `w` bits without a sign, as a `Nat`. -/
def unsigned? (w : Nat) : Json → Option Nat
  | .int i => if 0 ≤ i ∧ i < 2 ^ w then some i.toNat else none
  | _ => none

def u64? (value : Json) : Option UInt64 := (unsigned? 64 value).map UInt64.ofNat

def u32? (value : Json) : Option UInt32 := (unsigned? 32 value).map UInt32.ofNat

def usize? (value : Json) : Option Nat := unsigned? 64 value

def bool? : Json → Option Bool
  | .bool b => some b
  | _ => none

def text? : Json → Option Text
  | .str s => some s
  | _ => none

/-- A finite float: JSON has no other. -/
def f64? : Json → Option Rat
  | .int i => some i
  | .float (.finite q) => some q
  | _ => none

/-- An `Option` field: null is `None`. -/
def nullable? (read : Json → Option α) : Json → Option (Option α)
  | .null => some none
  | value => (read value).map some

def list? (read : Json → Option α) : Json → Option (List α)
  | .arr items => items.mapM read
  | _ => none

def object? : Json → Option Dict
  | .obj entries => some entries
  | _ => none

/-- A field that must be there. -/
def field? (d : Dict) (key : String) (read : Json → Option α) : Option α := (d.get key).bind read

/-- A field of an `Option` type. -/
def optional? (d : Dict) (key : String) (read : Json → Option α) : Option (Option α) :=
  match d.get key with
  | none => some none
  | some value => nullable? read value

/-- `deny_unknown_fields`. -/
def onlyFields (d : Dict) (keys : List String) : Bool := d.all (fun entry => keys.any (fun key => key.toList == entry.1))

/-- An object without unknown fields. -/
def strictObject? (keys : List String) (value : Json) : Option Dict :=
  (object? value).filter (fun d => onlyFields d keys)

end Serde

open Serde

def Operation.ofJson? (value : Json) : Option Operation :=
  (text? value).bind (fun name => [.read, .write, .sync, .datasync].find? (fun op => op.fioName == name))

def Command.ofDict? (d : Dict) : Option Command := do
  return {
    atNs := ← field? d "at_ns" u64?
    lengthBytes := ← field? d "length_bytes" u64?
    offsetBytes := ← field? d "offset_bytes" u64?
    op := ← field? d "op" Operation.ofJson?
    seq := ← field? d "seq" u64? }

def Command.ofJson? (value : Json) : Option Command :=
  (object? value).bind Command.ofDict?

def Workload.ofDict? (d : Dict) : Option Workload := do
  return {
    schemaVersion := ← field? d "schema_version" u32?
    commands := ← field? d "commands" (list? Command.ofJson?) }

def Workload.ofJson? (value : Json) : Option Workload :=
  (object? value).bind Workload.ofDict?

def LatencyDistribution.ofDict? (d : Dict) : Option LatencyDistribution := do
  return {
    sampleCount := ← field? d "sample_count" usize?
    p50Us := ← optional? d "p50_us" f64?
    p99Us := ← optional? d "p99_us" f64? }

def LatencyDistribution.ofJson? (value : Json) : Option LatencyDistribution :=
  (strictObject? ["sample_count", "p50_us", "p99_us"] value).bind LatencyDistribution.ofDict?

def TimingError.ofDict? (d : Dict) : Option TimingError := do
  return {
    p50 := ← optional? d "p50" f64?
    p99 := ← optional? d "p99" f64?
    max := ← optional? d "max" f64? }

def TimingError.ofJson? (value : Json) : Option TimingError :=
  (strictObject? ["p50", "p99", "max"] value).bind TimingError.ofDict?

def CompletionLatency.ofDict? (d : Dict) : Option CompletionLatency := do
  return {
    source := ← field? d "source" LatencyDistribution.ofJson?
    replay := ← field? d "replay" LatencyDistribution.ofJson? }

def CompletionLatency.ofJson? (value : Json) : Option CompletionLatency :=
  (strictObject? ["source", "replay"] value).bind CompletionLatency.ofDict?

def CompletionStatusResult.ofDict? (d : Dict) : Option CompletionStatusResult := do
  return {
    errorCount := ← field? d "error_count" usize?
    allCommandsSucceeded := ← field? d "all_commands_succeeded" bool? }

def CompletionStatusResult.ofJson? (value : Json) : Option CompletionStatusResult :=
  (strictObject? ["error_count", "all_commands_succeeded"] value).bind CompletionStatusResult.ofDict?

def CompletionStatus.ofDict? (d : Dict) : Option CompletionStatus := do
  return {
    source := ← field? d "source" CompletionStatusResult.ofJson?
    replay := ← field? d "replay" CompletionStatusResult.ofJson? }

def CompletionStatus.ofJson? (value : Json) : Option CompletionStatus :=
  (strictObject? ["source", "replay"] value).bind CompletionStatus.ofDict?

def CompletionPairing.ofDict? (d : Dict) : Option CompletionPairing := do
  return {
    sourceComplete := ← field? d "source_complete" bool?
    replayComplete := ← field? d "replay_complete" bool?
    perCommandCompared := ← field? d "per_command_compared" bool?
    absoluteErrorP50Us := ← optional? d "absolute_error_p50_us" f64?
    absoluteErrorP99Us := ← optional? d "absolute_error_p99_us" f64?
    absoluteErrorMaxUs := ← optional? d "absolute_error_max_us" f64? }

def CompletionPairing.ofJson? (value : Json) : Option CompletionPairing :=
  (strictObject? ["source_complete", "replay_complete", "per_command_compared", "absolute_error_p50_us",
    "absolute_error_p99_us", "absolute_error_max_us"] value).bind CompletionPairing.ofDict?

def RuntimeDeviceValidation.ofDict? (d : Dict) : Option RuntimeDeviceValidation := do
  return {
    schemaVersion := ← field? d "schema_version" u32?
    replayCaptureSha256 := ← field? d "replay_capture_sha256" text?
    sourceCommandCount := ← field? d "source_command_count" usize?
    replayCommandCount := ← field? d "replay_command_count" usize?
    sourceCaptureComplete := ← field? d "source_capture_complete" bool?
    replayCaptureComplete := ← field? d "replay_capture_complete" bool?
    commandCountEqual := ← field? d "command_count_equal" bool?
    operationSequenceEqual := ← field? d "operation_sequence_equal" bool?
    offsetSequenceEqual := ← field? d "offset_sequence_equal" bool?
    lengthSequenceEqual := ← field? d "length_sequence_equal" bool?
    tupleSequenceEqual := ← field? d "tuple_sequence_equal" bool?
    deviceStreamEqual := ← field? d "device_stream_equal" bool?
    timingErrorUs := ← field? d "timing_error_us" TimingError.ofJson?
    completionLatencyUs := ← field? d "completion_latency_us" CompletionLatency.ofJson?
    completionStatus := ← field? d "completion_status" CompletionStatus.ofJson?
    completionPairing := ← field? d "completion_pairing" CompletionPairing.ofJson? }

def RuntimeDeviceValidation.ofJson? (value : Json) : Option RuntimeDeviceValidation :=
  (strictObject? ["schema_version", "replay_capture_sha256", "source_command_count", "replay_command_count",
    "source_capture_complete", "replay_capture_complete", "command_count_equal", "operation_sequence_equal",
    "offset_sequence_equal", "length_sequence_equal", "tuple_sequence_equal", "device_stream_equal", "timing_error_us",
    "completion_latency_us", "completion_status", "completion_pairing"] value).bind RuntimeDeviceValidation.ofDict?

def SourceCertificate.ofDict? (d : Dict) : Option SourceCertificate := do
  return {
    schemaVersion := ← field? d "schema_version" u32?
    equivalenceLevel := ← field? d "equivalence_level" text?
    sourceCommandCount := ← field? d "source_command_count" usize?
    emittedCommandCount := ← field? d "emitted_command_count" usize?
    operationOffsetLengthSequenceEqual := ← field? d "operation_offset_length_sequence_equal" bool?
    normalizedStreamSha256 := ← field? d "normalized_stream_sha256" text?
    emittedIologSha256 := ← field? d "emitted_iolog_sha256" text?
    maximumTimestampQuantizationErrorNs := ← field? d "maximum_timestamp_quantization_error_ns" u64?
    lbaBytes := ← field? d "lba_bytes" u64?
    captureDrops := ← field? d "capture_drops" u64?
    unsupportedCommandsOmitted := ← field? d "unsupported_commands_omitted" usize?
    performanceEquivalenceClaimed := ← field? d "performance_equivalence_claimed" bool?
    runtimeDeviceValidation := ← optional? d "runtime_device_validation" RuntimeDeviceValidation.ofJson? }

def SourceCertificate.ofJson? (value : Json) : Option SourceCertificate :=
  (object? value).bind SourceCertificate.ofDict?

end EbpfSyscall
