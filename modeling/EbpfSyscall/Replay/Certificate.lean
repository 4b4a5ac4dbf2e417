import EbpfSyscall.Replay.Exporter
import EbpfSyscall.Ir.Serde

/-!
# The exporter's certificate

`translation_certificate` of `examples/replay/mk_dev_iolog.py`, with the JSON forms of the records that the exporter writes into a
bundle. The keys of an object stand in order, as `json.dumps(…, sort_keys=True)` writes them.
-/

namespace EbpfSyscall

open Checked

/-- `normalized`: the rows numbered from zero, with times relative to the first row. -/
def normalizedRows (rows : List Row) (t0 : Int) : List NormalizedCommand :=
  rows.mapIdx fun index row =>
    { seq := index, atNs := row.timestampNs - t0, op := row.op, offsetBytes := row.offsetBytes, lengthBytes := row.lengthBytes }

/-- The command an iolog must hold for a command of the stream. -/
def NormalizedCommand.expected (command : NormalizedCommand) : IologCommand where
  timestampUs := command.atNs / 1000
  op := command.op.fioName
  offsetBytes := command.offsetBytes
  lengthBytes := command.lengthBytes

/-- The fields of `certificate.json`. -/
structure Certificate where
  schemaVersion : Int
  source : Text
  equivalenceLevel : Text
  sourceCommandCount : Nat
  emittedCommandCount : Nat
  operationOffsetLengthSequenceEqual : Bool
  sourceTraceSha256 : Text
  normalizedStreamSha256 : Text
  emittedIologSha256 : Text
  timestampInputUnit : Text
  timestampOutputUnit : Text
  maximumTimestampQuantizationErrorNs : Int
  lbaBytes : Int
  captureDrops : Int
  unsupportedCommandsOmitted : Nat
  performanceEquivalenceClaimed : Bool
  runtimeDeviceValidation : Option Json
  deriving DecidableEq

/-- The certificate of a stream and what was read back from its iolog. -/
def certificateOf (Γ : Host) (rows : List Row) (normalized : List NormalizedCommand) (reparsed : List IologCommand)
    (maximum : Int) (iolog : Text) (capture : Γ.Bytes) (captureMeta : CaptureMeta) : Certificate where
  schemaVersion := 1
  source := "measured NVMe command capture".toList
  equivalenceLevel :=
    if captureMeta.drops ≠ 0 ∨ captureMeta.unsupportedCommandsOmitted ≠ 0 then "partial-stream-translation".toList
    else "stream-translation".toList
  sourceCommandCount := rows.length
  emittedCommandCount := reparsed.length
  operationOffsetLengthSequenceEqual := decide (reparsed = normalized.map NormalizedCommand.expected)
  sourceTraceSha256 := Γ.sha256 capture
  normalizedStreamSha256 := Γ.sha256 (Γ.streamBytes normalized)
  emittedIologSha256 := Γ.sha256Text iolog
  timestampInputUnit := "nanoseconds".toList
  timestampOutputUnit := "microseconds".toList
  maximumTimestampQuantizationErrorNs := maximum
  lbaBytes := captureMeta.lbaBytes
  captureDrops := captureMeta.drops
  unsupportedCommandsOmitted := captureMeta.unsupportedCommandsOmitted
  performanceEquivalenceClaimed := false
  runtimeDeviceValidation := none

def translationCertificate (Γ : Host) (rows : List Row) (iolog : Text) (capture : Γ.Bytes) (captureMeta : CaptureMeta) :
    Except PyError (Certificate × List NormalizedCommand) := do
  let first ← require rows.head? .indexError
  let normalized := normalizedRows rows first.timestampNs
  let reparsed ← parseIolog iolog
  let maximum ← require (normalized.map (fun command => command.atNs % 1000)).max?
    (.valueError "max() iterable argument is empty")
  let certificate := certificateOf Γ rows normalized reparsed maximum iolog capture captureMeta
  ensure (certificate.operationOffsetLengthSequenceEqual = true) (.captureError "internal translation validation failed")
  pure (certificate, normalized)

/-! ## JSON forms -/

def NormalizedCommand.toJson (command : NormalizedCommand) : Json :=
  .obj [Dict.entry "at_ns" (.int command.atNs), Dict.entry "length_bytes" (.int command.lengthBytes),
    Dict.entry "offset_bytes" (.int command.offsetBytes), Dict.entry "op" (.str command.op.fioName),
    Dict.entry "seq" (.int command.seq)]

/-- `{"schema_version": 1, "commands": normalized}`. -/
def workloadJson (normalized : List NormalizedCommand) : Json :=
  .obj [Dict.entry "commands" (.arr (normalized.map NormalizedCommand.toJson)), Dict.entry "schema_version" (.int 1)]

def Certificate.toDict (certificate : Certificate) : Dict :=
  [Dict.entry "capture_drops" (.int certificate.captureDrops),
    Dict.entry "emitted_command_count" (.int certificate.emittedCommandCount),
    Dict.entry "emitted_iolog_sha256" (.str certificate.emittedIologSha256),
    Dict.entry "equivalence_level" (.str certificate.equivalenceLevel),
    Dict.entry "lba_bytes" (.int certificate.lbaBytes),
    Dict.entry "maximum_timestamp_quantization_error_ns" (.int certificate.maximumTimestampQuantizationErrorNs),
    Dict.entry "normalized_stream_sha256" (.str certificate.normalizedStreamSha256),
    Dict.entry "operation_offset_length_sequence_equal" (.bool certificate.operationOffsetLengthSequenceEqual),
    Dict.entry "performance_equivalence_claimed" (.bool certificate.performanceEquivalenceClaimed),
    Dict.entry "runtime_device_validation" (certificate.runtimeDeviceValidation.getD .null),
    Dict.entry "schema_version" (.int certificate.schemaVersion),
    Dict.entry "source" (.str certificate.source),
    Dict.entry "source_command_count" (.int certificate.sourceCommandCount),
    Dict.entry "source_trace_sha256" (.str certificate.sourceTraceSha256),
    Dict.entry "timestamp_input_unit" (.str certificate.timestampInputUnit),
    Dict.entry "timestamp_output_unit" (.str certificate.timestampOutputUnit),
    Dict.entry "unsupported_commands_omitted" (.int certificate.unsupportedCommandsOmitted)]

end EbpfSyscall
