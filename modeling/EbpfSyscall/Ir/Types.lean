import EbpfSyscall.Text

/-!
# The data of the `kvio-ir` crate

The records of `tools/kvio/rust/kvio-ir/src/lib.rs`, field by field. Integers keep their width, except that a `usize` (a length
or an index of a vector) is a `Nat`. A latency or a timing error, an `f64` that `serde_json` read and hence a finite number, is
an exact rational.
-/

namespace EbpfSyscall

/-- The operations of a command stream. -/
inductive Operation where
  | read | write | sync | datasync
  deriving DecidableEq, Repr

/-- The name of an operation in an iolog. -/
def Operation.fioName : Operation → Text
  | .read => "read".toList
  | .write => "write".toList
  | .sync => "sync".toList
  | .datasync => "datasync".toList

/-- Reads and writes carry data. -/
def Operation.isData : Operation → Bool
  | .read | .write => true
  | .sync | .datasync => false

structure Command where
  atNs : UInt64
  lengthBytes : UInt64
  offsetBytes : UInt64
  op : Operation
  seq : UInt64
  deriving DecidableEq, Repr

structure Workload where
  schemaVersion : UInt32
  commands : List Command
  deriving DecidableEq, Repr

structure LatencyDistribution where
  sampleCount : Nat
  p50Us : Option Rat
  p99Us : Option Rat
  deriving DecidableEq, Repr

structure TimingError where
  p50 : Option Rat
  p99 : Option Rat
  max : Option Rat
  deriving DecidableEq, Repr

structure CompletionLatency where
  source : LatencyDistribution
  replay : LatencyDistribution
  deriving DecidableEq, Repr

structure CompletionStatusResult where
  errorCount : Nat
  allCommandsSucceeded : Bool
  deriving DecidableEq, Repr

structure CompletionStatus where
  source : CompletionStatusResult
  replay : CompletionStatusResult
  deriving DecidableEq, Repr

structure CompletionPairing where
  sourceComplete : Bool
  replayComplete : Bool
  perCommandCompared : Bool
  absoluteErrorP50Us : Option Rat
  absoluteErrorP99Us : Option Rat
  absoluteErrorMaxUs : Option Rat
  deriving DecidableEq, Repr

structure RuntimeDeviceValidation where
  schemaVersion : UInt32
  replayCaptureSha256 : Text
  sourceCommandCount : Nat
  replayCommandCount : Nat
  sourceCaptureComplete : Bool
  replayCaptureComplete : Bool
  commandCountEqual : Bool
  operationSequenceEqual : Bool
  offsetSequenceEqual : Bool
  lengthSequenceEqual : Bool
  tupleSequenceEqual : Bool
  deviceStreamEqual : Bool
  timingErrorUs : TimingError
  completionLatencyUs : CompletionLatency
  completionStatus : CompletionStatus
  completionPairing : CompletionPairing
  deriving DecidableEq, Repr

structure SourceCertificate where
  schemaVersion : UInt32
  equivalenceLevel : Text
  sourceCommandCount : Nat
  emittedCommandCount : Nat
  operationOffsetLengthSequenceEqual : Bool
  normalizedStreamSha256 : Text
  emittedIologSha256 : Text
  maximumTimestampQuantizationErrorNs : UInt64
  lbaBytes : UInt64
  captureDrops : UInt64
  unsupportedCommandsOmitted : Nat
  performanceEquivalenceClaimed : Bool
  runtimeDeviceValidation : Option RuntimeDeviceValidation
  deriving DecidableEq, Repr

/-- Optional limits of a target device. -/
structure Constraints where
  regionBytes : Option UInt64 := none
  maxTransferBytes : Option UInt64 := none
  deriving DecidableEq, Repr

/-- A command as an iolog records it: the timestamp in microseconds. -/
structure FioCommand where
  atUs : UInt64
  lengthBytes : UInt64
  offsetBytes : UInt64
  op : Operation
  deriving DecidableEq, Repr

structure ParsedIolog where
  filename : Text
  commands : List FioCommand
  deriving DecidableEq, Repr

/-- What the verifier reports for a translation it accepts. -/
structure ValidationCertificate where
  schemaVersion : UInt32
  verifier : Text
  equivalenceLevel : Text
  commandCount : Nat
  operationOffsetLengthSequenceEqual : Bool
  sequenceNumbersContiguous : Bool
  timestampsNondecreasing : Bool
  maximumTimestampQuantizationErrorNs : UInt64
  lbaBytes : UInt64
  sourceCaptureComplete : Bool
  sourceCaptureDrops : UInt64
  sourceUnsupportedCommandsOmitted : Nat
  deviceRegionChecked : Bool
  transferLimitChecked : Bool
  sourceCertificateConsistent : Bool
  performanceEquivalenceClaimed : Bool
  runtimeDeviceValidation : Option RuntimeDeviceValidation
  deriving DecidableEq, Repr

/-- The crate's only error: a message. -/
structure IrError where
  message : String
  deriving DecidableEq, Repr

end EbpfSyscall
