import EbpfSyscall.Ir.Iolog
import EbpfSyscall.Host

/-!
# The verifier of a translation

`validate_translation` accepts a workload, an iolog and a source certificate that agree with each other: the iolog is the
canonical encoding of the workload, and the certificate's digests, counts, rounding bound and level are the ones the verifier
computes.
-/

namespace EbpfSyscall

open Checked

/-- A command as its JSON form. -/
def Command.toNormalized (command : Command) : NormalizedCommand where
  seq := command.seq.toNat
  atNs := command.atNs.toNat
  op := command.op
  offsetBytes := command.offsetBytes.toNat
  lengthBytes := command.lengthBytes.toNat

/-- The command an iolog should hold for a command of the workload. -/
def Command.toFio (command : Command) : FioCommand where
  atUs := (quantizeTimestampNs command.atNs).1
  lengthBytes := command.lengthBytes
  offsetBytes := command.offsetBytes
  op := command.op

/-- The largest number of nanoseconds a timestamp of the stream loses; zero for no command. -/
def maximumError (commands : List Command) : UInt64 :=
  (commands.map (fun command => (quantizeTimestampNs command.atNs).2)).max?.getD 0

/-- The level a certificate must claim. -/
def expectedLevel (sourceComplete : Bool) : Text :=
  if sourceComplete then "stream-translation".toList else "partial-stream-translation".toList

/-- The source capture lost nothing. -/
def SourceCertificate.sourceComplete (source : SourceCertificate) : Bool :=
  decide (source.captureDrops = 0) && decide (source.unsupportedCommandsOmitted = 0)

def validateTranslation (Γ : Host) (workload : Workload) (iolog : Text) (source : SourceCertificate)
    (constraints : Constraints) : Except IrError ValidationCertificate := do
  validateWorkload workload source.lbaBytes constraints
  ensure (source.schemaVersion = 1) ⟨"unsupported source certificate schema"⟩
  ensure (source.performanceEquivalenceClaimed = false) ⟨"source certificate must not claim performance equivalence"⟩
  ensure (source.operationOffsetLengthSequenceEqual = true) ⟨"source certificate reports a failed translation"⟩
  ensure (source.sourceCommandCount = workload.commands.length ∧ source.emittedCommandCount = workload.commands.length)
    ⟨"source certificate command count disagrees with workload"⟩
  ensure (source.equivalenceLevel = expectedLevel source.sourceComplete)
    ⟨"source equivalence level disagrees with omitted commands or drops"⟩
  ensure (Γ.sha256 (Γ.streamBytes (workload.commands.map Command.toNormalized)) = source.normalizedStreamSha256)
    ⟨"normalized workload hash disagrees with certificate"⟩
  ensure (Γ.sha256Text iolog = source.emittedIologSha256) ⟨"iolog hash disagrees with certificate"⟩
  let parsed ← parseFioIolog iolog
  ensure (parsed.commands = workload.commands.map Command.toFio) ⟨"fio iolog does not preserve the command stream"⟩
  let canonical ← emitFioIolog workload.commands parsed.filename
  ensure (canonical = iolog) ⟨"fio iolog is not the canonical encoding of the workload"⟩
  ensure (maximumError workload.commands = source.maximumTimestampQuantizationErrorNs)
    ⟨"timestamp rounding bound disagrees with source certificate"⟩
  whenSome source.runtimeDeviceValidation fun runtime => validateRuntimeDevice runtime workload source.sourceComplete
  pure {
    schemaVersion := 1
    verifier := "kvio-ir".toList
    equivalenceLevel := "finite-stream-translation".toList
    commandCount := workload.commands.length
    operationOffsetLengthSequenceEqual := true
    sequenceNumbersContiguous := true
    timestampsNondecreasing := true
    maximumTimestampQuantizationErrorNs := maximumError workload.commands
    lbaBytes := source.lbaBytes
    sourceCaptureComplete := source.sourceComplete
    sourceCaptureDrops := source.captureDrops
    sourceUnsupportedCommandsOmitted := source.unsupportedCommandsOmitted
    deviceRegionChecked := constraints.regionBytes.isSome
    transferLimitChecked := constraints.maxTransferBytes.isSome
    sourceCertificateConsistent := true
    performanceEquivalenceClaimed := false
    runtimeDeviceValidation := source.runtimeDeviceValidation }

end EbpfSyscall
