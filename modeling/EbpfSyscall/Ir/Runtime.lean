import EbpfSyscall.Ir.Types

/-!
# Checking a runtime record

`validate_runtime_device` re-derives every verdict of a runtime validation record from the record's own counts and flags, and
from the workload and the completeness of the source capture.
-/

namespace EbpfSyscall

open Checked

/-- `is_sha256`: 64 lowercase hexadecimal digits. The length is that of the UTF-8 bytes, all of them ASCII. -/
def isSha256 (value : Text) : Bool :=
  value.length == 64 && value.all (fun c => c.isDigit || ('a' ≤ c && c ≤ 'f'))

/-- `finite_nonnegative`, for a number that is finite to begin with. -/
def finiteNonnegative (value : Rat) : Bool := decide (0 ≤ value)

def validateLatencyDistribution (distribution : LatencyDistribution) (name : String) : Except IrError Unit :=
  match distribution.p50Us, distribution.p99Us with
  | none, none => ensure (distribution.sampleCount = 0) (inconsistent name)
  | some p50, some p99 =>
    ensure (0 < distribution.sampleCount ∧ finiteNonnegative p50 = true ∧ finiteNonnegative p99 = true ∧ p50 ≤ p99)
      (inconsistent name)
  | _, _ => .error (inconsistent name)
where
  inconsistent (name : String) : IrError := ⟨s!"{name} completion-latency distribution is inconsistent"⟩

def validateErrorTriplet (p50 p99 maximum : Option Rat) (required : Bool) (name : String) : Except IrError Unit :=
  match p50, p99, maximum with
  | none, none, none => ensure (required = false) (inconsistent name)
  | some p50, some p99, some maximum =>
    ensure (required = true ∧ finiteNonnegative p50 = true ∧ finiteNonnegative p99 = true ∧
      finiteNonnegative maximum = true ∧ p50 ≤ p99 ∧ p99 ≤ maximum) (inconsistent name)
  | _, _, _ => .error (inconsistent name)
where
  inconsistent (name : String) : IrError := ⟨s!"{name} error summary is inconsistent"⟩

def validateRuntimeDevice (runtime : RuntimeDeviceValidation) (workload : Workload) (sourceComplete : Bool) :
    Except IrError Unit := do
  ensure (runtime.schemaVersion = 1) ⟨"unsupported runtime validation schema"⟩
  ensure (isSha256 runtime.replayCaptureSha256 = true) ⟨"runtime replay digest is not SHA-256"⟩
  ensure (runtime.sourceCommandCount = workload.commands.length) ⟨"runtime source command count disagrees with workload"⟩
  ensure (runtime.commandCountEqual = decide (runtime.sourceCommandCount = runtime.replayCommandCount))
    ⟨"runtime command-count verdict is inconsistent"⟩
  ensure (¬(runtime.commandCountEqual = false ∧ (runtime.operationSequenceEqual = true ∨
      runtime.offsetSequenceEqual = true ∨ runtime.lengthSequenceEqual = true)))
    ⟨"runtime sequence verdict cannot pass with unequal counts"⟩
  ensure (runtime.sourceCaptureComplete = sourceComplete) ⟨"runtime source-completeness verdict is inconsistent"⟩
  let componentsEqual := runtime.operationSequenceEqual && runtime.offsetSequenceEqual && runtime.lengthSequenceEqual
  ensure (runtime.tupleSequenceEqual = (runtime.commandCountEqual && componentsEqual))
    ⟨"runtime tuple verdict is inconsistent"⟩
  let streamEqual := runtime.sourceCaptureComplete && runtime.replayCaptureComplete && runtime.tupleSequenceEqual
  ensure (runtime.deviceStreamEqual = streamEqual) ⟨"runtime device-stream verdict is inconsistent"⟩
  validateErrorTriplet runtime.timingErrorUs.p50 runtime.timingErrorUs.p99 runtime.timingErrorUs.max
    (runtime.commandCountEqual && decide (0 < runtime.sourceCommandCount)) "runtime issue-timing"
  validateLatencyDistribution runtime.completionLatencyUs.source "source"
  validateLatencyDistribution runtime.completionLatencyUs.replay "replay"
  ensure (¬(runtime.completionLatencyUs.source.sampleCount > runtime.sourceCommandCount ∨
      runtime.completionLatencyUs.replay.sampleCount > runtime.replayCommandCount))
    ⟨"runtime completion sample count exceeds command count"⟩
  ensure (¬((runtime.completionPairing.sourceComplete = true ∧
        runtime.completionLatencyUs.source.sampleCount ≠ runtime.sourceCommandCount) ∨
      (runtime.completionPairing.replayComplete = true ∧
        runtime.completionLatencyUs.replay.sampleCount ≠ runtime.replayCommandCount)))
    ⟨"complete runtime pairing must cover every command"⟩
  ensure (¬(runtime.completionStatus.source.errorCount > runtime.completionLatencyUs.source.sampleCount ∨
      runtime.completionStatus.replay.errorCount > runtime.completionLatencyUs.replay.sampleCount))
    ⟨"runtime completion error count exceeds paired completions"⟩
  let sourceAllSucceeded := runtime.completionPairing.sourceComplete && decide (0 < runtime.sourceCommandCount) &&
    decide (runtime.completionStatus.source.errorCount = 0)
  let replayAllSucceeded := runtime.completionPairing.replayComplete && decide (0 < runtime.replayCommandCount) &&
    decide (runtime.completionStatus.replay.errorCount = 0)
  ensure (runtime.completionStatus.source.allCommandsSucceeded = sourceAllSucceeded ∧
      runtime.completionStatus.replay.allCommandsSucceeded = replayAllSucceeded)
    ⟨"runtime completion-success verdict is inconsistent"⟩
  let shouldCompareCompletions := runtime.tupleSequenceEqual && runtime.completionPairing.sourceComplete &&
    runtime.completionPairing.replayComplete && decide (0 < runtime.sourceCommandCount)
  ensure (runtime.completionPairing.perCommandCompared = shouldCompareCompletions)
    ⟨"runtime per-command completion verdict is inconsistent"⟩
  validateErrorTriplet runtime.completionPairing.absoluteErrorP50Us runtime.completionPairing.absoluteErrorP99Us
    runtime.completionPairing.absoluteErrorMaxUs shouldCompareCompletions "runtime completion-latency"

end EbpfSyscall
