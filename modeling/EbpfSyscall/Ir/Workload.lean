import EbpfSyscall.Ir.Types

/-!
# Checking a workload

`validate_command` and `validate_workload`: a command stream numbered from zero, in order of time, whose reads and writes are
whole blocks inside the device region and whose syncs carry no extent.
-/

namespace EbpfSyscall

open Checked

/-- `quantize_timestamp_ns`: the microseconds and the nanoseconds the iolog drops. -/
def quantizeTimestampNs (atNs : UInt64) : UInt64 × UInt64 := (atNs / 1000, atNs % 1000)

def validateLba (lbaBytes : UInt64) : Except IrError Unit :=
  ensure (lbaBytes ≠ 0 ∧ Rust.isPowerOfTwo lbaBytes = true) ⟨"logical block size must be a positive power of two"⟩

def validateTransferLimit (limit lbaBytes : UInt64) : Except IrError Unit :=
  ensure (limit ≠ 0 ∧ Rust.isMultipleOf limit lbaBytes = true) ⟨"transfer limit must be nonzero and block aligned"⟩

/-- The check of one command against its place in the stream. `expected_seq as u64` keeps the value of a `usize`, so the
comparison is one of values. -/
def validateCommand (command : Command) (expectedSeq : Nat) (lbaBytes : UInt64) (constraints : Constraints) :
    Except IrError Unit := do
  ensure (command.seq.toNat = expectedSeq)
    ⟨s!"command {expectedSeq} has sequence {command.seq}, expected {expectedSeq}"⟩
  if command.op.isData = false then
    ensure (command.offsetBytes = 0 ∧ command.lengthBytes = 0)
      ⟨s!"command {expectedSeq} sync operation must have zero offset and length"⟩
  else
    ensure (command.lengthBytes ≠ 0) ⟨s!"command {expectedSeq} has zero length"⟩
    ensure (Rust.isMultipleOf command.offsetBytes lbaBytes = true ∧ Rust.isMultipleOf command.lengthBytes lbaBytes = true)
      ⟨s!"command {expectedSeq} is not aligned to {lbaBytes} bytes"⟩
    whenSome constraints.maxTransferBytes fun limit => do
      validateTransferLimit limit lbaBytes
      ensure (command.lengthBytes ≤ limit) ⟨s!"command {expectedSeq} exceeds the {limit}-byte transfer limit"⟩
    let stop ← require (Rust.checkedAdd command.offsetBytes command.lengthBytes)
      ⟨s!"command {expectedSeq} range overflows u64"⟩
    whenSome constraints.regionBytes fun region =>
      ensure (stop ≤ region) ⟨s!"command {expectedSeq} ends beyond the {region}-byte device region"⟩

/-- One round of the loop of `validate_workload`: the state is the timestamp of the command before. -/
def validateNext (lbaBytes : UInt64) (constraints : Constraints) (previous : Option UInt64) (index : Nat) (command : Command) :
    Except IrError (Option UInt64) := do
  validateCommand command index lbaBytes constraints
  ensure (previous.all (fun before => before ≤ command.atNs) = true) ⟨s!"command {index} timestamp moves backwards"⟩
  pure (some command.atNs)

def validateWorkload (workload : Workload) (lbaBytes : UInt64) (constraints : Constraints) : Except IrError Unit := do
  ensure (workload.schemaVersion = 1) ⟨"unsupported workload schema"⟩
  validateLba lbaBytes
  whenSome constraints.regionBytes fun region =>
    ensure (region ≠ 0 ∧ Rust.isMultipleOf region lbaBytes = true) ⟨"device region must be nonzero and block aligned"⟩
  whenSome constraints.maxTransferBytes fun limit => validateTransferLimit limit lbaBytes
  let _ ← foldFrom (validateNext lbaBytes constraints) 0 none workload.commands
  pure ()

end EbpfSyscall
