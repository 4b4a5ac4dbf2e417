import EbpfSyscall.Replay.Certificate
import EbpfSyscall.Ir.Translation
import EbpfSyscall.Lib.Checked

/-!
# The verifier reads what the exporter wrote

A command of the normalized stream is read by Rust exactly as the command with the same numbers, when they fit in 64 bits
(`workload_ofJson_iff`), and a certificate is read field by field (`sourceCertificate_ofJson`).
-/

namespace EbpfSyscall

open Checked Serde Option Dict

namespace SerdeAux

theorem u64_eq_some {i : Int} {n : UInt64} : u64? (.int i) = some n ↔ (n.toNat : Int) = i := by
  unfold u64? unsigned?
  dsimp only
  have hn := n.toNat_lt
  by_cases h : 0 ≤ i ∧ i < 2 ^ 64
  · rw [if_pos h, map_some, some.injEq, ← UInt64.toNat_inj, UInt64.toNat_ofNat', Nat.mod_eq_of_lt (by omega)]
    omega
  · rw [if_neg h, map_none]
    refine ⟨nofun, fun heq => absurd ?_ h⟩
    omega

theorem usize_natCast {n : Nat} (h : n < 2 ^ 64) : usize? (.int n) = some n := by
  unfold usize? unsigned?
  dsimp only
  rw [if_pos (by omega), Int.toNat_natCast]

theorem operation_ofJson (op : Operation) : Operation.ofJson? (.str op.fioName) = some op := by
  cases op <;> decide

/-- Rust reads a command of the stream as the command with the same fields. -/
theorem command_ofJson_iff {command : NormalizedCommand} {c : Command} : Command.ofJson? command.toJson = some c ↔ c.toNormalized = command := by
  have hd : Command.ofJson? command.toJson = Command.ofDict? [entry "at_ns" (.int command.atNs),
      entry "length_bytes" (.int command.lengthBytes), entry "offset_bytes" (.int command.offsetBytes),
      entry "op" (.str command.op.fioName), entry "seq" (.int command.seq)] := rfl
  obtain ⟨seq, atNs, op, offsetBytes, lengthBytes⟩ := command
  obtain ⟨atNs', lengthBytes', offsetBytes', op', seq'⟩ := c
  rw [hd]
  simp only [Command.ofDict?, field?, get_entry_cons, String.reduceEq, reduceIte, bind_some, operation_ofJson,
    bind_eq_bind, bind_eq_some_iff, u64_eq_some, pure_def, some.injEq, Command.mk.injEq,
    Command.toNormalized, NormalizedCommand.mk.injEq]
  constructor
  · rintro ⟨_, h1, _, h2, _, h3, _, h4, rfl, rfl, rfl, rfl, rfl⟩
    exact ⟨h4, h1, rfl, h3, h2⟩
  · rintro ⟨h4, h1, rfl, h3, h2⟩
    exact ⟨_, h1, _, h2, _, h3, _, h4, rfl, rfl, rfl, rfl, rfl⟩

theorem forall₂_toNormalized {normalized : List NormalizedCommand} {commands : List Command} :
    List.Forall₂ (fun command c => c.toNormalized = command) normalized commands ↔
      commands.map Command.toNormalized = normalized := by
  induction commands generalizing normalized with
  | nil =>
    rw [List.forall₂_nil_right_iff, List.map_nil]
    exact eq_comm
  | cons c commands ih =>
    rw [List.forall₂_cons_right_iff, List.map_cons]
    simp only [ih]
    constructor
    · rintro ⟨_, _, rfl, rfl, rfl⟩
      rfl
    · rintro rfl
      exact ⟨_, _, rfl, rfl, rfl⟩

/-- Rust reads the workload file as the workload with the same numbers. -/
theorem workload_ofJson_iff {normalized : List NormalizedCommand} {workload : Workload} : Workload.ofJson? (workloadJson normalized) = some workload ↔
      workload.schemaVersion = 1 ∧ workload.commands.map Command.toNormalized = normalized := by
  have hd : Workload.ofJson? (workloadJson normalized) = Workload.ofDict? [entry "commands"
      (.arr (normalized.map NormalizedCommand.toJson)), entry "schema_version" (.int 1)] := rfl
  have hone : u32? (.int 1) = some 1 := by decide
  obtain ⟨schemaVersion, commands⟩ := workload
  rw [hd]
  simp only [Workload.ofDict?, field?, get_entry_cons, String.reduceEq, reduceIte, bind_some, hone, list?,
    bind_eq_bind, bind_eq_some_iff, mapM_eq_some, List.forall₂_map_left_iff, command_ofJson_iff,
    forall₂_toNormalized, pure_def, some.injEq, Workload.mk.injEq]
  constructor
  · rintro ⟨_, rfl, rfl, rfl⟩
    exact ⟨rfl, rfl⟩
  · rintro ⟨rfl, rfl⟩
    exact ⟨_, rfl, rfl, rfl⟩

/-! ## The certificate -/

theorem sourceCertificate_ofDict {d : Dict} {s : SourceCertificate} (h1 : field? d "schema_version" u32? = some s.schemaVersion)
    (h2 : field? d "equivalence_level" text? = some s.equivalenceLevel)
    (h3 : field? d "source_command_count" usize? = some s.sourceCommandCount)
    (h4 : field? d "emitted_command_count" usize? = some s.emittedCommandCount)
    (h5 : field? d "operation_offset_length_sequence_equal" bool? = some s.operationOffsetLengthSequenceEqual)
    (h6 : field? d "normalized_stream_sha256" text? = some s.normalizedStreamSha256)
    (h7 : field? d "emitted_iolog_sha256" text? = some s.emittedIologSha256)
    (h8 : field? d "maximum_timestamp_quantization_error_ns" u64? = some s.maximumTimestampQuantizationErrorNs)
    (h9 : field? d "lba_bytes" u64? = some s.lbaBytes)
    (h10 : field? d "capture_drops" u64? = some s.captureDrops)
    (h11 : field? d "unsupported_commands_omitted" usize? = some s.unsupportedCommandsOmitted)
    (h12 : field? d "performance_equivalence_claimed" bool? = some s.performanceEquivalenceClaimed)
    (h13 : optional? d "runtime_device_validation" RuntimeDeviceValidation.ofJson? = some s.runtimeDeviceValidation) :
    SourceCertificate.ofDict? d = some s := by
  unfold SourceCertificate.ofDict?
  rw [h1, h2, h3, h4, h5, h6, h7, h8, h9, h10, h11, h12, h13]
  rfl

/-- The entries of a certificate that the verifier reads. -/
theorem get_toDict (c : Certificate) : c.toDict.get "schema_version" = some (.int c.schemaVersion) ∧
    c.toDict.get "equivalence_level" = some (.str c.equivalenceLevel) ∧
    c.toDict.get "source_command_count" = some (.int c.sourceCommandCount) ∧
    c.toDict.get "emitted_command_count" = some (.int c.emittedCommandCount) ∧
    c.toDict.get "operation_offset_length_sequence_equal" = some (.bool c.operationOffsetLengthSequenceEqual) ∧
    c.toDict.get "normalized_stream_sha256" = some (.str c.normalizedStreamSha256) ∧
    c.toDict.get "emitted_iolog_sha256" = some (.str c.emittedIologSha256) ∧
    c.toDict.get "maximum_timestamp_quantization_error_ns" = some (.int c.maximumTimestampQuantizationErrorNs) ∧
    c.toDict.get "lba_bytes" = some (.int c.lbaBytes) ∧
    c.toDict.get "capture_drops" = some (.int c.captureDrops) ∧
    c.toDict.get "unsupported_commands_omitted" = some (.int c.unsupportedCommandsOmitted) ∧
    c.toDict.get "performance_equivalence_claimed" = some (.bool c.performanceEquivalenceClaimed) ∧
    c.toDict.get "runtime_device_validation" = some (c.runtimeDeviceValidation.getD .null) ∧
    c.toDict.get "source_trace_sha256" = some (.str c.sourceTraceSha256) := by
  simp only [Certificate.toDict, get_entry_cons, String.reduceEq, reduceIte, and_self]

/-- Rust reads a fresh certificate field by field, when its numbers fit. -/
theorem sourceCertificate_ofJson {c : Certificate} {error lba drops : UInt64} (hschema : c.schemaVersion = 1)
    (hruntime : c.runtimeDeviceValidation = none) (hsource : c.sourceCommandCount < 2 ^ 64)
    (hemitted : c.emittedCommandCount < 2 ^ 64) (homitted : c.unsupportedCommandsOmitted < 2 ^ 64)
    (herror : (error.toNat : Int) = c.maximumTimestampQuantizationErrorNs) (hlba : (lba.toNat : Int) = c.lbaBytes)
    (hdrops : (drops.toNat : Int) = c.captureDrops) :
    SourceCertificate.ofJson? (.obj c.toDict) = some {
      schemaVersion := 1, equivalenceLevel := c.equivalenceLevel, sourceCommandCount := c.sourceCommandCount
      emittedCommandCount := c.emittedCommandCount
      operationOffsetLengthSequenceEqual := c.operationOffsetLengthSequenceEqual
      normalizedStreamSha256 := c.normalizedStreamSha256, emittedIologSha256 := c.emittedIologSha256
      maximumTimestampQuantizationErrorNs := error, lbaBytes := lba, captureDrops := drops
      unsupportedCommandsOmitted := c.unsupportedCommandsOmitted
      performanceEquivalenceClaimed := c.performanceEquivalenceClaimed, runtimeDeviceValidation := none } := by
  obtain ⟨g1, g2, g3, g4, g5, g6, g7, g8, g9, g10, g11, g12, g13, -⟩ := get_toDict c
  have hone : u32? (.int 1) = some 1 := by decide
  have hd : SourceCertificate.ofJson? (.obj c.toDict) = SourceCertificate.ofDict? c.toDict := rfl
  rw [hd]
  refine sourceCertificate_ofDict ?_ ?_ ?_ ?_ ?_ ?_ ?_ ?_ ?_ ?_ ?_ ?_ ?_
  · rw [field?, g1, hschema, bind_some, hone]
  · rw [field?, g2]
    rfl
  · rw [field?, g3, bind_some, usize_natCast hsource]
  · rw [field?, g4, bind_some, usize_natCast hemitted]
  · rw [field?, g5]
    rfl
  · rw [field?, g6]
    rfl
  · rw [field?, g7]
    rfl
  · rw [field?, g8, bind_some, u64_eq_some.mpr herror]
  · rw [field?, g9, bind_some, u64_eq_some.mpr hlba]
  · rw [field?, g10, bind_some, u64_eq_some.mpr hdrops]
  · rw [field?, g11, bind_some, usize_natCast homitted]
  · rw [field?, g12]
    rfl
  · rw [optional?, g13, hruntime]
    rfl

end SerdeAux

end EbpfSyscall
