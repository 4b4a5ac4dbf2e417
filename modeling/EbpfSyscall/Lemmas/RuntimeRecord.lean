import EbpfSyscall.Lemmas.Compare
import EbpfSyscall.Lemmas.Serde
import EbpfSyscall.Replay.Update

/-!
# The runtime record and its verifier

`exact_comparison` computes the verdicts of a runtime record from two streams; `validate_runtime_device` derives them again from the
record's own counts and flags. Both agree on every pair of loaded streams.
-/

namespace EbpfSyscall

open Checked CompareStreams List Option

namespace RuntimeRecordAux

/-- Lists of triples are equal exactly when they are in each part. -/
theorem triples_eq_iff {α β γ : Type} {l r : List (α × β × γ)} :
    l = r ↔ l.map Prod.fst = r.map Prod.fst ∧ l.map (·.2.1) = r.map (·.2.1) ∧ l.map (·.2.2) = r.map (·.2.2) := by
  induction l generalizing r with
  | nil => cases r <;> simp
  | cons x xs ih =>
    cases r with
    | nil => simp
    | cons y ys =>
      simp only [cons.injEq, map_cons, ih, Prod.ext_iff]
      tauto

/-- The verdict on the tuples is the one on the counts and the parts together. -/
theorem tuple_verdict {α β γ : Type} [DecidableEq α] [DecidableEq β] [DecidableEq γ] (l r : List (α × β × γ)) : decide (l = r) =
      (decide (l.length = r.length) &&
        ((decide (l.length = r.length) && decide (l.map Prod.fst = r.map Prod.fst)) &&
          (decide (l.length = r.length) && decide (l.map (·.2.1) = r.map (·.2.1))) &&
          (decide (l.length = r.length) && decide (l.map (·.2.2) = r.map (·.2.2))))) := by
  by_cases hlength : l.length = r.length
  · rw [decide_eq_true hlength, Bool.true_and, Bool.true_and, Bool.true_and, Bool.true_and, Bool.eq_iff_iff]
    simp only [decide_eq_true_eq, Bool.and_eq_true, and_assoc]
    exact triples_eq_iff
  · have hne : l ≠ r := fun h => hlength (congrArg length h)
    rw [decide_eq_false hlength, decide_eq_false hne, Bool.false_and]

theorem abs_div_nonneg (i : Int) : (0 : Rat) ≤ ((|i| : Int) : Rat) / 1000 := by
  have : (0 : Rat) ≤ ((|i| : Int) : Rat) := Int.cast_nonneg (abs_nonneg i)
  positivity

theorem timingErrors_nonneg (left right : List StreamCommand) (t u : Int) : ∀ error ∈ timingErrors left right t u, 0 ≤ error := by
  intro error herror
  obtain ⟨pair, -, rfl⟩ := mem_map.mp herror
  exact abs_div_nonneg _

theorem latencyErrors_nonneg {pairs : List (StreamCommand × StreamCommand)} {errors : List Rat}
    (h : pairs.mapM latencyError = .ok errors) : ∀ error ∈ errors, 0 ≤ error := by
  intro error herror
  obtain ⟨pair, -, hpair⟩ := Checked.exists_of_forall₂_right (mapM_eq_ok.mp h) error herror
  simp only [latencyError, bind_eq_ok, pure_eq_ok, Except.ok.injEq] at hpair
  obtain ⟨a, -, b, -, rfl⟩ := hpair
  exact abs_div_nonneg _

variable {stream : LoadedStream}

/-- A stream has at most one sample a command, and one for each when its pairing is complete. -/
theorem samples_le (h : StreamOk stream) : stream.latenciesUs.length ≤ stream.commands.length := by
  rw [h.samples]
  exact length_filterMap_le _ _

theorem samples_of_complete (h : StreamOk stream) (hcomplete : stream.completionPairing.complete = true) :
    stream.latenciesUs.length = stream.commands.length := by
  rw [h.samples, length_filterMap_eq_countP, countP_eq_length]
  exact h.complete hcomplete

theorem errors_le (h : StreamOk stream) : (completionStatus stream).errorCount ≤ stream.latenciesUs.length := by
  rw [h.samples]
  exact countP_le_length

theorem allSucceeded_eq (stream : LoadedStream) :
    (completionStatus stream).allCommandsSucceeded = (stream.completionPairing.complete && decide (0 < stream.commands.length) &&
      decide ((completionStatus stream).errorCount = 0)) := by
  have : (!stream.commands.isEmpty) = decide (0 < stream.commands.length) := by
    cases stream.commands <;> simp
  simp only [completionStatus, this, Bool.and_comm (decide (0 < stream.commands.length))]

end RuntimeRecordAux

open RuntimeRecordAux

/-- The record of every comparison passes the verifier, against a workload of as many commands and the drops of the source. -/
theorem validateRuntimeDevice_runtimeRecord {source replay : LoadedStream} {lbaBytes : Int} {comparison : Comparison}
    {workload : Workload} {sha : Text} (hsource : StreamOk source) (hreplay : StreamOk replay)
    (h : exactComparison source replay lbaBytes = .ok comparison) (hsha : isSha256 sha = true)
    (hcount : source.commands.length = workload.commands.length) :
    validateRuntimeDevice (runtimeRecord sha source replay comparison) workload (decide (source.drops = 0)) = .ok () := by
  simp only [exactComparison, bind_eq_ok] at h
  obtain ⟨timing, htiming, latency, hlatency, h⟩ := h
  have hempty : (!source.commands.isEmpty) = decide (0 < source.commands.length) := by
    cases source.commands <;> simp
  rw [pure_eq_ok, Except.ok.injEq, hempty] at h
  rw [hempty] at htiming hlatency
  subst h
  have hverdict := tuple_verdict (source.commands.map (tupleOf lbaBytes)) (replay.commands.map (tupleOf lbaBytes))
  rw [length_map, length_map] at hverdict
  unfold validateRuntimeDevice
  simp only [check_bind_eq_ok]
  refine ⟨ensure_of rfl _, ensure_of hsha _, ensure_of hcount _, ensure_of rfl _, ensure_of ?_ _, ensure_of rfl _,
    ensure_of hverdict _, ensure_of rfl _, ?_, ?_, ?_, ensure_of ?_ _, ensure_of ?_ _, ensure_of ?_ _, ensure_of ?_ _,
    ensure_of ?_ _, ?_⟩
  · rintro ⟨hne, h⟩
    simp only [runtimeRecord] at hne h
    rw [hne] at h
    simp at h
  · refine CompareAux.validateErrorTriplet_summaryWhen htiming ?_ _
    intro es hes
    obtain rfl := Except.ok.inj hes
    exact timingErrors_nonneg _ _ _ _
  · exact CompareAux.validateLatencyDistribution_of_nonneg hsource.nonneg _
  · exact CompareAux.validateLatencyDistribution_of_nonneg hreplay.nonneg _
  · have h1 := samples_le hsource
    have h2 := samples_le hreplay
    simp only [runtimeRecord, latencyDistribution]
    omega
  · rintro (⟨hcomplete, hne⟩ | ⟨hcomplete, hne⟩)
    · exact hne (samples_of_complete hsource hcomplete)
    · exact hne (samples_of_complete hreplay hcomplete)
  · have h1 := errors_le hsource
    have h2 := errors_le hreplay
    simp only [runtimeRecord, latencyDistribution]
    omega
  · exact ⟨allSucceeded_eq source, allSucceeded_eq replay⟩
  · rfl
  · exact CompareAux.validateErrorTriplet_summaryWhen hlatency (fun es hes => latencyErrors_nonneg hes) _

/-! ## Reading the record back -/

namespace RuntimeRecordAux

open Serde SerdeAux

theorem onlyFields_nil (keys : List String) : onlyFields [] keys = true := rfl

theorem onlyFields_entry_cons (key : String) (value : Json) (d : Dict) (keys : List String) :
    onlyFields (Dict.entry key value :: d) keys = true ↔ key ∈ keys ∧ onlyFields d keys = true := by
  simp only [onlyFields, Dict.entry, List.all_cons, Bool.and_eq_true, List.any_eq_true, beq_iff_eq, String.toList_inj,
    exists_eq_right]

theorem strictObject_obj {keys : List String} {d : Dict} (h : onlyFields d keys = true) : strictObject? keys (.obj d) = some d := by
  simp [strictObject?, object?, h]

/-- A field of a display: the entry is found by going through the keys. -/
theorem field_of_get {α : Type} {d : Dict} {key : String} {value : Json} {read : Json → Option α} {a : α} (hread : read value = some a)
    (h : d.get key = some value := by simp only [Dict.get_entry_cons, String.reduceEq, reduceIte]) :
    field? d key read = some a := by
  rw [field?, h, bind_some, hread]

theorem optional_of_get {α : Type} {d : Dict} {key : String} {value : Json} {read : Json → Option α} {a : Option α}
    (hread : nullable? read value = some a)
    (h : d.get key = some value := by simp only [Dict.get_entry_cons, String.reduceEq, reduceIte]) :
    optional? d key read = some a := by
  rw [optional?, h]
  exact hread

theorem nullable_optionalFloat (value : Option Rat) : nullable? f64? (optionalFloat value) = some value := by
  cases value <;> rfl

theorem bool_bool (b : Bool) : bool? (.bool b) = some b := rfl

theorem text_str (s : Text) : text? (.str s) = some s := rfl

theorem latencyDistribution_ofJson {distribution : LatencyDistribution} (h : distribution.sampleCount < 2 ^ 64) :
    LatencyDistribution.ofJson? distribution.toJson = some distribution := by
  unfold LatencyDistribution.ofJson? LatencyDistribution.toJson
  rw [strictObject_obj (by simp [onlyFields_entry_cons, onlyFields_nil]), bind_some, LatencyDistribution.ofDict?,
    field_of_get (usize_natCast h),
    optional_of_get (nullable_optionalFloat distribution.p50Us),
    optional_of_get (nullable_optionalFloat distribution.p99Us)]
  rfl

theorem timingError_ofJson (error : TimingError) : TimingError.ofJson? error.toJson = some error := by
  unfold TimingError.ofJson? TimingError.toJson
  rw [strictObject_obj (by simp [onlyFields_entry_cons, onlyFields_nil]), bind_some, TimingError.ofDict?,
    optional_of_get (nullable_optionalFloat error.p50),
    optional_of_get (nullable_optionalFloat error.p99),
    optional_of_get (nullable_optionalFloat error.max)]
  rfl

theorem completionStatusResult_ofJson {status : CompletionStatusResult} (h : status.errorCount < 2 ^ 64) :
    CompletionStatusResult.ofJson? status.toJson = some status := by
  unfold CompletionStatusResult.ofJson? CompletionStatusResult.toJson
  rw [strictObject_obj (by simp [onlyFields_entry_cons, onlyFields_nil]), bind_some, CompletionStatusResult.ofDict?,
    field_of_get (usize_natCast h),
    field_of_get (bool_bool status.allCommandsSucceeded)]
  rfl

theorem completionPairing_ofJson (pairing : CompletionPairing) : CompletionPairing.ofJson? pairing.toJson = some pairing := by
  unfold CompletionPairing.ofJson? CompletionPairing.toJson
  rw [strictObject_obj (by simp [onlyFields_entry_cons, onlyFields_nil]), bind_some, CompletionPairing.ofDict?,
    field_of_get (bool_bool pairing.sourceComplete),
    field_of_get (bool_bool pairing.replayComplete),
    field_of_get (bool_bool pairing.perCommandCompared),
    optional_of_get (nullable_optionalFloat pairing.absoluteErrorP50Us),
    optional_of_get (nullable_optionalFloat pairing.absoluteErrorP99Us),
    optional_of_get (nullable_optionalFloat pairing.absoluteErrorMaxUs)]
  rfl

theorem completionLatency_ofJson {latency : CompletionLatency} (hsource : latency.source.sampleCount < 2 ^ 64)
    (hreplay : latency.replay.sampleCount < 2 ^ 64) : CompletionLatency.ofJson? latency.toJson = some latency := by
  unfold CompletionLatency.ofJson? CompletionLatency.toJson
  rw [strictObject_obj (by simp [onlyFields_entry_cons, onlyFields_nil]), bind_some, CompletionLatency.ofDict?,
    field_of_get (latencyDistribution_ofJson hsource),
    field_of_get (latencyDistribution_ofJson hreplay)]
  rfl

theorem completionStatus_ofJson {status : CompletionStatus} (hsource : status.source.errorCount < 2 ^ 64)
    (hreplay : status.replay.errorCount < 2 ^ 64) : CompletionStatus.ofJson? status.toJson = some status := by
  unfold CompletionStatus.ofJson? CompletionStatus.toJson
  rw [strictObject_obj (by simp [onlyFields_entry_cons, onlyFields_nil]), bind_some, CompletionStatus.ofDict?,
    field_of_get (completionStatusResult_ofJson hsource),
    field_of_get (completionStatusResult_ofJson hreplay)]
  rfl

theorem u32_one : u32? (.int ((1 : UInt32).toNat : Int)) = some 1 := by decide

/-- Rust reads a runtime record back, when its counts fit `usize`. -/
theorem runtimeDeviceValidation_ofJson {runtime : RuntimeDeviceValidation} (hschema : runtime.schemaVersion = 1)
    (hsource : runtime.sourceCommandCount < 2 ^ 64) (hreplay : runtime.replayCommandCount < 2 ^ 64)
    (hsourceSamples : runtime.completionLatencyUs.source.sampleCount < 2 ^ 64)
    (hreplaySamples : runtime.completionLatencyUs.replay.sampleCount < 2 ^ 64)
    (hsourceErrors : runtime.completionStatus.source.errorCount < 2 ^ 64)
    (hreplayErrors : runtime.completionStatus.replay.errorCount < 2 ^ 64) :
    RuntimeDeviceValidation.ofJson? runtime.toJson = some runtime := by
  obtain ⟨schema, sha, sourceCount, replayCount, sourceDone, replayDone, counts, operations, offsets, lengths, tuples, stream,
    timing, latency, status, pairing⟩ := runtime
  obtain rfl : schema = 1 := hschema
  unfold RuntimeDeviceValidation.ofJson? RuntimeDeviceValidation.toJson
  rw [strictObject_obj (by simp [onlyFields_entry_cons, onlyFields_nil]), bind_some, RuntimeDeviceValidation.ofDict?,
    field_of_get u32_one, field_of_get (text_str sha), field_of_get (usize_natCast hsource),
    field_of_get (usize_natCast hreplay), field_of_get (bool_bool sourceDone), field_of_get (bool_bool replayDone),
    field_of_get (bool_bool counts), field_of_get (bool_bool operations), field_of_get (bool_bool offsets),
    field_of_get (bool_bool lengths), field_of_get (bool_bool tuples), field_of_get (bool_bool stream),
    field_of_get (timingError_ofJson timing), field_of_get (completionLatency_ofJson hsourceSamples hreplaySamples),
    field_of_get (completionStatus_ofJson hsourceErrors hreplayErrors), field_of_get (completionPairing_ofJson pairing)]
  rfl

end RuntimeRecordAux

end EbpfSyscall
