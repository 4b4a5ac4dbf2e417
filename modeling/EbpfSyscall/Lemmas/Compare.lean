import EbpfSyscall.Ir.Runtime
import EbpfSyscall.Lemmas.Capture
import EbpfSyscall.Replay.Compare

/-!
# What a loaded stream satisfies

The percentiles of a list are among its values and grow with the fraction. Pairing writes only completions and flags to the
commands, so a loaded stream has one latency a completed command, none of them negative, and a stream whose pairing is complete has
a completion for every command (`StreamOk`).
-/

namespace EbpfSyscall.CompareStreams

open Checked List

/-- What `load` returns, as far as the verifier reads it. -/
structure StreamOk (stream : LoadedStream) : Prop where
  samples : stream.latenciesUs.length = (stream.commands.filterMap StreamCommand.completion).length
  nonneg : ∀ latency ∈ stream.latenciesUs, 0 ≤ latency
  complete : stream.completionPairing.complete = true → ∀ command ∈ stream.commands, command.completion.isSome = true

namespace CompareAux

/-! ## Percentiles -/

theorem getD_mono {values : List Rat} (hsorted : values.Pairwise (· ≤ ·)) {i j : Nat} (hij : i ≤ j) (hj : j < values.length) :
    values.getD i 0 ≤ values.getD j 0 := by
  have hi : i < values.length := by omega
  rw [getD_eq_getElem _ _ hi, getD_eq_getElem _ _ hj]
  exact hsorted.rel_get_of_le (a := ⟨i, hi⟩) (b := ⟨j, hj⟩) hij

theorem percentile_mem {values : List Rat} (h : values ≠ []) (fraction : Rat) : percentile values fraction ∈ values := by
  have hlength := length_pos_iff.mpr h
  have hlt : min (values.length - 1) ((values.length : Rat) * fraction).floor.toNat <
      (values.insertionSort (· ≤ ·)).length := by
    rw [length_insertionSort]
    omega
  rw [percentile, if_neg h, getD_eq_getElem _ _ hlt]
  exact (perm_insertionSort (· ≤ ·) values).mem_iff.mp (getElem_mem hlt)

theorem percentile_mono {p q : Rat} (hpq : p ≤ q) (values : List Rat) : percentile values p ≤ percentile values q := by
  by_cases h : values = []
  · simp [percentile, h]
  · have hlength := length_pos_iff.mpr h
    have hfloor : ((values.length : Rat) * p).floor ≤ ((values.length : Rat) * q).floor :=
      Rat.floor_monotone (mul_le_mul_of_nonneg_left hpq (Nat.cast_nonneg _))
    rw [percentile, percentile, if_neg h, if_neg h]
    refine getD_mono (pairwise_insertionSort (· ≤ ·) values) ?_ ?_
    · exact min_le_min (le_refl _) (Int.toNat_le_toNat hfloor)
    · rw [length_insertionSort]
      omega

/-- A summary that is set passes the verifier's check exactly as one that is required. -/
theorem validateErrorTriplet_errorSummary {errors : List Rat} {summary : TimingError} (h : errorSummary errors = .ok summary)
    (hnonneg : ∀ error ∈ errors, 0 ≤ error) (name : String) :
    validateErrorTriplet summary.p50 summary.p99 summary.max true name = .ok () := by
  rw [errorSummary, bind_eq_ok] at h
  obtain ⟨maximum, hmax, h⟩ := h
  rw [pure_eq_ok, Except.ok.injEq] at h
  subst h
  obtain ⟨hmem, hle⟩ := max?_eq_some_iff.mp (require_eq_ok.mp hmax)
  have hne : errors ≠ [] := ne_nil_of_mem hmem
  have h50 := percentile_mem hne (1 / 2)
  have h99 := percentile_mem hne (99 / 100)
  simp only [validateErrorTriplet, ensure_eq_ok, finiteNonnegative, decide_eq_true_eq]
  exact ⟨trivial, hnonneg _ h50, hnonneg _ h99, hnonneg _ hmem, percentile_mono (by norm_num) errors, hle _ h99⟩

theorem validateErrorTriplet_summaryWhen {compared : Bool} {errors : Except PyError (List Rat)} {summary : TimingError}
    (h : summaryWhen compared errors = .ok summary) (hnonneg : ∀ es, errors = .ok es → ∀ error ∈ es, 0 ≤ error)
    (name : String) : validateErrorTriplet summary.p50 summary.p99 summary.max compared name = .ok () := by
  unfold summaryWhen at h
  cases compared with
  | true =>
    rw [if_pos rfl, bind_eq_ok] at h
    obtain ⟨es, hes, h⟩ := h
    exact validateErrorTriplet_errorSummary h (hnonneg es hes) name
  | false =>
    rw [if_neg (by decide), Except.ok.injEq] at h
    subst h
    simp [validateErrorTriplet]

/-- The latencies of a stream pass the verifier's check. -/
theorem validateLatencyDistribution_of_nonneg {stream : LoadedStream} (h : ∀ latency ∈ stream.latenciesUs, 0 ≤ latency)
    (name : String) : validateLatencyDistribution (latencyDistribution stream) name = .ok () := by
  by_cases hempty : stream.latenciesUs = []
  · simp [latencyDistribution, validateLatencyDistribution, hempty]
  · simp only [latencyDistribution, validateLatencyDistribution, if_neg hempty, ensure_eq_ok, finiteNonnegative,
      decide_eq_true_eq]
    exact ⟨length_pos_iff.mpr hempty, h _ (percentile_mem hempty _), h _ (percentile_mem hempty _),
      percentile_mono (by norm_num) _⟩

/-! ## Pairing -/

/-- A command without what pairing writes to it. -/
def bare (command : StreamCommand) : StreamCommand := { command with completion := none, pairingAmbiguous := false }

/-- An event that counts as a command without a pairing key. -/
def keyless (event : Event) : Bool :=
  match event.value with
  | .command command => command.pairingKey?.isNone
  | .completion _ => false

theorem map_bare_writeTo (write : StreamCommand → StreamCommand) (hwrite : ∀ command, bare (write command) = bare command)
    (sourceSeq : Nat) (commands : List StreamCommand) : (writeTo sourceSeq write commands).map bare = commands.map bare := by
  unfold writeTo
  rw [map_map]
  refine map_congr_left fun command _ => ?_
  simp only [Function.comp_apply]
  split
  · exact hwrite command
  · rfl

/-- What is written to a command is one of the completions that were read. -/
def CompletionsFrom (events : List Event) (commands : List StreamCommand) : Prop :=
  ∀ command ∈ commands, ∀ value, command.completion = some value → ∃ event ∈ events, event.value = .completion value

variable {commands : List StreamCommand} {events seen : List Event} {numbered : NumberedRecord} {path field : String}
  {st st' : StreamState} {sourceSeq : Nat} {Γ : Host}

theorem completionsFrom_writeTo {write : StreamCommand → StreamCommand} (sourceSeq : Nat) (h : CompletionsFrom events commands)
    (hwrite : ∀ command value, (write command).completion = some value → command.completion = some value ∨
      ∃ event ∈ events, event.value = .completion value) :
    CompletionsFrom events (writeTo sourceSeq write commands) := by
  intro command hcommand value hvalue
  obtain ⟨old, hold, rfl⟩ := mem_map.mp hcommand
  split at hvalue
  · rcases hwrite old value hvalue with hsame | hevent
    · exact h old hold value hsame
    · exact hevent
  · exact h old hold value hvalue

/-- What holds of the state of pairing after some events. -/
structure Paired (commands : List StreamCommand) (events seen : List Event) (st : PairState) : Prop where
  bare : st.commands.map bare = commands.map bare
  completions : CompletionsFrom events st.commands
  missing : st.missingCommandKeys = seen.countP keyless

theorem reuseKey_paired {st : PairState} (h : Paired commands events seen st) (earlier : Option StreamCommand) (command : StreamCommand) :
    Paired commands events seen (reuseKey st earlier command) := by
  cases earlier with
  | none => exact h
  | some earlier =>
    refine ⟨?_, ?_, h.missing⟩
    · simp only [reuseKey]
      rw [map_bare_writeTo StreamCommand.ambiguous fun _ => rfl, map_bare_writeTo StreamCommand.ambiguous fun _ => rfl, h.bare]
    · exact completionsFrom_writeTo _ (completionsFrom_writeTo _ h.completions fun _ _ hv => Or.inl hv)
        fun _ _ hv => Or.inl hv

theorem pairEvent_paired {st : PairState} {event : Event} (h : Paired commands events seen st) (hevent : event ∈ events) :
    Paired commands events (seen ++ [event]) (pairEvent st event) := by
  have hcount : (seen ++ [event]).countP keyless = seen.countP keyless + if keyless event = true then 1 else 0 := by
    rw [countP_append, countP_singleton]
  cases hvalue : event.value with
  | command command =>
    simp only [pairEvent, hvalue, pairCommand]
    cases hkey : command.pairingKey? with
    | none =>
      have hk : keyless event = true := by simp [keyless, hvalue, hkey]
      exact ⟨h.bare, h.completions, by rw [hcount, if_pos hk, h.missing]⟩
    | some key =>
      have hk : keyless event = false := by simp [keyless, hvalue, hkey]
      have hst := reuseKey_paired h (st.pending key) command
      exact ⟨hst.bare, hst.completions, by rw [hcount, hk]; exact hst.missing⟩
  | completion value =>
    have hk : keyless event = false := by simp [keyless, hvalue]
    have hmissing : st.missingCommandKeys = (seen ++ [event]).countP keyless := by rw [hcount, hk]; exact h.missing
    simp only [pairEvent, hvalue, pairCompletion]
    cases st.pending (value.hwq, value.cid) with
    | none => exact ⟨h.bare, h.completions, hmissing⟩
    | some command =>
      dsimp only
      split
      · exact ⟨h.bare, h.completions, hmissing⟩
      · refine ⟨?_, ?_, hmissing⟩
        · exact (map_bare_writeTo (StreamCommand.complete value) (fun _ => rfl) _ _).trans h.bare
        · refine completionsFrom_writeTo _ h.completions fun _ written hwritten => Or.inr ⟨event, hevent, ?_⟩
          rw [hvalue, Option.some.inj hwritten]

theorem foldl_paired (rest seen : List Event) {st : PairState} (h : Paired commands events seen st) (hrest : ∀ event ∈ rest, event ∈ events) :
    Paired commands events (seen ++ rest) (rest.foldl pairEvent st) := by
  induction rest generalizing seen st with
  | nil => simpa using h
  | cons event rest ih =>
    have := ih (seen ++ [event]) (pairEvent_paired h (hrest event (by simp))) fun e he => hrest e (by simp [he])
    rwa [append_assoc, singleton_append] at this

theorem paired_start (events : List Event) (hnone : ∀ command ∈ commands, command.completion = none) : Paired commands events [] { commands } := by
  refine ⟨rfl, ?_, rfl⟩
  intro command hcommand value hvalue
  rw [hnone command hcommand] at hvalue
  cases hvalue

/-- Pairing the events of a stream leaves the commands as they were but for what it writes to them. -/
theorem pairCompletions_paired (events : List Event) (hnone : ∀ command ∈ commands, command.completion = none) :
    ∃ st, pairCompletions events commands = (pairingOf st, st.commands) ∧
      Paired commands events (sortByKey Event.key events) st := by
  refine ⟨_, rfl, ?_⟩
  exact foldl_paired (sortByKey Event.key events) [] (paired_start events hnone) fun event hevent => CaptureAux.mem_sortByKey.mp hevent

theorem pairingKey_bare (command : StreamCommand) : (bare command).pairingKey? = command.pairingKey? := rfl

/-- In a complete pairing every command has its completion: one without would be unmatched or without a key. -/
theorem completion_of_complete {st : PairState} (h : Paired commands events seen st)
    (hseen : ∀ command ∈ commands, ∃ event ∈ seen, event.value = .command command)
    (hcomplete : (pairingOf st).complete = true) : ∀ command ∈ st.commands, command.completion.isSome = true := by
  obtain ⟨-, -, -, -, hmissing, hunmatched⟩ := of_decide_eq_true hcomplete
  intro command hcommand
  have hkey : command.pairingKey?.isSome = true := by
    have hbare : bare command ∈ commands.map bare := by
      rw [← h.bare]
      exact mem_map_of_mem hcommand
    obtain ⟨old, hold, holdeq⟩ := mem_map.mp hbare
    obtain ⟨event, hevent, hvalue⟩ := hseen old hold
    have hcount := h.missing
    rw [hmissing] at hcount
    have hk := countP_eq_zero.mp hcount.symm event hevent
    rw [← pairingKey_bare, ← holdeq, pairingKey_bare]
    simpa [keyless, hvalue, Option.isSome_iff_ne_none] using hk
  have hpaired := countP_eq_zero.mp hunmatched command hcommand
  rw [hkey, Bool.and_true, Bool.not_eq_true, Option.isNone_eq_false_iff] at hpaired
  exact hpaired

/-! ## The loop of `load` -/

theorem intField_eq_ok {minimum i : Int} : intField path numbered field minimum = .ok i ↔ numbered.2.get field = some (.int i) ∧ minimum ≤ i := by
  rw [intField, require_eq_ok, Option.filter_eq_some_iff, decide_eq_true_eq, Dict.int?]
  refine and_congr_left fun _ => ?_
  cases numbered.2.get field with
  | none => simp
  | some value => cases value <;> simp

theorem dataField_eq_ok {opName : Text} {i : Int} : dataField path numbered opName field = .ok i ↔
      (opName = "flush".toList → i = 0) ∧ (opName ≠ "flush".toList → numbered.2.get field = some (.int i) ∧ 0 ≤ i) := by
  unfold dataField
  by_cases h : opName = "flush".toList
  · rw [if_pos h, Except.ok.injEq]
    exact ⟨fun e => ⟨fun _ => e.symm, fun hne => absurd h hne⟩, fun e => (e.1 h).symm⟩
  · rw [if_neg h, intField_eq_ok]
    exact ⟨fun e => ⟨fun hf => absurd hf h, fun _ => e⟩, fun e => e.2 h⟩

theorem intOf_of_get {d : Dict} {default : Option Int} {i : Int} (h : d.get field = some (.int i)) : d.intOf field default = .ok i := by
  rw [Dict.intOf, h]
  rfl

theorem supportedName_eq_some {operation : Json} {name : Text} : supportedName? operation = some name ↔ operation = .str name ∧ name ∈ supported := by
  unfold supportedName?
  cases operation with
  | str other =>
    simp only [Option.ite_none_right_eq_some, Option.some.injEq, Json.str.injEq]
    constructor
    · rintro ⟨hmem, rfl⟩
      exact ⟨rfl, hmem⟩
    · rintro ⟨rfl, hmem⟩
      exact ⟨hmem, rfl⟩
  | null | bool _ | int _ | float _ | arr _ | obj _ => simp

/-- The record reads as the command, field by field. -/
structure StreamReadsAs (numbered : NumberedRecord) (sourceSeq : Nat) (opName : Text) (command : StreamCommand) : Prop where
  name : numbered.2.get "op_name" = some (.str opName)
  known : opName ∈ supported
  seq : numbered.2.intOf "seq" (some sourceSeq) = .ok command.seq
  ts : numbered.2.get "ts" = some (.int command.ts)
  flush : opName = "flush".toList → command.slba = 0 ∧ command.bytes = 0
  data : opName ≠ "flush".toList →
    numbered.2.get "slba" = some (.int command.slba) ∧ numbered.2.get "bytes" = some (.int command.bytes)
  sourceSeq : command.sourceSeq = sourceSeq
  op : command.op = operationOf opName
  unpaired : command.completion = none

theorem commandStep_ok (h : commandStep Γ path st sourceSeq numbered = .ok st') : ∃ opName command, StreamReadsAs numbered sourceSeq opName command ∧
      st'.commands = st.commands ++ [command] ∧
      st'.events = st.events ++ [{ ts := command.ts, sourceSeq, value := .command command }] := by
  unfold commandStep at h
  simp only [bind_eq_ok (β := StreamState)] at h
  obtain ⟨operation, hop, opName, hname, seq, hseq, _, -, ts, hts, slba, hslba, bytes, hbytes, hwq, -, cid, -, _, -, _, -, _,
    -, h⟩ := h
  rw [require_eq_ok] at hop hname
  obtain ⟨rfl, hsupported⟩ := supportedName_eq_some.mp hname
  rw [intField_eq_ok] at hts
  rw [dataField_eq_ok] at hslba hbytes
  rw [pure_eq_ok, Except.ok.injEq] at h
  subst h
  exact ⟨opName, _, ⟨hop, hsupported, hseq, hts.1, fun hf => ⟨hslba.1 hf, hbytes.1 hf⟩,
    fun hf => ⟨(hslba.2 hf).1, (hbytes.2 hf).1⟩, rfl, rfl, rfl⟩, rfl, rfl⟩

theorem completionStep_ok (h : completionStep path st sourceSeq numbered = .ok st') : ∃ value : Completion, 0 ≤ value.latNs ∧
      st' = { st with events := st.events ++ [{ ts := value.ts, sourceSeq, value := .completion value }] } := by
  unfold completionStep at h
  simp only [bind_eq_ok (β := StreamState)] at h
  obtain ⟨ts, -, latNs, hlat, hwq, -, cid, -, status, -, h⟩ := h
  rw [pure_eq_ok, Except.ok.injEq] at h
  exact ⟨⟨ts, latNs, hwq, cid, status⟩, (intField_eq_ok.mp hlat).2, h.symm⟩

/-- What one record does to the loop of `load`: it sets the block size, appends a command with its event, appends a completion,
or changes nothing. -/
theorem streamStep_cases (h : streamStep Γ path st sourceSeq numbered = .ok st') :
    ((numbered.2.isText "event_type" "capture_meta" && Python.present (numbered.2.get "lba_bytes")) = true ∧
      st'.commands = st.commands ∧ st'.events = st.events) ∨
    ((numbered.2.isText "event_type" "capture_meta" && Python.present (numbered.2.get "lba_bytes")) = false ∧
      numbered.2.isText "event_type" "nvme_cmd" = true ∧
      ∃ opName command, StreamReadsAs numbered sourceSeq opName command ∧ st'.commands = st.commands ++ [command] ∧
        st'.events = st.events ++ [{ ts := command.ts, sourceSeq, value := .command command }]) ∨
    (numbered.2.isText "event_type" "nvme_cmd" = false ∧
      ∃ value : Completion, 0 ≤ value.latNs ∧
        st' = { st with events := st.events ++ [{ ts := value.ts, sourceSeq, value := .completion value }] }) ∨
    (numbered.2.isText "event_type" "nvme_cmd" = false ∧ st' = st) := by
  unfold streamStep at h
  split at h
  · rename_i hmeta
    rw [metaStep, bind_eq_ok] at h
    obtain ⟨lba, -, h⟩ := h
    rw [check_bind_eq_ok, pure_eq_ok, Except.ok.injEq] at h
    obtain ⟨-, rfl⟩ := h
    exact Or.inl ⟨hmeta, rfl, rfl⟩
  · rename_i hmeta
    split at h
    · rename_i hcmd
      exact Or.inr (Or.inl ⟨by simpa using hmeta, hcmd, commandStep_ok h⟩)
    · rename_i hcmd
      split at h
      · exact Or.inr (Or.inr (Or.inl ⟨by simpa using hcmd, completionStep_ok h⟩))
      · rw [Except.ok.injEq] at h
        exact Or.inr (Or.inr (Or.inr ⟨by simpa using hcmd, h.symm⟩))

/-- Every command has its event and no completion yet, and no completion has a negative latency. -/
structure Collected (st : StreamState) : Prop where
  commands : ∀ command ∈ st.commands, command.completion = none ∧ ∃ event ∈ st.events, event.value = .command command
  latencies : ∀ event ∈ st.events, ∀ value, event.value = .completion value → 0 ≤ value.latNs

theorem collected_of_fold {records : List NumberedRecord} (h : foldFrom (streamStep Γ path) 0 {} records = .ok st) : Collected st := by
  refine foldFrom_invariant (fun _ s => Collected s) ?_ ⟨by simp, by simp⟩ h
  intro i s numbered s' _ hs hstep
  rcases streamStep_cases hstep with ⟨-, hc, he⟩ | ⟨-, -, opName, new, hreads, hc, he⟩ | ⟨-, value, hlat, rfl⟩ | ⟨-, rfl⟩
  · exact ⟨by rw [hc, he]; exact hs.commands, by rw [he]; exact hs.latencies⟩
  · refine ⟨?_, ?_⟩
    · rw [hc, he]
      intro command hcommand
      rcases mem_append.mp hcommand with hold | hnew
      · obtain ⟨hnone, event, hevent, hvalue⟩ := hs.commands command hold
        exact ⟨hnone, event, mem_append_left _ hevent, hvalue⟩
      · obtain rfl := mem_singleton.mp hnew
        exact ⟨hreads.unpaired, _, mem_append_right _ (mem_singleton_self _), rfl⟩
    · rw [he]
      intro event hevent value hvalue
      rcases mem_append.mp hevent with hold | hnew
      · exact hs.latencies event hold value hvalue
      · obtain rfl := mem_singleton.mp hnew
        cases hvalue
  · refine ⟨?_, ?_⟩
    · intro command hcommand
      obtain ⟨hnone, event, hevent, hvalue⟩ := hs.commands command hcommand
      exact ⟨hnone, event, mem_append_left _ hevent, hvalue⟩
    · intro event hevent value' hvalue
      rcases mem_append.mp hevent with hold | hnew
      · exact hs.latencies event hold value' hvalue
      · obtain rfl := mem_singleton.mp hnew
        obtain rfl : value = value' := by simpa using hvalue
        exact hlat
  · exact hs

/-- A stream that `load` returns, from the end of its loop. -/
theorem load_ok {content : Γ.Bytes} {allowLegacy : Bool} {stream : LoadedStream} (h : load Γ path content allowLegacy = .ok stream) :
    ∃ records envelope st, loadRecords Γ path content = .ok records ∧
      validateEnvelope Γ path records allowLegacy = .ok envelope ∧ foldFrom (streamStep Γ path) 0 {} records = .ok st ∧
      stream.commands = sortByKey StreamCommand.key (pairCompletions st.events st.commands).2 ∧
      stream.completionPairing = (pairCompletions st.events st.commands).1 ∧
      stream.latenciesUs = (latenciesOf stream.commands).insertionSort (· ≤ ·) ∧ stream.drops = envelope.drops := by
  unfold load at h
  simp only [bind_eq_ok, CaptureAux.mapError_eq_ok] at h
  obtain ⟨records, hrecords, envelope, henvelope, st, hst, h⟩ := h
  rw [pure_eq_ok, Except.ok.injEq] at h
  subst h
  exact ⟨records, envelope, st, hrecords, henvelope, hst, rfl, rfl, rfl, rfl⟩

end CompareAux

open CompareAux in
/-- Every stream that `load` accepts has one latency a completed command, and completions for all when pairing is complete. -/
theorem streamOk_of_load {Γ : Host} {path : String} {content : Γ.Bytes} {allowLegacy : Bool} {stream : LoadedStream}
    (h : load Γ path content allowLegacy = .ok stream) : StreamOk stream := by
  obtain ⟨records, envelope, st, -, -, hst, hcommands, hpairing, hlatencies, -⟩ := load_ok h
  have hcollected := collected_of_fold hst
  obtain ⟨paired, hpaired, hinv⟩ := pairCompletions_paired st.events fun c hc => (hcollected.commands c hc).1
  rw [hpaired] at hcommands hpairing
  refine ⟨?_, ?_, ?_⟩
  · rw [hlatencies, length_insertionSort, latenciesOf, length_map]
  · intro latency hlatency
    rw [hlatencies, (perm_insertionSort _ _).mem_iff, latenciesOf] at hlatency
    obtain ⟨completion, hcompletion, rfl⟩ := mem_map.mp hlatency
    obtain ⟨command, hcommand, hvalue⟩ := mem_filterMap.mp hcompletion
    rw [hcommands, CaptureAux.mem_sortByKey] at hcommand
    obtain ⟨event, hevent, heq⟩ := hinv.completions command hcommand completion hvalue
    have hnonneg : (0 : Rat) ≤ completion.latNs := Int.cast_nonneg (hcollected.latencies event hevent completion heq)
    positivity
  · intro hcomplete command hcommand
    rw [hpairing] at hcomplete
    rw [hcommands, CaptureAux.mem_sortByKey] at hcommand
    refine completion_of_complete hinv ?_ hcomplete command hcommand
    intro old hold
    obtain ⟨-, event, hevent, hvalue⟩ := hcollected.commands old hold
    exact ⟨event, CaptureAux.mem_sortByKey.mpr hevent, hvalue⟩

end EbpfSyscall.CompareStreams
