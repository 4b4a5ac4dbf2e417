import EbpfSyscall.Kvio.Offload
import EbpfSyscall.Lib.Tiles
import EbpfSyscall.Lemmas.Intent1
import EbpfSyscall.Theorems.Extent

/-!
# Generated workloads: building, validating, lowering and splitting

The record that the builder makes is the one the validator accepts, for the same parameters. Its lowering cuts every component into the
fewest fragments within the limits, and the three functions that split one transfer give the same pieces.
-/

namespace EbpfSyscall.Kvio

open Checked Intent1 Intent1Aux List

/-! ## Building -/

/-- The parameters that a record can be built for. -/
structure Intent1.Parameters.Ok (parameters : Parameters) : Prop where
  name : parameters.name ≠ []
  dtype : parameters.dtype ≠ []
  chunkTokens : 0 < parameters.chunkTokens
  payloadBytes : 0 < parameters.payloadBytes
  ranksPerChunk : 0 < parameters.ranksPerChunk
  numChunks : 0 < parameters.numChunks
  streams : 0 < parameters.streams
  iters : 0 < parameters.iters
  warmup : 0 ≤ parameters.warmup
  storeMetadataBytes : 0 ≤ parameters.storeMetadataBytes

namespace OffloadAux

variable {parameters : Parameters} {s c r n : Nat}

/-- The operation with its indices and its number. -/
def operationAt (parameters : Parameters) (pass : Nat) (phase : Verb) (stream chunk rank q : Nat) : Operation1 where
  sequence := q
  pass := pass
  phase := phase
  stream := stream
  streamSequence := chunk * parameters.ranksPerChunk + rank
  logicalObject := logicalObject pass stream chunk rank
  chunkIndex := chunk
  kvRank := rank
  payloadBytes := parameters.payloadBytes
  timed := decide (parameters.warmup ≤ pass)

theorem push_numbered (pass : Nat) (phase : Verb) (stream chunk rank : Nat) (items : List Operation1) :
    parameters.push pass phase stream chunk rank (Nested.numbered items) =
      Nested.numbered (items ++ [operationAt parameters pass phase stream chunk rank items.length]) := by
  simp [Parameters.push, Nested.numbered, operationAt]

/-- The loops of a phase, from the innermost out. -/
theorem appends_phaseLoop (hs : parameters.streams = s) (hc : parameters.numChunks = c) (hr : parameters.ranksPerChunk = r) (pass : Nat)
    (phase : Verb) : Nested.Appends (parameters.phaseLoop pass phase) (s * (c * r)) fun q j =>
      operationAt parameters pass phase (j / (c * r)) (j % (c * r) / r) (j % (c * r) % r) q := by
  have hranks : ∀ stream chunk, Nested.Appends
      (Nested.loop parameters.ranksPerChunk.toNat fun rank => parameters.push pass phase stream chunk rank) r fun q j =>
        operationAt parameters pass phase stream chunk j q := by
    intro stream chunk
    rw [hr, Int.toNat_natCast]
    exact Nested.Appends.loop_push (fun rank items => push_numbered pass phase stream chunk rank items) r
  rw [Parameters.phaseLoop, hs, hc, Int.toNat_natCast, Int.toNat_natCast]
  exact Nested.Appends.loop (fun stream => Nested.Appends.loop (fun chunk => hranks stream chunk) c) s

/-- The five loops list the canonical operations. -/
theorem operations_eq_canonical (hs : parameters.streams = s) (hc : parameters.numChunks = c) (hr : parameters.ranksPerChunk = r)
    (hn : parameters.warmup + parameters.iters = n) :
    parameters.operations = (List.range (n * (2 * perPhase s c r))).map (canonical parameters.intent s c r) := by
  have hphases : ∀ pass, Nested.Appends
      (fun items => [Verb.store, Verb.load].foldl (fun items phase => parameters.phaseLoop pass phase items) items)
      (2 * (s * (c * r))) fun q j => operationAt parameters pass (phaseOf (j / (s * (c * r)))) (j % (s * (c * r)) / (c * r))
        (j % (s * (c * r)) % (c * r) / r) (j % (s * (c * r)) % (c * r) % r) q := by
    intro pass
    exact Nested.Appends.loop (fun k => appends_phaseLoop hs hc hr pass (phaseOf k)) 2
  have hall := Nested.Appends.loop hphases n []
  rw [Parameters.operations, hn, Int.toNat_natCast]
  have hstart : (([], 0) : List Operation1 × Int) = Nested.numbered [] := rfl
  have hsize : s * (c * r) = perPhase s c r := by rw [perPhase, Nat.mul_assoc]
  rw [hstart, hall, hsize]
  simp only [Nested.numbered, nil_append, length_nil, Nat.zero_add]
  refine map_congr_left fun q _ => ?_
  have hpass : q / (2 * perPhase s c r) = block s c r q / 2 := by
    rw [block, Nat.div_div_eq_div_mul, Nat.mul_comm]
  have hphase : phaseOf (q % (2 * perPhase s c r) / perPhase s c r) = phaseOf (block s c r q) := by
    rw [Nat.mul_comm 2, Nat.mod_mul_right_div_self, ← block, phaseOf, phaseOf, Nat.mod_mod]
  have hplace : q % (2 * perPhase s c r) % perPhase s c r = q % perPhase s c r := Nat.mod_mul_left_mod _ _ _
  rw [hpass, hphase, hplace, operationAt, canonical, hr]
  rfl

/-- A record that is built passes every check. -/
theorem validate_built (h : parameters.Ok) : validateIntent parameters.intent = .ok () := by
  obtain ⟨s, hs⟩ := Int.eq_ofNat_of_zero_le h.streams.le
  obtain ⟨c, hc⟩ := Int.eq_ofNat_of_zero_le h.numChunks.le
  obtain ⟨r, hr⟩ := Int.eq_ofNat_of_zero_le h.ranksPerChunk.le
  obtain ⟨n, hn⟩ := Int.eq_ofNat_of_zero_le (show 0 ≤ parameters.warmup + parameters.iters by have := h.iters; have := h.warmup; omega)
  have hpos := h.streams
  have hpos' := h.numChunks
  have hpos'' := h.ranksPerChunk
  have hshape : Shape parameters.intent s c r := ⟨hs, hc, hr, by omega, h.payloadBytes⟩
  have hoperations : parameters.intent.operations = (range (n * (2 * perPhase s c r))).map (canonical parameters.intent s c r) :=
    operations_eq_canonical hs hc hr hn
  have hlength : (parameters.intent.operations.length : Int) =
      (parameters.intent.warmup + parameters.intent.iters) * 2 * parameters.intent.streams * parameters.intent.numChunks *
        parameters.intent.ranksPerChunk := by
    rw [hoperations, length_map, length_range, hshape.streams, hshape.numChunks, hshape.ranksPerChunk]
    change _ = (parameters.warmup + parameters.iters) * 2 * (s : Int) * c * r
    rw [hn, perPhase]
    push_cast
    ring
  have hstep : ∀ (u : Unit) i operation (u' : Unit), operationStep parameters.intent u i operation = .ok u' ↔
      operationStep parameters.intent () i operation = .ok () ∧ u' = () := by simp
  have hloop : foldFrom (operationStep parameters.intent) 0 () parameters.intent.operations = .ok () := by
    refine (foldFrom_eq_ok_iff hstep).mpr ⟨fun before operation after hsplit => ?_, rfl⟩
    rw [operationStep_eq_ok hshape, Nat.zero_add]
    have hlt : before.length < parameters.intent.operations.length := by
      rw [hsplit]
      simp
    have hget : parameters.intent.operations[before.length] = operation := by
      simp [hsplit]
    rw [← hget]
    simp [hoperations]
  simp only [validateIntent, positive, nonnegative, bind_eq_ok, exists_const, ensure_eq_ok]
  exact ⟨h.name, h.dtype, h.chunkTokens, h.payloadBytes, h.storeMetadataBytes, h.ranksPerChunk, h.numChunks, h.streams, h.iters, h.warmup,
    rfl, rfl, hlength, hloop⟩

theorem build_of_ok (h : parameters.Ok) : buildKvOffloadIntent parameters = .ok parameters.intent := by
  simp only [buildKvOffloadIntent, positive, nonnegative, bind_eq_ok, exists_const, ensure_eq_ok, pure_eq_ok]
  exact ⟨h.chunkTokens, h.payloadBytes, h.ranksPerChunk, h.numChunks, h.streams, h.iters, h.storeMetadataBytes, h.warmup, (),
    validate_built h, trivial⟩

/-- What the validator accepts states parameters that a record can be built for, and lists the operations of the builder. -/
theorem operations_of_valid {intent : Intent1} (hvalid : validateIntent intent = .ok ()) :
    intent.parameters.Ok ∧ intent.operations = intent.parameters.operations := by
  obtain ⟨s, c, r, hshape, hoperations⟩ := operations_eq hvalid
  simp only [validateIntent, positive, nonnegative, bind_eq_ok, exists_const, ensure_eq_ok] at hvalid
  obtain ⟨hname, hdtype, htokens, hpayload, hmetadata, hranks, hchunks, hstreams, hiters, hwarmup, -, -, hlength, -⟩ := hvalid
  refine ⟨⟨hname, hdtype, htokens, hpayload, hranks, hchunks, hstreams, hiters, hwarmup, hmetadata⟩, ?_⟩
  obtain ⟨n, hn⟩ := Int.eq_ofNat_of_zero_le (show 0 ≤ intent.warmup + intent.iters by omega)
  have hcount : intent.operations.length = n * (2 * perPhase s c r) := by
    rw [hn, hshape.streams, hshape.numChunks, hshape.ranksPerChunk] at hlength
    have hcast : ((n * (2 * perPhase s c r) : Nat) : Int) = n * 2 * s * c * r := by
      rw [perPhase]
      push_cast
      ring
    rw [← hcast] at hlength
    exact_mod_cast hlength
  have hbuilt : intent.parameters.operations = (range (n * (2 * perPhase s c r))).map (canonical intent.parameters.intent s c r) :=
    operations_eq_canonical hshape.streams hshape.numChunks hshape.ranksPerChunk hn
  rw [hoperations, hcount, hbuilt]
  rfl

end OffloadAux

open OffloadAux

/-- The builder makes a record for every choice of its parameters, and the validator accepts it; and every record that the validator
accepts lists exactly the operations of the record that the builder makes for the parameters it states. -/
theorem buildKvOffloadIntent_iff : (∀ parameters : Parameters, parameters.Ok → ∃ intent, buildKvOffloadIntent parameters = .ok intent ∧
      intent.parameters = parameters ∧ validateIntent intent = .ok ()) ∧
    ∀ intent : Intent1, validateIntent intent = .ok () → ∃ built, buildKvOffloadIntent intent.parameters = .ok built ∧
      intent.operations = built.operations := by
  refine ⟨fun parameters h => ⟨parameters.intent, build_of_ok h, rfl, validate_built h⟩, fun intent hvalid => ?_⟩
  obtain ⟨hok, hoperations⟩ := operations_of_valid hvalid
  exact ⟨intent.parameters.intent, build_of_ok hok, hoperations⟩

/-! ## Lowering -/

/-- The limits that were given. -/
def givenLimits (mdtsBytes : Int) (dmaCeilingBytes softwareLimitBytes : Option Int) : List Int :=
  mdtsBytes :: (dmaCeilingBytes.toList ++ softwareLimitBytes.toList)

/-- Commands that make up one component of an operation: contiguous from 0, numbered from `first` on, not empty, within every limit, and
as few as possible. -/
structure Tiled (limits : List Int) (operation : Operation1) (component : TargetComponent) (total : Int) (first : Nat)
    (commands : List TargetCommand) : Prop where
  own : ∀ command ∈ commands, command.logicalSequence = operation.sequence ∧ command.logicalObject = operation.logicalObject ∧
    command.op = operation.phase ∧ command.component = component
  indices : commands.map TargetCommand.commandIndex = List.range' first commands.length
  start : ∀ command ∈ commands.head?, command.componentOffsetBytes = 0
  contiguous : commands.IsChain fun command next => next.componentOffsetBytes = command.componentOffsetBytes + command.bytes
  nonempty : ∀ command ∈ commands, 0 < command.bytes
  limited : ∀ command ∈ commands, ∀ limit ∈ limits, command.bytes ≤ limit
  sum : (commands.map TargetCommand.bytes).sum = total
  fewest : ∀ sizes : List Int, (∀ size ∈ sizes, 0 < size ∧ ∀ limit ∈ limits, size ≤ limit) → sizes.sum = total →
    commands.length ≤ sizes.length

namespace OffloadAux

variable {limits : TargetLimits} {operation : Operation1} {component : TargetComponent} {e : Nat}

/-- What the loop over a component gives, from an offset and an index on. -/
structure Fragments (operation : Operation1) (component : TargetComponent) (offset : Int) (first : Nat) (sizes : List Nat)
    (result : List TargetCommand × Nat) : Prop where
  own : ∀ command ∈ result.1, command.logicalSequence = operation.sequence ∧ command.logicalObject = operation.logicalObject ∧
    command.op = operation.phase ∧ command.component = component
  indices : result.1.map TargetCommand.commandIndex = List.range' first result.1.length
  start : ∀ command ∈ result.1.head?, command.componentOffsetBytes = offset
  contiguous : result.1.IsChain fun command next => next.componentOffsetBytes = command.componentOffsetBytes + command.bytes
  sizes : result.1.map TargetCommand.bytes = sizes.map Nat.cast
  last : result.2 = first + result.1.length

/-- The loop cuts what remains into pieces of the effective size. -/
theorem fragmentLoop_spec (operation : Operation1) (component : TargetComponent) (heffective : limits.effective = e) (remaining : Nat)
    (offset : Int) (first : Nat) :
    Fragments operation component offset first (Tiles.sizes e remaining)
      (fragmentLoop limits operation component remaining offset first) := by
  have hpos := limits.effective_pos
  induction remaining using Nat.strongRecOn generalizing offset first with
  | ind remaining ih =>
    rw [fragmentLoop]
    by_cases hzero : remaining = 0
    · subst hzero
      rw [Nat.cast_zero, if_pos rfl, Tiles.sizes_zero]
      exact ⟨by simp, rfl, by simp, .nil, rfl, rfl⟩
    · have hsize : min (remaining : Int) limits.effective = (min remaining e : Nat) := by
        rw [heffective]
        omega
      have hrest : (remaining : Int) - (min remaining e : Nat) = (remaining - min remaining e : Nat) := by omega
      have hloop := ih (remaining - min remaining e) (by omega) (offset + (min remaining e : Nat)) (first + 1)
      rw [if_neg (by omega), Tiles.sizes_step (by omega) (by omega)]
      simp only [hsize, hrest]
      refine ⟨?_, ?_, ?_, ?_, ?_, ?_⟩
      · exact forall_mem_cons.mpr ⟨⟨rfl, rfl, rfl, rfl⟩, hloop.own⟩
      · rw [map_cons, hloop.indices, length_cons, range'_succ]
      · intro command hcommand
        cases hcommand
        rfl
      · exact isChain_cons.mpr ⟨fun next hnext => hloop.start next hnext, hloop.contiguous⟩
      · rw [map_cons, map_cons, hloop.sizes]
      · rw [hloop.last, length_cons]
        omega

theorem sum_toNat {sizes : List Int} (h : ∀ size ∈ sizes, 0 ≤ size) : ((sizes.map Int.toNat).sum : Int) = sizes.sum := by
  induction sizes with
  | nil => rfl
  | cons size sizes ih =>
    rw [forall_mem_cons] at h
    rw [map_cons, sum_cons, sum_cons, Nat.cast_add, ih h.2, Int.toNat_of_nonneg h.1]

/-- The pieces of the effective size are a tiling within every limit. -/
theorem tiled_of_fragments (heffective : limits.effective = e) {total first : Nat} {result : List TargetCommand × Nat}
    (h : Fragments operation component 0 first (Tiles.sizes e total) result) :
    Tiled (limits.mdtsBytes :: limits.others) operation component total first result.1 := by
  have hpos := limits.effective_pos
  have hmin : ∀ x, x ≤ limits.effective ↔ ∀ limit ∈ limits.mdtsBytes :: limits.others, x ≤ limit := by
    intro x
    rw [forall_mem_cons]
    exact TargetLimits.le_foldl_min _ _
  have hsize : ∀ command ∈ result.1, ∃ size : Nat, size ∈ Tiles.sizes e total ∧ command.bytes = size := by
    intro command hcommand
    have hmem := mem_map_of_mem (f := TargetCommand.bytes) hcommand
    rw [h.sizes, mem_map] at hmem
    obtain ⟨size, hmem, heq⟩ := hmem
    exact ⟨size, hmem, heq.symm⟩
  have hlength : result.1.length = (Tiles.sizes e total).length := by
    have heq := congrArg length h.sizes
    rwa [length_map, length_map] at heq
  refine ⟨h.own, h.indices, h.start, h.contiguous, ?_, ?_, ?_, ?_⟩
  · intro command hcommand
    obtain ⟨size, hmem, heq⟩ := hsize command hcommand
    have hsome := (Tiles.mem_sizes (by omega) hmem).1
    omega
  · intro command hcommand
    obtain ⟨size, hmem, heq⟩ := hsize command hcommand
    have hle := (Tiles.mem_sizes (by omega) hmem).2
    exact (hmin command.bytes).mp (by omega)
  · rw [h.sizes, ← Nat.cast_list_sum, Tiles.sum_sizes]
  · -- Sizes within every limit are within their minimum.
    intro sizes hsizes hsum
    have hnat := sum_toNat fun size hmem => (hsizes size hmem).1.le
    rw [hsum, Nat.cast_inj] at hnat
    have hle : ∀ size ∈ sizes.map Int.toNat, size ≤ e := by
      intro size hmem
      obtain ⟨given, hgiven, rfl⟩ := mem_map.mp hmem
      have hbound := (hmin given).mpr (hsizes given hgiven).2
      omega
    have hfew := Tiles.length_sizes_le (by omega) hle hnat
    rw [hlength]
    rwa [length_map] at hfew

/-- The commands of an operation: those of its metadata, if it has any, and then those of its payload. -/
theorem lowerOperation_eq (limits : TargetLimits) (intent : Intent1) (operation : Operation1) : lowerOperation limits intent operation =
      (if operation.phase = .store ∧ intent.storeMetadataBytes ≠ 0 then
        (fragmentLoop limits operation .metadata intent.storeMetadataBytes 0 0).1 ++
          (fragmentLoop limits operation .payload operation.payloadBytes 0
            (fragmentLoop limits operation .metadata intent.storeMetadataBytes 0 0).2).1
      else (fragmentLoop limits operation .payload operation.payloadBytes 0 0).1) := by
  unfold lowerOperation components
  split
  · rfl
  · rfl

/-- The commands of an operation by its components. -/
def metadataCommands (limits : TargetLimits) (intent : Intent1) (operation : Operation1) : List TargetCommand :=
  if operation.phase = .store ∧ intent.storeMetadataBytes ≠ 0 then (fragmentLoop limits operation .metadata intent.storeMetadataBytes 0 0).1
  else []

def payloadCommands (limits : TargetLimits) (intent : Intent1) (operation : Operation1) : List TargetCommand :=
  (fragmentLoop limits operation .payload operation.payloadBytes 0 (metadataCommands limits intent operation).length).1

variable {intent : Intent1}

/-- Both components are cut as they should be. -/
theorem tiled_components (limits : TargetLimits) (hmetadata : 0 ≤ intent.storeMetadataBytes) (hpayload : 0 ≤ operation.payloadBytes) :
    lowerOperation limits intent operation = metadataCommands limits intent operation ++ payloadCommands limits intent operation ∧
      (if operation.phase = .store ∧ intent.storeMetadataBytes ≠ 0 then
        Tiled (limits.mdtsBytes :: limits.others) operation .metadata intent.storeMetadataBytes 0 (metadataCommands limits intent operation)
      else metadataCommands limits intent operation = []) ∧
      Tiled (limits.mdtsBytes :: limits.others) operation .payload operation.payloadBytes (metadataCommands limits intent operation).length
        (payloadCommands limits intent operation) := by
  obtain ⟨e, he⟩ := Int.eq_ofNat_of_zero_le limits.effective_pos.le
  obtain ⟨metadata, hm⟩ := Int.eq_ofNat_of_zero_le hmetadata
  obtain ⟨payload, hp⟩ := Int.eq_ofNat_of_zero_le hpayload
  have hmeta := fragmentLoop_spec operation .metadata he metadata 0 0
  have hown := fragmentLoop_spec operation .payload he payload 0 (metadataCommands limits intent operation).length
  rw [lowerOperation_eq, payloadCommands, hm, hp]
  refine ⟨?_, ?_, tiled_of_fragments he hown⟩
  · unfold metadataCommands
    rw [hm]
    split
    · rw [hmeta.last, Nat.zero_add]
    · rfl
  · unfold metadataCommands
    rw [hm]
    split
    · exact tiled_of_fragments he hmeta
    · rfl

/-- All bytes of the commands of some operations. -/
theorem sum_lowered (limits : TargetLimits) (hmetadata : 0 ≤ intent.storeMetadataBytes) {operations : List Operation1}
    (hpayload : ∀ operation ∈ operations, 0 ≤ operation.payloadBytes) :
    ((operations.flatMap (lowerOperation limits intent)).map TargetCommand.bytes).sum =
      (operations.map Operation1.payloadBytes).sum +
        intent.storeMetadataBytes * operations.countP (fun operation => operation.phase = .store) := by
  induction operations with
  | nil => simp
  | cons operation operations ih =>
    rw [forall_mem_cons] at hpayload
    obtain ⟨hsplit, hmeta, hown⟩ := tiled_components limits hmetadata hpayload.1
    have hbytes : ((metadataCommands limits intent operation).map TargetCommand.bytes).sum =
        if operation.phase = .store then intent.storeMetadataBytes else 0 := by
      split at hmeta
      · rename_i hstore
        rw [hmeta.sum, if_pos hstore.1]
      · rename_i hnot
        rw [hmeta]
        split
        · rename_i hstore
          rw [not_and, not_not] at hnot
          exact (hnot hstore).symm
        · rfl
    rw [flatMap_cons, map_append, sum_append, ih hpayload.2, hsplit, map_append, sum_append, hbytes, hown.sum,
      map_cons, sum_cons, countP_cons]
    split
    · rename_i hstore
      simp only [hstore, decide_true, if_true, Nat.cast_add, Nat.cast_one, Int.mul_add, Int.mul_one]
      omega
    · rename_i hload
      simp only [hload, decide_false, Bool.false_eq_true, if_false, Nat.add_zero]
      omega

end OffloadAux

namespace OffloadAux

open ExtentAux

/-- The lengths of the pieces of the verifier's loop. -/
theorem splitLoop_sizes {limit : UInt64} (hlimit : limit ≠ 0) (offset remaining : UInt64) {pieces : List (UInt64 × UInt64)}
    (h : splitLoop limit hlimit offset remaining = .ok pieces) :
    pieces.map (fun piece => piece.2.toNat) = Tiles.sizes limit.toNat remaining.toNat := by
  have hpos : 0 < limit.toNat := Nat.pos_of_ne_zero fun hzero => hlimit (UInt64.toNat_inj.mp hzero)
  generalize hn : remaining.toNat = n
  induction n using Nat.strongRecOn generalizing offset remaining pieces with
  | ind n ih =>
    rw [splitLoop] at h
    by_cases hzero : remaining = 0
    · subst hzero
      subst hn
      rw [dif_pos rfl, Except.ok.injEq] at h
      subst h
      simp
    · rw [dif_neg hzero] at h
      simp only [bind_eq_ok, pure_eq_ok, Except.ok.injEq] at h
      obtain ⟨next, -, rest, hrest, rfl⟩ := h
      have hleft : 0 < remaining.toNat := Nat.pos_of_ne_zero fun heq => hzero (UInt64.toNat_inj.mp heq)
      have hlater := ih (remaining - minimum remaining limit).toNat (by rw [toNat_sub_minimum]; omega) next
        (remaining - minimum remaining limit) hrest rfl
      rw [map_cons, hlater, toNat_sub_minimum, toNat_minimum, ← hn, Tiles.sizes_step hpos hleft]

/-- The pieces of an extent are those of its rounded length. -/
theorem splitExtent_sizes {offsetBytes logicalBytes lbaBytes transferLimit : UInt64} (h : Splittable offsetBytes logicalBytes lbaBytes transferLimit)
    (hpos : logicalBytes ≠ 0) {pieces : List (UInt64 × UInt64)}
    (hpieces : splitExtent offsetBytes logicalBytes lbaBytes transferLimit = .ok pieces) :
    pieces.map (fun piece => piece.2.toNat) = Tiles.sizes transferLimit.toNat (Tiles.roundUp logicalBytes.toNat lbaBytes.toNat) := by
  simp only [splitExtent, bind_eq_ok, if_neg hpos, dif_neg h.limit.1] at hpieces
  obtain ⟨-, -, -, -, -, -, remaining, hremaining, -, -, hloop⟩ := hpieces
  rw [splitLoop_sizes h.limit.1 _ _ hloop, ((alignUp_eq_ok h.lba).mp hremaining).2]
  rfl

variable {total limit : Nat}

/-- The ceiling of a quotient. -/
theorem ceilDiv_natCast (hlimit : 0 < limit) (htotal : 0 < total) : ceilDiv total limit = ((total - 1) / limit : Nat) + 1 := by
  have hdiv := Nat.div_add_mod' (total - 1) limit
  have hlt := Nat.mod_lt (total - 1) hlimit
  generalize (total - 1) / limit = k at *
  have hquot : (-(total : Int)) / (limit : Int) = -((k : Int) + 1) := by
    refine ((Int.ediv_emod_unique (r := (limit : Int) - 1 - ((total - 1) % limit : Nat)) (show (0 : Int) < limit by omega)).mpr
      ⟨?_, by omega, by omega⟩).1
    have hcast : ((k * limit : Nat) : Int) = limit * k := by
      push_cast
      ring
    rw [Int.mul_neg, Int.mul_add, ← hcast]
    omega
  rw [ceilDiv, Int.fdiv_eq_ediv_of_nonneg _ (by omega), hquot, Int.neg_neg]

theorem transferSizes_natCast (hlimit : 0 < limit) (htotal : 0 < total) :
    transferSizes total limit = .ok ((Tiles.sizes limit total).map Nat.cast) := by
  have hle : limit * ((total - 1) / limit) ≤ total := (Nat.mul_div_le _ _).trans (Nat.sub_le _ _)
  simp only [transferSizes, ensure_of (show (limit : Int) ≠ 0 by omega), ok_bind, pure_eq_ok, ceilDiv_natCast hlimit htotal,
    Tiles.sizes_eq_concat hlimit htotal, Int.add_sub_cancel, Int.toNat_natCast, map_append, map_replicate, map_cons,
    map_nil, Nat.cast_sub hle, Nat.cast_mul]

theorem roundToBlock_natCast {lba : Nat} (hlba : 0 < lba) (size : Nat) : roundToBlock lba size = (Tiles.roundUp size lba : Nat) := by
  have hcast : (size : Int) + lba - 1 = (size + lba - 1 : Nat) := by omega
  rw [roundToBlock, Tiles.roundUp, hcast, Int.fdiv_eq_ediv_of_nonneg _ (by omega)]
  push_cast
  rfl

/-- Both projections round the pieces of a transfer. -/
theorem splitCommands_natCast {lba : Nat} (hlimit : 0 < limit) (htotal : 0 < total) (hlba : 0 < lba) :
    KvioPlan.splitCommands total limit lba = .ok (((Tiles.sizes limit total).map fun size => Tiles.roundUp size lba).map Nat.cast) ∧
    KvOffloadIo.splitCommands total limit lba = .ok (((Tiles.sizes limit total).map fun size => Tiles.roundUp size lba).map Nat.cast) := by
  have hround : ((Tiles.sizes limit total).map Nat.cast).map (roundToBlock lba) =
      ((Tiles.sizes limit total).map fun size => Tiles.roundUp size lba).map Nat.cast := by
    rw [map_map, map_map]
    exact map_congr_left fun size _ => roundToBlock_natCast hlba size
  rw [KvioPlan.splitCommands, KvOffloadIo.splitCommands, if_neg (by omega), if_neg (by omega), transferSizes_natCast hlimit htotal]
  simp only [ok_bind, pure_eq_ok, ensure_of (show (lba : Int) ≠ 0 by omega)]
  refine ⟨?_, by rw [hround]⟩
  split
  · rw [hround]
  · -- Blocks of one byte round nothing.
    obtain rfl : lba = 1 := by omega
    have hsame : ∀ size, Tiles.roundUp size 1 = size := fun size => Tiles.roundUp_of_dvd Nat.one_pos (one_dvd size)
    simp only [hsame, map_id']

end OffloadAux

/-- The two projections and the verifier split a transfer into pieces of the same sizes, and lowering makes as many fragments of a
component of that size when the limit is the effective command size. -/
theorem splitCommands_agree {offsetBytes logicalBytes lbaBytes transferLimit : UInt64}
    (h : Splittable offsetBytes logicalBytes lbaBytes transferLimit) (hpos : logicalBytes ≠ 0) {limits : TargetLimits}
    (heffective : limits.effective = transferLimit.toNat) (operation : Operation1) (component : TargetComponent) (commandIndex : Nat) :
    ∃ pieces, splitExtent offsetBytes logicalBytes lbaBytes transferLimit = .ok pieces ∧
      KvioPlan.splitCommands logicalBytes.toNat transferLimit.toNat lbaBytes.toNat = .ok (pieces.map fun piece => (piece.2.toNat : Int)) ∧
      KvOffloadIo.splitCommands logicalBytes.toNat transferLimit.toNat lbaBytes.toNat = .ok (pieces.map fun piece => (piece.2.toNat : Int)) ∧
      (fragmentLoop limits operation component logicalBytes.toNat 0 commandIndex).1.length = pieces.length := by
  obtain ⟨pieces, hpieces, -⟩ := ExtentAux.exists_pieces h
  have hsizes := splitExtent_sizes h hpos hpieces
  have htotal : 0 < logicalBytes.toNat := Nat.pos_of_ne_zero fun hzero => hpos (UInt64.toNat_inj.mp hzero)
  have hlimit : 0 < transferLimit.toNat := Nat.pos_of_ne_zero fun hzero => h.limit.1 (UInt64.toNat_inj.mp hzero)
  have hlba : 0 < lbaBytes.toNat := by
    obtain ⟨k, hk⟩ := h.lba
    exact hk ▸ Nat.two_pow_pos k
  rw [Tiles.sizes_roundUp hlba hlimit h.limit.2] at hsizes
  have hlengths : (pieces.map fun piece => (piece.2.toNat : Int)) =
      ((Tiles.sizes transferLimit.toNat logicalBytes.toNat).map fun size => Tiles.roundUp size lbaBytes.toNat).map Nat.cast := by
    rw [← hsizes, List.map_map]
    rfl
  obtain ⟨hplan, hio⟩ := splitCommands_natCast hlimit htotal hlba
  refine ⟨pieces, hpieces, by rw [hplan, hlengths], by rw [hio, hlengths], ?_⟩
  have hfragments := (fragmentLoop_spec operation component heffective logicalBytes.toNat 0 commandIndex).sizes
  have hcount := congrArg List.length hfragments
  have hcount' := congrArg List.length hsizes
  rw [List.length_map, List.length_map] at hcount hcount'
  omega

/-- A transfer of 700000 bytes in blocks of 512 bytes. -/
theorem splitCommands_agree_tail : ∃ pieces, splitExtent 0 700000 512 131072 = .ok pieces ∧
      KvioPlan.splitCommands 700000 131072 512 = .ok (pieces.map fun piece => (piece.2.toNat : Int)) := by
  have h : Splittable 0 700000 512 131072 := ⟨⟨9, by decide⟩, by decide, by decide, fun _ => by decide⟩
  let limits : TargetLimits := ⟨131072, none, none, by decide, by decide, by decide⟩
  have heffective : limits.effective = (131072 : UInt64).toNat := by decide
  obtain ⟨pieces, hpieces, hplan, -⟩ := splitCommands_agree h (by decide) heffective ⟨0, 0, .load, 0, 0, [], 0, 0, 700000, true⟩ .payload 0
  exact ⟨pieces, hpieces, hplan⟩

end EbpfSyscall.Kvio
