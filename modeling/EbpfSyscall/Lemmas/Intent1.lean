import EbpfSyscall.Kvio.Intent1
import EbpfSyscall.Lemmas.Content
import EbpfSyscall.Lemmas.ObjectRun

/-!
# Generated workloads and their v2 form

A valid v1 record lists its operations in one canonical order: block after block, a block being a phase of a pass, and within a block
stream after stream. The direct dependencies of an operation are the one before it in its stream and the whole block before its own,
so its ancestors are the earlier operations of its stream and all earlier blocks.
-/

namespace EbpfSyscall.Kvio

open Checked Intent1 List Function Assoc Decimal
open Intent2 hiding operationStep

/-- The partial order of a v1 record: the phases one after the other, and within a phase the operations of a stream. -/
def Intent1.Before (a b : Operation1) : Prop :=
  a.pass < b.pass ∨ (a.pass = b.pass ∧ a.phase = .store ∧ b.phase = .load) ∨
    (a.pass = b.pass ∧ a.phase = b.phase ∧ a.stream = b.stream ∧ a.sequence < b.sequence)

namespace Intent1Aux

variable {intent : Intent1} {s c r q p : Nat} {objects : Assoc Text Versions}

/-- The numbers of a record: streams, chunks and ranks. -/
structure Shape (intent : Intent1) (s c r : Nat) : Prop where
  streams : intent.streams = s
  numChunks : intent.numChunks = c
  ranksPerChunk : intent.ranksPerChunk = r
  pos : 0 < s ∧ 0 < c ∧ 0 < r
  payload : 0 < intent.payloadBytes

/-- The operations of a block, and those of a stream in it. -/
def perPhase (s c r : Nat) : Nat := s * c * r

def perStream (c r : Nat) : Nat := c * r

/-- The number of the block of an operation, and that of its stream. -/
def block (s c r q : Nat) : Nat := q / perPhase s c r

def streamOf (s c r q : Nat) : Nat := q % perPhase s c r / perStream c r

/-- The phase of a block. -/
def phaseOf (block : Nat) : Verb := if block % 2 = 0 then .store else .load

/-- The name of the object at a place of the list. -/
def objectAt (s c r q : Nat) : Text :=
  logicalObject (block s c r q / 2 : Nat) (streamOf s c r q : Nat) (q % perPhase s c r % perStream c r / r : Nat)
    (q % perPhase s c r % perStream c r % r : Nat)

/-- The operation at a place of the list. -/
def canonical (intent : Intent1) (s c r q : Nat) : Operation1 where
  sequence := q
  pass := (block s c r q / 2 : Nat)
  phase := phaseOf (block s c r q)
  stream := (streamOf s c r q : Nat)
  streamSequence := (q % perPhase s c r % perStream c r / r : Nat) * (r : Int) + (q % perPhase s c r % perStream c r % r : Nat)
  logicalObject := objectAt s c r q
  chunkIndex := (q % perPhase s c r % perStream c r / r : Nat)
  kvRank := (q % perPhase s c r % perStream c r % r : Nat)
  payloadBytes := intent.payloadBytes
  timed := decide (intent.warmup ≤ (block s c r q / 2 : Nat))

theorem perPhase_pos (h : Shape intent s c r) : 0 < perPhase s c r :=
  Nat.mul_pos (Nat.mul_pos h.pos.1 h.pos.2.1) h.pos.2.2

theorem perStream_pos (h : Shape intent s c r) : 0 < perStream c r := Nat.mul_pos h.pos.2.1 h.pos.2.2

theorem perPhase_eq (s c r : Nat) : perPhase s c r = s * perStream c r := Nat.mul_assoc s c r

theorem mod_two_mul (q n : Nat) : q % (2 * n) = q % n + n * (q / n % 2) := by
  rw [Nat.mul_comm 2 n, Nat.mod_mul]

/-- The validator accepts exactly the canonical operation at a place. -/
theorem operationStep_eq_ok (h : Shape intent s c r) {operation : Operation1} {u : Unit} :
    operationStep intent () q operation = .ok u ↔ operation = canonical intent s c r q := by
  have hn := perPhase_pos h
  have hphase : intent.streams * intent.numChunks * intent.ranksPerChunk = (perPhase s c r : Nat) := by
    rw [h.streams, h.numChunks, h.ranksPerChunk, perPhase]
    push_cast
    rfl
  have hpass : 2 * intent.streams * intent.numChunks * intent.ranksPerChunk = (2 * perPhase s c r : Nat) := by
    rw [h.streams, h.numChunks, h.ranksPerChunk, perPhase]
    push_cast
    ring
  have hstream : intent.numChunks * intent.ranksPerChunk = (perStream c r : Nat) := by
    rw [h.numChunks, h.ranksPerChunk, perStream]
    push_cast
    rfl
  have hdiv : q / (2 * perPhase s c r) = block s c r q / 2 := by
    rw [block, Nat.div_div_eq_div_mul, Nat.mul_comm]
  have hmod : q % (2 * perPhase s c r) % perPhase s c r = q % perPhase s c r := Nat.mod_mul_left_mod _ _ _
  have hside : q % (2 * perPhase s c r) < perPhase s c r ↔ block s c r q % 2 = 0 := by
    have hlt := Nat.mod_lt q hn
    rw [mod_two_mul, ← block]
    rcases Nat.mod_two_eq_zero_or_one (block s c r q) with heven | hodd
    · rw [heven]
      omega
    · rw [hodd]
      omega
  have hphaseOf : (if ((q % (2 * perPhase s c r) : Nat) : Int) < (perPhase s c r : Nat) then Verb.store else Verb.load) =
      phaseOf (block s c r q) := by
    rw [phaseOf]
    simp only [Nat.cast_lt, hside]
  simp only [operationStep, bind_eq_ok, exists_const, ensure_eq_ok, hphase, hpass, hstream]
  simp only [h.ranksPerChunk, ← Int.natCast_mod, ← Int.natCast_div, hmod, hdiv, hphaseOf]
  constructor
  · rintro ⟨hsequence, hphase', hpass', hstream', hchunk, hrank, hss, hobject, hpayload, htimed⟩
    obtain ⟨sequence, pass, phase, stream, streamSequence, object, chunkIndex, kvRank, payloadBytes, timed⟩ := operation
    dsimp only at *
    subst hsequence hpass' hphase' hstream' hchunk hrank hss hobject hpayload
    rw [htimed]
    rfl
  · rintro rfl
    exact ⟨rfl, rfl, rfl, rfl, rfl, rfl, rfl, rfl, rfl, rfl⟩

/-- A valid record lists the canonical operations. -/
theorem operations_eq (hvalid : validateIntent intent = .ok ()) : ∃ s c r, Shape intent s c r ∧
    intent.operations = (List.range intent.operations.length).map (canonical intent s c r) := by
  simp only [validateIntent, positive, nonnegative, bind_eq_ok, exists_const, ensure_eq_ok] at hvalid
  obtain ⟨_, _, _, hpayload, _, hranks, hchunks, hstreams, _, _, _, _, _, hloop⟩ := hvalid
  obtain ⟨s, hs⟩ := Int.eq_ofNat_of_zero_le hstreams.le
  obtain ⟨c, hc⟩ := Int.eq_ofNat_of_zero_le hchunks.le
  obtain ⟨r, hr⟩ := Int.eq_ofNat_of_zero_le hranks.le
  have hshape : Shape intent s c r := ⟨hs, hc, hr, by omega, hpayload⟩
  refine ⟨s, c, r, hshape, ?_⟩
  have hstep : ∀ (u : Unit) i operation (u' : Unit), operationStep intent u i operation = .ok u' ↔
      operationStep intent () i operation = .ok () ∧ u' = () := by simp
  have hall := ((foldFrom_eq_ok_iff hstep).mp hloop).1
  refine ext_getElem (by simp) fun q hq _ => ?_
  rw [getElem_map, getElem_range]
  have hsplit : intent.operations = intent.operations.take q ++ intent.operations[q] :: intent.operations.drop (q + 1) := by
    rw [cons_getElem_drop_succ, take_append_drop]
  have hok := hall _ _ _ hsplit
  rw [length_take, Nat.zero_add, Nat.min_eq_left hq.le] at hok
  exact (operationStep_eq_ok hshape).mp hok

/-! ## Dependencies -/

/-- The accumulators of the loop after the first operations. -/
def draftAt (intent : Intent1) (s c r m : Nat) (v2 : Intent2) : Draft1 where
  intent := v2
  prevInStream key := (((List.range m).filter fun q =>
    ((canonical intent s c r q).pass, (canonical intent s c r q).phase, (canonical intent s c r q).stream) = key).getLast?).map
      Int.ofNat
  storesOfPass pass := ((List.range m).filter fun q =>
    (canonical intent s c r q).phase = .store ∧ (canonical intent s c r q).pass = pass).map Int.ofNat
  loadsOfPass pass := ((List.range m).filter fun q =>
    (canonical intent s c r q).phase ≠ .store ∧ (canonical intent s c r q).pass = pass).map Int.ofNat

/-- The sequence numbers of the direct dependencies of an operation. -/
def depsAt (intent : Intent1) (s c r q : Nat) : List Int := (draftAt intent s c r q (blank intent)).deps (canonical intent s c r q)

theorem phaseOf_eq_store {k : Nat} : phaseOf k = .store ↔ k % 2 = 0 := by
  unfold phaseOf
  split <;> simp_all

theorem phaseOf_eq_load {k : Nat} : phaseOf k = .load ↔ k % 2 = 1 := by
  unfold phaseOf
  split
  · simp
    omega
  · simp
    omega

theorem block_le (h : p ≤ q) : block s c r p ≤ block s c r q := Nat.div_le_div_right h

theorem eq_of_place (hblock : block s c r p = block s c r q) (hmod : p % perPhase s c r = q % perPhase s c r) : p = q := by
  rw [← Nat.div_add_mod p (perPhase s c r), ← Nat.div_add_mod q (perPhase s c r), hmod]
  unfold block at hblock
  rw [hblock]

theorem pred_div_mod {n : Nat} (hn : 0 < n) (h : q % n ≠ 0) : (q - 1) / n = q / n ∧ (q - 1) % n = q % n - 1 := by
  rw [Nat.div_mod_unique hn]
  have hdiv := Nat.div_add_mod q n
  have hlt := Nat.mod_lt q hn
  omega

theorem mod_mod_perStream (p : Nat) : p % perPhase s c r % perStream c r = p % perStream c r := by
  rw [perPhase_eq, Nat.mod_mul_left_mod]

/-- Within a stream of a block, the number before is in the stream too. -/
theorem same_stream_pred (h : Shape intent s c r) (hnonzero : q % perStream c r ≠ 0) :
    block s c r (q - 1) = block s c r q ∧ streamOf s c r (q - 1) = streamOf s c r q := by
  have hne : q % perPhase s c r ≠ 0 := by
    intro hzero
    have hmod := mod_mod_perStream (s := s) (c := c) (r := r) q
    rw [hzero, Nat.zero_mod] at hmod
    exact hnonzero hmod.symm
  have hsplit := pred_div_mod (perPhase_pos h) hne
  refine ⟨hsplit.1, ?_⟩
  unfold streamOf
  rw [hsplit.2]
  exact (pred_div_mod (perStream_pos h) (by rw [mod_mod_perStream]; exact hnonzero)).1

/-- Nothing of a stream of a block comes before its start. -/
theorem le_of_start (hzero : q % perStream c r = 0) (hblock : block s c r p = block s c r q)
    (hstream : streamOf s c r p = streamOf s c r q) : q ≤ p := by
  have hdiv := Nat.div_add_mod (q % perPhase s c r) (perStream c r)
  have hdiv' := Nat.div_add_mod (p % perPhase s c r) (perStream c r)
  have hp := Nat.div_add_mod p (perPhase s c r)
  have hq := Nat.div_add_mod q (perPhase s c r)
  rw [mod_mod_perStream, hzero] at hdiv
  unfold streamOf at hstream
  unfold block at hblock
  rw [hstream] at hdiv'
  rw [hblock] at hp
  omega

/-- The operation before another in its stream is the one with the number before, unless the stream begins there. -/
theorem last_same_key (h : Shape intent s c r) (q : Nat) : (((List.range q).filter fun p =>
      ((canonical intent s c r p).pass, (canonical intent s c r p).phase, (canonical intent s c r p).stream) =
        ((canonical intent s c r q).pass, (canonical intent s c r q).phase, (canonical intent s c r q).stream)).getLast?) =
      if q % perStream c r = 0 then none else some (q - 1) := by
  have hkey : ∀ p, ((canonical intent s c r p).pass, (canonical intent s c r p).phase, (canonical intent s c r p).stream) =
      ((canonical intent s c r q).pass, (canonical intent s c r q).phase, (canonical intent s c r q).stream) ↔
      block s c r p = block s c r q ∧ streamOf s c r p = streamOf s c r q := by
    intro p
    simp only [canonical, Prod.mk.injEq, Nat.cast_inj]
    constructor
    · rintro ⟨hpass, hphase, hstream⟩
      refine ⟨?_, hstream⟩
      have hiff : block s c r p % 2 = 0 ↔ block s c r q % 2 = 0 := by rw [← phaseOf_eq_store, ← phaseOf_eq_store, hphase]
      omega
    · rintro ⟨hblock, hstream⟩
      rw [hblock, hstream]
      exact ⟨rfl, rfl, rfl⟩
  simp only [hkey]
  split
  · rename_i hzero
    rw [getLast?_eq_none_iff, filter_eq_nil_iff]
    intro p hp
    rw [mem_range] at hp
    simp only [decide_eq_true_eq, not_and]
    intro hblock hstream
    have hle := le_of_start hzero hblock hstream
    omega
  · rename_i hnonzero
    have hq : q = q - 1 + 1 := by
      have hpos : q ≠ 0 := by
        rintro rfl
        simp at hnonzero
      omega
    have hrange : range q = range (q - 1) ++ [q - 1] := by
      conv_lhs => rw [hq, range_succ]
    rw [hrange, filter_append, filter_cons_of_pos (by simpa using same_stream_pred h hnonzero), filter_nil,
      getLast?_concat]

/-- The direct dependencies: the operation before it in its stream, and the block before its own. -/
theorem mem_depsAt (h : Shape intent s c r) {d : Int} : d ∈ depsAt intent s c r q ↔
    ∃ p : Nat, d = p ∧ ((q % perStream c r ≠ 0 ∧ p = q - 1) ∨ block s c r p + 1 = block s c r q) := by
  have hmono : ∀ {p}, block s c r p < block s c r q → p < q := by
    intro p hlt
    by_contra hle
    have := block_le (s := s) (c := c) (r := r) (Nat.le_of_not_lt hle)
    omega
  unfold depsAt Draft1.deps
  rw [mem_insertionSort, mem_dedup, mem_append]
  constructor
  · rintro (hown | hbarrier)
    · simp only [draftAt, last_same_key h, Option.mem_toList] at hown
      split at hown
      · cases hown
      · rename_i hnonzero
        obtain rfl : d = ((q - 1 : Nat) : Int) := by simpa using hown.symm
        exact ⟨q - 1, rfl, Or.inl ⟨hnonzero, rfl⟩⟩
    · by_cases hodd : block s c r q % 2 = 1
      · rw [if_pos (show (canonical intent s c r q).phase = .load from phaseOf_eq_load.mpr hodd)] at hbarrier
        obtain ⟨p, hp, rfl⟩ := mem_map.mp hbarrier
        simp only [mem_filter, mem_range, canonical, phaseOf_eq_store, Nat.cast_inj, decide_eq_true_eq] at hp
        exact ⟨p, rfl, Or.inr (by omega)⟩
      · rw [if_neg (show (canonical intent s c r q).phase ≠ .load from fun heq => hodd (phaseOf_eq_load.mp heq))] at hbarrier
        by_cases hpositive : 0 < (canonical intent s c r q).pass
        · rw [if_pos hpositive] at hbarrier
          obtain ⟨p, hp, rfl⟩ := mem_map.mp hbarrier
          simp only [mem_filter, mem_range, canonical, ne_eq, phaseOf_eq_store, decide_eq_true_eq] at hp hpositive
          exact ⟨p, rfl, Or.inr (by omega)⟩
        · rw [if_neg hpositive] at hbarrier
          cases hbarrier
  · rintro ⟨p, rfl, ⟨hnonzero, rfl⟩ | hblock⟩
    · refine Or.inl ?_
      simp only [draftAt, last_same_key h, if_neg hnonzero]
      simp
    · refine Or.inr ?_
      have hlt : p < q := hmono (by omega)
      by_cases hodd : block s c r q % 2 = 1
      · rw [if_pos (show (canonical intent s c r q).phase = .load from phaseOf_eq_load.mpr hodd)]
        refine mem_map.mpr ⟨p, ?_, rfl⟩
        simp only [mem_filter, mem_range, canonical, phaseOf_eq_store, Nat.cast_inj, decide_eq_true_eq]
        omega
      · have hpositive : 0 < (canonical intent s c r q).pass := by
          simp only [canonical]
          omega
        rw [if_neg (show (canonical intent s c r q).phase ≠ .load from fun heq => hodd (phaseOf_eq_load.mp heq)), if_pos hpositive]
        refine mem_map.mpr ⟨p, ?_, rfl⟩
        simp only [mem_filter, mem_range, canonical, ne_eq, phaseOf_eq_store, decide_eq_true_eq]
        omega

/-- Block after block, and in a stream of a block one after the other. -/
def Earlier (s c r a b : Nat) : Prop :=
  block s c r a < block s c r b ∨ (block s c r a = block s c r b ∧ streamOf s c r a = streamOf s c r b ∧ a < b)

theorem Earlier.trans {t : Nat} (h : Earlier s c r p q) (h' : Earlier s c r q t) : Earlier s c r p t := by
  unfold Earlier at *
  omega

theorem Earlier.lt (h : Earlier s c r p q) : p < q := by
  rcases h with hlt | ⟨-, -, hlt⟩
  · by_contra hle
    have hblock := block_le (s := s) (c := c) (r := r) (Nat.le_of_not_lt hle)
    omega
  · exact hlt

theorem earlier_of_dep (h : Shape intent s c r) (hdep : (p : Int) ∈ depsAt intent s c r q) : Earlier s c r p q := by
  obtain ⟨p', heq, hor⟩ := (mem_depsAt h).mp hdep
  obtain rfl : p = p' := by exact_mod_cast heq
  rcases hor with ⟨hnonzero, rfl⟩ | hblock
  · have hpos : q ≠ 0 := by
      rintro rfl
      simp at hnonzero
    obtain ⟨hblock, hstream⟩ := same_stream_pred h hnonzero
    exact Or.inr ⟨hblock, hstream, by omega⟩
  · exact Or.inl (by omega)

/-- The ancestors of an operation: the transitive closure of the direct dependencies is the order of the phases and streams. -/
theorem ancestor_iff (h : Shape intent s c r) {a b : Nat} :
    Relation.TransGen (fun p q => (p : Int) ∈ depsAt intent s c r q) a b ↔ Earlier s c r a b := by
  constructor
  · intro hancestor
    induction hancestor with
    | single hdep => exact earlier_of_dep h hdep
    | tail _ hdep ih => exact ih.trans (earlier_of_dep h hdep)
  · intro hearlier
    -- Strong induction on the later operation: its last edge comes from the block before, or from its own stream.
    induction b using Nat.strong_induction_on with
    | _ b ih =>
      rcases hearlier with hlt | ⟨hblock, hstream, hlt⟩
      · by_cases hnext : block s c r a + 1 = block s c r b
        · exact .single ((mem_depsAt h).mpr ⟨a, rfl, Or.inr hnext⟩)
        · have hmiddle : block s c r ((block s c r b - 1) * perPhase s c r) = block s c r b - 1 :=
            Nat.mul_div_cancel _ (perPhase_pos h)
          have hbefore : Earlier s c r a ((block s c r b - 1) * perPhase s c r) := Or.inl (by omega)
          have hafter : Earlier s c r ((block s c r b - 1) * perPhase s c r) b := Or.inl (by omega)
          exact .tail (ih _ hafter.lt hbefore) ((mem_depsAt h).mpr ⟨_, rfl, Or.inr (by omega)⟩)
      · have hnonzero : b % perStream c r ≠ 0 := by
          intro hzero
          have hle := le_of_start hzero hblock hstream
          omega
        have hdep : ((b - 1 : Nat) : Int) ∈ depsAt intent s c r b := (mem_depsAt h).mpr ⟨b - 1, rfl, Or.inl ⟨hnonzero, rfl⟩⟩
        obtain ⟨hblock', hstream'⟩ := same_stream_pred h hnonzero
        rcases Nat.eq_or_lt_of_le (show a ≤ b - 1 by omega) with rfl | hlt'
        · exact .single hdep
        · exact .tail (ih (b - 1) (by omega) (Or.inr ⟨by omega, by omega, hlt'⟩)) hdep

/-! ## The loop -/

/-- The version that every object has. -/
def versions (intent : Intent1) : Versions := Assoc.empty.set (Version.int 1).text ⟨"v1-payload".toList, intent.payloadBytes⟩

/-- What an operation becomes. -/
def carried (intent : Intent1) (s c r q : Nat) : Operation where
  opId := opId q
  seq := q
  op := phaseOf (block s c r q)
  objectId := objectAt s c r q
  version := .int 1
  range := none
  stream := some ('s' :: Decimal.printInt (streamOf s c r q : Nat))
  batchId := some ("pass".toList ++ Decimal.printInt (block s c r q / 2 : Nat) ++ ['/'] ++ phaseWord (phaseOf (block s c r q)) ++ ['/'] ++
    's' :: Decimal.printInt (streamOf s c r q : Nat))
  deps := (depsAt intent s c r q).map opId
  releaseNs := none
  declaredDelayNs := none
  requestedBytes := intent.payloadBytes
  sourceOutcome := none

/-- The v2 record after the first operations. -/
def carriedTo (intent : Intent1) (s c r m : Nat) (objects : Assoc Text Versions) : Intent2 :=
  { blank intent with objects, operations := (List.range m).map (carried intent s c r) }

/-- The objects are those of the operations so far. -/
def ObjectsTo (intent : Intent1) (s c r m : Nat) (objects : Assoc Text Versions) : Prop :=
  ∀ key, objects.get key = if ∃ q < m, objectAt s c r q = key then some (versions intent) else none

theorem withObject_ok (m : Nat) (hobjects : ObjectsTo intent s c r m objects) :
    ∃ objects', withObject (carriedTo intent s c r m objects) (objectAt s c r m) = .ok (carriedTo intent s c r m objects') ∧
      ObjectsTo intent s c r (m + 1) objects' := by
  have hsucc : ∀ key, (∃ q < m + 1, objectAt s c r q = key) ↔ objectAt s c r m = key ∨ ∃ q < m, objectAt s c r q = key := by
    intro key
    constructor
    · rintro ⟨q, hq, heq⟩
      rcases Nat.lt_succ_iff_lt_or_eq.mp hq with hlt | rfl
      · exact Or.inr ⟨q, hlt, heq⟩
      · exact Or.inl heq
    · rintro (heq | ⟨q, hq, heq⟩)
      · exact ⟨m, Nat.lt_succ_self m, heq⟩
      · exact ⟨q, Nat.lt_succ_of_lt hq, heq⟩
  unfold withObject
  split
  · rename_i hin
    obtain ⟨value, hvalue⟩ := mem_keys_iff.mp hin
    have hexists : ∃ q < m, objectAt s c r q = objectAt s c r m := by
      by_contra hnot
      have hnone := hobjects (objectAt s c r m)
      rw [if_neg hnot] at hnone
      exact absurd (hvalue.symm.trans hnone) (by simp)
    refine ⟨objects, rfl, fun key => ?_⟩
    rw [hobjects key]
    refine if_congr ?_ rfl rfl
    rw [hsucc]
    constructor
    · exact Or.inr
    · rintro (rfl | hin)
      · exact hexists
      · exact hin
  · rename_i hnot
    refine ⟨objects.set (objectAt s c r m) (versions intent), ?_, fun key => ?_⟩
    · have hnone : objects.get (objectAt s c r m) = none := get_eq_none_iff.mpr hnot
      have hrep : (carriedTo intent s c r m objects).representations.get "v1-payload".toList =
          some ⟨"opaque".toList, intent.payloadBytes, none, [⟨"payload".toList, 0, intent.payloadBytes⟩]⟩ := get_set_self _ _ _
      rw [addObjectVersion, hrep]
      simp only [require, ok_bind]
      show Except.ok (carriedTo intent s c r m (objects.set (objectAt s c r m)
        (((objects.get (objectAt s c r m)).getD .empty).set _ _))) = _
      rw [hnone]
      rfl
    · rw [get_set, hobjects key]
      by_cases heq : key = objectAt s c r m
      · rw [if_pos heq, if_pos ((hsucc key).mpr (Or.inl heq.symm))]
      · rw [if_neg heq]
        refine if_congr ?_ rfl rfl
        rw [hsucc]
        constructor
        · exact Or.inr
        · rintro (heq' | hin)
          · exact absurd heq'.symm heq
          · exact hin

/-- The accumulators after one more operation. -/
theorem draftAt_succ (m : Nat) (v2 : Intent2) : draftAt intent s c r (m + 1) v2 =
    { intent := v2
      prevInStream := update (draftAt intent s c r m v2).prevInStream
        ((canonical intent s c r m).pass, (canonical intent s c r m).phase, (canonical intent s c r m).stream) (some m)
      storesOfPass :=
        if (canonical intent s c r m).phase = .store then
          update (draftAt intent s c r m v2).storesOfPass (canonical intent s c r m).pass
            ((draftAt intent s c r m v2).storesOfPass (canonical intent s c r m).pass ++ [(m : Int)])
        else (draftAt intent s c r m v2).storesOfPass
      loadsOfPass :=
        if (canonical intent s c r m).phase = .store then (draftAt intent s c r m v2).loadsOfPass
        else
          update (draftAt intent s c r m v2).loadsOfPass (canonical intent s c r m).pass
            ((draftAt intent s c r m v2).loadsOfPass (canonical intent s c r m).pass ++ [(m : Int)]) } := by
  unfold draftAt
  congr 1
  · funext key
    rw [range_succ, filter_append, update_apply]
    by_cases hkey : key = ((canonical intent s c r m).pass, (canonical intent s c r m).phase, (canonical intent s c r m).stream)
    · rw [if_pos hkey, filter_cons_of_pos (by simp [hkey]), filter_nil, getLast?_concat]
      rfl
    · rw [if_neg hkey, filter_cons_of_neg (by simpa using fun heq => hkey heq.symm), filter_nil, append_nil]
  · funext pass
    rw [range_succ, filter_append]
    by_cases hphase : (canonical intent s c r m).phase = .store
    · rw [if_pos hphase, update_apply]
      by_cases hpass : pass = (canonical intent s c r m).pass
      · rw [if_pos hpass, filter_cons_of_pos (by simp [hphase, hpass]), hpass, map_append]
        rfl
      · rw [if_neg hpass, filter_cons_of_neg (by simpa using fun _ heq => hpass heq.symm), filter_nil, append_nil]
    · rw [if_neg hphase, filter_cons_of_neg (by simp [hphase]), filter_nil, append_nil]
  · funext pass
    rw [range_succ, filter_append]
    by_cases hphase : (canonical intent s c r m).phase = .store
    · rw [if_pos hphase, filter_cons_of_neg (by simp [hphase]), filter_nil, append_nil]
    · rw [if_neg hphase, update_apply]
      by_cases hpass : pass = (canonical intent s c r m).pass
      · rw [if_pos hpass, filter_cons_of_pos (by simp [hphase, hpass]), hpass, map_append]
        rfl
      · rw [if_neg hpass, filter_cons_of_neg (by simpa using fun _ heq => hpass heq.symm), filter_nil, append_nil]

theorem normalizeStep_ok (m : Nat) (hobjects : ObjectsTo intent s c r m objects) :
    ∃ objects', normalizeStep (draftAt intent s c r m (carriedTo intent s c r m objects)) (canonical intent s c r m) =
        .ok (draftAt intent s c r (m + 1) (carriedTo intent s c r (m + 1) objects')) ∧
      ObjectsTo intent s c r (m + 1) objects' := by
  obtain ⟨objects', hwith, hobjects'⟩ := withObject_ok m hobjects
  refine ⟨objects', ?_, hobjects'⟩
  have hversion : (carriedTo intent s c r m objects').version? (objectAt s c r m) (.int 1) =
      some ⟨"v1-payload".toList, intent.payloadBytes⟩ := by
    rw [Intent2.version?]
    show (objects'.get (objectAt s c r m)).bind _ = _
    rw [hobjects', if_pos ⟨m, Nat.lt_succ_self m, rfl⟩]
    exact get_set_self _ _ _
  have hrequested : requestedOf (carriedTo intent s c r m objects') (phaseOf (block s c r m)) (objectAt s c r m) 1 none none =
      .ok intent.payloadBytes := by
    unfold phaseOf
    split
    · rw [requestedOf, hversion]
      rfl
      simp
    · rw [requestedOf, hversion]
      rfl
      simp
  rw [draftAt_succ, normalizeStep]
  show (withObject (carriedTo intent s c r m objects) (objectAt s c r m) >>= _) = _
  rw [hwith, ok_bind]
  show (addOperation (carriedTo intent s c r m objects') (opId m) (phaseOf (block s c r m)) (objectAt s c r m) 1 _ _ none _ >>= _) = _
  rw [addOperation, hrequested, ok_bind]
  have hrecord : ∀ operation : Operation, operation = carried intent s c r m →
      { carriedTo intent s c r m objects' with operations := (carriedTo intent s c r m objects').operations ++ [operation] } =
        carriedTo intent s c r (m + 1) objects' := by
    rintro _ rfl
    rw [carriedTo, carriedTo, range_succ, map_append]
    rfl
  simp only [pure_eq_ok, ok_bind]
  rw [hrecord]
  · rfl
  · rw [carried]
    congr 1
    show ((map (carried intent s c r) (range m)).length : Int) = m
    rw [length_map, length_range]

/-- The loop over the first operations. -/
theorem normalize_loop (intent : Intent1) (s c r m : Nat) : ∃ objects, ((List.range m).map (canonical intent s c r)).foldlM normalizeStep
      { intent := blank intent } = .ok (draftAt intent s c r m (carriedTo intent s c r m objects)) ∧
    ObjectsTo intent s c r m objects := by
  induction m with
  | zero => exact ⟨.empty, rfl, fun key => by simp⟩
  | succ m ih =>
    obtain ⟨objects, hloop, hobjects⟩ := ih
    obtain ⟨objects', hstep, hobjects'⟩ := normalizeStep_ok m hobjects
    refine ⟨objects', ?_, hobjects'⟩
    rw [range_succ, map_append, foldlM_append, hloop, ok_bind]
    show (normalizeStep _ _ >>= _) = _
    rw [hstep]
    rfl

/-! ## Names -/

theorem opId_inj (h : opId p = opId q) : p = q := by
  rw [opId, opId, printInt_natCast, printInt_natCast] at h
  exact print_injective (append_cancel_left h)

theorem logicalObject_eq (pass stream chunk rank : Nat) : logicalObject pass stream chunk rank =
    "pass=".toList ++ (Decimal.print pass ++ '/' :: ("stream=".toList ++ (Decimal.print stream ++ '/' :: ("chunk=".toList ++
      (Decimal.print chunk ++ '/' :: ("rank=".toList ++ Decimal.print rank)))))) := by
  delta logicalObject
  simp only [printInt_natCast, append_assoc]
  rfl

/-- Two places with one object are in the same pass and at the same place of their phases. -/
theorem objectAt_inj (h : objectAt s c r p = objectAt s c r q) : block s c r p / 2 = block s c r q / 2 ∧ p % perPhase s c r = q % perPhase s c r := by
  rw [objectAt, objectAt, logicalObject_eq, logicalObject_eq] at h
  obtain ⟨hpass, h⟩ := print_append_inj (by decide) (append_cancel_left h)
  obtain ⟨hstream, h⟩ := print_append_inj (by decide) (append_cancel_left h)
  obtain ⟨hchunk, h⟩ := print_append_inj (by decide) (append_cancel_left h)
  have hrank := print_injective (append_cancel_left h)
  refine ⟨hpass, ?_⟩
  have hwithin : p % perPhase s c r % perStream c r = q % perPhase s c r % perStream c r := by
    rw [← Nat.div_add_mod (p % perPhase s c r % perStream c r) r, hchunk, hrank, Nat.div_add_mod]
  unfold streamOf at hstream
  rw [← Nat.div_add_mod (p % perPhase s c r) (perStream c r), hstream, hwithin, Nat.div_add_mod]

/-- The object of a place is also that of the place one block earlier, in a load phase. -/
theorem objectAt_store (h : Shape intent s c r) (hodd : block s c r q % 2 = 1) :
    perPhase s c r ≤ q ∧ block s c r (q - perPhase s c r) + 1 = block s c r q ∧
      objectAt s c r (q - perPhase s c r) = objectAt s c r q := by
  have hle : perPhase s c r ≤ q := by
    by_contra hlt
    rw [block, Nat.div_eq_of_lt (Nat.lt_of_not_le hlt)] at hodd
    omega
  obtain ⟨p, rfl⟩ := Nat.exists_eq_add_of_le hle
  have hblock : block s c r (perPhase s c r + p) = block s c r p + 1 := Nat.add_div_left p (perPhase_pos h)
  rw [Nat.add_sub_cancel_left]
  refine ⟨hle, hblock.symm, ?_⟩
  have hpass : block s c r (perPhase s c r + p) / 2 = block s c r p / 2 := by omega
  simp only [objectAt, streamOf, hpass, Nat.add_mod_left]

/-! ## The record is valid -/

theorem objectAt_ne_nil (q : Nat) : objectAt s c r q ≠ [] := by
  rw [objectAt, logicalObject_eq]
  exact append_ne_nil_of_left_ne_nil (by decide) _

/-- What `normalize_v1` returns for the canonical operations. -/
def result (intent : Intent1) (s c r : Nat) (objects : Assoc Text Versions) : Intent2 :=
  finish intent (carriedTo intent s c r intent.operations.length objects)

theorem operations_result : (result intent s c r objects).operations = (List.range intent.operations.length).map (carried intent s c r) := rfl

/-- Where an operation stands in the list says which one it is and which ones are before it. -/
theorem split_range {α : Type} {f : Nat → α} {n : Nat} {before after : List α} {a : α} (h : (List.range n).map f = before ++ a :: after) :
    before.length < n ∧ a = f before.length ∧ before = (List.range before.length).map f := by
  have hlength := congrArg length h
  rw [length_map, length_range, length_append, length_cons] at hlength
  have hlt : before.length < n := by omega
  refine ⟨hlt, ?_, ?_⟩
  · have hget : ((range n).map f)[before.length]? = some a := by
      rw [h, getElem?_append_right (le_refl _), Nat.sub_self, getElem?_cons_zero]
    rw [getElem?_map, getElem?_range hlt] at hget
    exact (Option.some.inj hget).symm
  · have htake := congrArg (take before.length) h
    rw [← map_take, take_range, take_left, Nat.min_eq_left hlt.le] at htake
    exact htake.symm

/-- The stores so far are visible: nothing is ever released. -/
theorem stored_of_store {m : Nat} (hlt : p < m) (heven : block s c r p % 2 = 0) : versionKey (carried intent s c r p) ∈
      (seenAfter (result intent s c r objects) ((List.range m).map (carried intent s c r))).stored := by
  induction m with
  | zero => exact absurd hlt (Nat.not_lt_zero p)
  | succ m ih =>
    rw [range_succ, map_append, map_singleton, seenAfter_concat, Seen.next, visibleAfter]
    have hop : (carried intent s c r m).op = phaseOf (block s c r m) := rfl
    by_cases hm : block s c r m % 2 = 0
    · rw [hop, phaseOf_eq_store.mpr hm]
      rcases Nat.lt_succ_iff_lt_or_eq.mp hlt with hlt' | rfl
      · exact mem_cons_of_mem _ (ih hlt')
      · exact mem_cons_self
    · rw [hop, phaseOf_eq_load.mpr (by omega)]
      rcases Nat.lt_succ_iff_lt_or_eq.mp hlt with hlt' | rfl
      · exact ih hlt'
      · exact absurd heven hm

theorem accepts_carried (h : Shape intent s c r)
    (hobjects : ObjectsTo intent s c r intent.operations.length objects) (hq : q < intent.operations.length) :
    Accepts (result intent s c r objects)
      (seenAfter (result intent s c r objects) ((List.range q).map (carried intent s c r))) q (carried intent s c r q) where
  seq := rfl
  opId := append_ne_nil_of_left_ne_nil (by decide) _
  fresh := by
    rw [seenAfter_ids, map_map]
    intro hin
    obtain ⟨p, hp, heq⟩ := mem_map.mp hin
    obtain rfl : p = q := opId_inj heq
    exact absurd (mem_range.mp hp) (lt_irrefl _)
  version := by
    refine ⟨⟨"v1-payload".toList, intent.payloadBytes⟩, ?_, fun range hrange => by cases hrange⟩
    show (objects.get (objectAt s c r q)).bind _ = _
    rw [hobjects, if_pos ⟨q, hq, rfl⟩]
    exact get_set_self _ _ _
  requested := h.payload.le
  stream := by simp [carried]
  deps := by
    intro d hd
    obtain ⟨i, hi, rfl⟩ := mem_map.mp hd
    obtain ⟨p, rfl, -⟩ := (mem_depsAt h).mp hi
    rw [seenAfter_ids, map_map]
    exact mem_map.mpr ⟨p, mem_range.mpr (earlier_of_dep h hi).lt, rfl⟩
  outcome := fun outcome houtcome => by cases houtcome
  release := by
    refine ⟨fun release hrelease => (by cases hrelease), fun _ htiming => ?_⟩
    cases htiming
  delay := fun delay hdelay => by cases hdelay
  visible := by
    intro hload
    have hodd : block s c r q % 2 = 1 := phaseOf_eq_load.mp hload
    obtain ⟨hle, hblock, hobject⟩ := objectAt_store h hodd
    have hpos := perPhase_pos h
    have hbefore : q - perPhase s c r < q := by omega
    refine Or.inl ?_
    have hkey : versionKey (carried intent s c r q) = versionKey (carried intent s c r (q - perPhase s c r)) := by
      show (objectAt s c r q, _) = (objectAt s c r (q - perPhase s c r), _)
      rw [hobject]
      rfl
    rw [hkey]
    exact stored_of_store hbefore (by omega)

theorem valid_result (h : Shape intent s c r)
    (hobjects : ObjectsTo intent s c r intent.operations.length objects) : Intent2.Valid (result intent s c r objects) where
  provenance := rfl
  engine := ⟨show "lmcache-raw_block".toList ≠ [] by decide, show "vendored".toList ≠ [] by decide⟩
  represented := by
    show setEntry _ _ _ ≠ []
    simp [setEntry, newIntent, empty]
  representations := by
    intro entry hentry
    obtain rfl : entry = ("v1-payload".toList, ⟨"opaque".toList, intent.payloadBytes, none, [⟨"payload".toList, 0, intent.payloadBytes⟩]⟩) :=
      mem_singleton.mp hentry
    exact checkRepresentation_payload (by decide) (by decide) h.payload
  objects := by
    rintro ⟨key, value⟩ hentry
    have hget := get_eq_some_iff.mpr hentry
    have hkey := hobjects key
    rw [show objects.get key = some value from hget] at hkey
    split at hkey
    · rename_i hexists
      obtain ⟨q, -, rfl⟩ := hexists
      obtain rfl := Option.some.inj hkey
      have hrep : (result intent s c r objects).representations.get "v1-payload".toList =
          some ⟨"opaque".toList, intent.payloadBytes, none, [⟨"payload".toList, 0, intent.payloadBytes⟩]⟩ := get_set_self _ _ _
      simp only [checkObject, checkStr, ensure_of (objectAt_ne_nil (s := s) (c := c) (r := r) q), ok_bind]
      show (ensure ([((Version.int 1).text, (⟨"v1-payload".toList, intent.payloadBytes⟩ : ObjectVersion))] ≠ []) _ >>= fun _ =>
        checkAll [((Version.int 1).text, (⟨"v1-payload".toList, intent.payloadBytes⟩ : ObjectVersion))] _) = _
      rw [ensure_of (by simp), ok_bind, checkAll_eq_ok]
      intro entry hentry
      obtain rfl := mem_singleton.mp hentry
      have hdigits : Python.isDigits (Version.int 1).text = true := by decide
      simp only [checkVersion, ensure_of hdigits, ok_bind, hrep, require, ensure_of (show True from trivial)]
    · cases hkey
  live := fun item hitem => by cases hitem
  operations := by
    intro before operation after heq
    obtain ⟨hlt, rfl, hbefore⟩ := split_range heq
    have haccepts := accepts_carried h hobjects hlt
    rwa [← hbefore] at haccepts
  timing := fun htiming => by cases htiming

/-- The operations on an object are its store and its load, and the load depends on the store. -/
theorem linked_result (h : Shape intent s c r) (key : Text) :
    ((result intent s c r objects).operations.filter (fun operation => operation.objectId = key)).IsChain
      (fun a b => a.opId ∈ b.deps) := by
  have hpairwise : ((range intent.operations.length).map (carried intent s c r)).Pairwise
      (fun a b => a.objectId = b.objectId → a.opId ∈ b.deps) := by
    rw [pairwise_map]
    refine pairwise_lt_range.imp ?_
    intro p q hlt hobject
    obtain ⟨hpass, hmod⟩ := objectAt_inj hobject
    have hle := block_le (s := s) (c := c) (r := r) hlt.le
    have hne : block s c r p ≠ block s c r q := fun hblock => absurd (eq_of_place hblock hmod) hlt.ne
    exact mem_map.mpr ⟨p, (mem_depsAt h).mpr ⟨p, rfl, Or.inr (by omega)⟩, rfl⟩
  rw [operations_result]
  refine (Pairwise.imp_of_mem ?_ (hpairwise.filter _)).isChain
  intro a b ha hb hab
  have hakey := (mem_filter.mp ha).2
  have hbkey := (mem_filter.mp hb).2
  rw [decide_eq_true_eq] at hakey hbkey
  exact hab (hakey.trans hbkey.symm)

/-! ## The order of the record -/

theorem before_canonical {a b : Nat} : Intent1.Before (canonical intent s c r a) (canonical intent s c r b) ↔ Earlier s c r a b := by
  have hphase : phaseOf (block s c r a) = phaseOf (block s c r b) ↔ block s c r a % 2 = block s c r b % 2 := by
    unfold phaseOf
    split <;> split <;> simp <;> omega
  simp only [Intent1.Before, canonical, phaseOf_eq_store, phaseOf_eq_load, hphase, Earlier, Nat.cast_lt, Nat.cast_inj]
  omega

theorem ancestor_result (h : Shape intent s c r) {a b : Nat} (hb : b < intent.operations.length) :
    (result intent s c r objects).Ancestor (opId a) (opId b) ↔ Relation.TransGen (fun p q => (p : Int) ∈ depsAt intent s c r q) a b := by
  have hdep : ∀ {d : Text} {q : Nat}, q < intent.operations.length → ((result intent s c r objects).DependsOn d (opId q) ↔
      ∃ p : Nat, d = opId p ∧ (p : Int) ∈ depsAt intent s c r q) := by
    intro d q hq
    constructor
    · rintro ⟨operation, hmem, heq, hd⟩
      obtain ⟨q', -, rfl⟩ := mem_map.mp hmem
      obtain rfl : q' = q := opId_inj heq
      obtain ⟨i, hi, rfl⟩ := mem_map.mp hd
      obtain ⟨p, rfl, -⟩ := (mem_depsAt h).mp hi
      exact ⟨p, rfl, hi⟩
    · rintro ⟨p, rfl, hp⟩
      exact ⟨carried intent s c r q, mem_map.mpr ⟨q, mem_range.mpr hq, rfl⟩, rfl, mem_map.mpr ⟨p, hp, rfl⟩⟩
  constructor
  · intro hancestor
    -- Every text on the way is the id of a place.
    have hplaces : ∀ {y : Text}, (result intent s c r objects).Ancestor (opId a) y → ∀ q : Nat, q < intent.operations.length → y = opId q →
        Relation.TransGen (fun p q => (p : Int) ∈ depsAt intent s c r q) a q := by
      intro y hy
      induction hy with
      | single hedge =>
        rintro q hq rfl
        obtain ⟨p, hp, hin⟩ := (hdep hq).mp hedge
        obtain rfl := opId_inj hp
        exact .single hin
      | tail _ hedge ih =>
        rintro q hq rfl
        obtain ⟨p, rfl, hin⟩ := (hdep hq).mp hedge
        exact .tail (ih p ((earlier_of_dep h hin).lt.trans hq) rfl) hin
    exact hplaces hancestor b hb rfl
  · intro hancestor
    induction hancestor with
    | single hin => exact .single ((hdep hb).mpr ⟨a, rfl, hin⟩)
    | tail _ hin ih => exact .tail (ih ((earlier_of_dep h hin).lt.trans hb)) ((hdep hb).mpr ⟨_, rfl, hin⟩)

/-! ## The run -/

section Run

variable {H : ContentHost} {backend : FakeBackend} {objects : Assoc Text Versions}

/-- The objects that the target holds after the first operations, performed in their order. -/
def heldAfter (H : ContentHost) (backend : FakeBackend) (intent : Intent1) (s c r m : Nat) : Objects :=
  fun key version => if version = .int 1 ∧ ∃ q < m, block s c r q % 2 = 0 ∧ objectAt s c r q = key then
    some (backend.payload H key version 0 intent.payloadBytes.toNat) else none

theorem heldAfter_succ (m : Nat) (key : Text) (version : Version) : heldAfter H backend intent s c r (m + 1) key version =
    if version = .int 1 ∧ block s c r m % 2 = 0 ∧ objectAt s c r m = key then
      some (backend.payload H key version 0 intent.payloadBytes.toNat)
    else heldAfter H backend intent s c r m key version := by
  by_cases hnew : version = .int 1 ∧ block s c r m % 2 = 0 ∧ objectAt s c r m = key
  · rw [if_pos hnew, heldAfter, if_pos ⟨hnew.1, m, Nat.lt_succ_self m, hnew.2⟩]
  · rw [if_neg hnew, heldAfter, heldAfter]
    refine if_congr ?_ rfl rfl
    constructor
    · rintro ⟨hversion, q, hq, hstored⟩
      rcases Nat.lt_succ_iff_lt_or_eq.mp hq with hlt | rfl
      · exact ⟨hversion, q, hlt, hstored⟩
      · exact absurd ⟨hversion, hstored⟩ hnew
    · rintro ⟨hversion, q, hq, hstored⟩
      exact ⟨hversion, q, Nat.lt_succ_of_lt hq, hstored⟩

/-- An operation finds its object absent if it is a store, and with its content if it is a load. -/
theorem call_carried (h : Shape intent s c r) {q : Nat} (hfail : backend.fail (opId q) = none) :
    (carried intent s c r q).call H backend intent.payloadBytes.toNat (heldAfter H backend intent s c r q (objectAt s c r q)) =
      (⟨.success, intent.payloadBytes.toNat, []⟩, heldAfter H backend intent s c r (q + 1) (objectAt s c r q)) := by
  by_cases heven : block s c r q % 2 = 0
  · have hop : (carried intent s c r q).op = .store := phaseOf_eq_store.mpr heven
    have habsent : heldAfter H backend intent s c r q (objectAt s c r q) (.int 1) = none := by
      rw [heldAfter, if_neg]
      rintro ⟨-, p, hlt, heven', hobject⟩
      obtain ⟨hpass, hmod⟩ := objectAt_inj hobject
      exact absurd (eq_of_place (by omega) hmod) hlt.ne
    have hstored : update (heldAfter H backend intent s c r q (objectAt s c r q)) (.int 1)
        (some (backend.payload H (objectAt s c r q) (.int 1) 0 intent.payloadBytes.toNat)) =
          heldAfter H backend intent s c r (q + 1) (objectAt s c r q) := by
      funext version
      rw [heldAfter_succ, update_apply]
      by_cases hversion : version = .int 1
      · rw [if_pos hversion, if_pos ⟨hversion, heven, rfl⟩, hversion]
      · rw [if_neg hversion, if_neg (fun hnew => hversion hnew.1)]
    rw [Operation.call, hop]
    show backend.store (opId q) (.int 1) (backend.payload H (objectAt s c r q) (.int 1) 0 intent.payloadBytes.toNat)
      (heldAfter H backend intent s c r q (objectAt s c r q)) = _
    rw [FakeBackend.store, hfail]
    simp only [habsent, hstored, FakeBackend.length_payload]
    rfl
  · have hodd : block s c r q % 2 = 1 := by omega
    have hop : (carried intent s c r q).op = .load := phaseOf_eq_load.mpr hodd
    obtain ⟨hle, hblock, hobject⟩ := objectAt_store h hodd
    have hpos := perPhase_pos h
    have hstored : heldAfter H backend intent s c r q (objectAt s c r q) (.int 1) =
        some (backend.payload H (objectAt s c r q) (.int 1) 0 intent.payloadBytes.toNat) := by
      rw [heldAfter, if_pos ⟨rfl, q - perPhase s c r, by omega, by omega, hobject⟩]
    have hsame : heldAfter H backend intent s c r (q + 1) (objectAt s c r q) =
        heldAfter H backend intent s c r q (objectAt s c r q) := by
      funext version
      rw [heldAfter_succ, if_neg (fun hnew => heven hnew.2.1)]
    rw [Operation.call, hop, hsame]
    show (backend.load H (opId q) (objectAt s c r q) (.int 1) (Int.toNat 0) (intent.payloadBytes.toNat : Int).toNat _, _) = _
    rw [Int.toNat_natCast, FakeBackend.load_payload H backend hfail hstored (by simp)]

theorem act_carried (hvalid : Intent2.Valid (result intent s c r objects))
    (hobjects : ObjectsTo intent s c r intent.operations.length objects) {q : Nat} (hq : q < intent.operations.length)
    (cancelledSkip : Bool) (versions : Version → Option Bytes) :
    (result intent s c r objects).act H backend cancelledSkip (opId q) versions =
      (carried intent s c r q).call H backend intent.payloadBytes.toNat versions := by
  have hmem : carried intent s c r q ∈ (result intent s c r objects).operations :=
    mem_map.mpr ⟨q, mem_range.mpr hq, rfl⟩
  have hversion : (result intent s c r objects).version? (objectAt s c r q) (.int 1) =
      some ⟨"v1-payload".toList, intent.payloadBytes⟩ := by
    show (objects.get (objectAt s c r q)).bind _ = _
    rw [hobjects, if_pos ⟨q, hq, rfl⟩]
    exact get_set_self _ _ _
  have hsize : (result intent s c r objects).sizeOf (carried intent s c r q) = intent.payloadBytes.toNat := by
    show ((result intent s c r objects).version? (objectAt s c r q) (.int 1)).elim 0 _ = _
    rw [hversion]
    rfl
  rw [Intent2.act, show opId q = (carried intent s c r q).opId from rfl, ObjectRunAux.find_operation hvalid hmem]
  dsimp only
  rw [if_neg (fun hskip => by cases hskip.2), hsize]

/-- Performing the first operations in their order. -/
theorem run_carried (h : Shape intent s c r) (hvalid : Intent2.Valid (result intent s c r objects))
    (hobjects : ObjectsTo intent s c r intent.operations.length objects) (hfail : ∀ opId, backend.fail opId = none)
    (cancelledSkip : Bool) {m : Nat} (hm : m ≤ intent.operations.length) :
    Cells.run (result intent s c r objects).objectOf ((result intent s c r objects).act H backend cancelledSkip)
      ((List.range m).map (fun q : Nat => opId q)) (fun _ _ => none) = heldAfter H backend intent s c r m := by
  induction m with
  | zero =>
    funext key version
    rw [heldAfter, if_neg (by simp)]
    rfl
  | succ m ih =>
    have hmem : carried intent s c r m ∈ (result intent s c r objects).operations :=
      mem_map.mpr ⟨m, mem_range.mpr hm, rfl⟩
    have hobject : (result intent s c r objects).objectOf (opId m) = objectAt s c r m := ObjectRunAux.objectOf_eq hvalid hmem
    rw [range_succ, map_append, map_singleton, Cells.run_concat, ih (by omega), Cells.step, hobject,
      act_carried hvalid hobjects hm, call_carried h (hfail _)]
    funext key
    dsimp only
    rw [update_apply]
    by_cases hkey : key = objectAt s c r m
    · rw [if_pos hkey, hkey]
    · rw [if_neg hkey]
      funext version
      rw [heldAfter_succ, if_neg (fun hnew => hkey hnew.2.2.symm)]

/-- Every operation succeeds with the whole payload. -/
theorem result_carried (h : Shape intent s c r) (hvalid : Intent2.Valid (result intent s c r objects))
    (hobjects : ObjectsTo intent s c r intent.operations.length objects) (hfail : ∀ opId, backend.fail opId = none)
    (cancelledSkip : Bool) {q : Nat} (hq : q < intent.operations.length) :
    Cells.result (result intent s c r objects).objectOf ((result intent s c r objects).act H backend cancelledSkip) (opId q)
      ((result intent s c r objects).operations.map Operation.opId) (fun _ _ => none) =
        some ⟨.success, intent.payloadBytes.toNat, []⟩ := by
  have hmem : carried intent s c r q ∈ (result intent s c r objects).operations :=
    mem_map.mpr ⟨q, mem_range.mpr hq, rfl⟩
  have hobject : (result intent s c r objects).objectOf (opId q) = objectAt s c r q := ObjectRunAux.objectOf_eq hvalid hmem
  obtain ⟨after, hsplit⟩ : ∃ after, range intent.operations.length = range q ++ q :: after := by
    obtain ⟨rest, hrest⟩ := Nat.exists_eq_add_of_le (Nat.succ_le_of_lt hq)
    refine ⟨(range rest).map (q + 1 + ·), ?_⟩
    rw [hrest, range_add, range_succ, append_assoc]
    rfl
  have hfresh : opId q ∉ (range q).map (fun p : Nat => opId p) := by
    intro hin
    obtain ⟨p, hp, heq⟩ := mem_map.mp hin
    obtain rfl := opId_inj heq
    exact absurd (mem_range.mp hp) (lt_irrefl _)
  have hids : (result intent s c r objects).operations.map Operation.opId =
      (range q).map (fun p : Nat => opId p) ++ opId q :: after.map (fun p : Nat => opId p) := by
    rw [operations_result, map_map, hsplit, map_append, map_cons]
    rfl
  rw [hids, Cells.result_split hfresh, run_carried h hvalid hobjects hfail cancelledSkip hq.le, hobject,
    act_carried hvalid hobjects hq, call_carried h (hfail _)]

end Run

end Intent1Aux

open Intent1Aux

/-- The stages of `normalize_v1` on a valid record. -/
theorem normalizeV1_eq {intent : Intent1} (hvalid : validateIntent intent = .ok ()) : ∃ s c r objects, Shape intent s c r ∧
    intent.operations = (List.range intent.operations.length).map (canonical intent s c r) ∧
    ObjectsTo intent s c r intent.operations.length objects ∧ Intent2.Valid (result intent s c r objects) ∧
    normalizeV1 intent = .ok (result intent s c r objects) := by
  obtain ⟨s, c, r, hshape, hoperations⟩ := operations_eq hvalid
  obtain ⟨objects, hloop, hobjects⟩ := normalize_loop intent s c r intent.operations.length
  rw [← hoperations] at hloop
  have hvalid' := valid_result hshape hobjects
  refine ⟨s, c, r, objects, hshape, hoperations, hobjects, hvalid', ?_⟩
  rw [normalizeV1, hvalid, ok_bind, hloop, ok_bind]
  show (validateIntent2 (result intent s c r objects) >>= _) = _
  rw [validateIntent2_eq_ok (u := ()) |>.mpr hvalid', ok_bind]
  rfl

end EbpfSyscall.Kvio
