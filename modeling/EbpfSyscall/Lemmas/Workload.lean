import EbpfSyscall.Ir.Workload

/-!
# What an accepted workload satisfies

`validateWorkload` accepts a workload exactly when it has schema 1, the block size is a power of two, the constraints are whole
blocks, and the commands are numbered from zero, in order of time, each fitting the blocks and the constraints
(`validateWorkload_eq_ok`).
-/

namespace EbpfSyscall

open Checked

/-! ## One command -/

/-- A data command is a nonempty run of whole blocks that ends inside the region and within the transfer limit; a sync carries
no extent. -/
structure CommandFits (lbaBytes : UInt64) (constraints : Constraints) (command : Command) : Prop where
  nonempty : command.op.isData = true → command.lengthBytes ≠ 0
  offsetAligned : command.op.isData = true → lbaBytes.toNat ∣ command.offsetBytes.toNat
  lengthAligned : command.op.isData = true → lbaBytes.toNat ∣ command.lengthBytes.toNat
  noOverflow : command.op.isData = true → command.offsetBytes.toNat + command.lengthBytes.toNat < 2 ^ 64
  inRegion : command.op.isData = true → ∀ region, constraints.regionBytes = some region →
    command.offsetBytes.toNat + command.lengthBytes.toNat ≤ region.toNat
  inLimit : command.op.isData = true → ∀ limit, constraints.maxTransferBytes = some limit →
    command.lengthBytes.toNat ≤ limit.toNat
  syncZero : command.op.isData = false → command.offsetBytes = 0 ∧ command.lengthBytes = 0

/-- A transfer limit the verifier takes: a positive number of blocks. -/
def LimitOk (lbaBytes : UInt64) (constraints : Constraints) : Prop :=
  ∀ limit, constraints.maxTransferBytes = some limit → limit ≠ 0 ∧ lbaBytes.toNat ∣ limit.toNat

/-- A device region the verifier takes: a positive number of blocks. -/
def RegionOk (lbaBytes : UInt64) (constraints : Constraints) : Prop :=
  ∀ region, constraints.regionBytes = some region → region ≠ 0 ∧ lbaBytes.toNat ∣ region.toNat

namespace WorkloadAux

theorem isMultipleOf_iff (a b : UInt64) : Rust.isMultipleOf a b = true ↔ b.toNat ∣ a.toNat := by
  rw [Rust.isMultipleOf, beq_iff_eq, Nat.dvd_iff_mod_eq_zero]

theorem checkedAdd_eq_some {a b s : UInt64} : Rust.checkedAdd a b = some s ↔ a.toNat + b.toNat < 2 ^ 64 ∧ s.toNat = a.toNat + b.toNat := by
  unfold Rust.checkedAdd
  split
  · rename_i h
    have hs : (a + b).toNat = a.toNat + b.toNat := by
      rw [UInt64.toNat_add, Nat.mod_eq_of_lt h]
    rw [Option.some.injEq, ← UInt64.toNat_inj, hs]
    exact ⟨fun e => ⟨h, e.symm⟩, fun e => e.2.symm⟩
  · rename_i h
    exact ⟨fun e => absurd e (Option.some_ne_none s).symm, fun e => absurd e.1 h⟩

variable {lbaBytes : UInt64} {constraints : Constraints} {i : Nat} {previous : Option UInt64}

theorem validateTransferLimit_eq_ok {limit : UInt64} {u : Unit} :
    validateTransferLimit limit lbaBytes = .ok u ↔ limit ≠ 0 ∧ lbaBytes.toNat ∣ limit.toNat := by
  rw [validateTransferLimit, ensure_eq_ok, isMultipleOf_iff]

theorem validateLba_eq_ok {u : Unit} : validateLba lbaBytes = .ok u ↔ lbaBytes.toNat.isPowerOfTwo := by
  rw [validateLba, ensure_eq_ok, Rust.isPowerOfTwo, decide_eq_true_eq]
  constructor
  · exact fun h => h.2
  · intro h
    refine ⟨?_, h⟩
    rintro rfl
    exact Nat.not_isPowerOfTwo_zero h

/-- A command passes its check exactly when it has its place's number and fits (and, for a data command, the transfer limit
is one the verifier takes). -/
theorem validateCommand_eq_ok {command : Command} {u : Unit} : validateCommand command i lbaBytes constraints = .ok u ↔
      command.seq.toNat = i ∧ CommandFits lbaBytes constraints command ∧
        (command.op.isData = true → LimitOk lbaBytes constraints) := by
  unfold validateCommand
  rw [check_bind_eq_ok, ensure_eq_ok]
  refine and_congr_right fun _ => ?_
  cases hd : command.op.isData with
  | false =>
    simp only [if_true, ensure_eq_ok]
    constructor
    · intro h
      refine ⟨?_, by simp⟩
      constructor <;> simp [hd, h]
    · exact fun h => h.1.syncZero hd
  | true =>
    simp only [Bool.true_eq_false, if_false, check_bind_eq_ok, whenSome_eq_ok, ensure_eq_ok, isMultipleOf_iff,
      validateTransferLimit_eq_ok, UInt64.le_iff_toNat_le]
    simp only [bind_eq_ok, require_eq_ok, checkedAdd_eq_some, whenSome_eq_ok, ensure_eq_ok]
    constructor
    · rintro ⟨hne, ⟨ho, hl⟩, hlim, stop, ⟨hov, hstop⟩, hreg⟩
      refine ⟨⟨fun _ => hne, fun _ => ho, fun _ => hl, fun _ => hov, fun _ r hr => ?_, fun _ l h => ?_, ?_⟩, fun _ l h => ?_⟩
      · have := hreg r hr
        omega
      · exact (hlim l h).2
      · intro hf
        rw [hd] at hf
        cases hf
      · exact (hlim l h).1
    · rintro ⟨hf, hlim⟩
      have hov := hf.noOverflow hd
      have hstop : (command.offsetBytes + command.lengthBytes).toNat =
          command.offsetBytes.toNat + command.lengthBytes.toNat := by
        rw [UInt64.toNat_add, Nat.mod_eq_of_lt hov]
      refine ⟨hf.nonempty hd, ⟨hf.offsetAligned hd, hf.lengthAligned hd⟩, fun l h => ⟨hlim trivial l h, hf.inLimit hd l h⟩,
        command.offsetBytes + command.lengthBytes, ⟨hov, hstop⟩, fun r hr => ?_⟩
      rw [hstop]
      exact hf.inRegion hd r hr

/-! ## The loop -/

/-- The commands from place `i` on, after a command at `previous`: numbered, fitting, and in order of time. -/
def Accepted (lbaBytes : UInt64) (constraints : Constraints) (i : Nat) (previous : Option UInt64)
    (commands : List Command) : Prop :=
  (∀ j c, commands[j]? = some c →
    c.seq.toNat = i + j ∧ CommandFits lbaBytes constraints c ∧ (c.op.isData = true → LimitOk lbaBytes constraints)) ∧
  (∀ before, previous = some before → ∀ c ∈ commands.head?, before ≤ c.atNs) ∧
  commands.IsChain (fun a b => a.atNs ≤ b.atNs)

theorem accepted_nil : Accepted lbaBytes constraints i previous [] := by
  refine ⟨?_, ?_, ?_⟩ <;> simp

theorem accepted_cons {c : Command} {cs : List Command} : Accepted lbaBytes constraints i previous (c :: cs) ↔
      (c.seq.toNat = i ∧ CommandFits lbaBytes constraints c ∧ (c.op.isData = true → LimitOk lbaBytes constraints)) ∧
      (∀ before, previous = some before → before ≤ c.atNs) ∧ Accepted lbaBytes constraints (i + 1) (some c.atNs) cs := by
  unfold Accepted
  rw [List.isChain_cons]
  constructor
  · rintro ⟨h1, h2, h3, h4⟩
    refine ⟨by simpa using h1 0 c rfl, fun b hb => h2 b hb c (by simp), fun j d hd => ?_, ?_, h4⟩
    · have := h1 (j + 1) d (by simpa using hd)
      rw [Nat.add_assoc, Nat.add_comm 1]
      exact this
    · intro b hb
      obtain rfl := Option.some.inj hb
      exact h3
  · rintro ⟨h1, h2, h3, h4, h5⟩
    refine ⟨fun j d hd => ?_, fun b hb d hd => ?_, h4 _ rfl, h5⟩
    · cases j with
      | zero =>
        obtain rfl : c = d := by simpa using hd
        simpa using h1
      | succ j =>
        have := h3 j d (by simpa using hd)
        rw [Nat.add_assoc, Nat.add_comm 1] at this
        exact this
    · obtain rfl : c = d := by simpa using hd
      exact h2 b hb

/-- One round of the loop accepts the command exactly when it passes its check and does not go back in time. -/
theorem validateNext_eq_ok {r : Option UInt64} {c : Command} : validateNext lbaBytes constraints previous i c = .ok r ↔
      (c.seq.toNat = i ∧ CommandFits lbaBytes constraints c ∧ (c.op.isData = true → LimitOk lbaBytes constraints)) ∧
      (∀ before, previous = some before → before ≤ c.atNs) ∧ some c.atNs = r := by
  simp only [validateNext, check_bind_eq_ok, ensure_eq_ok, validateCommand_eq_ok, pure_eq_ok, Except.ok.injEq,
    Option.all_eq_true, decide_eq_true_eq]

/-- The loop accepts exactly the commands that are numbered, fitting and in order of time. -/
theorem foldFrom_validateNext (lbaBytes : UInt64) (constraints : Constraints) (commands : List Command) (i : Nat) (previous : Option UInt64) :
    (∃ last, foldFrom (validateNext lbaBytes constraints) i previous commands = .ok last) ↔
      Accepted lbaBytes constraints i previous commands := by
  induction commands generalizing i previous with
  | nil => simp [accepted_nil]
  | cons c cs ih =>
    rw [accepted_cons, ← ih]
    simp only [foldFrom_cons, bind_eq_ok, validateNext_eq_ok]
    constructor
    · rintro ⟨last, _, ⟨h1, h2, rfl⟩, h3⟩
      exact ⟨h1, h2, last, h3⟩
    · rintro ⟨h1, h2, last, h3⟩
      exact ⟨last, _, ⟨h1, h2, rfl⟩, h3⟩

end WorkloadAux

open WorkloadAux

/-! ## The workload -/

/-- What the verifier accepts as a workload. -/
structure WorkloadOk (workload : Workload) (lbaBytes : UInt64) (constraints : Constraints) : Prop where
  schema : workload.schemaVersion = 1
  lba : lbaBytes.toNat.isPowerOfTwo
  region : RegionOk lbaBytes constraints
  limit : LimitOk lbaBytes constraints
  numbered : ∀ (i : Nat) (c : Command), workload.commands[i]? = some c → c.seq.toNat = i
  fits : ∀ c ∈ workload.commands, CommandFits lbaBytes constraints c
  ordered : workload.commands.Pairwise (fun a b => a.atNs ≤ b.atNs)

theorem validateWorkload_eq_ok {workload : Workload} {lbaBytes : UInt64} {constraints : Constraints} {u : Unit} :
    validateWorkload workload lbaBytes constraints = .ok u ↔ WorkloadOk workload lbaBytes constraints := by
  have : Trans (fun a b : Command => a.atNs ≤ b.atNs) (fun a b : Command => a.atNs ≤ b.atNs)
      (fun a b : Command => a.atNs ≤ b.atNs) := ⟨fun h h' => UInt64.le_trans h h'⟩
  have hloop := foldFrom_validateNext lbaBytes constraints workload.commands 0 none
  unfold validateWorkload
  simp only [check_bind_eq_ok, validateLba_eq_ok, whenSome_eq_ok, ensure_eq_ok, isMultipleOf_iff,
    validateTransferLimit_eq_ok, pure_eq_ok]
  rw [bind_eq_ok]
  constructor
  · rintro ⟨hs, hl, hr, hlim, last, hf, -⟩
    obtain ⟨h1, -, h3⟩ := hloop.mp ⟨last, hf⟩
    refine ⟨hs, hl, hr, hlim, fun i c hc => ?_, fun c hc => ?_, List.isChain_iff_pairwise.mp h3⟩
    · simpa using (h1 i c hc).1
    · obtain ⟨i, hi⟩ := List.mem_iff_getElem?.mp hc
      exact (h1 i c hi).2.1
  · intro h
    have hacc : Accepted lbaBytes constraints 0 none workload.commands := by
      refine ⟨fun j c hc => ?_, by simp, List.isChain_iff_pairwise.mpr h.ordered⟩
      exact ⟨by simpa using h.numbered j c hc, h.fits c (List.mem_of_getElem? hc), fun _ => h.limit⟩
    obtain ⟨last, hf⟩ := hloop.mpr hacc
    exact ⟨h.schema, h.lba, h.region, h.limit, last, hf, rfl⟩

/-- A workload that fits blocks and constraints fits bytes without constraints: what the emitter checks again. -/
theorem WorkloadOk.toBytes {workload : Workload} {lbaBytes : UInt64} {constraints : Constraints}
    (h : WorkloadOk workload lbaBytes constraints) : WorkloadOk { workload with schemaVersion := 1 } 1 {} := by
  refine ⟨rfl, Nat.isPowerOfTwo_one, by simp [RegionOk], by simp [LimitOk], h.numbered, fun c hc => ?_, h.ordered⟩
  have hf := h.fits c hc
  exact ⟨hf.nonempty, by simp, by simp, hf.noOverflow, by simp, by simp, hf.syncZero⟩

end EbpfSyscall
