import EbpfSyscall.Smoke.Workload

/-!
# Slots and sequence numbers of the smoke test

Every slot is free or belongs to one command in flight, in every state. The free list is a queue that starts with all slots in order, so
the first `slots` commands touch each slot once. When the loop ends without a fatal error every command has completed, and then the
checks at the end hold.
-/

namespace EbpfSyscall.Smoke

open Checked List Function

/-- The stages that would mean that the accounting of the slots went wrong. -/
def FatalStage.Accounting : FatalStage → Prop
  | .takeFreeSlot | .cqeSlotOwnership | .releaseFreeSlot | .freeSlotAccounting | .slotStillInflight | .touchedSlotValidation => True
  | _ => False

/-- The command with this sequence number has been submitted and has not completed. -/
def State.InFlight (s : State) (sequence : Nat) : Prop := sequence ∈ s.issued ∧ sequence ∉ s.done

namespace WorkloadAux

/-! ## The slots -/

/-- The part of the state that accounts for slots and sequence numbers. -/
structure Accounts where
  submitted : Nat
  completed : Nat
  touchedSlots : Nat
  touched : Nat → Bool
  commandSlots : Nat → Nat
  slotBusy : Nat → Bool
  freeSlots : FreeSlotQueue
  issued : List Nat
  done : List Nat

def accounts (s : State) : Accounts :=
  ⟨s.submitted, s.completed, s.touchedSlots, s.touched, s.commandSlots, s.slotBusy, s.freeSlots, s.issued, s.done⟩

def InFlight (c : Accounts) (sequence : Nat) : Prop := sequence ∈ c.issued ∧ sequence ∉ c.done

structure SlotInv (count qd slots : Nat) (c : Accounts) : Prop where
  issued : c.issued = List.range c.submitted
  submitted_le : c.submitted ≤ count
  done_nodup : c.done.Nodup
  done_lt : ∀ sequence ∈ c.done, sequence < c.submitted
  completed : c.done.length = c.completed
  outstanding : c.submitted ≤ c.completed + qd
  queue : c.freeSlots.WellFormed
  capacity : c.freeSlots.capacity = slots
  nodup : c.freeSlots.contents.Nodup
  free : ∀ slot, slot ∈ c.freeSlots.contents ↔ slot < slots ∧ c.slotBusy slot = false
  owner : ∀ slot, c.slotBusy slot = true ↔ ∃ sequence, InFlight c sequence ∧ c.commandSlots sequence = slot
  bound : ∀ sequence, InFlight c sequence → c.commandSlots sequence < slots
  distinct : ∀ a b, InFlight c a → InFlight c b → c.commandSlots a = c.commandSlots b → a = b
  /-- The slots that have not been used yet are at the front. -/
  fresh : ∃ rest, c.freeSlots.contents = List.range' c.submitted (slots - c.submitted) ++ rest
  touched : ∀ slot, c.touched slot = true ↔ slot < min c.submitted slots
  touchedSlots : c.touchedSlots = min c.submitted slots

theorem slotInv_start (opts : Options) : SlotInv opts.count.toNat opts.qd.toNat opts.slots.toNat (accounts (State.start opts)) := by
  have hcontents : (freeSlotQueueInit opts.slots.toNat).contents = range opts.slots.toNat := by
    rw [Ring.Counted.contents, freeSlotQueueInit]
    conv_rhs => rw [← map_id (range opts.slots.toNat)]
    refine map_congr_left fun i hi => ?_
    rw [Nat.zero_add, Nat.mod_eq_of_lt (mem_range.mp hi)]
    rfl
  have hfree : (accounts (State.start opts)).freeSlots = freeSlotQueueInit opts.slots.toNat := rfl
  refine ⟨rfl, Nat.zero_le _, nodup_nil, by simp [accounts, State.start], rfl, Nat.zero_le _, ?_, rfl, ?_, ?_, ?_, ?_, ?_, ?_, ?_, ?_⟩
  · refine ⟨le_rfl, fun h => h, fun _ => ?_⟩
    change 0 = (0 + opts.slots.toNat) % opts.slots.toNat
    simp
  · rw [hfree, hcontents]
    exact nodup_range
  · intro slot
    rw [hfree, hcontents, mem_range]
    exact (and_iff_left rfl).symm
  · intro slot
    simp [accounts, State.start, InFlight]
  · intro sequence hflight
    exact absurd hflight.1 not_mem_nil
  · intro a b ha
    exact absurd ha.1 not_mem_nil
  · refine ⟨[], ?_⟩
    rw [hfree, hcontents, append_nil]
    exact range_eq_range'
  · intro slot
    simp [accounts, State.start]
  · simp [accounts, State.start]

section Moves

variable {count qd slots : Nat} {c : Accounts}

/-- A command takes the first free slot. -/
def Accounts.take (c : Accounts) (slot : Nat) (freeSlots : FreeSlotQueue) : Accounts :=
  { c with
    submitted := c.submitted + 1
    touchedSlots := if c.touched slot = true then c.touchedSlots else c.touchedSlots + 1
    touched := Function.update c.touched slot true
    commandSlots := Function.update c.commandSlots c.submitted slot
    slotBusy := Function.update c.slotBusy slot true
    freeSlots
    issued := c.issued ++ [c.submitted] }

/-- A command completes and gives its slot back. -/
def Accounts.release (c : Accounts) (sequence : Nat) (freeSlots : FreeSlotQueue) : Accounts :=
  { c with
    completed := c.completed + 1
    slotBusy := Function.update c.slotBusy (c.commandSlots sequence) false
    freeSlots
    done := c.done ++ [sequence] }

theorem completed_le (h : SlotInv count qd slots c) : c.completed ≤ c.submitted := by
  have hsubset : c.done ⊆ range c.submitted := fun x hx => mem_range.mpr (h.done_lt x hx)
  have hle := (subperm_of_subset h.done_nodup hsubset).length_le
  rw [length_range, h.completed] at hle
  exact hle

theorem inFlight_iff (h : SlotInv count qd slots c) (sequence : Nat) : InFlight c sequence ↔ sequence < c.submitted ∧ sequence ∉ c.done := by
  rw [InFlight, h.issued, mem_range]

theorem inFlight_take (h : SlotInv count qd slots c) (slot : Nat) (freeSlots : FreeSlotQueue) (sequence : Nat) :
    InFlight (c.take slot freeSlots) sequence ↔ InFlight c sequence ∨ sequence = c.submitted := by
  have hnew : c.submitted ∉ c.done := fun hmem => lt_irrefl _ (h.done_lt _ hmem)
  change sequence ∈ c.issued ++ [c.submitted] ∧ sequence ∉ c.done ↔ _
  rw [mem_append, mem_singleton, InFlight]
  constructor
  · intro hand
    rcases hand with ⟨hold | rfl, hnot⟩
    · exact .inl ⟨hold, hnot⟩
    · exact .inr rfl
  · intro hor
    rcases hor with ⟨hold, hnot⟩ | rfl
    · exact ⟨.inl hold, hnot⟩
    · exact ⟨.inr rfl, hnew⟩

/-- The touched slots after a take: a new slot as long as there is one. -/
theorem touched_take (h : SlotInv count qd slots c) {slot : Nat} {rest : List Nat} (hcontents : c.freeSlots.contents = slot :: rest)
    (freeSlots : FreeSlotQueue) (hrest : freeSlots.contents = rest) :
    (∃ more, freeSlots.contents = List.range' (c.submitted + 1) (slots - (c.submitted + 1)) ++ more) ∧
      (∀ x, (c.take slot freeSlots).touched x = true ↔ x < min (c.submitted + 1) slots) ∧
      (c.take slot freeSlots).touchedSlots = min (c.submitted + 1) slots := by
  obtain ⟨more, hmore⟩ := h.fresh
  have hupdate : ∀ x, update c.touched slot true x = true ↔ x = slot ∨ x < min c.submitted slots := by
    intro x
    by_cases hx : x = slot
    · subst hx
      simp
    · rw [update_of_ne hx, h.touched x]
      exact (or_iff_right hx).symm
  have hcount : (c.take slot freeSlots).touchedSlots = if c.touched slot = true then c.touchedSlots else c.touchedSlots + 1 := rfl
  by_cases hnew : c.submitted < slots
  · -- The next slot of the initial order.
    obtain ⟨n, hn⟩ : ∃ n, slots - c.submitted = n + 1 := ⟨slots - c.submitted - 1, by omega⟩
    rw [hcontents, hn, range'_succ, cons_append] at hmore
    obtain ⟨rfl, htail⟩ := cons.inj hmore
    have huntouched : ¬c.touched c.submitted = true := by
      rw [h.touched]
      omega
    refine ⟨⟨more, ?_⟩, ?_, ?_⟩
    · rw [hrest, htail]
      congr 2
      omega
    · intro x
      rw [Accounts.take, hupdate]
      omega
    · rw [hcount, if_neg huntouched, h.touchedSlots]
      omega
  · -- All slots have been touched before.
    have hslot : slot < slots := ((h.free slot).mp (by rw [hcontents]; exact mem_cons_self ..)).1
    have htouched : c.touched slot = true := (h.touched slot).mpr (by omega)
    refine ⟨⟨rest, ?_⟩, ?_, ?_⟩
    · rw [hrest, Nat.sub_eq_zero_of_le (by omega)]
      rfl
    · intro x
      rw [Accounts.take, hupdate]
      omega
    · rw [hcount, if_pos htouched, h.touchedSlots]
      omega

theorem slotInv_take (h : SlotInv count qd slots c) (hcount : c.submitted < count) (hqd : c.submitted - c.completed < qd) {slot : Nat}
    {rest : List Nat} (hcontents : c.freeSlots.contents = slot :: rest) {freeSlots : FreeSlotQueue} (hqueue : freeSlots.WellFormed)
    (hcapacity : freeSlots.capacity = slots) (hrest : freeSlots.contents = rest) : SlotInv count qd slots (c.take slot freeSlots) := by
  have hmem : slot ∈ c.freeSlots.contents := by
    rw [hcontents]
    exact mem_cons_self ..
  obtain ⟨hslot, hidle⟩ := (h.free slot).mp hmem
  have hnodup := h.nodup
  rw [hcontents, nodup_cons] at hnodup
  have hflight := inFlight_take h slot freeSlots
  have hold : ∀ sequence, InFlight c sequence → (c.take slot freeSlots).commandSlots sequence = c.commandSlots sequence := by
    intro sequence hin
    have hne : sequence ≠ c.submitted := (((inFlight_iff h sequence).mp hin).1).ne
    exact update_of_ne hne _ _
  have hnew : (c.take slot freeSlots).commandSlots c.submitted = slot := update_self ..
  obtain ⟨hfresh, htouched, htouchedSlots⟩ := touched_take h hcontents freeSlots hrest
  constructor
  case issued =>
    change c.issued ++ [c.submitted] = range (c.submitted + 1)
    rw [h.issued, range_succ]
  case submitted_le => exact hcount
  case done_nodup => exact h.done_nodup
  case done_lt => exact fun sequence hin => (h.done_lt sequence hin).trans (Nat.lt_succ_self _)
  case completed => exact h.completed
  case outstanding =>
    change c.submitted + 1 ≤ c.completed + qd
    omega
  case queue => exact hqueue
  case capacity => exact hcapacity
  case nodup =>
    change freeSlots.contents.Nodup
    rw [hrest]
    exact hnodup.2
  case free =>
    intro x
    change x ∈ freeSlots.contents ↔ x < slots ∧ update c.slotBusy slot true x = false
    rw [hrest]
    by_cases hx : x = slot
    · subst hx
      rw [update_self]
      exact iff_of_false hnodup.1 (by simp)
    · rw [update_of_ne hx, ← h.free x, hcontents, mem_cons, or_iff_right hx]
  case owner =>
    intro x
    change update c.slotBusy slot true x = true ↔ _
    by_cases hx : x = slot
    · subst hx
      rw [update_self]
      exact iff_of_true rfl ⟨c.submitted, (hflight _).mpr (.inr rfl), hnew⟩
    · rw [update_of_ne hx, h.owner x]
      constructor
      · intro ⟨sequence, hin, heq⟩
        exact ⟨sequence, (hflight sequence).mpr (.inl hin), (hold sequence hin).trans heq⟩
      · intro ⟨sequence, hin, heq⟩
        rcases (hflight sequence).mp hin with hin | rfl
        · exact ⟨sequence, hin, (hold sequence hin).symm.trans heq⟩
        · exact absurd (heq.symm.trans hnew) hx
  case bound =>
    intro sequence hin
    rcases (hflight sequence).mp hin with hin | rfl
    · rw [hold sequence hin]
      exact h.bound sequence hin
    · rw [hnew]
      exact hslot
  case distinct =>
    -- The slot of the new command was free, so no other command has it.
    have hother : ∀ a, InFlight c a → c.commandSlots a ≠ slot := by
      intro a ha heq
      have hbusy := (h.owner slot).mpr ⟨a, ha, heq⟩
      rw [hidle] at hbusy
      cases hbusy
    intro a b ha hb heq
    rcases (hflight a).mp ha with ha | rfl
    · rcases (hflight b).mp hb with hb | rfl
      · rw [hold a ha, hold b hb] at heq
        exact h.distinct a b ha hb heq
      · rw [hold a ha, hnew] at heq
        exact absurd heq (hother a ha)
    · rcases (hflight b).mp hb with hb | rfl
      · rw [hold b hb, hnew] at heq
        exact absurd heq.symm (hother b hb)
      · rfl
  case fresh => exact hfresh
  case touched => exact htouched
  case touchedSlots => exact htouchedSlots

theorem inFlight_release (c : Accounts) (sequence : Nat) (freeSlots : FreeSlotQueue) (x : Nat) :
    InFlight (c.release sequence freeSlots) x ↔ InFlight c x ∧ x ≠ sequence := by
  change x ∈ c.issued ∧ x ∉ c.done ++ [sequence] ↔ _
  rw [mem_append, mem_singleton, InFlight, not_or, and_assoc]

/-- The slot of a command in flight is not in the free list, so the list has room for it. -/
theorem room_of_inFlight (h : SlotInv count qd slots c) {sequence : Nat} (hin : InFlight c sequence) :
    c.commandSlots sequence ∉ c.freeSlots.contents ∧ c.freeSlots.count < c.freeSlots.capacity := by
  have hbusy := (h.owner _).mpr ⟨sequence, hin, rfl⟩
  have hnot : c.commandSlots sequence ∉ c.freeSlots.contents := by
    intro hmem
    have hidle := ((h.free _).mp hmem).2
    rw [hbusy] at hidle
    cases hidle
  refine ⟨hnot, ?_⟩
  have hnodup : (c.commandSlots sequence :: c.freeSlots.contents).Nodup := nodup_cons.mpr ⟨hnot, h.nodup⟩
  have hsubset : c.commandSlots sequence :: c.freeSlots.contents ⊆ range slots := by
    intro x hx
    rw [mem_range]
    rcases mem_cons.mp hx with rfl | hx
    · exact h.bound sequence hin
    · exact ((h.free x).mp hx).1
  have hlength := (subperm_of_subset hnodup hsubset).length_le
  rw [length_cons, Ring.Counted.length_contents, length_range] at hlength
  rw [h.capacity]
  exact hlength

theorem slotInv_release (h : SlotInv count qd slots c) {sequence : Nat} (hin : InFlight c sequence) {freeSlots : FreeSlotQueue}
    (hqueue : freeSlots.WellFormed) (hcapacity : freeSlots.capacity = slots)
    (hcontents : freeSlots.contents = c.freeSlots.contents ++ [c.commandSlots sequence]) :
    SlotInv count qd slots (c.release sequence freeSlots) := by
  have hflight := inFlight_release c sequence freeSlots
  obtain ⟨hlt, hnotDone⟩ := (inFlight_iff h sequence).mp hin
  have hnotFree := (room_of_inFlight h hin).1
  constructor
  case issued => exact h.issued
  case submitted_le => exact h.submitted_le
  case done_nodup =>
    change (c.done ++ [sequence]).Nodup
    rw [nodup_append]
    refine ⟨h.done_nodup, nodup_singleton _, ?_⟩
    intro a ha b hb heq
    rw [heq, mem_singleton.mp hb] at ha
    exact hnotDone ha
  case done_lt =>
    intro x hx
    rcases mem_append.mp hx with hx | hx
    · exact h.done_lt x hx
    · rw [mem_singleton.mp hx]
      exact hlt
  case completed =>
    change (c.done ++ [sequence]).length = c.completed + 1
    rw [length_append, h.completed, length_singleton]
  case outstanding =>
    have hbefore := h.outstanding
    change c.submitted ≤ c.completed + 1 + qd
    omega
  case queue => exact hqueue
  case capacity => exact hcapacity
  case nodup =>
    change freeSlots.contents.Nodup
    rw [hcontents, nodup_append]
    refine ⟨h.nodup, nodup_singleton _, ?_⟩
    intro a ha b hb heq
    rw [heq, mem_singleton.mp hb] at ha
    exact hnotFree ha
  case free =>
    intro x
    change x ∈ freeSlots.contents ↔ x < slots ∧ update c.slotBusy (c.commandSlots sequence) false x = false
    rw [hcontents, mem_append, mem_singleton]
    by_cases hx : x = c.commandSlots sequence
    · subst hx
      rw [update_self]
      exact iff_of_true (.inr rfl) ⟨h.bound sequence hin, rfl⟩
    · rw [update_of_ne hx, or_iff_left hx]
      exact h.free x
  case owner =>
    intro x
    change update c.slotBusy (c.commandSlots sequence) false x = true ↔ _
    by_cases hx : x = c.commandSlots sequence
    · subst hx
      rw [update_self]
      refine iff_of_false (by simp) ?_
      intro ⟨other, hother, heq⟩
      obtain ⟨hother, hne⟩ := (hflight other).mp hother
      exact hne (h.distinct other sequence hother hin heq)
    · rw [update_of_ne hx, h.owner x]
      constructor
      · intro ⟨other, hother, heq⟩
        refine ⟨other, (hflight other).mpr ⟨hother, ?_⟩, heq⟩
        intro hsame
        rw [hsame] at heq
        exact hx heq.symm
      · intro ⟨other, hother, heq⟩
        exact ⟨other, ((hflight other).mp hother).1, heq⟩
  case bound => exact fun x hx => h.bound x ((hflight x).mp hx).1
  case distinct => exact fun a b ha hb => h.distinct a b ((hflight a).mp ha).1 ((hflight b).mp hb).1
  case fresh =>
    obtain ⟨rest, hrest⟩ := h.fresh
    refine ⟨rest ++ [c.commandSlots sequence], ?_⟩
    change freeSlots.contents = _
    rw [hcontents, hrest, append_assoc]
    rfl
  case touched => exact h.touched
  case touchedSlots => exact h.touchedSlots

/-- When all commands have completed, each completed once and every slot is free. -/
theorem slotInv_drained (h : SlotInv count qd slots c) (hcompleted : c.completed = count) :
    c.done.Perm (List.range count) ∧ (∀ slot, c.slotBusy slot = false) ∧ c.freeSlots.count = slots ∧ c.touchedSlots = min count slots := by
  have hsubset : c.done ⊆ range c.submitted := fun x hx => mem_range.mpr (h.done_lt x hx)
  have hsubperm := subperm_of_subset h.done_nodup hsubset
  have hsubmitted : c.submitted = count := le_antisymm h.submitted_le (hcompleted ▸ completed_le h)
  rw [hsubmitted] at hsubperm
  have hperm : c.done.Perm (range count) := by
    refine hsubperm.perm_of_length_le ?_
    rw [length_range, h.completed, hcompleted]
  have hidle : ∀ slot, c.slotBusy slot = false := by
    intro slot
    rw [← Bool.not_eq_true, h.owner]
    intro ⟨sequence, hin, _⟩
    obtain ⟨hlt, hnot⟩ := (inFlight_iff h sequence).mp hin
    rw [hsubmitted] at hlt
    exact hnot (hperm.mem_iff.mpr (mem_range.mpr hlt))
  refine ⟨hperm, hidle, ?_, ?_⟩
  · have hfree : c.freeSlots.contents.Perm (range slots) := by
      rw [perm_ext_iff_of_nodup h.nodup nodup_range]
      intro slot
      rw [h.free, mem_range, hidle slot, and_iff_left rfl]
    rw [← Ring.Counted.length_contents, hfree.length_eq, length_range]
  · rw [h.touchedSlots, hsubmitted]

end Moves

/-! ## The kernel's commands -/

/-- The sequence number in a `user_data`. -/
def sequenceOf (userData : UInt64) : Nat := userData.toUInt32.toNat

theorem sequenceOf_userDataOf (opts : Options) {sequence : Nat} (h : sequence < 2 ^ 32) : sequenceOf (userDataOf opts sequence) = sequence := by
  have hsmall : (UInt64.ofNat sequence).toNat = sequence := by
    rw [UInt64.toNat_ofNat']
    exact Nat.mod_eq_of_lt (h.trans (by decide))
  rw [sequenceOf, userDataOf, UInt64.toNat_toUInt32, UInt64.toNat_or, UInt64.toNat_shiftLeft, hsmall, Nat.or_mod_two_pow,
    Nat.mod_eq_of_lt h, Nat.shiftLeft_eq]
  -- The trace number is a multiple of 2 ^ 32 and has no low bits.
  change (_ * 2 ^ 32 % 2 ^ 64 % 2 ^ 32) ||| sequence = sequence
  rw [Nat.mod_mod_of_dvd _ (by decide), Nat.mul_mod_left, Nat.zero_or]

/-- The commands that are prepared or that the kernel has are in flight, and no two have one number. -/
structure KernelInv (s : State) : Prop where
  nodup : ((s.prepared ++ s.kernel).map sequenceOf).Nodup
  inFlight : ∀ userData ∈ s.prepared ++ s.kernel, InFlight (accounts s) (sequenceOf userData)

/-! ## The run -/

def StageOk (opts : Options) (s : State) : RunStage → Prop
  | .filling batchFirst => ∀ sequence ∈ s.done, sequence < batchFirst
  | .ending | .returned => s.fatal = none → s.completed = opts.count.toNat
  | .validated => s.fatal = none → s.completed = opts.count.toNat ∧ s.slotValidationPassed = true
  | .starting | .submitting | .reaping => True

structure RunInv (opts : Options) (s : State) : Prop where
  slots : SlotInv opts.count.toNat opts.qd.toNat opts.slots.toNat (accounts s)
  kernel : KernelInv s
  doneTimes : ∀ sequence ∈ s.done, s.commandTimes sequence &&& latencyDoneBit ≠ 0
  times : ∀ sequence, s.commandTimes sequence ≠ 0 → sequence < s.submitted
  stage : StageOk opts s s.stage
  fatal : ∀ stage error, s.fatal = some (stage, error) → ¬stage.Accounting

theorem runInv_start (opts : Options) : RunInv opts (State.start opts) where
  slots := slotInv_start opts
  kernel := ⟨nodup_nil, fun _ h => absurd h not_mem_nil⟩
  doneTimes _ h := absurd h not_mem_nil
  times _ h := absurd rfl h
  stage := trivial
  fatal _ _ h := by cases h

theorem setFatal_eq (s : State) (stage : FatalStage) (error : Errno) :
    s.setFatal stage error = { s with fatal := s.fatal.or (some (stage, error)) } := by
  unfold State.setFatal
  cases s with
  | mk _ _ _ _ _ _ fatal =>
    cases fatal <;> rfl

theorem fatal_or {fatal : Option (FatalStage × Errno)} {stage : FatalStage} (error : Errno) (hstage : ¬stage.Accounting)
    (h : ∀ st e, fatal = some (st, e) → ¬st.Accounting) : ∀ st e, fatal.or (some (stage, error)) = some (st, e) → ¬st.Accounting := by
  intro st e heq
  cases fatal with
  | none =>
    obtain ⟨rfl, -⟩ := Prod.mk.inj (Option.some.inj heq)
    exact hstage
  | some pair => exact h st e heq

theorem fatal_or_ne (fatal : Option (FatalStage × Errno)) (pair : FatalStage × Errno) : fatal.or (some pair) ≠ none := by
  cases fatal <;> simp

section Steps

variable {opts : Options} {s : State}

theorem runInv_fail (h : RunInv opts s) {stage : FatalStage} (hstage : ¬stage.Accounting) (error : Errno) : RunInv opts (s.fail stage error) := by
  rw [State.fail, setFatal_eq]
  exact ⟨h.slots, ⟨h.kernel.nodup, h.kernel.inFlight⟩, h.doneTimes, h.times, fun hnone => absurd hnone (fatal_or_ne _ _),
    fatal_or error hstage h.fatal⟩

/-- The head of the outer loop. -/
theorem runInv_next (h : RunInv opts s) : RunInv opts (s.next opts) := by
  have hcompleted : s.completed ≤ opts.count.toNat := (completed_le h.slots).trans h.slots.submitted_le
  refine ⟨h.slots, ⟨h.kernel.nodup, h.kernel.inFlight⟩, h.doneTimes, h.times, ?_, h.fatal⟩
  change StageOk opts _ (if s.completed < opts.count.toNat then .filling s.submitted else .ending)
  split
  · exact h.slots.done_lt
  · intro _
    change s.completed = _
    omega

theorem runInv_begin (h : RunInv opts s) (clock : ClockRead) : RunInv opts (s.begin opts clock) := by
  cases clock with
  | error error => exact runInv_fail h (by exact id) error
  | ok now =>
    refine runInv_next ⟨h.slots, ⟨h.kernel.nodup, h.kernel.inFlight⟩, h.doneTimes, h.times, ?_, h.fatal⟩
    exact h.stage

theorem runInv_prepare (hsize : opts.slots.toNat ≤ 65535) (hlimit : opts.count.toNat ≤ 2 ^ 27) (h : RunInv opts s) {batchFirst : Nat}
    (hstage : s.stage = .filling batchFirst) (hfill : s.canFill opts) : RunInv opts (s.prepare opts) := by
  obtain ⟨hcount, hqd, hfree⟩ := hfill
  cases hcontents : s.freeSlots.contents with
  | nil =>
    have hlength := congrArg length hcontents
    rw [Ring.Counted.length_contents] at hlength
    exact absurd hlength hfree
  | cons slot rest =>
    obtain ⟨freeSlots, htake, hqueue, hrest, hcapacity⟩ := Ring.Counted.take_spec h.slots.queue hcontents
    have hmem : slot ∈ s.freeSlots.contents := by
      rw [hcontents]
      exact mem_cons_self ..
    obtain ⟨hslot, hidle⟩ := (h.slots.free slot).mp hmem
    have hmod : slot % 65536 = slot := Nat.mod_eq_of_lt (by omega)
    have hslots := slotInv_take h.slots hcount hqd hcontents hqueue (hcapacity.trans h.slots.capacity) hrest
    have htake : s.freeSlots.take = some (slot, freeSlots) := htake
    have hidle : s.slotBusy slot = false := hidle
    have hsequence : sequenceOf (userDataOf opts s.submitted) = s.submitted :=
      sequenceOf_userDataOf opts (by omega)
    have hin : ∀ sequence, InFlight ((accounts s).take slot freeSlots) sequence ↔ InFlight (accounts s) sequence ∨ sequence = s.submitted :=
      inFlight_take h.slots slot freeSlots
    simp only [State.prepare, freeSlotQueueTake, htake, hidle, Bool.false_eq_true, if_false, hmod]
    refine ⟨hslots, ⟨?_, ?_⟩, h.doneTimes, fun sequence hne => (h.times sequence hne).trans (Nat.lt_succ_self _), ?_, h.fatal⟩
    · -- The new command has a number that no other has.
      have hperm : (s.prepared ++ [userDataOf opts s.submitted] ++ s.kernel).Perm
          (userDataOf opts s.submitted :: (s.prepared ++ s.kernel)) := by
        rw [append_assoc]
        exact perm_middle
      change ((s.prepared ++ [userDataOf opts s.submitted] ++ s.kernel).map sequenceOf).Nodup
      rw [(hperm.map sequenceOf).nodup_iff, map_cons, nodup_cons, hsequence]
      refine ⟨?_, h.kernel.nodup⟩
      intro hold
      obtain ⟨userData, huser, heq⟩ := mem_map.mp hold
      have hlt := ((inFlight_iff h.slots _).mp (h.kernel.inFlight userData huser)).1
      rw [heq] at hlt
      exact lt_irrefl _ hlt
    · intro userData (huser : userData ∈ s.prepared ++ [userDataOf opts s.submitted] ++ s.kernel)
      refine (hin _).mpr ?_
      by_cases hnew : userData = userDataOf opts s.submitted
      · rw [hnew, hsequence]
        exact .inr rfl
      · refine .inl (h.kernel.inFlight userData ?_)
        rw [append_assoc, mem_append, mem_append, mem_singleton, or_iff_right hnew, ← mem_append] at huser
        exact huser
    · have hold := h.stage
      rw [hstage] at hold
      change StageOk opts _ s.stage
      rw [hstage]
      exact hold

theorem runInv_endFill (h : RunInv opts s) {batchFirst : Nat} (hstage : s.stage = .filling batchFirst) (clock : ClockRead) :
    RunInv opts (s.endFill batchFirst clock) := by
  have hbefore : ∀ sequence ∈ s.done, sequence < batchFirst := by
    have hold := h.stage
    rwa [hstage] at hold
  unfold State.endFill
  split
  · exact runInv_fail h (by exact id) _
  split
  · exact ⟨h.slots, ⟨h.kernel.nodup, h.kernel.inFlight⟩, h.doneTimes, h.times, trivial, h.fatal⟩
  cases clock with
  | error error => exact runInv_fail h (by exact id) _
  | ok now =>
    refine ⟨h.slots, ⟨h.kernel.nodup, h.kernel.inFlight⟩, ?_, ?_, trivial, h.fatal⟩
    · intro sequence hdone
      have hlt := hbefore sequence hdone
      change (if batchFirst ≤ sequence ∧ sequence < s.submitted then _ else _) &&& latencyDoneBit ≠ 0
      rw [if_neg (by omega)]
      exact h.doneTimes sequence hdone
    · intro sequence (hne : (if batchFirst ≤ sequence ∧ sequence < s.submitted then _ else _) ≠ (0 : UInt64))
      split at hne
      · rename_i hbatch
        exact hbatch.2
      · exact h.times sequence hne

theorem runInv_submit (h : RunInv opts s) (result : Except Errno Nat) : RunInv opts (s.submit result) := by
  cases result with
  | error error => exact runInv_fail h (by exact id) error
  | ok taken =>
    have hperm : (s.prepared.drop taken ++ (s.kernel ++ s.prepared.take taken)).Perm (s.prepared ++ s.kernel) := by
      rw [← append_assoc]
      refine perm_append_comm.trans ?_
      rw [← append_assoc, take_append_drop]
    refine ⟨h.slots, ⟨?_, ?_⟩, h.doneTimes, h.times, trivial, h.fatal⟩
    · exact (hperm.map sequenceOf).nodup_iff.mpr h.kernel.nodup
    · intro userData huser
      exact h.kernel.inFlight userData (hperm.mem_iff.mp huser)

theorem or_doneBit (latency : UInt64) : (latency ||| latencyDoneBit) &&& latencyDoneBit ≠ 0 := by
  have hbit : (latency ||| latencyDoneBit) &&& latencyDoneBit = latencyDoneBit := by
    rw [← UInt64.toBitVec_inj]
    ext i hi
    by_cases hset : latencyDoneBit.toBitVec[i] = true <;> simp [hset]
  rw [hbit]
  decide

theorem runInv_complete (h : RunInv opts s) (hstage : s.stage = .reaping) {userData : UInt64} (huser : userData ∈ s.kernel) (res : Int)
    (clock : ClockRead) : RunInv opts (s.complete opts userData res clock) := by
  -- What the kernel still has are other commands.
  have hnodup := h.kernel.nodup
  rw [map_append, nodup_append] at hnodup
  have hkernel : ∀ other ∈ s.prepared ++ s.kernel.erase userData,
      other ∈ s.prepared ++ s.kernel ∧ sequenceOf other ≠ sequenceOf userData := by
    intro other hother
    rcases mem_append.mp hother with hprepared | hkernel
    · refine ⟨mem_append_left _ hprepared, ?_⟩
      exact hnodup.2.2 _ (mem_map_of_mem hprepared) _ (mem_map_of_mem huser)
    · have hmem := mem_of_mem_erase hkernel
      refine ⟨mem_append_right _ hmem, fun heq => ?_⟩
      have hsame : other = userData := inj_on_of_nodup_map hnodup.2.1 hmem huser heq
      rw [hsame] at hkernel
      exact (Nodup.of_map _ hnodup.2.1).not_mem_erase hkernel
  have hless : ((s.prepared ++ s.kernel.erase userData).map sequenceOf).Nodup :=
    h.kernel.nodup.sublist (((Sublist.refl _).append erase_sublist).map _)
  have hrest : RunInv opts { s with kernel := s.kernel.erase userData } := by
    refine ⟨h.slots, ⟨hless, fun other hother => ?_⟩, h.doneTimes, h.times, h.stage, h.fatal⟩
    exact h.kernel.inFlight other (hkernel other hother).1
  unfold State.complete
  simp only
  split
  · exact runInv_fail hrest (by exact id) _
  rename_i htime
  obtain ⟨-, hnonzero, hopen⟩ : userData.toUInt32.toNat < opts.count.toNat ∧ s.commandTimes userData.toUInt32.toNat ≠ 0 ∧
      s.commandTimes userData.toUInt32.toNat &&& latencyDoneBit = 0 := by
    simpa [not_or] using htime
  -- The command has a submit time and is not marked, so it is in flight and its slot is busy.
  have hin : InFlight (accounts s) (sequenceOf userData) := by
    refine (inFlight_iff h.slots _).mpr ⟨h.times _ hnonzero, fun hdone => ?_⟩
    exact h.doneTimes _ hdone hopen
  have hbusy : s.slotBusy (s.commandSlots userData.toUInt32.toNat) = true := (h.slots.owner _).mpr ⟨_, hin, rfl⟩
  rw [if_neg fun hidle => Bool.noConfusion (hbusy.symm.trans hidle)]
  cases clock with
  | error error => exact runInv_fail hrest (by exact id) _
  | ok now =>
    simp only
    split
    · exact runInv_fail hrest (by exact id) _
    split
    · exact runInv_fail hrest (by exact id) _
    have hroom := (room_of_inFlight h.slots hin).2
    obtain ⟨freeSlots, hput, hqueue, hcontents, hcapacity⟩ :=
      Ring.Counted.put_spec h.slots.queue (s.commandSlots userData.toUInt32.toNat) hroom
    have hbound : s.commandSlots userData.toUInt32.toNat < s.freeSlots.capacity := by
      have hslot := h.slots.bound _ hin
      rw [← h.slots.capacity] at hslot
      exact hslot
    have hrelease : freeSlotQueueRelease s.freeSlots (s.commandSlots userData.toUInt32.toNat) = some freeSlots := by
      rw [freeSlotQueueRelease, if_neg (not_le.mpr hbound)]
      exact hput
    simp only [hrelease]
    refine ⟨slotInv_release h.slots hin hqueue (hcapacity.trans h.slots.capacity) hcontents, ⟨hless, ?_⟩, ?_, ?_, ?_, h.fatal⟩
    · intro other hother
      obtain ⟨hold, hne⟩ := hkernel other hother
      exact (inFlight_release _ _ _ _).mpr ⟨h.kernel.inFlight other hold, hne⟩
    · intro sequence hdone
      change update s.commandTimes userData.toUInt32.toNat _ sequence &&& latencyDoneBit ≠ 0
      by_cases heq : sequence = userData.toUInt32.toNat
      · rw [heq, update_self]
        exact or_doneBit _
      · rw [update_of_ne heq]
        rcases mem_append.mp hdone with hold | hnew
        · exact h.doneTimes sequence hold
        · exact absurd (mem_singleton.mp hnew) heq
    · intro sequence (hne : update s.commandTimes userData.toUInt32.toNat _ sequence ≠ 0)
      by_cases heq : sequence = userData.toUInt32.toNat
      · rw [heq]
        exact h.times _ hnonzero
      · rw [update_of_ne heq] at hne
        exact h.times sequence hne
    · change StageOk opts _ s.stage
      rw [hstage]
      trivial

/-- A fatal error at the end keeps the invariant. -/
theorem runInv_setFatal (h : RunInv opts s) (hstage : s.stage = .ending ∨ s.stage = .returned) {stage : FatalStage}
    (hnot : ¬stage.Accounting) (error : Errno) : RunInv opts (s.setFatal stage error) := by
  rw [setFatal_eq]
  refine ⟨h.slots, ⟨h.kernel.nodup, h.kernel.inFlight⟩, h.doneTimes, h.times, ?_, fatal_or error hnot h.fatal⟩
  change StageOk opts _ s.stage
  rcases hstage with hstage | hstage
  · rw [hstage]
    exact fun hnone => absurd hnone (fatal_or_ne _ _)
  · rw [hstage]
    exact fun hnone => absurd hnone (fatal_or_ne _ _)

theorem setFatal_stage (s : State) (stage : FatalStage) (error : Errno) : (s.setFatal stage error).stage = s.stage := by
  rw [setFatal_eq]

theorem runInv_windowEnd (h : RunInv opts s) (hstage : s.stage = .ending) (clock : ClockRead) :
    RunInv opts (s.windowEnd clock) ∧ (s.windowEnd clock).stage = .ending := by
  cases clock with
  | error error => exact ⟨runInv_setFatal h (.inl hstage) (by exact id) error, (setFatal_stage ..).trans hstage⟩
  | ok now =>
    rw [State.windowEnd]
    split
    · exact ⟨runInv_setFatal h (.inl hstage) (by exact id) _, (setFatal_stage ..).trans hstage⟩
    · exact ⟨⟨h.slots, ⟨h.kernel.nodup, h.kernel.inFlight⟩, h.doneTimes, h.times, h.stage, h.fatal⟩, hstage⟩

theorem runInv_ringCounters (h : RunInv opts s) (hstage : s.stage = .ending) (sqDropped cqOverflow : UInt32) :
    RunInv opts (s.ringCounters sqDropped cqOverflow) ∧ (s.ringCounters sqDropped cqOverflow).stage = .ending := by
  rw [State.ringCounters]
  split
  · exact ⟨runInv_setFatal h (.inl hstage) (by exact id) _, (setFatal_stage ..).trans hstage⟩
  · exact ⟨h, hstage⟩

theorem runInv_finish (h : RunInv opts s) (hstage : s.stage = .ending) (clock : ClockRead) (sqDropped cqOverflow : UInt32) :
    RunInv opts (s.finish opts clock sqDropped cqOverflow) := by
  obtain ⟨hend, hending⟩ := runInv_windowEnd h hstage clock
  obtain ⟨hring, hending⟩ := runInv_ringCounters hend hending sqDropped cqOverflow
  rw [State.finish]
  generalize (s.windowEnd clock).ringCounters sqDropped cqOverflow = t at hring hending
  have hcompleted : t.fatal = none → t.completed = opts.count.toNat := by
    have hold := hring.stage
    rwa [hending] at hold
  -- Without a fatal error all slots are free again, so the check passes.
  have hcheck : t.freeSlotAccounting opts = t := by
    rw [State.freeSlotAccounting, if_neg]
    intro ⟨hnone, hne⟩
    exact hne (slotInv_drained hring.slots (hcompleted hnone)).2.2.1
  rw [hcheck]
  exact ⟨hring.slots, ⟨hring.kernel.nodup, hring.kernel.inFlight⟩, hring.doneTimes, hring.times, hcompleted, hring.fatal⟩

theorem expectedTouchedSlots_eq (opts : Options) : State.expectedTouchedSlots opts = min opts.count.toNat opts.slots.toNat := by
  rw [State.expectedTouchedSlots]
  split
  · rename_i hlt
    rw [UInt32.lt_iff_toNat_lt] at hlt
    omega
  · rename_i hle
    rw [UInt32.lt_iff_toNat_lt] at hle
    omega

/-- The checks of `validate_slot_state` pass unless there was a fatal error. -/
theorem runInv_validateSlotState (h : RunInv opts s) (hstage : s.stage = .returned) : RunInv opts (s.validateSlotState opts) := by
  have hcompleted : s.fatal = none → s.completed = opts.count.toNat := by
    have hold := h.stage
    rwa [hstage] at hold
  cases hfatal : s.fatal with
  | some pair =>
    unfold State.validateSlotState
    simp only [State.setFatal, hfatal, ite_self]
    refine ⟨h.slots, ⟨h.kernel.nodup, h.kernel.inFlight⟩, h.doneTimes, h.times, ?_, fun stage error heq => ?_⟩
    · intro hnone
      cases hnone
    · exact h.fatal stage error (hfatal.trans heq)
  | none =>
    obtain ⟨-, hidle, -, htouched⟩ := slotInv_drained h.slots (hcompleted hfatal)
    have hbusy : (range opts.slots.toNat).any s.slotBusy = false := by
      rw [any_eq_false]
      intro slot _
      have hslot : s.slotBusy slot = false := hidle slot
      simp [hslot]
    have hpassed : (s.touchedSlots == State.expectedTouchedSlots opts) = true := by
      rw [expectedTouchedSlots_eq, beq_iff_eq]
      exact htouched
    unfold State.validateSlotState
    simp only [hbusy, hpassed, Bool.not_false, Bool.and_self, Bool.false_eq_true, if_false, Bool.true_eq_false]
    exact ⟨h.slots, ⟨h.kernel.nodup, h.kernel.inFlight⟩, h.doneTimes, h.times, fun hnone => ⟨hcompleted hnone, rfl⟩, h.fatal⟩

theorem runInv_validate (h : RunInv opts s) (hstage : s.stage = .returned) (barrier : Option Errno) :
    RunInv opts ((s.measurementFinish barrier).validateSlotState opts) := by
  cases barrier with
  | none => exact runInv_validateSlotState h hstage
  | some error =>
    refine runInv_validateSlotState (runInv_setFatal h (.inr hstage) (by exact id) error) ?_
    exact (setFatal_stage ..).trans hstage

theorem runInv_step (hsize : opts.slots.toNat ≤ 65535) (hlimit : opts.count.toNat ≤ 2 ^ 27) (s : State) (e : Event) (s' : State)
    (h : RunInv opts s) (hstep : s.step opts e = some s') : RunInv opts s' := by
  cases e with
  | begin clock =>
    obtain ⟨-, rfl⟩ := Runs.guard_eq_some.mp hstep
    exact runInv_begin h clock
  | prepare =>
    rw [State.step] at hstep
    split at hstep
    · rename_i hstage
      obtain ⟨hfill, rfl⟩ := Runs.guard_eq_some.mp hstep
      exact runInv_prepare hsize hlimit h hstage hfill
    · cases hstep
  | endFill clock =>
    rw [State.step] at hstep
    split at hstep
    · rename_i hstage
      exact Option.some.inj hstep ▸ runInv_endFill h hstage clock
    · cases hstep
  | submit result =>
    obtain ⟨-, rfl⟩ := Runs.guard_eq_some.mp hstep
    exact runInv_submit h result
  | peekNone =>
    obtain ⟨-, rfl⟩ := Runs.guard_eq_some.mp hstep
    exact runInv_next h
  | peekError error =>
    obtain ⟨-, rfl⟩ := Runs.guard_eq_some.mp hstep
    exact runInv_fail h (by exact id) error
  | complete userData res clock =>
    obtain ⟨⟨hstage, huser⟩, rfl⟩ := Runs.guard_eq_some.mp hstep
    exact runInv_complete h hstage huser res clock
  | finish clock sqDropped cqOverflow =>
    obtain ⟨hstage, rfl⟩ := Runs.guard_eq_some.mp hstep
    exact runInv_finish h hstage clock sqDropped cqOverflow
  | validate barrier =>
    obtain ⟨hstage, rfl⟩ := Runs.guard_eq_some.mp hstep
    exact runInv_validate h hstage barrier

end Steps

/-- What the validation says about the sizes. -/
theorem validateOptions_sizes {systemPage : Int} {opts : Options} {geometry : Geometry} (h : validateOptions systemPage opts = .ok geometry) :
    opts.slots.toNat ≤ 65535 ∧ opts.count.toNat ≤ 2 ^ 27 := by
  simp only [validateOptions, bind_eq_ok, exists_const, ensure_eq_ok] at h
  obtain ⟨hcount, ⟨-, hslots⟩, -⟩ := h
  exact ⟨UInt32.le_iff_toNat_le.mp hslots, UInt32.le_iff_toNat_le.mp hcount⟩

end WorkloadAux

open WorkloadAux

/-- For all options that `validate_options` accepts, in every state that the run reaches under any behaviour of the kernel and the clock:
at most `qd` commands are outstanding; every number is submitted at most once and completed at most once; what the kernel has is in
flight; every slot is free or belongs to exactly one command in flight, and is marked accordingly; no error of the slot accounting
occurs. A run that ends without a fatal error has completed every number once, has touched `min count slots` slots, has all slots free and
passes its checks. -/
theorem runWorkload_accounts (systemPage : Int) (opts : Options) (geometry : Geometry) (hvalid : validateOptions systemPage opts = .ok geometry)
    (events : List Event) (s : State) (hrun : Runs.run (State.step opts) (State.start opts) events = some s) :
    (s.completed ≤ s.submitted ∧ s.submitted - s.completed ≤ opts.qd.toNat) ∧
    (s.issued.Nodup ∧ s.issued.length = s.submitted ∧ ∀ sequence ∈ s.issued, sequence < opts.count.toNat) ∧
    (s.done.Nodup ∧ s.done.length = s.completed ∧ s.done ⊆ s.issued) ∧
    (∀ userData ∈ s.prepared ++ s.kernel, s.InFlight userData.toUInt32.toNat) ∧
    (∀ a b, s.InFlight a → s.InFlight b → s.commandSlots a = s.commandSlots b → a = b) ∧
    (s.freeSlots.contents.Nodup ∧ (∀ slot, slot ∈ s.freeSlots.contents ↔ slot < opts.slots.toNat ∧ s.slotBusy slot = false) ∧
      ∀ slot, s.slotBusy slot = true ↔ slot < opts.slots.toNat ∧ ∃ sequence, s.InFlight sequence ∧ s.commandSlots sequence = slot) ∧
    (∀ stage error, s.fatal = some (stage, error) → ¬stage.Accounting) ∧
    (s.stage = .validated → s.fatal = none → s.done.Perm (List.range opts.count.toNat) ∧
      s.touchedSlots = min opts.count.toNat opts.slots.toNat ∧ s.freeSlots.count = opts.slots.toNat ∧ s.slotValidationPassed = true) := by
  obtain ⟨hsize, hlimit⟩ := validateOptions_sizes hvalid
  have h : RunInv opts s := Runs.invariant_of_step (RunInv opts) (runInv_step hsize hlimit) (runInv_start opts) hrun
  have hissued : s.issued = List.range s.submitted := h.slots.issued
  have hsubset : s.done ⊆ s.issued := by
    intro sequence hdone
    rw [hissued]
    exact List.mem_range.mpr (h.slots.done_lt sequence hdone)
  have hcompleted : s.completed ≤ s.submitted := completed_le h.slots
  refine ⟨⟨hcompleted, ?_⟩, ⟨?_, ?_, ?_⟩, ⟨h.slots.done_nodup, h.slots.completed, hsubset⟩, h.kernel.inFlight, h.slots.distinct,
    ⟨h.slots.nodup, h.slots.free, ?_⟩, h.fatal, ?_⟩
  · have houtstanding : s.submitted ≤ s.completed + opts.qd.toNat := h.slots.outstanding
    omega
  · rw [hissued]
    exact List.nodup_range
  · rw [hissued, List.length_range]
  · intro sequence hin
    rw [hissued] at hin
    exact lt_of_lt_of_le (List.mem_range.mp hin) h.slots.submitted_le
  · intro slot
    constructor
    · intro hbusy
      obtain ⟨sequence, hin, heq⟩ := (h.slots.owner slot).mp hbusy
      exact ⟨heq ▸ h.slots.bound sequence hin, sequence, hin, heq⟩
    · intro ⟨_, howner⟩
      exact (h.slots.owner slot).mpr howner
  · intro hstage hfatal
    have hend := h.stage
    rw [hstage] at hend
    obtain ⟨hall, hpassed⟩ := hend hfatal
    obtain ⟨hperm, -, hfree, htouched⟩ := slotInv_drained h.slots hall
    exact ⟨hperm, htouched, hfree, hpassed⟩

/-- Three commands on two slots. -/
def threeCommands : Options := ⟨3, 2, 2, 4096, 4096, 512, 8, 7000, -1, -1, false, false, false⟩

/-- The kernel takes the first command alone, and the last two complete in reverse order. -/
def reversedCompletions : List Event :=
  [.begin (.ok 10), .prepare, .prepare, .endFill (.ok 20), .submit (.ok 1), .complete (userDataOf threeCommands 0) 0 (.ok 30), .peekNone,
    .prepare, .endFill (.ok 40), .submit (.ok 2), .complete (userDataOf threeCommands 2) 0 (.ok 50),
    .complete (userDataOf threeCommands 1) 0 (.ok 60), .peekNone, .finish (.ok 70) 0 0, .validate none]

theorem runWorkload_accounts_threeCommands :
    ∃ s, Runs.run (State.step threeCommands) (State.start threeCommands) reversedCompletions = some s ∧ s.fatal = none ∧ s.done = [0, 2, 1] ∧
      s.done.Perm (List.range 3) ∧ s.touchedSlots = 2 := by
  obtain ⟨s, hrun, hend⟩ : ∃ s, Runs.run (State.step threeCommands) (State.start threeCommands) reversedCompletions = some s ∧
      decide (s.stage = .validated ∧ s.fatal = none ∧ s.done = [0, 2, 1]) = true := Runs.exists_of_any (by decide +kernel)
  obtain ⟨hstage, hfatal, hdone⟩ := of_decide_eq_true hend
  obtain ⟨geometry, hvalid, -⟩ : ∃ geometry, validateOptions 4096 threeCommands = .ok geometry ∧ decide (geometry.blocksPerIo = 8) = true :=
    Checked.exists_ok_of_any (by decide +kernel)
  obtain ⟨-, -, -, -, -, -, -, hfinal⟩ := runWorkload_accounts 4096 threeCommands geometry hvalid reversedCompletions s hrun
  obtain ⟨hperm, htouched, -, -⟩ := hfinal hstage hfatal
  exact ⟨s, hrun, hfatal, hdone, hperm, htouched⟩

end EbpfSyscall.Smoke
