import EbpfSyscall.Lib.Tally
import EbpfSyscall.Replayer.Barrier

/-!
# What the flexible barrier counts

As long as no wait reports a timeout after its generation is over, the counter is the number of threads that wait in the current
generation, and nobody leaves a wait before all have arrived or left. Such a late timeout takes one off the counter of the next
generation.
-/

namespace EbpfSyscall.Replayer

open Tally Function BarrierThread

namespace BarrierState

variable {n : Nat}

/-- The waiting counter is the number of threads that wait in the current generation, and lies between 0 and the number of active
threads. -/
def Counted (s : BarrierState n) : Prop :=
  s.barrier.nWaiting = tally (BarrierThread.waitsIn s.barrier.generation) s.threads ∧ 0 ≤ s.barrier.nWaiting ∧
    s.barrier.nWaiting ≤ tally BarrierThread.isActive s.threads

/-- When a wait of a round came to its normal end, every thread had arrived in that round or had unregistered. -/
def Ordered (log : List (BarrierEntry n)) : Prop :=
  ∀ before thread round after, log = before ++ .left thread round :: after →
    ∀ other, .arrived other round ∈ before ∨ .unregistered other ∈ before

/-- A timeout is reported while the generation of the wait is the current one. -/
def OnTime (s : BarrierState n) : BarrierEvent n → Prop
  | .timeout thread => ∀ myGen round, s.threads thread = .waiting myGen round → myGen = s.barrier.generation
  | _ => True

end BarrierState

namespace BarrierAux

open BarrierState

variable {n : Nat} {s : BarrierState n} {thread : Fin n}

/-- What holds in every state before a late timeout. -/
structure CountInv (s : BarrierState n) : Prop where
  active : s.barrier.nActive = tally BarrierThread.isActive s.threads
  waiting : s.barrier.nWaiting = tally (BarrierThread.waitsIn s.barrier.generation) s.threads
  /-- A thread in the timed wait waits in the current round, or in the one before and the generation has changed since. -/
  waits : ∀ thread myGen round, s.threads thread = .waiting myGen round → .arrived thread round ∈ s.log ∧
    (round = s.round ∧ myGen = s.barrier.generation ∨ round + 1 = s.round ∧ myGen ≠ s.barrier.generation)
  gone : ∀ thread, s.threads thread = .gone → .unregistered thread ∈ s.log
  released : ∀ round < s.round, ∀ thread, .arrived thread round ∈ s.log ∨ .unregistered thread ∈ s.log
  ordered : Ordered s.log

theorem isActive_of_waitsIn (generation : UInt64) (thread : BarrierThread) (h : thread.waitsIn generation = true) : thread.isActive = true := by
  cases thread with
  | running => rfl
  | waiting myGen round => rfl
  | gone => cases h

theorem counted_of_inv (h : CountInv s) : s.Counted := by
  have hle := tally_le (f := s.threads) (isActive_of_waitsIn s.barrier.generation)
  refine ⟨h.waiting, ?_, ?_⟩
  · rw [h.waiting]
    exact Int.natCast_nonneg _
  · rw [h.waiting]
    exact Int.ofNat_le.mpr hle

/-- An entry that is not the end of a wait. -/
theorem ordered_append {log : List (BarrierEntry n)} (h : Ordered log) {entry : BarrierEntry n}
    (hentry : ∀ thread round, entry = .left thread round → ∀ other, .arrived other round ∈ log ∨ .unregistered other ∈ log) :
    Ordered (log ++ [entry]) := by
  intro before thread round after heq other
  rcases List.eq_nil_or_concat after with rfl | ⟨front, last, rfl⟩
  · obtain ⟨rfl, hlast⟩ := List.append_inj' heq rfl
    exact hentry thread round (List.cons.inj hlast).1 other
  · have hsplit : log ++ [entry] = (before ++ .left thread round :: front) ++ [last] := by simpa using heq
    obtain ⟨rfl, -⟩ := List.append_inj' hsplit rfl
    exact h before thread round front rfl other

theorem inv_start (n : Nat) : CountInv (start n) where
  active := by
    have hall : tally isActive (start n).threads = n := by
      rw [tally_eq_card fun _ => rfl, Fintype.card_fin]
    rw [hall]
    rfl
  waiting := by
    have hnone : tally (waitsIn (start n).barrier.generation) (start n).threads = 0 := tally_eq_zero fun _ => rfl
    rw [hnone]
    rfl
  waits _ _ _ h := by cases h
  gone _ h := by cases h
  released _ h := absurd h (Nat.not_lt_zero _)
  ordered before thread round after h := by simp [start] at h

/-- Everyone who is active waits, and is released. -/
theorem inv_release (h : CountInv s) (hall : ∀ thread, (s.threads thread).isActive = true →
    (s.threads thread).waitsIn s.barrier.generation = true) : CountInv s.release := by
  have hnext : s.barrier.generation ≠ s.barrier.generation + 1 := by
    intro heq
    have := congrArg UInt64.toNat heq
    have hlt := s.barrier.generation.toNat_lt
    rw [UInt64.toNat_add] at this
    simp at this
    omega
  have hcurrent : ∀ thread myGen round, s.threads thread = .waiting myGen round → round = s.round ∧ myGen = s.barrier.generation := by
    intro thread myGen round hthread
    have hwaits := hall thread (by rw [hthread]; rfl)
    rw [hthread] at hwaits
    have hgen : myGen = s.barrier.generation := of_decide_eq_true hwaits
    rcases (h.waits thread myGen round hthread).2 with hgood | ⟨-, hne⟩
    · exact hgood
    · exact absurd hgen hne
  refine ⟨h.active, ?_, ?_, h.gone, ?_, h.ordered⟩
  · have hnone : tally (waitsIn (s.barrier.generation + 1)) s.threads = 0 := by
      refine tally_eq_zero fun thread => ?_
      cases hthread : s.threads thread with
      | running => rfl
      | waiting myGen round =>
        obtain ⟨-, rfl⟩ := hcurrent thread myGen round hthread
        exact decide_eq_false hnext
      | gone => rfl
    show (0 : Int) = tally (waitsIn (s.barrier.generation + 1)) s.threads
    rw [hnone]
    rfl
  · intro thread myGen round hthread
    obtain ⟨rfl, rfl⟩ := hcurrent thread myGen round hthread
    exact ⟨(h.waits thread _ _ hthread).1, Or.inr ⟨rfl, hnext⟩⟩
  · intro round hround thread
    rcases Nat.lt_or_ge round s.round with hlt | hge
    · exact h.released round hlt thread
    · obtain rfl : round = s.round := Nat.le_antisymm (Nat.lt_succ_iff.mp hround) hge
      cases hthread : s.threads thread with
      | running =>
        have hwaits := hall thread (by rw [hthread]; rfl)
        rw [hthread] at hwaits
        cases hwaits
      | waiting myGen round =>
        obtain ⟨rfl, -⟩ := hcurrent thread myGen round hthread
        exact Or.inl (h.waits thread _ _ hthread).1
      | gone => exact Or.inr (h.gone thread hthread)

/-- One thread changes its state and an entry is logged. -/
def move (s : BarrierState n) (thread : Fin n) (t : BarrierThread) (entry : BarrierEntry n) (nActive nWaiting : Int) : BarrierState n :=
  { s with
    barrier := { s.barrier with nActive := nActive, nWaiting := nWaiting }
    threads := Function.update s.threads thread t
    log := s.log ++ [entry] }

/-- A change of one thread that the counters follow. -/
theorem inv_move (h : CountInv s) {t : BarrierThread} {entry : BarrierEntry n} {nActive nWaiting : Int}
    (hactive : nActive + (s.threads thread).isActive.toNat = s.barrier.nActive + t.isActive.toNat)
    (hwaiting : nWaiting + ((s.threads thread).waitsIn s.barrier.generation).toNat =
      s.barrier.nWaiting + (t.waitsIn s.barrier.generation).toNat)
    (hwait : ∀ myGen round, t = .waiting myGen round →
      entry = .arrived thread round ∧ round = s.round ∧ myGen = s.barrier.generation)
    (hgone : t = .gone → entry = .unregistered thread)
    (hleft : ∀ leaver round, entry = .left leaver round → ∀ other, .arrived other round ∈ s.log ∨ .unregistered other ∈ s.log) :
    CountInv (move s thread t entry nActive nWaiting) := by
  have hmem : ∀ earlier, earlier ∈ s.log → earlier ∈ s.log ++ [entry] := fun earlier hin => List.mem_append_left _ hin
  refine ⟨?_, ?_, ?_, ?_, ?_, ordered_append h.ordered hleft⟩
  · have hcount := tally_update isActive s.threads thread t
    have hbefore := h.active
    simp only [move]
    omega
  · have hcount := tally_update (waitsIn s.barrier.generation) s.threads thread t
    have hbefore := h.waiting
    simp only [move]
    omega
  · intro other myGen round hother
    simp only [move] at hother ⊢
    by_cases heq : other = thread
    · subst heq
      rw [update_self] at hother
      obtain ⟨rfl, rfl, rfl⟩ := hwait myGen round hother
      exact ⟨by simp, Or.inl ⟨rfl, rfl⟩⟩
    · rw [update_of_ne heq] at hother
      obtain ⟨harrived, hcase⟩ := h.waits other myGen round hother
      exact ⟨hmem _ harrived, hcase⟩
  · intro other hother
    simp only [move] at hother ⊢
    by_cases heq : other = thread
    · subst heq
      rw [update_self] at hother
      rw [hgone hother]
      simp
    · rw [update_of_ne heq] at hother
      exact hmem _ (h.gone other hother)
  · intro round hround other
    exact (h.released round hround other).imp (hmem _) (hmem _)

/-- A thread goes into the timed wait. -/
theorem inv_enter (h : CountInv s) (hrunning : s.threads thread = .running) :
    CountInv (move s thread (.waiting s.barrier.generation s.round) (.arrived thread s.round) s.barrier.nActive
      (s.barrier.nWaiting + 1)) := by
  refine inv_move h ?_ ?_ ?_ nofun nofun
  · rw [hrunning]
    rfl
  · rw [hrunning]
    simp [waitsIn]
  · intro myGen round heq
    cases heq
    exact ⟨rfl, rfl, rfl⟩

/-- A thread whose generation is over leaves the wait. -/
theorem inv_leave (h : CountInv s) (thread : Fin n) (myGen : UInt64) (round : Nat) (hthread : s.threads thread = .waiting myGen round)
    (hover : s.barrier.generation ≠ myGen) :
    CountInv (move s thread .running (.left thread round) s.barrier.nActive s.barrier.nWaiting) := by
  have hround : round < s.round := by
    rcases (h.waits thread myGen round hthread).2 with ⟨-, hgen⟩ | ⟨hnext, -⟩
    · exact absurd hgen.symm hover
    · omega
  refine inv_move h ?_ ?_ nofun nofun ?_
  · rw [hthread]
    rfl
  · rw [hthread]
    simp [waitsIn, Ne.symm hover]
  · intro leaver ended heq
    obtain ⟨rfl, rfl⟩ := BarrierEntry.left.inj heq
    exact h.released round hround

theorem inv_timeout (h : CountInv s) {myGen : UInt64} {round : Nat} (hthread : s.threads thread = .waiting myGen round)
    (hcurrent : myGen = s.barrier.generation) : CountInv (s.timeout thread round) := by
  refine inv_move h ?_ ?_ nofun nofun nofun
  · rw [hthread]
    rfl
  · rw [hthread]
    simp [waitsIn, hcurrent]

theorem inv_unregister (h : CountInv s) (hrunning : s.threads thread = .running) : CountInv (s.unregister thread) := by
  have hgone : CountInv (move s thread .gone (.unregistered thread) (s.barrier.nActive - 1) s.barrier.nWaiting) := by
    refine inv_move h ?_ ?_ nofun (fun _ => rfl) nofun
    · rw [hrunning]
      simp [isActive]
    · rw [hrunning]
      rfl
  unfold unregister
  dsimp only
  split
  · rename_i hfull
    refine inv_release hgone fun other hother => ?_
    refine of_tally_le (isActive_of_waitsIn s.barrier.generation) ?_ hother
    have hactive := hgone.active
    have hwaiting := hgone.waiting
    have hle : (move s thread .gone (.unregistered thread) (s.barrier.nActive - 1) s.barrier.nWaiting).barrier.nActive ≤
        (move s thread .gone (.unregistered thread) (s.barrier.nActive - 1) s.barrier.nWaiting).barrier.nWaiting := hfull.2
    rw [hactive, hwaiting] at hle
    exact Int.ofNat_le.mp hle
  · exact hgone

theorem inv_arrive (h : CountInv s) (hrunning : s.threads thread = .running) : CountInv (s.arrive thread) := by
  have henter := inv_enter h hrunning
  have hself : update s.threads thread .running = s.threads := by rw [← hrunning, update_eq_self]
  unfold arrive
  split
  · -- Alone: everyone else has unregistered.
    rename_i halone
    have harrived : CountInv (move s thread .running (.arrived thread s.round) s.barrier.nActive s.barrier.nWaiting) := by
      refine inv_move h ?_ ?_ nofun nofun nofun
      · rw [hrunning]
      · rw [hrunning]
    have hothers : ∀ other, .arrived other s.round ∈ s.log ++ [.arrived thread s.round] ∨
        .unregistered other ∈ s.log ++ [.arrived thread s.round] := by
      intro other
      by_cases heq : other = thread
      · subst heq
        exact Or.inl (by simp)
      · refine Or.inr (List.mem_append_left _ (h.gone other ?_))
        have hactive := h.active
        have hcount := tally_update isActive s.threads thread .gone
        rw [hrunning] at hcount
        simp only [isActive, Bool.toNat_true, Bool.toNat_false, Nat.add_zero] at hcount
        have hzero : tally isActive (update s.threads thread .gone) = 0 := by omega
        rw [tally, Finset.card_eq_zero, Finset.filter_eq_empty_iff] at hzero
        have hother := hzero (Finset.mem_univ other)
        rw [update_of_ne heq] at hother
        cases hstate : s.threads other with
        | gone => rfl
        | _ =>
          rw [hstate] at hother
          exact absurd rfl hother
    have hleft : CountInv (move (move s thread .running (.arrived thread s.round) s.barrier.nActive s.barrier.nWaiting) thread .running
        (.left thread s.round) s.barrier.nActive s.barrier.nWaiting) := by
      refine inv_move harrived ?_ ?_ nofun nofun ?_
      · simp [move]
      · simp [move]
      · intro leaver round heq
        obtain ⟨rfl, rfl⟩ := BarrierEntry.left.inj heq
        exact hothers
    simpa only [move, update_idem, hself] using hleft
  · dsimp only
    split
    · -- The last to arrive waits, releases everyone and leaves.
      rename_i hlast
      have hrelease := inv_release henter fun other hother => by
        refine of_tally_le (isActive_of_waitsIn s.barrier.generation) ?_ hother
        have hactive := henter.active
        have hwaiting := henter.waiting
        simp only [move] at hactive hwaiting
        simp only [move]
        omega
      have hleave := inv_leave hrelease thread s.barrier.generation s.round
        (by simp [release, move]) (by simp [release, FlexBarrier.release, move])
      simpa only [move, release, FlexBarrier.release, update_idem, hself] using hleave
    · exact henter

/-- A step that is on time keeps the counters right. -/
theorem inv_step (s : BarrierState n) (e : BarrierEvent n) (next : BarrierState n) (h : CountInv s) (hok : s.OnTime e)
    (hstep : s.step e = some next) : CountInv next := by
  cases e with
  | arrive thread =>
    simp only [step] at hstep
    split at hstep
    · rename_i hrunning
      cases hstep
      exact inv_arrive h hrunning
    · cases hstep
  | wake thread =>
    simp only [step] at hstep
    split at hstep
    · rename_i myGen round hthread
      cases hstep
      unfold wake
      split
      · exact h
      · rename_i hover
        exact inv_leave h thread myGen round hthread hover
    · cases hstep
  | timeout thread =>
    simp only [step] at hstep
    split at hstep
    · rename_i myGen round hthread
      cases hstep
      exact inv_timeout h hthread (hok myGen round hthread)
    · cases hstep
  | unregister thread =>
    simp only [step] at hstep
    split at hstep
    · rename_i hrunning
      cases hstep
      exact inv_unregister h hrunning
    · cases hstep

/-- After a late timeout the counter is one too small. -/
theorem onTime_of_counted {e : BarrierEvent n} {next : BarrierState n} (h : s.Counted) (hstep : s.step e = some next)
    (hnext : next.Counted) : s.OnTime e := by
  cases e with
  | timeout thread =>
    simp only [step] at hstep
    split at hstep
    · rename_i myGen round hthread
      cases hstep
      have hcount := tally_update (waitsIn s.barrier.generation) s.threads thread .running
      have hbefore := h.1
      have hafter := hnext.1
      simp only [timeout] at hafter
      intro myGen' round' hthread'
      obtain ⟨rfl, rfl⟩ := waiting.inj (hthread.symm.trans hthread')
      by_contra hlate
      rw [hthread] at hcount
      simp only [waitsIn, hlate, decide_false, Bool.toNat_false, Nat.add_zero] at hcount
      omega
    · cases hstep
  | _ => trivial

theorem onTime_of_impossible {e : BarrierEvent n} (hstep : s.step e = none) : s.OnTime e := by
  cases e with
  | timeout thread =>
    intro myGen round hthread
    simp only [step, hthread] at hstep
    cases hstep
  | _ => trivial

end BarrierAux

open BarrierAux BarrierState

/-- In every run of any number of threads: the waiting counter is right in all states and nobody leaves a wait too early exactly when
no wait reports a timeout after its generation is over. -/
theorem flexBarrier_counts (n : Nat) (events : List (BarrierEvent n)) :
    (∀ front rest s, events = front ++ rest → Runs.run BarrierState.step (start n) front = some s → s.Counted ∧ Ordered s.log) ↔
      Runs.Meets BarrierState.step OnTime (start n) events := by
  constructor
  · intro hgood
    have hfrom : ∀ rest front s, events = front ++ rest → Runs.run BarrierState.step (start n) front = some s →
        Runs.Meets BarrierState.step OnTime s rest := by
      intro rest
      induction rest with
      | nil => exact fun _ _ _ _ => trivial
      | cons e rest ih =>
        intro front s heq hs
        have hnext : ∀ next ∈ s.step e, Runs.run BarrierState.step (start n) (front ++ [e]) = some next := fun next hnext =>
          Runs.run_append.mpr ⟨s, hs, Runs.run_cons_eq_some.mpr ⟨next, hnext, rfl⟩⟩
        have happend : events = (front ++ [e]) ++ rest := by simpa using heq
        refine ⟨?_, fun next hstep => ih _ _ happend (hnext next hstep)⟩
        cases hstep : s.step e with
        | none => exact onTime_of_impossible hstep
        | some next =>
          exact onTime_of_counted (hgood front _ s heq hs).1 hstep (hgood _ _ next happend (hnext next hstep)).1
    exact hfrom events [] _ rfl rfl
  · intro hmeets front rest s heq hs
    have hfront : Runs.Meets BarrierState.step OnTime (start n) front := by
      subst heq
      exact Runs.Meets.front hmeets
    have hinv := Runs.invariant CountInv inv_step (inv_start n) hfront hs
    exact ⟨counted_of_inv hinv, hinv.ordered⟩

/-- Two threads: the second to arrive releases the first, whose timed wait then reports a timeout all the same. -/
theorem flexBarrier_miscounts : ∃ s, Runs.run BarrierState.step (start 2) [.arrive 0, .arrive 1, .timeout 0] = some s ∧
    s.barrier.nWaiting = -1 ∧ ¬s.Counted := by
  refine ⟨_, rfl, rfl, fun hcounted => ?_⟩
  exact absurd hcounted.2.1 (by decide)

end EbpfSyscall.Replayer
