import EbpfSyscall.Replayer.Tables

/-!
# The map of descriptors

A captured open may return any number, and it is stored at the slot of its lowest 16 bits or after it; a close clears only numbers below
65536. So a large number can stand in the slot of a small one for good, push it to the next slot, and closing what stands there makes the
numbers behind it unreachable. As long as no close empties a slot on the way to another open number, the table is a map of stacks.
-/

namespace EbpfSyscall.Replayer

open Probing List

/-- The replayed descriptors of the opens of a captured number that have not been closed, the latest first. -/
def openStack (calls : List FdCall) : Int32 → List Int32 :=
  calls.foldl (fun m call => match call with
    | .opened capturedFd replayedFd => Function.update m capturedFd (replayedFd :: m capturedFd)
    | .closed capturedFd replayedFd => Function.update m capturedFd ((m capturedFd).erase replayedFd)
    | .lookup _ => m) fun _ => []

/-- The captured numbers of the opens. -/
def openedFds (calls : List FdCall) : List Int32 := calls.filterMap fun
  | .opened capturedFd _ => some capturedFd
  | _ => none

/-- Closing this descriptor empties a slot on the way to another number that is open. -/
def EmptiesWay (fdmap : FdMap) (capturedFd replayedFd : Int32) : Prop :=
  FdMap.entry (((Probing.get fdHash fdmap capturedFd).getD []).erase replayedFd) = none ∧
    ∃ slot, locate fdHash fdmap capturedFd = some slot ∧
      ∃ other, other ≠ capturedFd ∧ Probing.get fdHash fdmap other ≠ none ∧ Passes fdHash fdmap other slot

namespace FdMapAux

/-- A call as an operation on one captured number. -/
def op : FdCall → Op Int32 (List Int32)
  | .opened capturedFd replayedFd => (capturedFd, fun stack =>
      FdMap.entry (if replayedFd < 0 then (stack.getD []).tail else FdMap.push replayedFd (stack.getD [])))
  | .closed capturedFd replayedFd => (capturedFd, fun stack => FdMap.entry ((stack.getD []).erase replayedFd))
  | .lookup capturedFd => (capturedFd, id)

theorem apply_eq (fdmap : FdMap) (call : FdCall) : call.apply fdmap = modify fdHash fdmap (op call).1 (op call).2 := by
  cases call with
  | opened capturedFd replayedFd => rfl
  | closed capturedFd replayedFd => rfl
  | lookup capturedFd => exact (modify_id fdmap capturedFd).symm

theorem fdRun_eq (calls : List FdCall) : fdRun calls = run fdHash (calls.map op) := by
  rw [fdRun, run, foldl_map]
  exact congrFun (congrFun (congrArg foldl (funext fun fdmap => funext fun call => apply_eq fdmap call)) _) _

theorem openStack_concat (calls : List FdCall) (call : FdCall) : openStack (calls ++ [call]) = match call with
    | .opened capturedFd replayedFd =>
      Function.update (openStack calls) capturedFd (replayedFd :: openStack calls capturedFd)
    | .closed capturedFd replayedFd =>
      Function.update (openStack calls) capturedFd ((openStack calls capturedFd).erase replayedFd)
    | .lookup _ => openStack calls := by
  rw [openStack, foldl_append]
  rfl

@[simp] theorem getD_entry (stack : List Int32) : (FdMap.entry stack).getD [] = stack := by
  by_cases h : stack = [] <;> simp [FdMap.entry, h]

/-- Entries of updated stacks. -/
theorem entry_update (m : Int32 → List Int32) (fd : Int32) (stack : List Int32) :
    Function.update (fun other => FdMap.entry (m other)) fd (FdMap.entry stack) =
      fun other => FdMap.entry (Function.update m fd stack other) := by
  funext other
  by_cases h : other = fd
  · subst h
    simp
  · simp [h]

variable {calls : List FdCall} {fd : Int32}

/-- With at most 64 opens of a number at a time, the finite map holds the stacks. -/
theorem mapRun_eq (hdispatched : ∀ call ∈ calls, call.Dispatched) (hnested : ∀ front, front <+: calls → ∀ fd, (openStack front fd).length ≤ 64) :
    mapRun (calls.map op) = fun fd => FdMap.entry (openStack calls fd) := by
  induction calls using reverseRecOn with
  | nil => rfl
  | append_singleton front call ih =>
    have hfront := ih (fun c hc => hdispatched c (mem_append_left _ hc))
      fun before hbefore => hnested before (hbefore.trans (prefix_append front [call]))
    rw [map_append, map_singleton, mapRun_concat, hfront, openStack_concat]
    cases call with
    | opened capturedFd replayedFd =>
      obtain ⟨-, hreplayed⟩ : 0 ≤ capturedFd ∧ 0 ≤ replayedFd := hdispatched (.opened capturedFd replayedFd) (by simp)
      have hlength : (openStack front capturedFd).length < 64 := by
        have hle := hnested _ (prefix_refl _) capturedFd
        rw [openStack_concat] at hle
        simpa using hle
      rw [← entry_update]
      simp only [op, getD_entry]
      rw [if_neg (by simpa using hreplayed), FdMap.push, if_pos hlength]
    | closed capturedFd replayedFd =>
      rw [← entry_update]
      simp only [op, getD_entry]
    | lookup capturedFd => exact Function.update_eq_self _ _

theorem cuts_op (fdmap : FdMap) (call : FdCall) (hdispatched : call.Dispatched) (hcuts : Cuts fdHash fdmap (op call)) :
    ∃ capturedFd replayedFd, call = .closed capturedFd replayedFd ∧ EmptiesWay fdmap capturedFd replayedFd := by
  cases call with
  | opened capturedFd replayedFd =>
    obtain ⟨hnone, -⟩ := hcuts
    have hsome : FdMap.push replayedFd ((Probing.get fdHash fdmap capturedFd).getD []) ≠ [] := by
      rw [FdMap.push]
      split <;> simp
    simp only [op] at hnone
    rw [if_neg (by simpa using hdispatched.2), FdMap.entry, if_neg hsome] at hnone
    cases hnone
  | closed capturedFd replayedFd => exact ⟨capturedFd, replayedFd, rfl, hcuts⟩
  | lookup capturedFd =>
    obtain ⟨hnone, slot, hlocate, other, -, -, hpasses⟩ := hcuts
    exact absurd hpasses (not_passes_of_get_none hlocate hnone)

/-- Only numbers that were opened have a stack. -/
theorem mem_openedFds (h : openStack calls fd ≠ []) : fd ∈ openedFds calls := by
  induction calls using reverseRecOn with
  | nil => exact absurd rfl h
  | append_singleton front call ih =>
    rw [openStack_concat] at h
    rw [openedFds, filterMap_append, mem_append]
    cases call with
    | opened capturedFd replayedFd =>
      by_cases heq : fd = capturedFd
      · exact Or.inr (by simp [heq])
      · exact Or.inl (ih (by simpa [heq] using h))
    | closed capturedFd replayedFd =>
      refine Or.inl (ih ?_)
      by_cases heq : fd = capturedFd
      · subst heq
        intro hnil
        simp [hnil] at h
      · simpa [heq] using h
    | lookup capturedFd => exact Or.inl (ih h)

theorem length_openStack_le (calls : List FdCall) (fd : Int32) : (openStack calls fd).length ≤ calls.length := by
  induction calls using reverseRecOn with
  | nil => exact Nat.le_refl 0
  | append_singleton front call ih =>
    rw [openStack_concat, length_append, length_singleton]
    cases call with
    | opened capturedFd replayedFd =>
      by_cases heq : fd = capturedFd
      · subst heq
        simpa using ih
      · simpa [heq] using Nat.le_succ_of_le ih
    | closed capturedFd replayedFd =>
      by_cases heq : fd = capturedFd
      · subst heq
        have hle := length_erase_le (a := replayedFd) (l := openStack front fd)
        simp only [Function.update_self]
        omega
      · simpa [heq] using Nat.le_succ_of_le ih
    | lookup capturedFd => exact Nat.le_succ_of_le ih

/-- Replayed descriptors on a stack are not negative. -/
theorem nonneg_of_mem (hdispatched : ∀ call ∈ calls, call.Dispatched) {replayedFd : Int32}
    (h : replayedFd ∈ openStack calls fd) : 0 ≤ replayedFd := by
  induction calls using reverseRecOn with
  | nil => cases h
  | append_singleton front call ih =>
    have hfront := ih fun c hc => hdispatched c (mem_append_left _ hc)
    rw [openStack_concat] at h
    cases call with
    | opened capturedFd other =>
      by_cases heq : fd = capturedFd
      · subst heq
        rcases mem_cons.mp (by simpa using h) with rfl | hin
        · exact (hdispatched _ (mem_append_right front (mem_singleton.mpr rfl))).2
        · exact hfront hin
      · exact hfront (by simpa [heq] using h)
    | closed capturedFd other =>
      by_cases heq : fd = capturedFd
      · subst heq
        exact hfront (mem_of_mem_erase (by simpa using h))
      · exact hfront (by simpa [heq] using h)
    | lookup capturedFd => exact hfront h

/-! ## Numbers below the number of slots -/

/-- A small number is its own hash. -/
theorem fdHash_small (hnonneg : 0 ≤ fd) (hsmall : fd < 65536) : ((fdHash fd).val : Int) = fd.toInt := by
  have hnonneg' : 0 ≤ fd.toInt := by simpa [Int32.le_iff_toInt_le] using hnonneg
  have hsmall' : fd.toInt < 65536 := by simpa [Int32.lt_iff_toInt_lt] using hsmall
  have hunsigned : (fd.toUInt32.toNat : Int) = fd.toInt := by
    show (fd.toBitVec.toNat : Int) = fd.toBitVec.toInt
    change 0 ≤ fd.toBitVec.toInt at hnonneg'
    rw [BitVec.toInt_eq_toNat_cond] at hnonneg' ⊢
    split at hnonneg' <;> simp_all
    omega
  have hmask : (65535 : UInt32).toNat = 2 ^ 16 - 1 := by decide
  rw [fdHash, Fin.val_ofNat, UInt32.toNat_and, hmask, Nat.and_two_pow_sub_one_eq_mod]
  simp only [fdMapBuckets]
  omega

theorem fdHash_injective {other : Int32} (hfd : 0 ≤ fd ∧ fd < 65536) (hother : 0 ≤ other ∧ other < 65536)
    (h : fdHash fd = fdHash other) : fd = other := by
  have hsame := fdHash_small hfd.1 hfd.2
  rw [h, fdHash_small hother.1 hother.2] at hsame
  exact Int32.toInt_inj.mp hsame.symm

/-- Every entry is of a small number and at the slot of its hash. -/
def AtHome (fdmap : FdMap) : Prop := ∀ slot fd stack, fdmap slot = some (fd, stack) → fdHash fd = slot ∧ 0 ≤ fd ∧ fd < 65536

theorem atHome_modify {fdmap : FdMap} (h : AtHome fdmap) (hfd : 0 ≤ fd ∧ fd < 65536)
    (f : Option (List Int32) → Option (List Int32)) : AtHome (modify fdHash fdmap fd f) := by
  have hstops : stops fdmap fd (slotAt fdHash fd 0) = true := by
    rw [stops_iff, slotAt, Fin.ofNat_zero, add_zero]
    rintro ⟨other, stack⟩ hentry
    obtain ⟨hhash, hother⟩ := h _ _ _ hentry
    exact fdHash_injective hother hfd hhash
  have hlocate : locate fdHash fdmap fd = some (slotAt fdHash fd 0) :=
    locate_eq_some.mpr ⟨0, by decide, rfl, hstops, fun j hj => absurd hj (Nat.not_lt_zero j)⟩
  intro slot other stack hentry
  rw [modify_of_locate hlocate] at hentry
  by_cases heq : slot = slotAt fdHash fd 0
  · rw [heq, Function.update_self] at hentry
    obtain ⟨stack', -, hpair⟩ := Option.map_eq_some_iff.mp hentry
    obtain ⟨rfl, rfl⟩ := Prod.mk.inj hpair
    refine ⟨?_, hfd⟩
    rw [heq, slotAt, Fin.ofNat_zero, add_zero]
  · rw [Function.update_of_ne heq] at hentry
    exact h _ _ _ hentry

/-- The calls are about small numbers. -/
def SmallFds (calls : List FdCall) : Prop := ∀ call ∈ calls, 0 ≤ (op call).1 ∧ (op call).1 < 65536

theorem atHome_fdRun (h : SmallFds calls) : AtHome (fdRun calls) := by
  induction calls using reverseRecOn with
  | nil => exact fun slot fd stack hentry => by cases hentry
  | append_singleton front call ih =>
    rw [fdRun_eq, map_append, map_singleton, run_concat, ← fdRun_eq]
    exact atHome_modify (ih fun c hc => h c (mem_append_left _ hc)) (h call (by simp)) _

/-- As long as all numbers are small, every number is at its own slot and no walk goes past one. -/
theorem not_emptiesWay_of_small (h : SmallFds calls) (capturedFd replayedFd : Int32) : ¬EmptiesWay (fdRun calls) capturedFd replayedFd := by
  rintro ⟨-, slot, -, other, -, hlive, i, -, -, hbefore⟩
  obtain ⟨stack, hstack⟩ := Option.ne_none_iff_exists'.mp hlive
  rw [Probing.get, Option.bind_eq_some_iff] at hstack
  obtain ⟨slot', hlocate, hvalue⟩ := hstack
  obtain ⟨⟨fd, stack'⟩, hentry, rfl⟩ := Option.map_eq_some_iff.mp hvalue
  obtain ⟨j, -, -, hstops, -⟩ := locate_eq_some.mp hlocate
  obtain rfl : fd = other := stops_iff.mp hstops _ hentry
  have hfirst := hbefore 0 (Nat.zero_le i)
  rw [slotAt, Fin.ofNat_zero, add_zero, (atHome_fdRun h slot' fd stack' hentry).1, hstops] at hfirst
  cases hfirst

end FdMapAux

open FdMapAux

/-- If no close empties a slot on the way to another open number, a lookup finds the latest open of a number below 65536 that has not
been closed, and nothing exactly if there is none. -/
theorem fdMap_isMap (calls : List FdCall) (hdispatched : ∀ call ∈ calls, call.Dispatched) (hdistinct : (openedFds calls).toFinset.card ≤ fdMapBuckets)
    (hnested : ∀ front, front <+: calls → ∀ fd, (openStack front fd).length ≤ 64)
    (hway : ∀ front capturedFd replayedFd, front ++ [.closed capturedFd replayedFd] <+: calls →
      ¬EmptiesWay (fdRun front) capturedFd replayedFd) :
    ∀ front, front <+: calls → ∀ fd, 0 ≤ fd → fd < 65536 →
      resolveFd (fdRun front) fd = (openStack front fd).head?.getD (-1) ∧
        (resolveFd (fdRun front) fd = -1 ↔ openStack front fd = []) := by
  have hmap : ∀ front, front <+: calls → mapRun (front.map op) = fun fd => FdMap.entry (openStack front fd) := fun front hfront =>
    mapRun_eq (fun call hcall => hdispatched call (hfront.subset hcall)) fun before hbefore => hnested before (hbefore.trans hfront)
  have hwithin : ∀ front, front <+: calls.map op → Within fdMapBuckets (mapRun front) := by
    intro front hfront live hlive
    obtain ⟨front', hfront', rfl⟩ := List.prefix_map_iff.mp hfront
    rw [hmap front' hfront'] at hlive
    refine (Finset.card_le_card fun fd hfd => ?_).trans hdistinct
    have hstack : openStack front' fd ≠ [] := fun hnil => hlive fd hfd (by simp [hnil, FdMap.entry])
    exact List.mem_toFinset.mpr ((hfront'.filterMap _).subset (mem_openedFds hstack))
  have hcut : ∀ front cut, front ++ [cut] <+: calls.map op → ¬Cuts fdHash (run fdHash front) cut := by
    intro front cut hfront hcuts
    obtain ⟨before, call, rfl, rfl, hfront'⟩ := exists_call hfront
    rw [← fdRun_eq] at hcuts
    obtain ⟨capturedFd, replayedFd, rfl, hempties⟩ :=
      cuts_op _ call (hdispatched call (hfront'.subset (by simp))) hcuts
    exact hway before capturedFd replayedFd hfront' hempties
  intro front hfront fd hnonneg hsmall
  have hget := congrFun (run_refines hwithin hcut (front.map op) (hfront.map op)).2 fd
  rw [← fdRun_eq, hmap front hfront] at hget
  change _ = FdMap.entry (openStack front fd) at hget
  have hlookup : resolveFd (fdRun front) fd = (openStack front fd).head?.getD (-1) := by
    rw [resolveFd, if_pos ⟨hnonneg, hsmall⟩, FdMap.get, hget]
    cases openStack front fd <;> rfl
  refine ⟨hlookup, ?_⟩
  rw [hlookup]
  cases hstack : openStack front fd with
  | nil => simp
  | cons top rest =>
    have htop : 0 ≤ top := nonneg_of_mem (fun call hcall => hdispatched call (hfront.subset hcall)) (by rw [hstack]; simp)
    constructor
    · rintro hneg
      rw [show top = -1 from hneg] at htop
      exact absurd htop (by decide)
    · intro hnil
      cases hnil

/-- Two opens that return 3 at the same time, one close, and an open that returns 5. -/
theorem fdMap_isMap_sample : resolveFd (fdRun [.opened 3 10, .opened 3 11, .closed 3 11, .opened 5 12]) 3 = 10 ∧
      openStack [.opened 3 10, .opened 3 11, .closed 3 11, .opened 5 12] 3 = [10] := by
  have hsmall : SmallFds [.opened 3 10, .opened 3 11, .closed 3 11, .opened 5 12] := by
    intro call hcall
    fin_cases hcall <;> decide
  have hstack : openStack [.opened 3 10, .opened 3 11, .closed 3 11, .opened 5 12] 3 = [10] := by decide
  have hmap := fdMap_isMap [.opened 3 10, .opened 3 11, .closed 3 11, .opened 5 12] (by
      intro call hcall
      fin_cases hcall <;> exact ⟨by decide, by decide⟩) (by decide)
    (fun front hfront fd => (length_openStack_le front fd).trans (hfront.length_le.trans (by decide)))
    (fun front capturedFd replayedFd hfront =>
      not_emptiesWay_of_small (fun call hcall => hsmall call (hfront.subset (List.mem_append_left _ hcall))) _ _)
    _ (List.prefix_refl _) 3 (by decide) (by decide)
  rw [hstack] at hmap
  exact ⟨hmap.1, hstack⟩

/-- A captured open returns 65541, which stands in the slot of 5; 5 and 6 move one slot further, and after 5 has been closed 6 is not
found, although it is open. -/
theorem fdMap_loses : ∃ calls : List FdCall, (∀ call ∈ calls, call.Dispatched) ∧ (openedFds calls).toFinset.card ≤ fdMapBuckets ∧
    (∀ front, front <+: calls → ∀ fd, (openStack front fd).length ≤ 64) ∧ openStack calls 6 = [12] ∧ resolveFd (fdRun calls) 6 = -1 := by
  refine ⟨[.opened 65541 10, .opened 5 11, .opened 6 12, .closed 5 11], ?_, by decide, ?_, by decide, by decide +kernel⟩
  · intro call hcall
    fin_cases hcall <;> exact ⟨by decide, by decide⟩
  · exact fun front hfront fd => (length_openStack_le front fd).trans (hfront.length_le.trans (by decide))

end EbpfSyscall.Replayer
