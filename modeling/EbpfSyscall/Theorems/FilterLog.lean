import EbpfSyscall.Lemmas.FilterLog

/-!
# What the filter of system call logs keeps

No record is lost or invented. The writes to a descriptor may change their order: one that is written at once overtakes those that are
put off.
-/

namespace EbpfSyscall.FilterLog

open FilterAux List

namespace FilterAux

theorem selected_sublist (targetProcess : List Text) (targetPid : Option Int) (data : List Record) :
    (selected targetProcess targetPid data).Sublist data := by
  have hprocess : (if targetProcess = [] then data else data.filter (Record.ofProcess targetProcess)).Sublist data := by
    split
    · exact Sublist.refl data
    · exact filter_sublist
  cases targetPid with
  | none => exact hprocess
  | some pid => exact filter_sublist.trans hprocess

theorem map_fst_filter_zipIdx (p : Record → Bool) (data : List Record) : (data.zipIdx.filter fun item => p item.1).map Prod.fst = data.filter p := by
  have hmap := filter_map (f := Prod.fst) (p := p) (l := data.zipIdx)
  rw [zipIdx_map_fst] at hmap
  exact hmap.symm

end FilterAux

/-- The output is, as a multiset, the records that pass the filters and are not exits; the entries of `openat` may differ in their return
values. -/
theorem filterLog_conserves {data : List Record} (targetProcess : List Text) (targetPid : Option Int) (lookahead : Int)
    (hmarker : ∀ r ∈ data, r.entries.get marker = none) :
    Multiset.Rel Image ((selected targetProcess targetPid data).filter fun r => !isExit r : List Record)
      (filterLog data targetProcess targetPid lookahead : List Dict) := by
  have hsub : ∀ r ∈ selected targetProcess targetPid data, r ∈ data := fun r hr => (selected_sublist targetProcess targetPid data).mem hr
  generalize hpassed : selected targetProcess targetPid data = passed at hsub ⊢
  have hheld := held_stateAfter lookahead (fun r hr => hmarker r (hsub r hr)) passed.length
  have hkept : held (stateAfter passed lookahead passed.length) = (keptOf passed lookahead : Multiset Kept) := by
    rw [held, keptOf, Multiset.coe_add, Multiset.coe_eq_coe]
    exact ((Buckets.sweep_perm _ keyLe).map _).symm.append_left _
  rw [hkept, List.take_length] at hheld
  have himage := Multiset.rel_map.mpr (hheld.mono fun item _ k _ hk => hk.2)
  rw [Multiset.map_coe, Multiset.map_coe, map_fst_filter_zipIdx fun r => !isExit r] at himage
  rw [filterLog, hpassed]
  exact himage

/-- A write of pid 1 to descriptor 3. -/
def sampleWrite (offset : Int) : Record where
  entries := [("fd".toList, .int 3), ("offset".toList, .int offset), ("pid".toList, .int 1), ("syscall_nr".toList, .int 1)]
  pid := 1
  recPid_eq := rfl
  intFd := rfl
  intRet := fun _ => .inl rfl
  hashes := ⟨rfl, rfl⟩

/-- The exit of the `openat` that returns descriptor 3. -/
def sampleOpenatExit : Record where
  entries := [("filename".toList, .str []), ("pid".toList, .int 1), ("ret".toList, .int 3), ("syscall_nr".toList, .int 257)]
  pid := 1
  recPid_eq := by decide
  intFd := by decide
  intRet := by decide
  hashes := by decide

/-- Its entry. -/
def sampleOpenatEntry : Record where
  entries := [("filename".toList, .str "a".toList), ("pid".toList, .int 1), ("syscall_nr".toList, .int 257)]
  pid := 1
  recPid_eq := by decide
  intFd := by decide
  intRet := by decide
  hashes := by decide

theorem filterLog_conserves_openat : Multiset.Rel Image ([sampleOpenatEntry, sampleWrite 0] : List Record)
      ([sampleOpenatEntry.entries.set "ret" (.int 3), (sampleWrite 0).entries] : List Dict) := by
  have h := filterLog_conserves [] none defaultLookahead
    (show ∀ r ∈ [sampleOpenatEntry, sampleWrite 0, sampleOpenatExit], r.entries.get marker = none by decide)
  have hinput : (selected [] none [sampleOpenatEntry, sampleWrite 0, sampleOpenatExit]).filter (fun r => !isExit r) =
      [sampleOpenatEntry, sampleWrite 0] := by decide +kernel
  have houtput : filterLog [sampleOpenatEntry, sampleWrite 0, sampleOpenatExit] [] none defaultLookahead =
      [sampleOpenatEntry.entries.set "ret" (.int 3), (sampleWrite 0).entries] := by decide +kernel
  rwa [hinput, houtput] at h

/-- A write that is kept at once although its descriptor is not open: no exit of an `openat` that returns it comes soon. -/
structure EmittedDirectly (data : List Record) (lookahead : Int) (st : State) (idx : Nat) (r : Record) : Prop where
  write : isWrite r.entries = true
  entry : isGenericExit r.entries = false
  closed : r.fd ∉ st.pidRegistered r.pid
  missing : hasSamePidOpenat data lookahead idx r = false

namespace FilterAux

/-- What one record does to the order of the writes. -/
theorem ordered_step {data : List Record} {lookahead : Int} {st : State} {idx : Nat} (h : Tidy idx st) (r : Record) :
    (∀ pid fd, (places pid fd (step data lookahead st idx r)).Pairwise (· < ·)) ↔
      (∀ pid fd, (places pid fd st).Pairwise (· < ·)) ∧
        (EmittedDirectly data lookahead st idx r → Buckets.bucket st.deferredWrites (r.pid, r.fd) = []) := by
  constructor
  · refine fun hordered => ⟨fun pid fd => ?_, fun hdirect => ?_⟩
    · have hnew := hordered pid fd
      rcases places_step data lookahead h r pid fd with ⟨-, heq⟩ | ⟨-, heq⟩ | ⟨-, -, -, heq⟩
      · rwa [heq] at hnew
      · rw [heq] at hnew
        exact hnew.sublist (sublist_append_left _ _)
      · rw [heq] at hnew
        exact hnew.sublist ((sublist_cons_self idx _).append_left _)
    · have hexit : isExit r = false := by
        rw [isExit, hdirect.entry, isOpenatExit, not_openat_of_isWrite hdirect.write]
        rfl
      have hwrite : isWriteOf r.pid r.fd r.entries = true := (isWriteOf_record r).mpr ⟨hdirect.write, rfl, rfl⟩
      have hahead : ¬Defers data lookahead st idx r := fun hdefers => by
        have := hdefers.ahead
        rw [hdirect.missing] at this
        cases this
      have hnew := hordered r.pid r.fd
      rcases places_step data lookahead h r r.pid r.fd with ⟨hnot, -⟩ | ⟨hdefers, -⟩ | ⟨-, -, -, heq⟩
      · exact absurd ⟨hexit, hwrite⟩ hnot
      · exact absurd hdefers hahead
      · rw [heq, pairwise_append, pairwise_cons] at hnew
        -- The places that wait are smaller than the one of this record, so that none can follow it.
        have hnone : deferredPlaces r.pid r.fd st = [] := by
          refine eq_nil_iff_forall_not_mem.mpr fun place hplace => ?_
          have hlt := h.before r.pid r.fd place (mem_append_right _ hplace)
          exact absurd (hnew.2.1.1 place hplace) (by omega)
        exact map_eq_nil_iff.mp hnone
  · rintro ⟨hordered, hdirect⟩ pid fd
    have hbefore := h.before pid fd
    have hold := hordered pid fd
    rcases places_step data lookahead h r pid fd with ⟨-, heq⟩ | ⟨-, heq⟩ | ⟨hexit, hwrite, hdefers, heq⟩
    · rw [heq]
      exact hold
    · rw [heq, pairwise_append]
      refine ⟨hold, pairwise_singleton _ _, fun place hplace other hother => ?_⟩
      rw [mem_singleton.mp hother]
      exact hbefore place hplace
    · obtain ⟨hisWrite, rfl, rfl⟩ := (isWriteOf_record r).mp hwrite
      have hempty : Buckets.bucket st.deferredWrites (r.pid, r.fd) = [] := by
        by_cases hopen : r.fd ∈ st.pidRegistered r.pid
        · exact h.registered r.pid r.fd hopen
        · refine hdirect ⟨hisWrite, (Bool.or_eq_false_iff.mp hexit).2, hopen, ?_⟩
          rw [← Bool.not_eq_true]
          exact fun hahead => hdefers ⟨hisWrite, hopen, hahead⟩
      have hnone : deferredPlaces r.pid r.fd st = [] := by rw [deferredPlaces, hempty, map_nil]
      rw [places, hnone, append_nil] at hold
      rw [heq, hnone, pairwise_append]
      refine ⟨hold, pairwise_singleton _ _, fun place hplace other hother => ?_⟩
      rw [mem_singleton.mp hother]
      exact hbefore place (mem_append_left _ hplace)

theorem ordered_stateAfter (data : List Record) (lookahead : Int) {count : Nat} (hcount : count ≤ data.length) :
    (∀ pid fd, (places pid fd (stateAfter data lookahead count)).Pairwise (· < ·)) ↔
      ∀ idx r, idx < count → data[idx]? = some r → EmittedDirectly data lookahead (stateAfter data lookahead idx) idx r →
        Buckets.bucket (stateAfter data lookahead idx).deferredWrites (r.pid, r.fd) = [] := by
  induction count with
  | zero =>
    refine ⟨fun _ idx r hidx => absurd hidx (Nat.not_lt_zero idx), fun _ pid fd => ?_⟩
    exact Pairwise.nil
  | succ count ih =>
    have hr := getElem?_eq_getElem hcount
    rw [stateAfter_succ hr, ordered_step (tidy_stateAfter data lookahead (Nat.le_of_succ_le hcount)), ih (Nat.le_of_succ_le hcount)]
    constructor
    · rintro ⟨hbefore, hlast⟩ idx r hidx hget
      rcases Nat.lt_succ_iff_lt_or_eq.mp hidx with hlt | rfl
      · exact hbefore idx r hlt hget
      · rw [hr] at hget
        cases hget
        exact hlast
    · intro hall
      exact ⟨fun idx r hidx => hall idx r (hidx.trans (Nat.lt_succ_self count)), hall count _ (Nat.lt_succ_self count) hr⟩

/-- The writes of a descriptor in the output. -/
theorem places_keptOf (data : List Record) (lookahead : Int) (pid fd : Int) :
    ((keptOf data lookahead).filter fun k => isWriteOf pid fd k.entries).map Kept.place =
      places pid fd (stateAfter data lookahead data.length) := by
  have htidy := tidy_stateAfter data lookahead le_rfl
  rw [keptOf]
  generalize stateAfter data lookahead data.length = st at *
  have hsweep : (Buckets.sweep keyLe st.deferredWrites).filter (fun k => isWriteOf pid fd k.unmark.entries) =
      Buckets.bucket st.deferredWrites (pid, fd) := by
    refine Buckets.filter_sweep _ _ _ (fun k hk => (htidy.writes pid fd k hk pid fd).mpr ⟨rfl, rfl⟩) fun key hkey k hk => ?_
    rw [← Bool.not_eq_true]
    intro hwrite
    obtain ⟨rfl, rfl⟩ := (htidy.writes key.1 key.2 k hk pid fd).mp hwrite
    exact hkey rfl
  rw [filter_append, map_append, filter_map, map_map]
  refine congrArg _ ?_
  rw [deferredPlaces, ← hsweep]
  rfl

end FilterAux

/-- The writes of every pid to every descriptor come out in the order of their places in the input exactly when no write is kept at once
while earlier ones of its pid to its descriptor are put off. -/
theorem filterLog_keepsOrder_iff (data : List Record) (targetProcess : List Text) (targetPid : Option Int) (lookahead : Int) :
    let passed := selected targetProcess targetPid data
    (∀ pid fd, (((keptOf passed lookahead).filter fun k => isWriteOf pid fd k.entries).map Kept.place).Pairwise (· < ·)) ↔
      ∀ idx r, passed[idx]? = some r → EmittedDirectly passed lookahead (stateAfter passed lookahead idx) idx r →
        Buckets.bucket (stateAfter passed lookahead idx).deferredWrites (r.pid, r.fd) = [] := by
  intro passed
  simp only [places_keptOf]
  rw [ordered_stateAfter passed lookahead le_rfl]
  refine forall_congr' fun idx => forall_congr' fun r => ⟨fun h hget => ?_, fun h _ => h⟩
  exact h (List.getElem?_eq_some_iff.mp hget).1 hget

/-- The first write waits for the `openat`, whose exit comes before the second write and whose entry comes after it. -/
theorem filterLog_keepsOrder_not :
    ¬∀ pid fd, (((keptOf (selected [] none [sampleWrite 0, sampleOpenatExit, sampleWrite 1, sampleOpenatEntry]) defaultLookahead).filter
      fun k => isWriteOf pid fd k.entries).map Kept.place).Pairwise (· < ·) := by
  intro h
  have hpair := h 1 3
  revert hpair
  decide +kernel

end EbpfSyscall.FilterLog
