import EbpfSyscall.Replayer.Tables

/-!
# The table of pending mmap calls

`mmap_pending_clear` empties a slot and leaves the slots after it alone. A key whose walk went past the slot is then not found any more,
although it is still in the table.
-/

namespace EbpfSyscall.Replayer

open Probing List

/-- The value that was last set for a key and not cleared since. -/
def lastSet (calls : List PendingCall) : MmapPendingKey → Option MmapPending :=
  calls.foldl (fun m call => match call with
    | .set key val => Function.update m key (some val)
    | .get _ => m
    | .clear key => Function.update m key none) fun _ => none

/-- The slot of the key is on the way to another key that has a value. -/
def OnTheWay (t : MmapPendingTable) (key : MmapPendingKey) : Prop :=
  ∃ slot, locate mmapPendingHash t key = some slot ∧
    ∃ other, other ≠ key ∧ mmapPendingGet t other ≠ none ∧ Passes mmapPendingHash t other slot

namespace PendingTableAux

/-- A call as an operation on one key. -/
def op : PendingCall → Op MmapPendingKey MmapPending
  | .set key val => (key, fun _ => some val)
  | .get key => (key, id)
  | .clear key => (key, fun _ => none)

theorem apply_eq (t : MmapPendingTable) (call : PendingCall) : call.apply t = modify mmapPendingHash t (op call).1 (op call).2 := by
  cases call with
  | set key val => rfl
  | get key => exact (modify_id t key).symm
  | clear key => rfl

theorem pendingRun_eq (calls : List PendingCall) : pendingRun calls = run mmapPendingHash (calls.map op) := by
  rw [pendingRun, run, foldl_map]
  exact congrFun (congrFun (congrArg foldl (funext fun t => funext fun call => apply_eq t call)) _) _

theorem lastSet_eq (calls : List PendingCall) : lastSet calls = mapRun (calls.map op) := by
  rw [lastSet, mapRun, foldl_map]
  refine congrFun (congrFun (congrArg foldl (funext fun m => funext fun call => ?_)) _) _
  cases call with
  | set key val => rfl
  | get key => exact (Function.update_eq_self key m).symm
  | clear key => rfl

theorem cuts_op (t : MmapPendingTable) (call : PendingCall) : Cuts mmapPendingHash t (op call) ↔ (∃ key, call = .clear key ∧ OnTheWay t key) := by
  cases call with
  | set key val => simp [Cuts, op]
  | clear key => simp [Cuts, op, OnTheWay, mmapPendingGet]
  | get key =>
    refine ⟨?_, by simp⟩
    rintro ⟨hnone, slot, hlocate, other, -, -, hpasses⟩
    exact absurd hpasses (not_passes_of_get_none hlocate hnone)

/-- Calls that set at most `n` keys leave at most `n` values. -/
theorem within_of_length {n : Nat} {calls : List PendingCall} (h : calls.length ≤ n) : Within n (lastSet calls) := by
  have hkeys : ∀ key, lastSet calls key ≠ none → key ∈ calls.map fun call => (op call).1 := by
    induction calls using reverseRecOn with
    | nil => exact fun key hkey => absurd rfl hkey
    | append_singleton front call ih =>
      intro key hkey
      rw [lastSet_eq, map_append, map_singleton, mapRun_concat, ← lastSet_eq] at hkey
      rw [map_append, mem_append]
      by_cases heq : key = (op call).1
      · exact Or.inr (by simp [heq])
      · rw [Function.update_of_ne heq] at hkey
        exact Or.inl (ih (by simp at h; omega) key hkey)
  intro live hlive
  have hsub : live ⊆ (calls.map fun call => (op call).1).toFinset := fun key hkey => mem_toFinset.mpr (hkeys key (hlive key hkey))
  calc live.card ≤ (calls.map fun call => (op call).1).toFinset.card := Finset.card_le_card hsub
    _ ≤ (calls.map fun call => (op call).1).length := toFinset_card_le _
    _ ≤ n := by rwa [length_map]

end PendingTableAux

open PendingTableAux

/-- As long as there are no more keys than slots, the table is the finite map after every prefix of the calls exactly if no clear
empties a slot on the way to another key. -/
theorem mmapPending_isMap (calls : List PendingCall) (hcapacity : ∀ front, front <+: calls → Within mmapPendingMax (lastSet front)) :
    (∀ front, front <+: calls → ∀ key, mmapPendingGet (pendingRun front) key = lastSet front key) ↔
      ∀ front key, front ++ [.clear key] <+: calls → ¬OnTheWay (pendingRun front) key := by
  have hwithin : ∀ front, front <+: calls.map op → Within mmapPendingMax (mapRun front) := by
    intro front hfront
    obtain ⟨front', hfront', rfl⟩ := List.prefix_map_iff.mp hfront
    rw [← lastSet_eq]
    exact hcapacity front' hfront'
  have hrefines := run_refines_iff mmapPendingHash hwithin
  constructor
  · intro hall front key hfront hway
    refine hrefines.mp ?_ (front.map op) (op (.clear key)) ?_ ?_
    · intro other hother
      obtain ⟨other', hother', rfl⟩ := List.prefix_map_iff.mp hother
      rw [← pendingRun_eq, ← lastSet_eq]
      exact funext (hall other' hother')
    · exact List.prefix_map_iff.mpr ⟨_, hfront, by simp⟩
    · rw [← pendingRun_eq, cuts_op]
      exact ⟨key, rfl, hway⟩
  · intro hway front hfront key
    rw [lastSet_eq, pendingRun_eq]
    refine congrFun (hrefines.mpr ?_ (front.map op) (hfront.map op)) key
    intro before cut hbefore hcuts
    obtain ⟨before', call, rfl, rfl, hfront'⟩ := exists_call hbefore
    rw [← pendingRun_eq, cuts_op] at hcuts
    obtain ⟨key, rfl, honTheWay⟩ := hcuts
    exact hway before' key hfront' honTheWay

/-- Without a clear, a key that was set is found. -/
theorem mmapPending_isMap_sample : mmapPendingGet (pendingRun [.set ⟨7, 100⟩ ⟨1, 2, 4096, -1, 0⟩, .get ⟨7, 100⟩]) ⟨7, 100⟩ =
    lastSet [.set ⟨7, 100⟩ ⟨1, 2, 4096, -1, 0⟩, .get ⟨7, 100⟩] ⟨7, 100⟩ := by
  refine (mmapPending_isMap _ fun front hfront => within_of_length (hfront.length_le.trans (by decide))).mpr ?_ _ (List.prefix_refl _) _
  intro front key hfront
  have hmem := hfront.subset (List.mem_append_right front (List.mem_singleton.mpr rfl))
  simp at hmem

/-- Two keys with the same hash: once the first is cleared, the second is not found, although it was set and not cleared. -/
theorem mmapPending_loses : ∃ calls key val, (∀ front, front <+: calls → Within mmapPendingMax (lastSet front)) ∧
    lastSet calls key = some val ∧ mmapPendingGet (pendingRun calls) key = none := by
  refine ⟨[.set ⟨0, 0⟩ ⟨1, 2, 4096, -1, 0⟩, .set ⟨0, 1024⟩ ⟨1, 2, 8192, -1, 0⟩, .clear ⟨0, 0⟩], ⟨0, 1024⟩, ⟨1, 2, 8192, -1, 0⟩, ?_, ?_, ?_⟩
  · exact fun front hfront => within_of_length (hfront.length_le.trans (by decide))
  · decide +kernel
  · decide +kernel

end EbpfSyscall.Replayer
