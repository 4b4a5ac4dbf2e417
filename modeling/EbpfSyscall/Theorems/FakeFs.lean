import EbpfSyscall.Kvio.FakeFs
import EbpfSyscall.Lemmas.Workload3
import EbpfSyscall.Lib.Directories
import EbpfSyscall.Theorems.Simulated

/-!
# The name space of the in-memory file system

Every operation of a valid workload returns. It edits the name space in one of a few ways, and all but three of them keep a tree. A file
that is created may take the name of a directory, and a rename looks neither at the target nor at what is below a directory.
-/

namespace EbpfSyscall.Kvio

open Checked Directories Workload3

namespace FakeFsAux

/-! ## Paths -/

theorem parentOf_eq (path : Text) : parentOf path = rootDir ∨ (parentOf path).length < path.length := by
  unfold parentOf
  dsimp only
  split
  · exact Or.inl rfl
  · next hne =>
    refine Or.inr ?_
    rw [List.length_reverse, List.length_drop]
    have hdrop : (path.reverse.dropWhile fun c => c ≠ '/').length ≤ path.length :=
      (List.dropWhile_sublist _).length_le.trans (List.length_reverse ..).le
    have hpos : 0 < ((path.reverse.dropWhile fun c => c ≠ '/').drop 1).reverse.length := List.length_pos_iff.mpr hne
    rw [List.length_reverse, List.length_drop] at hpos
    omega

theorem parentOf_eq_self (path : Text) : parentOf path = path ↔ path = rootDir := by
  constructor
  · intro h
    rcases parentOf_eq path with hroot | hshorter
    · exact h.symm.trans hroot
    · rw [h] at hshorter
      exact absurd hshorter (lt_irrefl _)
  · rintro rfl
    decide

end FakeFsAux

/-- Paths with their parents, under the root `.`. -/
def paths : Parents Text := ⟨parentOf, rootDir, FakeFsAux.parentOf_eq_self⟩

/-- The name space of a state. -/
def FsState.space (s : FsState) : Space Text := ⟨{path | path ∈ s.names.keys}, {path | path ∈ s.dirs}⟩

instance (s : FsState) : Decidable (IsTree paths s.space) :=
  decidable_of_iff ((∀ path ∈ s.names.keys, parentOf path ∈ s.dirs) ∧ (∀ dir ∈ s.dirs, dir ≠ rootDir → parentOf dir ∈ s.dirs) ∧
    ∀ path ∈ s.names.keys, path ∉ s.dirs) ⟨fun ⟨file, dir, disjoint⟩ => ⟨file, dir, disjoint⟩, fun h => ⟨h.file, h.dir, h.disjoint⟩⟩

/-- An entry of the namespace that is a directory, or is none. -/
def DirEntry.IsDir (wl : Workload3) (entry : DirEntry) (dir : Bool) : Prop :=
  ∃ node, wl.nodes.get entry.node = some node ∧ decide (node.kind = .dir) = dir

/-- The initial entries of a workload, and the root. -/
def Workload3.entrySpace (wl : Workload3) : Space Text where
  files := {path | ∃ entry ∈ wl.entries, entry.path = path ∧ entry.IsDir wl false}
  dirs := {path | path = rootDir ∨ ∃ entry ∈ wl.entries, entry.path = path ∧ entry.IsDir wl true}

/-- The edit that an operation makes, from the state before it. -/
def FakeFs.edit (fake : FakeFs) (operation : Operation3) (s : FsState) : Edit Text :=
  if (fake.fail operation.opId).isSome then .nothing
  else
    match operation.call, operation.args.path with
    | .openPath, some path =>
      if path ∉ s.names.keys ∧ .creat ∈ operation.args.flags.getD [] ∧ parentOf path ∈ s.dirs then .createFile path else .nothing
    | .rename, some src =>
      if FakeFs.badHandle operation s then .nothing
      else
        match operation.args.newPath with
        | some dst => if src ∈ s.names.keys then .moveFile src dst else if src ∈ s.dirs then .moveDir src dst else .nothing
        | none => .nothing
    | .unlink, some path => if FakeFs.badHandle operation s then .nothing else .removeFile path
    | .mkdir, some path =>
      if FakeFs.badHandle operation s ∨ path ∈ s.dirs ∨ path ∈ s.names.keys ∨ parentOf path ∉ s.dirs then .nothing else .createDir path
    | .rmdir, some path =>
      if FakeFs.badHandle operation s ∨ path ∉ s.dirs ∨ s.childCount path ≠ 0 then .nothing else .removeDir path
    | _, _ => .nothing

/-- Every operation, in the state before it, keeps a tree. -/
def FakeFs.AllKeep (H : ContentHost) (fake : FakeFs) (s : FsState) : List Operation3 → Prop
  | [] => True
  | operation :: rest => (fake.edit operation s).Keeps paths s.space ∧
    ∀ result next, fake.perform H operation s = .ok (result, next) → FakeFs.AllKeep H fake next rest

namespace FakeFsAux

variable {H : ContentHost} {fake : FakeFs} {wl : Workload3} {operation : Operation3} {s : FsState} {ino : Nat} {path : Text}

/-! ## Inodes and handles -/

/-- Names and handles lead to inodes that are there, two names to different ones, and a handle has its node and its position. -/
structure Linked (s : FsState) : Prop where
  name : ∀ path ino, s.names.get path = some ino → ino ≤ s.next ∧ ∃ data, s.inodes.get ino = some data
  handle : ∀ handle ino, s.handles.get handle = some ino →
    ino ≤ s.next ∧ (∃ data, s.inodes.get ino = some data) ∧ (∃ node, s.handleNode.get handle = some node) ∧
      ∃ pos, s.pos.get handle = some pos
  injective : ∀ path other ino, s.names.get path = some ino → s.names.get other = some ino → path = other

theorem linked_empty : Linked .empty :=
  ⟨fun path ino h => by simp [FsState.empty] at h, fun handle ino h => by simp [FsState.empty] at h,
    fun path other ino h => by simp [FsState.empty] at h⟩

/-- Writing an inode keeps every inode that is there. -/
theorem exists_get_set {inodes : Assoc Nat Bytes} {other : Nat} (data : Bytes) (h : ∃ old, inodes.get other = some old) :
    ∃ new, (inodes.set ino data).get other = some new := by
  rw [Assoc.get_set]
  split
  · exact ⟨data, rfl⟩
  · exact h

theorem Linked.setInode (h : Linked s) (ino : Nat) (data : Bytes) : Linked { s with inodes := s.inodes.set ino data } :=
  ⟨fun path other hname => ⟨(h.name path other hname).1, exists_get_set data (h.name path other hname).2⟩,
    fun handle other hhandle =>
      ⟨(h.handle handle other hhandle).1, exists_get_set data (h.handle handle other hhandle).2.1, (h.handle handle other hhandle).2.2⟩,
    h.injective⟩

theorem Linked.setPos (h : Linked s) (handle : Text) (pos : Nat) : Linked { s with pos := s.pos.set handle pos } := by
  refine ⟨h.name, fun other ino hother => ?_, h.injective⟩
  obtain ⟨hnext, hdata, hnode, old, hold⟩ := h.handle other ino hother
  refine ⟨hnext, hdata, hnode, ?_⟩
  dsimp only
  rw [Assoc.get_set]
  split
  · exact ⟨pos, rfl⟩
  · exact ⟨old, hold⟩

theorem Linked.closeHandle (h : Linked s) (handle : Text) : Linked { s with handles := s.handles.erase handle } := by
  refine ⟨h.name, fun other ino hother => ?_, h.injective⟩
  dsimp only at hother
  rw [Assoc.get_erase] at hother
  split at hother
  · cases hother
  · exact h.handle other ino hother

/-- A new file. -/
theorem Linked.createFile (h : Linked s) (path : Text) (data : Bytes) :
    Linked { (s.newInode data).1 with names := s.names.set path (s.next + 1) } := by
  have hfresh : ∀ other, s.names.get other ≠ some (s.next + 1) := fun other hother => by
    have := (h.name other _ hother).1
    omega
  refine ⟨fun other ino hother => ?_, fun handle ino hhandle => ?_, fun a b ino ha hb => ?_⟩
  · dsimp only [FsState.newInode] at hother ⊢
    rw [Assoc.get_set] at hother
    split at hother
    · obtain rfl := Option.some.inj hother
      exact ⟨le_refl _, data, Assoc.get_set_self ..⟩
    · obtain ⟨hle, hdata⟩ := h.name other ino hother
      exact ⟨hle.trans (Nat.le_succ _), exists_get_set data hdata⟩
  · obtain ⟨hle, hdata, hrest⟩ := h.handle handle ino hhandle
    exact ⟨hle.trans (Nat.le_succ _), exists_get_set data hdata, hrest⟩
  · dsimp only at ha hb
    rw [Assoc.get_set] at ha hb
    split at ha <;> split at hb
    · next hpath hother => exact hpath.trans hother.symm
    · exact absurd (hb.trans ha.symm) (hfresh b)
    · exact absurd (ha.trans hb.symm) (hfresh a)
    · exact h.injective a b ino ha hb

/-- A file under another name. -/
theorem Linked.renameFile (h : Linked s) {src : Text} (hsrc : s.names.get src = some ino) (dst : Text) (pathNode : Assoc Text Text) :
    Linked { s with names := (s.names.erase src).set dst ino, pathNode } := by
  have hget : ∀ path other, ((s.names.erase src).set dst ino).get path = some other → ∃ old, s.names.get old = some other ∧
      (path = dst ∧ old = src ∨ path ≠ dst ∧ old = path ∧ old ≠ src) := by
    intro path other hother
    rw [Assoc.get_set] at hother
    split at hother
    · next hpath =>
      obtain rfl := Option.some.inj hother
      exact ⟨src, hsrc, Or.inl ⟨hpath, rfl⟩⟩
    · next hpath =>
      rw [Assoc.get_erase] at hother
      split at hother
      · cases hother
      · next hne => exact ⟨path, hother, Or.inr ⟨hpath, rfl, hne⟩⟩
  refine ⟨fun path other hother => ?_, h.handle, fun a b other ha hb => ?_⟩
  · obtain ⟨old, hold, _⟩ := hget path other hother
    exact h.name old other hold
  · obtain ⟨oldA, holdA, hcaseA⟩ := hget a other ha
    obtain ⟨oldB, holdB, hcaseB⟩ := hget b other hb
    obtain rfl := h.injective oldA oldB other holdA holdB
    rcases hcaseA with ⟨rfl, rfl⟩ | ⟨_, rfl, hneA⟩ <;> rcases hcaseB with ⟨rfl, heqB⟩ | ⟨_, rfl, hneB⟩
    · rfl
    · exact absurd rfl hneB
    · exact absurd heqB hneA
    · rfl

theorem Linked.unlink (h : Linked s) (hpath : s.names.get path = some ino) (pathNode : Assoc Text Text) : Linked { s with
      names := s.names.erase path, pathNode
      inodes := if ino ∈ s.handles.entries.map Prod.snd then s.inodes else s.inodes.erase ino } := by
  have hget : ∀ other otherIno, (s.names.erase path).get other = some otherIno → other ≠ path ∧ s.names.get other = some otherIno := by
    intro other otherIno hother
    rw [Assoc.get_erase] at hother
    split at hother
    · cases hother
    · next hne => exact ⟨hne, hother⟩
  -- an inode that another name or a handle leads to is kept
  have hkept : ∀ other, (other ≠ ino ∨ ino ∈ s.handles.entries.map Prod.snd) → (∃ data, s.inodes.get other = some data) →
      ∃ data, (if ino ∈ s.handles.entries.map Prod.snd then s.inodes else s.inodes.erase ino).get other = some data := by
    intro other hother hdata
    split
    · exact hdata
    · next hnot =>
      rw [Assoc.get_erase, if_neg (hother.resolve_right hnot)]
      exact hdata
  refine ⟨fun other otherIno hother => ?_, fun handle otherIno hhandle => ?_, fun a b otherIno ha hb => ?_⟩
  · obtain ⟨hne, hname⟩ := hget other otherIno hother
    obtain ⟨hle, hdata⟩ := h.name other otherIno hname
    refine ⟨hle, hkept otherIno (Or.inl ?_) hdata⟩
    rintro rfl
    exact hne (h.injective other path otherIno hname hpath)
  · obtain ⟨hle, hdata, hrest⟩ := h.handle handle otherIno hhandle
    refine ⟨hle, hkept otherIno ?_ hdata, hrest⟩
    by_cases heq : otherIno = ino
    · exact Or.inr (List.mem_map.mpr ⟨(handle, otherIno), Assoc.get_eq_some_iff.mp hhandle, heq⟩)
    · exact Or.inl heq
  · exact h.injective a b otherIno (hget a otherIno ha).2 (hget b otherIno hb).2

theorem Linked.openInode (h : Linked s) (hino : ino ≤ s.next ∧ ∃ data, s.inodes.get ino = some data) (path handle : Text)
    (flags : List OpenFlag) : Linked (fake.openInode operation s path handle flags ino).2 := by
  have hinodes : ∀ other, (∃ data, s.inodes.get other = some data) →
      ∃ data, (if OpenFlag.trunc ∈ flags then s.inodes.set ino [] else s.inodes).get other = some data := by
    intro other hdata
    split
    · exact exists_get_set [] hdata
    · exact hdata
  refine ⟨fun other otherIno hother => ⟨(h.name other otherIno hother).1, hinodes otherIno (h.name other otherIno hother).2⟩,
    fun other otherIno hother => ?_, h.injective⟩
  dsimp only [FakeFs.openInode] at hother ⊢
  rw [Assoc.get_set] at hother ⊢
  rw [Assoc.get_set]
  by_cases hsame : other = handle
  · rw [if_pos hsame] at hother
    obtain rfl := Option.some.inj hother
    rw [if_pos hsame, if_pos hsame]
    exact ⟨hino.1, hinodes ino hino.2, ⟨_, rfl⟩, ⟨_, rfl⟩⟩
  · rw [if_neg hsame] at hother
    rw [if_neg hsame, if_neg hsame]
    obtain ⟨hle, hdata, hrest⟩ := h.handle other otherIno hother
    exact ⟨hle, hinodes otherIno hdata, hrest⟩

/-! ## What an operation does -/

/-- The next state is linked, and its name space is that before with the edit, which was possible. -/
structure Edits (edit : Edit Text) (s next : FsState) : Prop where
  linked : Linked next
  space : next.space = edit.apply s.space
  possible : edit.Possible paths s.space

/-- A call that returns, and makes an edit. -/
def Makes (outcome : Except PyError (FsResult × FsState)) (edit : Edit Text) (s : FsState) : Prop :=
  ∃ result next, outcome = .ok (result, next) ∧ Edits edit s next

/-- The name space is as before. -/
theorem edits_nothing {next : FsState} (hlinked : Linked next) (hnames : next.names = s.names) (hdirs : next.dirs = s.dirs) :
    Edits .nothing s next := by
  refine ⟨hlinked, ?_, trivial⟩
  rw [FsState.space, hnames, hdirs]
  rfl

theorem makes_nothing (h : Linked s) (result : FsResult) : Makes (.ok (result, s)) .nothing s := ⟨result, s, rfl, edits_nothing h rfl rfl⟩

theorem keys_of_get (h : s.names.get path = some ino) : path ∈ s.names.keys := Assoc.mem_keys_iff.mpr ⟨ino, h⟩

theorem not_keys_of_get (h : s.names.get path = none) : path ∉ s.names.keys := Assoc.get_eq_none_iff.mp h

theorem openPath_spec (h : Linked s) (hfail : fake.fail operation.opId = none) (hcall : operation.call = .openPath) {handle : Text}
    {flags : List OpenFlag} (hpath : operation.args.path = some path) (hflags : operation.args.flags = some flags)
    (hhandle : operation.args.handle = some handle) :
    Makes (fake.openPath operation s) (fake.edit operation s) s := by
  have hedit : fake.edit operation s = if path ∉ s.names.keys ∧ .creat ∈ flags ∧ parentOf path ∈ s.dirs then .createFile path else .nothing := by
    simp only [FakeFs.edit, hfail, hcall, hpath, hflags, Option.isSome_none, Option.getD_some, Bool.false_eq_true, if_false]
  simp only [FakeFs.openPath, hpath, hflags, hhandle, require, ok_bind, FsState.parentOk, decide_eq_false_iff_not]
  cases hname : s.names.get path with
  | none =>
    by_cases hcreate : OpenFlag.creat ∉ flags ∨ parentOf path ∉ s.dirs
    · rw [if_neg (by tauto)] at hedit
      simp only [if_pos hcreate, hedit]
      exact makes_nothing h _
    · have hcreates : OpenFlag.creat ∈ flags ∧ parentOf path ∈ s.dirs := by tauto
      rw [if_pos ⟨not_keys_of_get hname, hcreates⟩] at hedit
      simp only [if_neg hcreate, hedit]
      refine ⟨_, _, rfl, (h.createFile path []).openInode ⟨le_refl _, [], Assoc.get_set_self ..⟩ path handle flags, ?_, hcreates.2⟩
      refine Space.ext (Set.ext fun other => ?_) rfl
      exact Assoc.mem_keys_set
  | some ino =>
    rw [if_neg fun hcreate => hcreate.1 (keys_of_get hname)] at hedit
    rw [hedit]
    dsimp only
    split
    · exact makes_nothing h _
    · exact ⟨_, _, rfl, edits_nothing (h.openInode (h.name path ino hname) path handle flags) rfl rfl⟩

/-- The inode of a handle that is open. -/
theorem handleOf_spec (h : Linked s) (hopen : FakeFs.badHandle operation s = false) (hhas : operation.args.has .handle = true) :
    ∃ handle ino data, FakeFs.handleOf operation s = .ok (handle, ino, data) ∧ operation.args.handle = some handle ∧
      s.handles.get handle = some ino ∧ s.inodes.get ino = some data := by
  obtain ⟨handle, hhandle⟩ := Option.isSome_iff_exists.mp hhas
  have hmem : handle ∈ s.handles.keys := by simpa [FakeFs.badHandle, hhandle] using hopen
  obtain ⟨ino, hino⟩ := Assoc.mem_keys_iff.mp hmem
  obtain ⟨_, ⟨data, hdata⟩, _⟩ := h.handle handle ino hino
  exact ⟨handle, ino, data, by simp only [FakeFs.handleOf, hhandle, hino, hdata, require, ok_bind]; rfl, hhandle, hino, hdata⟩

theorem offsetOf_spec (h : Linked s) {handle : Text} (hino : s.handles.get handle = some ino) (positioned : Bool)
    (hoffset : positioned = true → operation.args.has .offset = true) : ∃ offset, FakeFs.offsetOf operation s positioned handle = .ok offset := by
  obtain ⟨_, _, _, pos, hpos⟩ := h.handle handle ino hino
  unfold FakeFs.offsetOf
  cases positioned with
  | true =>
    obtain ⟨offset, hoffset⟩ := Option.isSome_iff_exists.mp (hoffset rfl)
    exact ⟨offset.toNat, by simp only [if_true, hoffset, require, ok_bind]; rfl⟩
  | false => exact ⟨pos, by simp [hpos, require]⟩

theorem write_spec (h : Linked s) (hopen : FakeFs.badHandle operation s = false) (positioned : Bool)
    (hhandle : operation.args.has .handle = true) (hlength : operation.args.has .length = true)
    (hoffset : positioned = true → operation.args.has .offset = true) :
    Makes (fake.write H operation positioned s) .nothing s := by
  obtain ⟨handle, ino, data, hof, _, hino, _⟩ := handleOf_spec h hopen hhandle
  obtain ⟨offset, hoff⟩ := offsetOf_spec h hino positioned hoffset
  obtain ⟨_, _, ⟨node, hnode⟩, _⟩ := h.handle handle ino hino
  obtain ⟨length, hlen⟩ := Option.isSome_iff_exists.mp hlength
  simp only [FakeFs.write, hof, hoff, hnode, hlen, require, ok_bind]
  refine ⟨_, _, rfl, ?_⟩
  split
  · exact edits_nothing (h.setInode ino _) rfl rfl
  · exact edits_nothing ((h.setInode ino _).setPos handle _) rfl rfl

theorem read_spec (h : Linked s) (hopen : FakeFs.badHandle operation s = false) (positioned : Bool)
    (hhandle : operation.args.has .handle = true) (hlength : operation.args.has .length = true)
    (hoffset : positioned = true → operation.args.has .offset = true) :
    Makes (fake.read H operation positioned s) .nothing s := by
  obtain ⟨handle, ino, data, hof, _, hino, _⟩ := handleOf_spec h hopen hhandle
  obtain ⟨offset, hoff⟩ := offsetOf_spec h hino positioned hoffset
  obtain ⟨_, _, ⟨node, hnode⟩, _⟩ := h.handle handle ino hino
  obtain ⟨length, hlen⟩ := Option.isSome_iff_exists.mp hlength
  simp only [FakeFs.read, hof, hoff, hlen, require, ok_bind]
  cases positioned with
  | true =>
    simp only [if_true, hnode, ok_bind]
    split
    · exact ⟨_, _, rfl, edits_nothing h rfl rfl⟩
    · exact ⟨_, _, rfl, edits_nothing h rfl rfl⟩
  | false =>
    simp only [Bool.false_eq_true, if_false, hnode, ok_bind]
    split
    · exact ⟨_, _, rfl, edits_nothing (h.setPos handle _) rfl rfl⟩
    · exact ⟨_, _, rfl, edits_nothing (h.setPos handle _) rfl rfl⟩

theorem truncateInode_spec (h : Linked s) {data : Bytes} (hdata : s.inodes.get ino = some data) (hsize : operation.args.has .size = true) :
    Makes (FakeFs.truncateInode operation s ino) .nothing s := by
  obtain ⟨size, hsize⟩ := Option.isSome_iff_exists.mp hsize
  simp only [FakeFs.truncateInode, hdata, hsize, require, ok_bind]
  exact ⟨_, _, rfl, edits_nothing (h.setInode ino _) rfl rfl⟩

theorem truncate_spec (h : Linked s) (hpath : operation.args.has .path = true) (hsize : operation.args.has .size = true) :
    Makes (FakeFs.truncate operation s) .nothing s := by
  obtain ⟨path, hpath⟩ := Option.isSome_iff_exists.mp hpath
  simp only [FakeFs.truncate, hpath, require, ok_bind]
  cases hname : s.names.get path with
  | none => exact makes_nothing h _
  | some ino =>
    obtain ⟨_, data, hdata⟩ := h.name path ino hname
    exact truncateInode_spec h hdata hsize

theorem stat_spec (h : Linked s) (hpath : operation.args.has .path = true) : Makes (FakeFs.stat operation s) .nothing s := by
  obtain ⟨path, hpath⟩ := Option.isSome_iff_exists.mp hpath
  simp only [FakeFs.stat, hpath, require, ok_bind]
  cases hname : s.names.get path with
  | none =>
    dsimp only
    split
    · exact makes_nothing h _
    · exact makes_nothing h _
  | some ino =>
    obtain ⟨_, data, hdata⟩ := h.name path ino hname
    simp only [hdata, ok_bind]
    exact makes_nothing h _

theorem readdir_spec (h : Linked s) (hpath : operation.args.has .path = true) : Makes (FakeFs.readdir operation s) .nothing s := by
  obtain ⟨path, hpath⟩ := Option.isSome_iff_exists.mp hpath
  simp only [FakeFs.readdir, hpath, require, ok_bind]
  split
  · exact makes_nothing h _
  · exact makes_nothing h _

/-! ### The calls that edit the name space -/

/-- A call other than an open, which neither must fail nor is on a handle that is not open. -/
structure Proceeds (fake : FakeFs) (operation : Operation3) (s : FsState) : Prop where
  fail : fake.fail operation.opId = none
  handle : FakeFs.badHandle operation s = false

theorem rename_spec (h : Linked s) (hp : Proceeds fake operation s) (hcall : operation.call = .rename)
    (hpath : operation.args.has .path = true) (hnewPath : operation.args.has .newPath = true) :
    Makes (FakeFs.rename operation s) (fake.edit operation s) s := by
  obtain ⟨src, hpath⟩ := Option.isSome_iff_exists.mp hpath
  obtain ⟨dst, hnewPath⟩ := Option.isSome_iff_exists.mp hnewPath
  have hedit : fake.edit operation s =
      if src ∈ s.names.keys then .moveFile src dst else if src ∈ s.dirs then .moveDir src dst else .nothing := by
    simp only [FakeFs.edit, hp.fail, hp.handle, hcall, hpath, hnewPath, Option.isSome_none, Bool.false_eq_true, if_false]
  simp only [FakeFs.rename, hpath, hnewPath, require, ok_bind]
  cases hname : s.names.get src with
  | some ino =>
    rw [hedit, if_pos (keys_of_get hname)]
    refine ⟨_, _, rfl, h.renameFile hname dst _, Space.ext (Set.ext fun other => ?_) rfl, keys_of_get hname⟩
    show other ∈ ((s.names.erase src).set dst ino).keys ↔ other ∈ insert dst ({path | path ∈ s.names.keys} \ {src})
    rw [Assoc.mem_keys_set, Assoc.mem_keys_erase]
    rfl
  | none =>
    rw [hedit, if_neg (not_keys_of_get hname)]
    dsimp only
    split
    · next hdir =>
      refine ⟨_, _, rfl, ⟨h.name, h.handle, h.injective⟩, Space.ext rfl (Set.ext fun other => ?_), hdir⟩
      show other ∈ insert dst (s.dirs.erase src) ↔ other ∈ insert dst ({path | path ∈ s.dirs} \ {src})
      rw [Finset.mem_insert, Finset.mem_erase, and_comm]
      rfl
    · exact makes_nothing h _

theorem unlink_spec (h : Linked s) (hp : Proceeds fake operation s) (hcall : operation.call = .unlink) (hpath : operation.args.has .path = true) :
    Makes (FakeFs.unlink operation s) (fake.edit operation s) s := by
  obtain ⟨path, hpath⟩ := Option.isSome_iff_exists.mp hpath
  have hedit : fake.edit operation s = .removeFile path := by
    simp only [FakeFs.edit, hp.fail, hp.handle, hcall, hpath, Option.isSome_none, Bool.false_eq_true, if_false]
  simp only [FakeFs.unlink, hpath, require, ok_bind, hedit]
  cases hname : s.names.get path with
  | none =>
    refine ⟨_, s, rfl, h, Space.ext (Set.ext fun other => ?_) rfl, trivial⟩
    show other ∈ s.names.keys ↔ other ∈ s.names.keys ∧ other ≠ path
    exact ⟨fun hother => ⟨hother, fun heq => not_keys_of_get hname (heq ▸ hother)⟩, And.left⟩
  | some ino =>
    refine ⟨_, _, rfl, h.unlink hname _, Space.ext (Set.ext fun other => ?_) rfl, trivial⟩
    exact Assoc.mem_keys_erase

theorem mkdir_spec (h : Linked s) (hp : Proceeds fake operation s) (hcall : operation.call = .mkdir) (hpath : operation.args.has .path = true) :
    Makes (FakeFs.mkdir operation s) (fake.edit operation s) s := by
  obtain ⟨path, hpath⟩ := Option.isSome_iff_exists.mp hpath
  have hedit : fake.edit operation s =
      if path ∈ s.dirs ∨ path ∈ s.names.keys ∨ parentOf path ∉ s.dirs then .nothing else .createDir path := by
    simp only [FakeFs.edit, hp.fail, hp.handle, hcall, hpath, Option.isSome_none, Bool.false_eq_true, if_false, false_or]
  simp only [FakeFs.mkdir, hpath, require, ok_bind, hedit, FsState.parentOk, decide_eq_false_iff_not]
  by_cases hexists : path ∈ s.dirs ∨ path ∈ s.names.keys
  · rw [if_pos hexists, if_pos (by tauto)]
    exact makes_nothing h _
  · rw [if_neg hexists]
    by_cases hparent : parentOf path ∈ s.dirs
    · rw [if_neg (by tauto), if_neg (by tauto)]
      refine ⟨_, _, rfl, ⟨h.name, h.handle, h.injective⟩, Space.ext rfl (Set.ext fun other => ?_),
        fun hfile => hexists (Or.inr hfile), hparent⟩
      exact Finset.mem_insert
    · rw [if_pos hparent, if_pos (by tauto)]
      exact makes_nothing h _

theorem parent_ne_of_childCount (h : s.childCount path = 0) :
    ∀ other, other ∈ s.names.keys ∨ other ∈ s.dirs ∧ other ≠ rootDir → parentOf other ≠ path := by
  rintro other hother hparent
  rw [FsState.childCount, Nat.add_eq_zero_iff, List.length_eq_zero_iff, Finset.card_eq_zero] at h
  rcases hother with hfile | ⟨hdir, hroot⟩
  · have hmem : other ∈ s.names.keys.filter fun q => parentOf q = path := List.mem_filter.mpr ⟨hfile, decide_eq_true hparent⟩
    rw [h.1] at hmem
    nomatch hmem
  · have hmem : other ∈ (s.dirs.erase rootDir).filter fun q => parentOf q = path :=
      Finset.mem_filter.mpr ⟨Finset.mem_erase.mpr ⟨hroot, hdir⟩, hparent⟩
    rw [h.2] at hmem
    exact absurd hmem (Finset.notMem_empty other)

theorem rmdir_spec (h : Linked s) (hp : Proceeds fake operation s) (hcall : operation.call = .rmdir) (hpath : operation.args.has .path = true) :
    Makes (FakeFs.rmdir operation s) (fake.edit operation s) s := by
  obtain ⟨path, hpath⟩ := Option.isSome_iff_exists.mp hpath
  have hedit : fake.edit operation s = if path ∉ s.dirs ∨ s.childCount path ≠ 0 then .nothing else .removeDir path := by
    simp only [FakeFs.edit, hp.fail, hp.handle, hcall, hpath, Option.isSome_none, Bool.false_eq_true, if_false, false_or]
  simp only [FakeFs.rmdir, hpath, require, ok_bind, hedit]
  by_cases hdir : path ∉ s.dirs
  · rw [if_pos hdir, if_pos (Or.inl hdir)]
    exact makes_nothing h _
  · by_cases hchildren : s.childCount path ≠ 0
    · rw [if_neg hdir, if_pos hchildren, if_pos (Or.inr hchildren)]
      exact makes_nothing h _
    · rw [if_neg hdir, if_neg hchildren, if_neg (by tauto)]
      refine ⟨_, _, rfl, ⟨h.name, h.handle, h.injective⟩, Space.ext rfl (Set.ext fun other => ?_),
        parent_ne_of_childCount (not_not.mp hchildren)⟩
      show other ∈ s.dirs.erase path ↔ other ∈ s.dirs ∧ other ≠ path
      rw [Finset.mem_erase, and_comm]

/-! ### All calls -/

theorem edit_of_fail {forced : Status} (hfail : fake.fail operation.opId = some forced) : fake.edit operation s = .nothing := by
  rw [FakeFs.edit, hfail]
  rfl

theorem edit_of_badHandle (hcall : operation.call ≠ .openPath) (hbad : FakeFs.badHandle operation s = true) : fake.edit operation s = .nothing := by
  unfold FakeFs.edit
  split
  · rfl
  · split
    · next heq _ => exact absurd heq hcall
    · rfl
    · rfl
    · rw [if_pos (Or.inl hbad)]
    · rw [if_pos (Or.inl hbad)]
    · rfl

/-- The calls other than these leave the name space alone. -/
theorem edit_of_call (hcall : operation.call ∉ [Call.openPath, .rename, .unlink, .mkdir, .rmdir]) : fake.edit operation s = .nothing := by
  simp only [List.mem_cons, List.not_mem_nil, or_false, not_or] at hcall
  unfold FakeFs.edit
  split
  · rfl
  · split <;> first | rfl | (next heq _ => simp only [heq, not_true_eq_false, false_and, and_false] at hcall)

/-- What a call that proceeds does, if it is none of the editing ones. -/
theorem quiet_spec (h : Linked s) (hargs : ArgsOk wl operation) (hfamily : operation.family = .posix) (hp : Proceeds fake operation s)
    (hquiet : operation.call ∉ [Call.openPath, .rename, .unlink, .mkdir, .rmdir]) : Makes (fake.perform H operation s) .nothing s := by
  have hopen : operation.call ≠ .openPath := fun hcall => hquiet (by simp [hcall])
  unfold FakeFs.perform
  rw [hp.fail]
  dsimp only
  rw [if_neg hopen, hp.handle, if_neg Bool.false_ne_true]
  cases hcall : operation.call with
  | openPath | rename | unlink | mkdir | rmdir => simp [hcall] at hquiet
  | close =>
    obtain ⟨handle, ino, data, _, hhandle, hino, _⟩ := handleOf_spec h hp.handle (hargs.has hfamily hcall rfl .handle (by simp))
    simp only [hhandle, hino, require, ok_bind]
    exact ⟨_, _, rfl, edits_nothing (h.closeHandle handle) rfl rfl⟩
  | pread =>
    have hhas := hargs.has hfamily hcall rfl
    exact read_spec h hp.handle true (hhas .handle (by simp)) (hhas .length (by simp)) fun _ => hhas .offset (by simp)
  | pwrite =>
    have hhas := hargs.has hfamily hcall rfl
    exact write_spec h hp.handle true (hhas .handle (by simp)) (hhas .length (by simp)) fun _ => hhas .offset (by simp)
  | read =>
    have hhas := hargs.has hfamily hcall rfl
    exact read_spec h hp.handle false (hhas .handle (by simp)) (hhas .length (by simp)) (by simp)
  | write =>
    have hhas := hargs.has hfamily hcall rfl
    exact write_spec h hp.handle false (hhas .handle (by simp)) (hhas .length (by simp)) (by simp)
  | fstat =>
    obtain ⟨handle, ino, data, hof, _⟩ := handleOf_spec h hp.handle (hargs.has hfamily hcall rfl .handle (by simp))
    simp only [hof, ok_bind]
    exact makes_nothing h _
  | stat => exact stat_spec h (hargs.has hfamily hcall rfl .path (by simp))
  | readdir => exact readdir_spec h (hargs.has hfamily hcall rfl .path (by simp))
  | truncate =>
    have hhas := hargs.has hfamily hcall rfl
    exact truncate_spec h (hhas .path (by simp)) (hhas .size (by simp))
  | ftruncate =>
    have hhas := hargs.has hfamily hcall rfl
    obtain ⟨handle, ino, data, hof, _, _, hdata⟩ := handleOf_spec h hp.handle (hhas .handle (by simp))
    simp only [hof, ok_bind]
    exact truncateInode_spec h hdata (hhas .size (by simp))
  | _ => exact makes_nothing h _

/-- What a call that proceeds does. -/
theorem proceed_spec (h : Linked s) (hargs : ArgsOk wl operation) (hfamily : operation.family = .posix) (hp : Proceeds fake operation s)
    (hopen : operation.call ≠ .openPath) : Makes (fake.perform H operation s) (fake.edit operation s) s := by
  by_cases hquiet : operation.call ∉ [Call.openPath, .rename, .unlink, .mkdir, .rmdir]
  · rw [edit_of_call hquiet]
    exact quiet_spec h hargs hfamily hp hquiet
  · unfold FakeFs.perform
    rw [hp.fail]
    dsimp only
    rw [if_neg hopen, hp.handle, if_neg Bool.false_ne_true]
    cases hcall : operation.call with
    | rename =>
      have hhas := hargs.has hfamily hcall rfl
      exact rename_spec h hp hcall (hhas .path (by simp)) (hhas .newPath (by simp))
    | unlink => exact unlink_spec h hp hcall (hargs.has hfamily hcall rfl .path (by simp))
    | mkdir => exact mkdir_spec h hp hcall (hargs.has hfamily hcall rfl .path (by simp))
    | rmdir => exact rmdir_spec h hp hcall (hargs.has hfamily hcall rfl .path (by simp))
    | _ => simp [hcall] at hquiet hopen

/-- An operation of a valid workload returns, and makes its edit. -/
theorem perform_spec (H : ContentHost) (fake : FakeFs) (h : Linked s) (hargs : ArgsOk wl operation) (hfamily : operation.family = .posix) :
    Makes (fake.perform H operation s) (fake.edit operation s) s := by
  cases hfail : fake.fail operation.opId with
  | some forced =>
    rw [edit_of_fail hfail, FakeFs.perform, hfail]
    exact makes_nothing h _
  | none =>
    by_cases hcall : operation.call = .openPath
    · have hfield := hargs.has hfamily hcall rfl
      obtain ⟨path, hpath⟩ := Option.isSome_iff_exists.mp (hfield .path (by simp))
      obtain ⟨flags, hflags⟩ := Option.isSome_iff_exists.mp (hfield .flags (by simp))
      obtain ⟨handle, hhandle⟩ := Option.isSome_iff_exists.mp (hfield .handle (by simp))
      rw [FakeFs.perform, hfail]
      dsimp only
      rw [if_pos hcall]
      exact openPath_spec h hfail hcall hpath hflags hhandle
    · cases hbad : FakeFs.badHandle operation s with
      | true =>
        rw [edit_of_badHandle hcall hbad, FakeFs.perform, hfail]
        dsimp only
        rw [if_neg hcall, if_pos hbad]
        exact makes_nothing h _
      | false => exact proceed_spec h hargs hfamily ⟨hfail, hbad⟩ hcall

/-! ## The initial state -/

theorem linked_initialEntry (h : Linked s) (entry : DirEntry) : Linked (fake.initialEntry H wl s entry) := by
  unfold FakeFs.initialEntry
  split
  · dsimp only
    split
    · exact ⟨h.name, h.handle, h.injective⟩
    · have hnode : Linked { s with pathNode := s.pathNode.set entry.path entry.node } := ⟨h.name, h.handle, h.injective⟩
      exact hnode.createFile entry.path _
  · exact h

theorem linked_initialized : Linked (fake.initialized H wl) :=
  List.foldlRecOn wl.entries _ linked_empty fun _ h entry _ => linked_initialEntry h entry

theorem initialEntry_space (entry : DirEntry) : (fake.initialEntry H wl s entry).space =
      ⟨{path | path ∈ s.space.files ∨ entry.path = path ∧ entry.IsDir wl false},
        {path | path ∈ s.space.dirs ∨ entry.path = path ∧ entry.IsDir wl true}⟩ := by
  unfold FakeFs.initialEntry DirEntry.IsDir
  cases hnode : wl.nodes.get entry.node with
  | none => simp
  | some node =>
    by_cases hkind : node.kind = .dir
    · refine Space.ext (Set.ext fun path => ?_) (Set.ext fun path => ?_)
      · simp [hkind, FsState.space]
      · simp [hkind, FsState.space, or_comm, eq_comm (a := entry.path)]
    · refine Space.ext (Set.ext fun path => ?_) (Set.ext fun path => ?_)
      · simp [hkind, FsState.space, FsState.newInode, Assoc.mem_keys_set, or_comm, eq_comm (a := entry.path)]
      · simp [hkind, FsState.space, FsState.newInode]

/-- The name space at the start is that of the entries. -/
theorem initialized_space (H : ContentHost) (fake : FakeFs) (wl : Workload3) : (fake.initialized H wl).space = wl.entrySpace := by
  have hfold : ∀ (entries : List DirEntry) (s : FsState), (entries.foldl (fake.initialEntry H wl) s).space =
      ⟨{path | path ∈ s.space.files ∨ ∃ entry ∈ entries, entry.path = path ∧ entry.IsDir wl false},
        {path | path ∈ s.space.dirs ∨ ∃ entry ∈ entries, entry.path = path ∧ entry.IsDir wl true}⟩ := by
    intro entries
    induction entries with
    | nil =>
      intro s
      simp
    | cons entry rest ih =>
      intro s
      rw [List.foldl_cons, ih, initialEntry_space]
      simp only [Set.mem_ofPred_eq, List.exists_mem_cons_iff, or_assoc]
  rw [FakeFs.initialized, hfold]
  simp [FsState.space, FsState.empty, Workload3.entrySpace, Assoc.keys, Assoc.empty]

/-! ## Runs -/

theorem allKeep_cons {result : FsResult} {next : FsState} {rest : List Operation3} (h : fake.perform H operation s = .ok (result, next)) :
    fake.AllKeep H s (operation :: rest) ↔ (fake.edit operation s).Keeps paths s.space ∧ fake.AllKeep H next rest := by
  rw [FakeFs.AllKeep]
  refine and_congr_right fun _ => ⟨fun hall => hall result next h, fun hrest result' next' h' => ?_⟩
  obtain ⟨rfl, rfl⟩ := Prod.mk.inj (Except.ok.inj (h.symm.trans h'))
  exact hrest

/-- The operations all return, and from a tree every state is one exactly when every edit keeps it. -/
theorem performAll_spec (H : ContentHost) (fake : FakeFs) (operations : List Operation3)
    (hargs : ∀ operation ∈ operations, ArgsOk wl operation ∧ operation.family = .posix) :
    ∀ s, Linked s → ∃ states, fake.performAll H operations s = .ok states ∧
      (IsTree paths s.space → ((∀ state ∈ states, IsTree paths state.space) ↔ fake.AllKeep H s operations)) := by
  induction operations with
  | nil => exact fun s _ => ⟨[], rfl, fun _ => iff_of_true nofun trivial⟩
  | cons operation rest ih =>
    intro s h
    obtain ⟨hok, hfamily⟩ := hargs operation List.mem_cons_self
    obtain ⟨result, next, hperform, hlinked, hspace, hpossible⟩ := perform_spec H fake h hok hfamily
    obtain ⟨states, hstates, htrees⟩ := ih (fun other hother => hargs other (List.mem_cons_of_mem _ hother)) next hlinked
    refine ⟨next :: states, by simp only [FakeFs.performAll, hperform, ok_bind, hstates], fun htree => ?_⟩
    have hnext : IsTree paths next.space ↔ (fake.edit operation s).Keeps paths s.space := hspace ▸ isTree_apply_iff htree hpossible
    rw [allKeep_cons hperform, List.forall_mem_cons, hnext]
    exact and_congr_right fun hkeeps => htrees (hnext.mpr hkeeps)

end FakeFsAux

open FakeFsAux

def posixOperation (opId : String) (seq : Int) (call : Call) (args : Args) : Operation3 where
  opId := opId.toList
  seq := seq
  family := .posix
  call := call
  args := args
  stream := some "s".toList
  deps := []
  releaseNs := none
  declaredDelayNs := none

/-- A workload over the directory `d`. -/
def overDirectory (operations : List Operation3) : Workload3 :=
  { newWorkload .generated .declared .absent .none ⟨"posix".toList, "engine".toList, "1".toList, []⟩ with
    nodes := Assoc.empty.set "n".toList ⟨.dir, 1, 0⟩
    entries := [⟨"d".toList, "n".toList⟩]
    operations }

theorem isTree_overDirectory (operations : List Operation3) : IsTree paths (overDirectory operations).entrySpace := by
  rw [← initialized_space sampleHost {}]
  show IsTree paths (({} : FakeFs).initialized sampleHost (overDirectory [])).space
  decide +kernel

/-- A file is made in the directory and moved out of it. -/
def makeAndMove : List Operation3 :=
  [posixOperation "a" 0 .openPath { path := "d/f".toList, flags := some [.wr, .creat], handle := "h".toList },
    posixOperation "b" 1 .rename { path := "d/f".toList, newPath := "g".toList }]

/-- The directory is opened as a file. -/
def openDirectory : List Operation3 :=
  [posixOperation "a" 0 .openPath { path := "d".toList, flags := some [.wr, .creat], handle := "h".toList }]

end EbpfSyscall.Kvio
