import EbpfSyscall.Kvio.TypedRun

/-!
# The in-memory file system

`FakeFS` of `tools/kvio/posix_fs.py`: names lead to inodes, handles hold inodes, and directories are a set of paths.
-/

namespace EbpfSyscall.Kvio

open Checked

/-- `Result`; of its `meta` the values that a call puts there. -/
structure FsResult where
  outcome : Status
  errno : Nat := 0
  bytes : Nat := 0
  detail : Text := []
  node : Option Text := none
  size : Option Nat := none
  count : Option Nat := none
  handle : Option Text := none
  deriving DecidableEq, Repr

/-- `errno.ENOENT` and the others that are used. -/
def enoent : Nat := 2

def ebadf : Nat := 9

def eexist : Nat := 17

def enotempty : Nat := 39

structure FsState where
  inodes : Assoc Nat Bytes
  /-- The inode of every file. -/
  names : Assoc Text Nat
  dirs : Finset Text
  handles : Assoc Text Nat
  handleNode : Assoc Text Text
  pathNode : Assoc Text Text
  pos : Assoc Text Nat
  next : Nat
  deriving DecidableEq

structure FakeFs where
  profile : ContentProfile := .incompressible
  /-- `fail`: the operations that must fail, and how. -/
  fail : Text → Option Status := fun _ => none
  /-- `op["expected"].get("node")`, by the id of the operation. -/
  expectedNode : Text → Option Text := fun _ => none

/-- `"."`. -/
def rootDir : Text := ".".toList

/-- `path.rpartition("/")[0] or "."`. -/
def parentOf (path : Text) : Text :=
  let front := ((path.reverse.dropWhile fun c => c ≠ '/').drop 1).reverse
  if front = [] then rootDir else front

namespace FsState

/-- `__init__`. -/
def empty : FsState := ⟨.empty, .empty, {rootDir}, .empty, .empty, .empty, .empty, 0⟩

/-- `_new_inode`: the state with the inode, and its number. -/
def newInode (s : FsState) (data : Bytes) : FsState × Nat :=
  ({ s with next := s.next + 1, inodes := s.inodes.set (s.next + 1) data }, s.next + 1)

/-- `_parent_ok`. -/
def parentOk (s : FsState) (path : Text) : Bool := parentOf path ∈ s.dirs

/-- The length of `_children`. -/
def childCount (s : FsState) (dir : Text) : Nat :=
  (s.names.keys.filter fun path => parentOf path = dir).length + ((s.dirs.erase rootDir).filter fun path => parentOf path = dir).card

end FsState

namespace FakeFs

variable (H : ContentHost) (fake : FakeFs)

/-- `content`. -/
def content (node : Text) (offset length : Nat) : Bytes := Kvio.content H fake.profile node offset length

/-- One entry of `initialize`. -/
def initialEntry (wl : Workload3) (s : FsState) (entry : DirEntry) : FsState :=
  match wl.nodes.get entry.node with
  | some node =>
    let s := { s with pathNode := s.pathNode.set entry.path entry.node }
    if node.kind = .dir then { s with dirs := insert entry.path s.dirs }
    else
      let (s, ino) := s.newInode (fake.content H entry.node 0 node.size.toNat)
      { s with names := s.names.set entry.path ino }
  | none => s

/-- `initialize`. -/
def initialized (wl : Workload3) : FsState := wl.entries.foldl (fake.initialEntry H wl) .empty

/-- The node of a path that is opened: that of the path, or what is expected, or a name made of the path. An empty text counts as none. -/
def nodeOf (s : FsState) (opId path : Text) : Text :=
  ((s.pathNode.get path).filter (· ≠ [])).getD (((fake.expectedNode opId).filter (· ≠ [])).getD ("node:".toList ++ path))

/-- What an open of an existing file does. -/
def openInode (operation : Operation3) (s : FsState) (path handle : Text) (flags : List OpenFlag) (ino : Nat) : FsResult × FsState :=
  let inodes := if .trunc ∈ flags then s.inodes.set ino [] else s.inodes
  let node := fake.nodeOf s operation.opId path
  ({ outcome := .success, node := some node, handle := some handle },
    { s with
      inodes
      handles := s.handles.set handle ino
      pathNode := s.pathNode.set path node
      handleNode := s.handleNode.set handle node
      pos := s.pos.set handle 0 })

/-- `open`. -/
def openPath (operation : Operation3) (s : FsState) : Except PyError (FsResult × FsState) := do
  let path ← require operation.args.path (.keyError "path")
  let flags ← require operation.args.flags (.keyError "flags")
  let handle ← require operation.args.handle (.keyError "handle")
  match s.names.get path with
  | none =>
    if .creat ∉ flags ∨ s.parentOk path = false then pure ({ outcome := .miss, errno := enoent }, s)
    else
      let (s, ino) := s.newInode []
      pure (fake.openInode operation { s with names := s.names.set path ino } path handle flags ino)
  | some ino =>
    if .excl ∈ flags ∧ .creat ∈ flags then pure ({ outcome := .exists, errno := eexist }, s)
    else pure (fake.openInode operation s path handle flags ino)

/-- The handle of a call, its inode and the bytes of it. -/
def handleOf (operation : Operation3) (s : FsState) : Except PyError (Text × Nat × Bytes) := do
  let handle ← require operation.args.handle (.keyError "handle")
  let ino ← require (s.handles.get handle) (.keyError (String.ofList handle))
  let buf ← require (s.inodes.get ino) (.keyError "inode")
  pure (handle, ino, buf)

/-- The offset of a read or write: the argument, or the position of the handle. -/
def offsetOf (operation : Operation3) (s : FsState) (positioned : Bool) (handle : Text) : Except PyError Nat :=
  if positioned then do
    let offset ← require operation.args.offset (.keyError "offset")
    pure offset.toNat
  else require (s.pos.get handle) (.keyError (String.ofList handle))

/-- `buf` with the data written at the offset, and zeros where there was nothing. -/
def written (buf data : Bytes) (offset : Nat) : Bytes :=
  let buf := buf ++ List.replicate (offset + data.length - buf.length) 0
  buf.take offset ++ data ++ buf.drop (offset + data.length)

/-- `pwrite` and `write`. -/
def write (operation : Operation3) (positioned : Bool) (s : FsState) : Except PyError (FsResult × FsState) := do
  let (handle, ino, buf) ← handleOf operation s
  let offset ← offsetOf operation s positioned handle
  let node ← require (s.handleNode.get handle) (.keyError (String.ofList handle))
  let length ← require operation.args.length (.keyError "length")
  let data := fake.content H node offset length.toNat
  let s := { s with inodes := s.inodes.set ino (written buf data offset) }
  pure ({ outcome := .success, bytes := data.length }, if positioned then s else { s with pos := s.pos.set handle (offset + data.length) })

/-- `pread` and `read`. -/
def read (operation : Operation3) (positioned : Bool) (s : FsState) : Except PyError (FsResult × FsState) := do
  let (handle, _, buf) ← handleOf operation s
  let offset ← offsetOf operation s positioned handle
  let length ← require operation.args.length (.keyError "length")
  let data := (buf.drop offset).take length.toNat
  let s := if positioned then s else { s with pos := s.pos.set handle (offset + data.length) }
  let node ← require (s.handleNode.get handle) (.keyError (String.ofList handle))
  if data ≠ [] ∧ data ≠ fake.content H node offset data.length then
    pure ({ outcome := .error, bytes := data.length, detail := "content mismatch".toList }, s)
  else pure ({ outcome := if data.length = length.toNat then .success else .eof, bytes := data.length }, s)

/-- `rename`: neither the target nor its parent is looked at, and what is below a directory stays where it is. -/
def rename (operation : Operation3) (s : FsState) : Except PyError (FsResult × FsState) := do
  let src ← require operation.args.path (.keyError "path")
  let dst ← require operation.args.newPath (.keyError "new_path")
  let pathNode := match s.pathNode.get src with
    | some node => (s.pathNode.erase src).set dst node
    | none => s.pathNode
  match s.names.get src with
  | some ino => pure ({ outcome := .success }, { s with names := (s.names.erase src).set dst ino, pathNode })
  | none =>
    if src ∈ s.dirs then pure ({ outcome := .success }, { s with dirs := insert dst (s.dirs.erase src), pathNode })
    else pure ({ outcome := .miss, errno := enoent }, s)

/-- `unlink`. -/
def unlink (operation : Operation3) (s : FsState) : Except PyError (FsResult × FsState) := do
  let path ← require operation.args.path (.keyError "path")
  match s.names.get path with
  | none => pure ({ outcome := .miss, errno := enoent }, s)
  | some ino =>
    let inodes := if ino ∈ s.handles.entries.map Prod.snd then s.inodes else s.inodes.erase ino
    pure ({ outcome := .success }, { s with names := s.names.erase path, pathNode := s.pathNode.erase path, inodes })

/-- `mkdir`. -/
def mkdir (operation : Operation3) (s : FsState) : Except PyError (FsResult × FsState) := do
  let path ← require operation.args.path (.keyError "path")
  if path ∈ s.dirs ∨ path ∈ s.names.keys then pure ({ outcome := .exists, errno := eexist }, s)
  else if s.parentOk path = false then pure ({ outcome := .miss, errno := enoent }, s)
  else pure ({ outcome := .success }, { s with dirs := insert path s.dirs })

/-- `rmdir`. -/
def rmdir (operation : Operation3) (s : FsState) : Except PyError (FsResult × FsState) := do
  let path ← require operation.args.path (.keyError "path")
  if path ∉ s.dirs then pure ({ outcome := .miss, errno := enoent }, s)
  else if s.childCount path ≠ 0 then pure ({ outcome := .notEmpty, errno := enotempty }, s)
  else pure ({ outcome := .success }, { s with dirs := s.dirs.erase path })

/-- `buf[:size] + bytes(max(0, size - len(buf)))`. -/
def resized (buf : Bytes) (size : Nat) : Bytes := buf.take size ++ List.replicate (size - buf.length) 0

/-- `truncate` and `ftruncate` of an inode. -/
def truncateInode (operation : Operation3) (s : FsState) (ino : Nat) : Except PyError (FsResult × FsState) := do
  let buf ← require (s.inodes.get ino) (.keyError "inode")
  let size ← require operation.args.size (.keyError "size")
  pure ({ outcome := .success }, { s with inodes := s.inodes.set ino (resized buf size.toNat) })

/-- `truncate`. -/
def truncate (operation : Operation3) (s : FsState) : Except PyError (FsResult × FsState) := do
  let path ← require operation.args.path (.keyError "path")
  match s.names.get path with
  | none => pure ({ outcome := .miss, errno := enoent }, s)
  | some ino => truncateInode operation s ino

/-- `stat`. -/
def stat (operation : Operation3) (s : FsState) : Except PyError (FsResult × FsState) := do
  let path ← require operation.args.path (.keyError "path")
  match s.names.get path with
  | some ino => do
    let buf ← require (s.inodes.get ino) (.keyError "inode")
    pure ({ outcome := .success, size := some buf.length }, s)
  | none =>
    if path ∈ s.dirs then pure ({ outcome := .success, size := some 0 }, s)
    else pure ({ outcome := .miss, errno := enoent }, s)

/-- `readdir`. -/
def readdir (operation : Operation3) (s : FsState) : Except PyError (FsResult × FsState) := do
  let path ← require operation.args.path (.keyError "path")
  if path ∉ s.dirs then pure ({ outcome := .miss, errno := enoent }, s)
  else pure ({ outcome := .success, count := some (s.childCount path) }, s)

/-- A call on a handle that is not open. -/
def badHandle (operation : Operation3) (s : FsState) : Bool :=
  match operation.args.handle with
  | some handle => handle ∉ s.handles.keys
  | none => false

/-- `perform`. -/
def perform (operation : Operation3) (s : FsState) : Except PyError (FsResult × FsState) :=
  match fake.fail operation.opId with
  | some forced => .ok ({ outcome := forced, detail := "injected".toList }, s)
  | none =>
    if operation.call = .openPath then fake.openPath operation s
    else if badHandle operation s then .ok ({ outcome := .error, errno := ebadf }, s)
    else
      match operation.call with
      | .close => do
        let handle ← require operation.args.handle (.keyError "handle")
        let _ ← require (s.handles.get handle) (.keyError (String.ofList handle))
        pure ({ outcome := .success }, { s with handles := s.handles.erase handle })
      | .pwrite => fake.write H operation true s
      | .write => fake.write H operation false s
      | .pread => fake.read H operation true s
      | .read => fake.read H operation false s
      | .fstat => do
        let (_, _, buf) ← handleOf operation s
        pure ({ outcome := .success, size := some buf.length }, s)
      | .stat => stat operation s
      | .readdir => readdir operation s
      | .rename => rename operation s
      | .unlink => unlink operation s
      | .mkdir => mkdir operation s
      | .rmdir => rmdir operation s
      | .truncate => truncate operation s
      | .ftruncate => do
        let (_, ino, _) ← handleOf operation s
        truncateInode operation s ino
      | .fsync | .fdatasync => .ok ({ outcome := .success }, s)
      | call => .ok ({ outcome := .error, detail := s!"unsupported call {call.word}".toList }, s)

/-- The states after each of the operations. -/
def performAll : List Operation3 → FsState → Except PyError (List FsState)
  | [], _ => .ok []
  | operation :: rest, s => do
    let (_, s) ← fake.perform H operation s
    let later ← performAll rest s
    .ok (s :: later)

end FakeFs

end EbpfSyscall.Kvio
