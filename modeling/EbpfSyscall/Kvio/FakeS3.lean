import EbpfSyscall.Kvio.TypedRun

/-!
# The in-memory bucket

`FakeS3` of `tools/kvio/s3_client.py`, and the executor's runs on it. What a put or a part holds is the content of a name: the key, or
the key and the number of the part. A get compares what it finds with the content of its key.
-/

namespace EbpfSyscall.Kvio

open Checked

/-- `Result`; of its `meta` the texts and numbers that a call puts there. -/
structure S3Result where
  outcome : Status
  code : String
  bytes : Nat := 0
  detail : Text := []
  size : Option Nat := none
  count : Option Nat := none
  pages : Option Nat := none
  upload : Option Text := none
  deriving DecidableEq, Repr

/-- What the bucket holds. -/
structure S3State where
  objects : Assoc Text Bytes
  /-- The parts of every upload that is neither completed nor aborted. -/
  mpu : Assoc Text (Assoc Int Bytes)
  deriving DecidableEq, Repr

structure FakeS3 where
  profile : ContentProfile := .incompressible
  /-- `fail`: the operations that must fail, and how. -/
  fail : Text → Option Status := fun _ => none
  page : Nat := 1000
  pagePos : 0 < page := by decide

namespace FakeS3

variable (H : ContentHost) (fake : FakeS3)

/-- `content`. -/
def content (name : Text) (offset length : Nat) : Bytes := Kvio.content H fake.profile name offset length

/-- One entry of `initialize`: an object holds the content of its node. -/
def initialEntry (wl : Workload3) (s : S3State) (entry : DirEntry) : S3State :=
  match wl.nodes.get entry.node with
  | some node =>
    if node.kind = .object then
      { s with objects := s.objects.set entry.path (Kvio.content H fake.profile entry.node 0 node.size.toNat) }
    else s
  | none => s

/-- `initialize`. -/
def initialized (wl : Workload3) : S3State := wl.entries.foldl (fake.initialEntry H wl) ⟨.empty, .empty⟩

/-- The name under which a part has its content. -/
def partName (key : Text) (part : Int) : Text := key ++ '#' :: Decimal.printInt part

/-- `b"".join(parts[p] for p in sorted(parts))`. -/
def joinParts (parts : Assoc Int Bytes) : Bytes :=
  (parts.keys.mergeSort (fun a b => decide (a ≤ b))).flatMap fun part => (parts.get part).getD []

/-- What a get does once it has found the bytes of the key. -/
def compare (key : Text) (offset : Option Int) (data : Bytes) : S3Result :=
  if data ≠ fake.content H key (offset.getD 0).toNat data.length then
    { outcome := .error, code := "content", bytes := data.length, detail := "content mismatch".toList }
  else { outcome := .success, code := "200", bytes := data.length }

/-- `perform`. -/
def perform (operation : Operation3) (s : S3State) : Except PyError (S3Result × S3State) :=
  match fake.fail operation.opId with
  | some forced => .ok ({ outcome := forced, code := "injected", detail := "injected".toList }, s)
  | none =>
    let key := require operation.args.key (.keyError "key")
    let upload := require operation.args.upload (.keyError "upload")
    match operation.call with
    | .put => do
      let key ← key
      let size ← require operation.args.size (.keyError "size")
      pure ({ outcome := .success, code := "200", bytes := size.toNat },
        { s with objects := s.objects.set key (fake.content H key 0 size.toNat) })
    | .get => do
      let key ← key
      match s.objects.get key with
      | none => pure ({ outcome := .miss, code := "NoSuchKey" }, s)
      | some data =>
        match operation.args.offset with
        | none => pure (fake.compare H key none data, s)
        | some offset => do
          let length ← require operation.args.length (.keyError "length")
          pure (fake.compare H key offset ((data.drop offset.toNat).take length.toNat), s)
    | .head => do
      let key ← key
      match s.objects.get key with
      | none => pure ({ outcome := .miss, code := "NotFound" }, s)
      | some data => pure ({ outcome := .success, code := "200", size := data.length }, s)
    | .list => do
      let front ← require operation.args.pre (.keyError "prefix")
      let count := (s.objects.keys.filter (fun key => front.isPrefixOf key)).length
      pure ({ outcome := .success, code := "200", count, pages := some (max 1 ((count + fake.page - 1) / fake.page)) }, s)
    | .delete => do
      -- Deleting a key that is not there succeeds.
      let key ← key
      pure ({ outcome := .success, code := "204" }, { s with objects := s.objects.erase key })
    | .mpuCreate => do
      let upload ← upload
      pure ({ outcome := .success, code := "200", upload := upload }, { s with mpu := s.mpu.set upload .empty })
    | .mpuPart => do
      let upload ← upload
      match s.mpu.get upload with
      | none => pure ({ outcome := .miss, code := "NoSuchUpload" }, s)
      | some parts => do
        let key ← key
        let part ← require operation.args.part (.keyError "part")
        let size ← require operation.args.size (.keyError "size")
        pure ({ outcome := .success, code := "200", bytes := size.toNat },
          { s with mpu := s.mpu.set upload (parts.set part (fake.content H (partName key part) 0 size.toNat)) })
    | .mpuComplete => do
      let upload ← upload
      match s.mpu.get upload with
      | none => pure ({ outcome := .miss, code := "NoSuchUpload" }, s)
      | some parts => do
        let key ← key
        pure ({ outcome := .success, code := "200" },
          { objects := s.objects.set key (joinParts parts), mpu := s.mpu.erase upload })
    | .mpuAbort => do
      let upload ← upload
      match s.mpu.get upload with
      | none => pure ({ outcome := .miss, code := "NoSuchUpload" }, s)
      | some _ => pure ({ outcome := .success, code := "204" }, { s with mpu := s.mpu.erase upload })
    | call => .ok ({ outcome := .error, code := "unsupported", detail := s!"unsupported call {call.word}".toList }, s)

/-- `_perform_v3` on a `FakeS3`, for an operation that is submitted. The bucket has none of the calls of an object store. -/
def performV3 (operation : Operation3) (s : S3State) : Except PyError (Outcome × S3State) :=
  match operation.family, operation.call with
  | .object, .exists => .ok (⟨.error, 0, "backend has no exists".toList⟩, s)
  | .object, .store => .error (.attributeError "payload")
  | .object, .load => .error (.attributeError "load")
  | .object, .release => .error (.attributeError "release")
  | _, _ => do
    let (result, s) ← fake.perform H operation s
    pure (⟨result.outcome, result.bytes, result.detail⟩, s)

end FakeS3

/-! ## Runs in any order -/

/-- An order of the operations of a workload in which each comes after those it depends on. -/
structure DependencyOrder (wl : Workload3) where
  operations : List Operation3
  perm : operations.Perm wl.operations
  respects : ∀ before operation after, operations = before ++ operation :: after →
    ∀ dep ∈ operation.deps, dep.op ∈ before.map Operation3.opId

/-- The executor performs the operations one after the other. -/
def Executor.performAll {σ : Type} (ex : Executor σ) : List Text → σ → Except PyError (List Outcome × σ)
  | [], s => .ok ([], s)
  | opId :: rest, s => do
    let (outcome, s) ← ex.perform opId s
    let (outcomes, s) ← ex.performAll rest s
    pure (outcome :: outcomes, s)

/-- A run on a fresh bucket. -/
def Workload3.runS3 (H : ContentHost) (wl : Workload3) (fake : FakeS3) (settings : Settings) (order : DependencyOrder wl) :
    Except PyError (List Outcome × S3State) :=
  (wl.executor settings (fake.performV3 H) (fun _ => 0)).performAll (order.operations.map Operation3.opId) (fake.initialized H wl)

end EbpfSyscall.Kvio
