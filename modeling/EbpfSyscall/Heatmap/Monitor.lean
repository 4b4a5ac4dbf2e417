import EbpfSyscall.Lib.Runs

/-!
# The sampling loop of mmap-heatmap

The monitor of `mmap-heatmap` keeps a shadow copy of a region of another process. A sample reads the soft-dirty bits of the pages
(`get_dirty_pages`), reads the runs of dirty pages into the shadow (`batch_dirty_runs`, `read_pages`, `diff_pages`) and clears the bits
(`clear_soft_dirty`). Each call into the kernel is one step; between any two of them the target may write. Addresses are numbers, and
the shadow is indexed by the offset in the region.
-/

namespace EbpfSyscall.Heatmap

/-- `PAGE_SIZE`. -/
def pageSize : Nat := 4096

/-- `WORD_SIZE`. -/
def wordSize : Nat := 8

/-- The region that is watched, as `main` has checked it. -/
structure Region where
  start : Nat
  numPages : Nat
  aligned : pageSize ∣ start
  nonempty : 0 < numPages

/-- `region_size`. -/
def Region.size (region : Region) : Nat := region.numPages * pageSize

/-! ## Functions of the monitor -/

/-- `get_dirty_pages`: the addresses of the pages whose entry has the soft-dirty bit; the entries are those that were read. -/
def getDirtyPages (start : Nat) (entries : List Bool) : List Nat :=
  entries.zipIdx.filterMap fun entry => if entry.1 then some (start + entry.2 * pageSize) else none

/-- The loop of `batch_dirty_runs`; `previous` is the page before. -/
def batchLoop (runStart runCount previous : Nat) : List Nat → List (Nat × Nat)
  | [] => [(runStart, runCount)]
  | page :: rest =>
    if page = previous + pageSize then batchLoop runStart (runCount + 1) page rest
    else (runStart, runCount) :: batchLoop page 1 page rest

/-- `batch_dirty_runs`: the runs of pages that follow each other, as address and number of pages. -/
def batchDirtyRuns : List Nat → List (Nat × Nat)
  | [] => []
  | page :: rest => batchLoop page 1 page rest

/-- What `read_pages` leaves in the buffer after a read of `n` bytes: the tail is filled with zeros. -/
def readPages (memory : Nat → UInt8) (addr n : Nat) (i : Nat) : UInt8 := if i < n then memory (addr + i) else 0

/-- `DiffEngine`. -/
structure DiffEngine where
  shadow : Nat → UInt8
  /-- The words that changed in this sample. -/
  fineChanged : Nat → Bool

/-- `diff_pages`: the number of words that changed, and the engine with the data in its shadow. -/
def DiffEngine.diffPages (region : Region) (engine : DiffEngine) (pageAddr : Nat) (pageData : Nat → UInt8) (numPages : Nat) :
    Nat × DiffEngine :=
  let pageOffset := pageAddr - region.start
  let totalBytes := numPages * pageSize
  if region.size < pageOffset + totalBytes then (0, engine)
  else
    let firstWord := pageOffset / wordSize
    let differs (word : Nat) : Bool :=
      (List.range wordSize).any fun i => engine.shadow (pageOffset + word * wordSize + i) ≠ pageData (word * wordSize + i)
    (((List.range (totalBytes / wordSize)).filter differs).length,
      { shadow := fun i => if pageOffset ≤ i ∧ i < pageOffset + totalBytes then pageData (i - pageOffset) else engine.shadow i
        fineChanged := fun word =>
          engine.fineChanged word || (decide (firstWord ≤ word ∧ word < firstWord + totalBytes / wordSize) && differs (word - firstWord)) })

/-- `reset_changed`. -/
def DiffEngine.resetChanged (engine : DiffEngine) : DiffEngine := { engine with fineChanged := fun _ => false }

/-- The runs of a sample in order, each with the data of its addresses: the sum of the counts, and the engine. -/
def DiffEngine.diffRuns (region : Region) (engine : DiffEngine) (data : Nat → UInt8) (runs : List (Nat × Nat)) : Nat × DiffEngine :=
  runs.foldl (fun sample run =>
    let result := sample.2.diffPages region run.1 (fun i => data (run.1 + i)) run.2
    (sample.1 + result.1, result.2)) (0, engine)

/-! ## The system -/

/-- What a read from `/proc` returns: a number of bytes, that the process is gone, EIO, or another error. -/
inductive ReadResult where
  | bytes (n : Nat)
  | gone
  | eio
  | failed
  deriving DecidableEq, Repr

inductive ClearResult where
  | cleared
  | gone
  | failed
  deriving DecidableEq, Repr

/-- Where the monitor stands. -/
inductive Phase where
  /-- In `read_full_region`; the pages before this one have been read. -/
  | snapshot (offset : Nat)
  /-- Between two samples. -/
  | idle
  /-- In a sample, with the runs that are still to be read. -/
  | reading (runs : List (Nat × Nat))
  /-- No more samples: the process is gone or the monitor has ended with an error. -/
  | stopped
  deriving DecidableEq, Repr

/-- The memory of the target with its soft-dirty bits, by page number, and the monitor. -/
structure System where
  memory : Nat → UInt8
  softDirty : Nat → Bool
  engine : DiffEngine
  phase : Phase

/-- What can happen. -/
inductive Event where
  /-- The target stores a byte. -/
  | write (addr : Nat) (byte : UInt8)
  | readChunk (result : ReadResult)
  | readPagemap (result : ReadResult)
  | readRun (result : ReadResult)
  | clear (result : ClearResult)
  deriving DecidableEq, Repr

/-- The pages that `read_full_region` reads in one call. -/
def chunkPages : Nat := 256

/-- The kernel sets the soft-dirty bit of a page at every write. -/
def System.write (s : System) (addr : Nat) (byte : UInt8) : System :=
  { s with memory := Function.update s.memory addr byte, softDirty := Function.update s.softDirty (addr / pageSize) true }

/-- One call of `read_full_region`. -/
def System.readChunk (region : Region) (s : System) (offset : Nat) (result : ReadResult) : Option System :=
  let byteOffset := offset * pageSize
  let byteSize := min (region.numPages - offset) chunkPages * pageSize
  let fill (data : Nat → UInt8) : System :=
    { s with
      engine := { s.engine with shadow := fun i =>
        if byteOffset ≤ i ∧ i < byteOffset + byteSize then data (i - byteOffset) else s.engine.shadow i }
      phase := .snapshot (offset + chunkPages) }
  match result with
  | .bytes n => if n ≤ byteSize then some (fill (readPages s.memory (region.start + byteOffset) n)) else none
  | .eio => some (fill fun _ => 0)
  | _ => some { s with phase := .stopped }

/-- The soft-dirty bits that a read of `n` bytes of the pagemap returns. -/
def System.pagemap (region : Region) (s : System) (n : Nat) : List Bool :=
  (List.range (n / 8)).map fun i => s.softDirty (region.start / pageSize + i)

/-- The start of a sample. -/
def System.readPagemap (region : Region) (s : System) (result : ReadResult) : Option System :=
  match result with
  | .bytes n =>
    if n ≤ region.numPages * 8 then
      some { s with
        engine := { s.engine with fineChanged := fun _ => false }
        phase := .reading (batchDirtyRuns (getDirtyPages region.start (s.pagemap region n))) }
    else none
  | _ => some { s with phase := .stopped }

/-- One run of dirty pages. An error other than a process that is gone is ignored. -/
def System.readRun (region : Region) (s : System) (run : Nat × Nat) (rest : List (Nat × Nat)) (result : ReadResult) : Option System :=
  match result with
  | .bytes n =>
    if n ≤ run.2 * pageSize then
      some { s with engine := (s.engine.diffPages region run.1 (readPages s.memory run.1 n) run.2).2, phase := .reading rest }
    else none
  | .gone => some { s with phase := .stopped }
  | _ => some { s with phase := .reading rest }

/-- Clearing the soft-dirty bits of the process, after the snapshot or at the end of a sample. -/
def System.clear (s : System) : ClearResult → System
  | .cleared => { s with softDirty := fun _ => false, phase := .idle }
  | _ => { s with phase := .stopped }

/-- One step. -/
def System.step (region : Region) (s : System) : Event → Option System
  | .write addr byte => some (s.write addr byte)
  | .readChunk result =>
    match s.phase with
    | .snapshot offset => if offset < region.numPages then s.readChunk region offset result else none
    | _ => none
  | .readPagemap result => if s.phase = .idle then s.readPagemap region result else none
  | .readRun result =>
    match s.phase with
    | .reading (run :: rest) => s.readRun region run rest result
    | _ => none
  | .clear result =>
    match s.phase with
    | .snapshot offset => if region.numPages ≤ offset then some (s.clear result) else none
    | .reading [] => some (s.clear result)
    | _ => none

/-- The system when the monitor starts. -/
def System.start (memory : Nat → UInt8) (softDirty : Nat → Bool) : System :=
  ⟨memory, softDirty, ⟨fun _ => 0, fun _ => false⟩, .snapshot 0⟩

/-- The system after events. -/
def System.after (region : Region) (s : System) (events : List Event) : Option System := Runs.run (System.step region) s events

end EbpfSyscall.Heatmap
