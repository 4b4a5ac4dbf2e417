import EbpfSyscall.Kvio.Workload3
import EbpfSyscall.Lemmas.Intent2

/-!
# Typed workloads that the validator accepts

`validate_workload` accepts a workload exactly when it is `Workload3.Valid`.
-/

namespace EbpfSyscall.Kvio

open Checked List

namespace Workload3

/-- What the validator asks of the arguments of an operation. -/
structure ArgsOk (wl : Workload3) (operation : Operation3) : Prop where
  fields : ∃ fields, (calls operation.family).lookup operation.call = some fields ∧ ∀ field ∈ fields, operation.args.has field = true
  size : ∀ size, operation.args.size = some size → 0 ≤ size
  offset : ∀ offset, operation.args.offset = some offset → 0 ≤ offset
  length : ∀ length, operation.args.length = some length → 0 ≤ length
  part : ∀ part, operation.args.part = some part → 0 ≤ part
  path : ∀ path, operation.args.path = some path → TraversalFree path
  newPath : ∀ path, operation.args.newPath = some path → TraversalFree path
  node : ∀ node, operation.args.node = some node → node ∈ wl.nodes.keys ∨ node ∈ wl.objects

variable {operation : Operation3} {wl : Workload3} {path : String} {u : Unit}

/-- The fields of a call of a family. -/
theorem ArgsOk.has (h : ArgsOk wl operation) {family : Family} (hfamily : operation.family = family) {call : Call}
    (hcall : operation.call = call) {fields : List Field} (hfields : (calls family).lookup call = some fields) :
    ∀ field ∈ fields, operation.args.has field = true := by
  obtain ⟨fields', hfields', hhas⟩ := h.fields
  rw [hfamily, hcall, hfields, Option.some.injEq] at hfields'
  exact hfields' ▸ hhas

/-- The handle of an operation: one that opens a path uses a handle that is not open, any other POSIX call one that is. -/
def HandleOk (openHandles : List Text) (operation : Operation3) : Prop :=
  operation.family = .posix →
    (operation.call = .openPath → ∃ handle, operation.args.handle = some handle ∧ handle ∉ openHandles) ∧
      (operation.call ≠ .openPath → ∀ handle, operation.args.handle = some handle → handle ∈ openHandles)

/-- The handles that are open after an operation. -/
def openAfter (openHandles : List Text) (operation : Operation3) : List Text :=
  if operation.family = .posix then
    if operation.call = .openPath then operation.args.handle.toList ++ openHandles
    else if operation.call = .close then openHandles.filter (fun handle => operation.args.handle ≠ some handle)
    else openHandles
  else openHandles

/-- What the loop over the operations remembers after one of them. -/
def Seen.next (seen : Seen) (operation : Operation3) : Seen :=
  ⟨seen.ids ++ [operation.opId], openAfter seen.openHandles operation⟩

/-- What the validator asks of an operation, given what the loop remembers. -/
structure Accepts (wl : Workload3) (seen : Seen) (seq : Nat) (operation : Operation3) : Prop where
  seq : operation.seq = seq
  opId : operation.opId ≠ []
  fresh : operation.opId ∉ seen.ids
  args : ArgsOk wl operation
  handle : HandleOk seen.openHandles operation
  stream : operation.stream ≠ none
  attempt : 1 ≤ operation.attempt
  deps : ∀ dep ∈ operation.deps, dep.op ∈ seen.ids
  release : Intent2.ReleaseOk wl.provenance.timingModel operation.releaseNs

theorem checkInt_eq_ok {value minimum : Int} : checkInt value path minimum = .ok u ↔ minimum ≤ value := by
  rw [checkInt, ensure_eq_ok]

theorem checkStr_eq_ok {value : Text} : checkStr value path = .ok u ↔ value ≠ [] := by
  rw [checkStr, ensure_eq_ok]

theorem checkRelease_eq_ok {timingModel : TimingModel} {releaseNs : Option Int} :
    checkRelease path timingModel releaseNs = .ok u ↔ Intent2.ReleaseOk timingModel releaseNs := by
  unfold Intent2.ReleaseOk
  cases releaseNs with
  | none => simp [checkRelease]
  | some release => simp [checkRelease, check_bind_eq_ok, checkInt_eq_ok]

theorem checkArgs_eq_ok : checkArgs wl path operation = .ok u ↔ ArgsOk wl operation := by
  simp only [checkArgs, bind_eq_ok, exists_const, require_eq_ok, checkAll_eq_ok, ensure_eq_ok, whenSome_eq_ok, checkInt_eq_ok]
  constructor
  · rintro ⟨fields, hfields, hhas, hsize, hoffset, hlength, hpart, hpath, hnewPath, hnode⟩
    exact ⟨⟨fields, hfields, hhas⟩, hsize, hoffset, hlength, hpart, hpath, hnewPath, hnode⟩
  · intro h
    obtain ⟨fields, hfields, hhas⟩ := h.fields
    exact ⟨fields, hfields, hhas, h.size, h.offset, h.length, h.part, h.path, h.newPath, h.node⟩

theorem handlesAfter_eq_ok {openHandles next : List Text} :
    handlesAfter path openHandles operation = .ok next ↔ HandleOk openHandles operation ∧ next = openAfter openHandles operation := by
  unfold handlesAfter HandleOk openAfter
  by_cases hfamily : operation.family = .posix
  · rw [if_pos hfamily, if_pos hfamily]
    by_cases hcall : operation.call = .openPath
    · rw [if_pos hcall, if_pos hcall]
      simp only [bind_eq_ok, exists_const, require_eq_ok, ensure_eq_ok, pure_eq_ok, Except.ok.injEq, hfamily, hcall]
      constructor
      · rintro ⟨handle, hhandle, hnot, rfl⟩
        rw [hhandle]
        exact ⟨fun _ => ⟨fun _ => ⟨handle, rfl, hnot⟩, fun hne => absurd rfl hne⟩, rfl⟩
      · rintro ⟨hok, rfl⟩
        obtain ⟨handle, hhandle, hnot⟩ := (hok trivial).1 trivial
        rw [hhandle]
        exact ⟨handle, rfl, hnot, rfl⟩
    · rw [if_neg hcall, if_neg hcall]
      cases hhandle : operation.args.handle with
      | none => simp [hcall, eq_comm]
      | some handle =>
        simp only [bind_eq_ok, exists_const, ensure_eq_ok, pure_eq_ok, Except.ok.injEq, hfamily, hcall, Option.some.injEq]
        constructor
        · rintro ⟨hin, rfl⟩
          refine ⟨fun _ => ⟨fun heq => absurd heq (by simp), fun _ other hother => hother ▸ hin⟩, ?_⟩
          simp [eq_comm]
        · rintro ⟨hok, rfl⟩
          refine ⟨(hok trivial).2 hcall handle rfl, ?_⟩
          simp [eq_comm]
  · rw [if_neg hfamily, if_neg hfamily]
    simp [hfamily, eq_comm]

theorem operationStep_eq_ok {seen next : Seen} {seq : Nat} :
    operationStep wl seen seq operation = .ok next ↔ Accepts wl seen seq operation ∧ next = seen.next operation := by
  simp only [operationStep, bind_eq_ok, exists_const, ensure_eq_ok, checkStr_eq_ok, checkInt_eq_ok, checkAll_eq_ok, checkArgs_eq_ok,
    handlesAfter_eq_ok, checkRelease_eq_ok, pure_eq_ok, Except.ok.injEq]
  constructor
  · rintro ⟨hseq, hopId, hfresh, hargs, openHandles, ⟨hhandle, rfl⟩, hstream, hattempt, hdeps, hrelease, rfl⟩
    exact ⟨⟨hseq, hopId, hfresh, hargs, hhandle, hstream, hattempt, hdeps, hrelease⟩, rfl⟩
  · rintro ⟨h, rfl⟩
    exact ⟨h.seq, h.opId, h.fresh, h.args, _, ⟨h.handle, rfl⟩, h.stream, h.attempt, h.deps, h.release, rfl⟩

/-- What the validator asks of an entry, given the paths before it. -/
structure EntryOk (nodes : Assoc Text Node) (paths : List Text) (entry : DirEntry) : Prop where
  path : entry.path ≠ []
  traversalFree : TraversalFree entry.path
  node : entry.node ∈ nodes.keys
  fresh : entry.path ∉ paths

theorem entryStep_eq_ok {nodes : Assoc Text Node} {paths next : List Text} {i : Nat} {entry : DirEntry} :
    entryStep nodes paths i entry = .ok next ↔ EntryOk nodes paths entry ∧ next = paths ++ [entry.path] := by
  simp only [entryStep, bind_eq_ok, exists_const, ensure_eq_ok, checkStr_eq_ok, pure_eq_ok, Except.ok.injEq]
  constructor
  · rintro ⟨hpath, htraversal, hnode, hfresh, rfl⟩
    exact ⟨⟨hpath, htraversal, hnode, hfresh⟩, rfl⟩
  · rintro ⟨h, rfl⟩
    exact ⟨h.path, h.traversalFree, h.node, h.fresh, rfl⟩

theorem foldl_paths (entries : List DirEntry) (paths : List Text) :
    entries.foldl (fun paths entry => paths ++ [entry.path]) paths = paths ++ entries.map DirEntry.path := by
  induction entries generalizing paths with
  | nil => simp
  | cons entry rest ih => rw [foldl_cons, ih, map_cons, append_assoc, singleton_append]

/-- What the loop remembers after the given operations. -/
def seenAfter (wl : Workload3) (operations : List Operation3) : Seen := operations.foldl Seen.next ⟨[], wl.handles.keys⟩

@[simp] theorem seenAfter_ids (wl : Workload3) (operations : List Operation3) : (seenAfter wl operations).ids = operations.map Operation3.opId := by
  have hfold : ∀ (operations : List Operation3) (seen : Seen),
      (operations.foldl Seen.next seen).ids = seen.ids ++ operations.map Operation3.opId := by
    intro operations
    induction operations with
    | nil => simp
    | cons operation rest ih =>
      intro seen
      rw [foldl_cons, ih, Seen.next, map_cons, append_assoc, singleton_append]
  rw [seenAfter, hfold]
  rfl

/-- What the validator accepts. -/
structure Valid (wl : Workload3) : Prop where
  provenance : checkProvenance wl.provenance = .ok ()
  engine : wl.engine.family ≠ [] ∧ wl.engine.name ≠ [] ∧ wl.engine.revision ≠ []
  contentProfile : wl.contentProfile ≠ []
  nodes : ∀ entry ∈ wl.nodes.entries, entry.1 ≠ [] ∧ 1 ≤ entry.2.incarnation ∧ 0 ≤ entry.2.size
  entries : ∀ before entry after, wl.entries = before ++ entry :: after → EntryOk wl.nodes (before.map DirEntry.path) entry
  handles : ∀ entry ∈ wl.handles.entries, entry.2 ∈ wl.nodes.keys
  operations : ∀ before operation after, wl.operations = before ++ operation :: after →
    Accepts wl (seenAfter wl before) before.length operation
  timing : wl.provenance.timingModel = .captured →
    wl.timing.sidecar.any (· ≠ []) = true ∧ wl.timing.sidecarSha256.any (· ≠ []) = true

end Workload3

open Workload3

theorem validateWorkload_eq_ok {wl : Workload3} {u : Unit} : validateWorkload wl = .ok u ↔ Workload3.Valid wl := by
  have hentries : (∃ paths, foldFrom (entryStep wl.nodes) 0 [] wl.entries = .ok paths) ↔
      ∀ before entry after, wl.entries = before ++ entry :: after → EntryOk wl.nodes (before.map DirEntry.path) entry := by
    have hstep : ∀ paths (i : Nat) entry next, entryStep wl.nodes paths i entry = .ok next ↔
        EntryOk wl.nodes paths entry ∧ next = paths ++ [entry.path] := fun _ _ _ _ => entryStep_eq_ok
    rw [exists_foldFrom_eq_ok_iff hstep]
    simp only [foldl_paths, nil_append]
  have hloop : (∃ seen, foldFrom (Workload3.operationStep wl) 0 ⟨[], wl.handles.keys⟩ wl.operations = .ok seen) ↔
      ∀ before operation after, wl.operations = before ++ operation :: after →
        Accepts wl (seenAfter wl before) before.length operation := by
    have hstep : ∀ seen seq operation next, Workload3.operationStep wl seen seq operation = .ok next ↔
        Accepts wl seen seq operation ∧ next = seen.next operation := fun _ _ _ _ => operationStep_eq_ok
    exact exists_foldFrom_eq_ok_iff hstep
  simp only [validateWorkload, Workload3.checkEngine, Workload3.checkTiming, checkNode, checkHandle, bind_eq_ok, exists_const,
    ensure_eq_ok, Workload3.checkStr_eq_ok, Workload3.checkInt_eq_ok, checkAll_eq_ok]
  constructor
  · rintro ⟨_, hprovenance, hengine, hprofile, hnodes, paths, hpaths, hhandles, seen, hseen, htiming⟩
    exact ⟨hprovenance, hengine, hprofile, hnodes, hentries.mp ⟨paths, hpaths⟩, hhandles, hloop.mp ⟨seen, hseen⟩, htiming⟩
  · intro h
    obtain ⟨paths, hpaths⟩ := hentries.mpr h.entries
    obtain ⟨seen, hseen⟩ := hloop.mpr h.operations
    exact ⟨(), h.provenance, h.engine, h.contentProfile, h.nodes, paths, hpaths, h.handles, seen, hseen, h.timing⟩

namespace Workload3

theorem Valid.opIds_nodup {wl : Workload3} (h : Valid wl) : (wl.operations.map Operation3.opId).Nodup := by
  refine nodup_of_fresh fun before operation after heq => ?_
  have hfresh := (h.operations before operation after heq).fresh
  rwa [seenAfter_ids] at hfresh

end Workload3

end EbpfSyscall.Kvio
