import EbpfSyscall.Lemmas.Update

/-!
# Where a write can be cut

`_atomic_write` leaves the directory as it was or with the new content, except for a temporary file that it could not remove. Which
of these depends on the first call that does not succeed.
-/

namespace EbpfSyscall

open Checked Faults CompareStreams BundleAux UpdateAux Prog Finmap

/-- The calls of `_atomic_write` up to the replacement, in order. -/
def replaceCalls : List WriteStep :=
  [.openDirectory, .openTemporary, .fdopen, .write, .flush, .fsyncFile, .closeFile, .replace]

variable {Γ : Host}

/-- Every call up to the replacement succeeds. -/
def Replaces (env : Environment Γ) (name : Text) : Prop := ∀ call ∈ replaceCalls, env.fate (.write name call) = .ok

instance (env : Environment Γ) (name : Text) : Decidable (Replaces env name) :=
  inferInstanceAs (Decidable (∀ call ∈ replaceCalls, env.fate (.write name call) = .ok))

/-- The first call that does not succeed. -/
def FirstFault (env : Environment Γ) (name : Text) (call : WriteStep) : Prop :=
  env.fate (.write name call) ≠ .ok ∧
    ∀ earlier ∈ replaceCalls.takeWhile (fun other => other ≠ call), env.fate (.write name earlier) = .ok

/-- A write that does not get to the replacement removes its temporary file: the process is not stopped while the file exists, and
after an `OSError` the descriptor is closed and the file is unlinked. -/
structure CleansUp (env : Environment Γ) (name : Text) : Prop where
  notStopped : ∀ call ∈ [WriteStep.fdopen, .write, .flush, .fsyncFile, .closeFile, .replace], FirstFault env name call →
    env.fate (.write name call) = .fails
  unlinked : ∀ call ∈ [WriteStep.fdopen, .write, .flush, .fsyncFile, .closeFile, .replace], FirstFault env name call →
    env.fate (.write name .unlink) = .ok
  descriptorClosed : FirstFault env name .fdopen → env.fate (.write name .closeDescriptor) = .ok
  closing : ∀ call ∈ [WriteStep.write, .flush, .fsyncFile], FirstFault env name call →
    env.fate (.write name .closeFile) ≠ .stops

namespace CrashAux

variable {env : Environment Γ} {name content : Text} {machine : Machine Γ} {contents : Text → Γ.Bytes}

/-- The last step of a `finally` does not change the state. -/
theorem always_step_state {m : Update Γ Unit} {place : UpdateStep} {machine : Machine Γ} :
    (Prog.always m (env.step place) machine).2 = (m machine).2 := by
  unfold Prog.always
  rcases m machine with ⟨_ | _ | _, t⟩
  · cases hfate : env.fate place <;> simp [Environment.step, Prog.step, hfate]
  · cases hfate : env.fate place <;> simp [Environment.step, Prog.step, hfate]
  · rfl

/-- The handler of an `OSError` removes the temporary file when its own calls succeed. -/
theorem cleanUp_bundle (hdescriptor : machine.descriptor = true → env.fate (.write name .closeDescriptor) = .ok)
    (hunlink : env.fate (.write name .unlink) = .ok) :
    (cleanUp env name .osError machine).2.bundle =
      { machine.bundle with files := machine.bundle.files.erase (temporaryName env name) } := by
  unfold cleanUp closeDescriptor
  cases hd : machine.descriptor with
  | true =>
    simp [Prog.bind_run, Prog.whenever, hd, Environment.step, Prog.step, hdescriptor hd, Prog.handle, hunlink, Machine.erase]
  | false => simp [Prog.bind_run, Prog.whenever, hd, Environment.step, Prog.step, Prog.handle, hunlink, Machine.erase]

/-- Whatever its calls do, the handler changes nothing but the temporary file. -/
theorem cleanUp_bundle_or (env : Environment Γ) (name : Text) (machine : Machine Γ) : (cleanUp env name .osError machine).2.bundle = machine.bundle ∨
      (cleanUp env name .osError machine).2.bundle =
        { machine.bundle with files := machine.bundle.files.erase (temporaryName env name) } := by
  unfold cleanUp closeDescriptor
  cases hd : machine.descriptor <;> cases hclose : env.fate (.write name .closeDescriptor) <;>
    cases hunlink : env.fate (.write name .unlink) <;>
    simp [Prog.bind_run, Prog.whenever, Environment.step, Prog.step, Prog.handle, Machine.erase, hd, hclose, hunlink]

theorem temporaryName_ne (env : Environment Γ) (name : Text) : temporaryName env name ≠ name := by
  intro h
  have := congrArg List.length h
  simp [temporaryName] at this
  omega

theorem erase_of_notMem {files : Directory Γ} (h : name ∉ files) : files.erase name = files := by
  refine ext_lookup fun other => ?_
  by_cases heq : other = name
  · rw [heq, lookup_erase, lookup_eq_none.mpr h]
  · rw [lookup_erase_ne heq]

/-- The part of `_atomic_write` that the handler protects. -/
def protectedPart (env : Environment Γ) (name content : Text) : Update Γ Unit := do
  openTemporary env name
  fillTemporary env name content
  replaceFile env name
  env.step (.write name .fsyncDirectory)

/-- Once the directory is open, the protected part runs with its handler. -/
theorem atomicWrite_run (h : env.fate (.write name .openDirectory) = .ok) : atomicWrite env name content machine =
      Prog.always (Prog.handle (protectedPart env name content) (cleanUp env name)) (env.step (.write name .closeDirectory))
        machine := by
  have hopen : (env.step (.write name .openDirectory) : Update Γ Unit) machine = (.returned (), machine) := by
    simp only [Environment.step, Prog.step, h, id]
  unfold atomicWrite
  rw [Prog.bind_run, hopen]
  rfl

theorem atomicWrite_state (h : env.fate (.write name .openDirectory) = .ok) : (atomicWrite env name content machine).2 =
      (Prog.handle (protectedPart env name content) (cleanUp env name) machine).2 := by
  rw [atomicWrite_run h]
  exact always_step_state

/-- The file is replaced, whatever comes after. -/
theorem protectedPart_of_replaces (h : Replaces env name) (hfree : temporaryName env name ∉ machine.bundle.files) (content : Text) :
    ∃ s : Machine Γ, s.bundle = written machine.bundle name content ∧
      protectedPart env name content machine = (env.step (.write name .fsyncDirectory) : Update Γ Unit) s := by
  simp only [Replaces, replaceCalls, List.forall_mem_cons] at h
  obtain ⟨-, h2, h3, h4, h5, h6, h7, h8, -⟩ := h
  refine ⟨_, rename_temporary hfree name content env.torn false, ?_⟩
  unfold protectedPart openTemporary fillTemporary replaceFile
  simp only [Prog.bind_run, Environment.step, Prog.step, Prog.always, Prog.reads, h2, h3, h4, h5, h6, h7, h8, id, ensure_of hfree]

/-- Once the calls up to the replacement succeed, the file has the content, whatever comes after. -/
theorem atomicWrite_of_replaces (h : Replaces env name) (hfree : temporaryName env name ∉ machine.bundle.files) (content : Text) :
    (atomicWrite env name content machine).2.bundle = written machine.bundle name content := by
  obtain ⟨s, hs, hrun⟩ := protectedPart_of_replaces h hfree content
  have hgone : temporaryName env name ∉ s.bundle.files := by
    rw [hs, written, Finmap.mem_insert, not_or]
    exact ⟨temporaryName_ne env name, hfree⟩
  rw [atomicWrite_state (h _ (by simp [replaceCalls])), ← hs]
  unfold Prog.handle
  rw [hrun]
  cases hsync : env.fate (.write name .fsyncDirectory) with
  | ok | stops => simp only [Environment.step, Prog.step, hsync, id]
  | fails =>
    simp only [Environment.step, Prog.step, hsync, id]
    rcases cleanUp_bundle_or env name s with hor | hor
    · exact hor
    · rw [hor, erase_of_notMem hgone]

theorem atomicWrite_returns (h : Replaces env name) (hfree : temporaryName env name ∉ machine.bundle.files)
    (hsync : env.fate (.write name .fsyncDirectory) = .ok) (hclose : env.fate (.write name .closeDirectory) = .ok)
    (content : Text) : (atomicWrite env name content machine).1 = .returned () := by
  obtain ⟨s, -, hrun⟩ := protectedPart_of_replaces h hfree content
  have hbody : Prog.handle (protectedPart env name content) (cleanUp env name) machine = (.returned (), s) := by
    unfold Prog.handle
    rw [hrun]
    simp only [Environment.step, Prog.step, hsync, id]
  rw [atomicWrite_run (h _ (by simp [replaceCalls]))]
  unfold Prog.always
  rw [hbody]
  simp only [Environment.step, Prog.step, hclose, id]

/-- Where the protected part can be cut before the replacement: with nothing done, or with a temporary file that the handler
will remove. -/
inductive Cut (env : Environment Γ) (name : Text) (machine : Machine Γ) : Outcome PyError Unit × Machine Γ → Prop where
  | untouched {outcome : Outcome PyError Unit} (h : outcome = .raised .osError ∨ outcome = .stopped) :
      Cut env name machine (outcome, machine)
  | temporary {s : Machine Γ} (content : Γ.Bytes)
      (hs : s.bundle = { machine.bundle with files := machine.bundle.files.insert (temporaryName env name) (.regular content) })
      (hdescriptor : s.descriptor = true → env.fate (.write name .closeDescriptor) = .ok)
      (hunlink : env.fate (.write name .unlink) = .ok) : Cut env name machine (.raised .osError, s)

theorem insert_bundle (machine : Machine Γ) (file : Text) (content : Γ.Bytes) : (machine.insert file content).bundle =
      { machine.bundle with files := machine.bundle.files.insert file (.regular content) } := rfl

theorem firstFault_of {call : WriteStep} (hcall : env.fate (.write name call) ≠ .ok) (earlier : List WriteStep)
    (htake : replaceCalls.takeWhile (fun other => other ≠ call) = earlier)
    (hearlier : ∀ other ∈ earlier, env.fate (.write name other) = .ok) : FirstFault env name call :=
  ⟨hcall, htake ▸ hearlier⟩

/-- A protected part that does not get to the replacement is cut. -/
theorem protectedPart_cut (hopen : env.fate (.write name .openDirectory) = .ok) (h : ¬Replaces env name)
    (hclean : CleansUp env name) (hfree : temporaryName env name ∉ machine.bundle.files) (content : Text) :
    Cut env name machine (protectedPart env name content machine) := by
  unfold protectedPart openTemporary fillTemporary replaceFile
  by_cases h2 : env.fate (.write name .openTemporary) = .ok
  swap
  · rcases hfate : env.fate (.write name .openTemporary) with _ | _ | _
    · exact absurd hfate h2
    · simp only [Prog.bind_run, Environment.step, Prog.step, Prog.reads, hfate, ensure_of hfree, id]
      exact .untouched (Or.inl rfl)
    · simp only [Prog.bind_run, Environment.step, Prog.step, Prog.reads, hfate, ensure_of hfree, id]
      exact .untouched (Or.inr rfl)
  by_cases h3 : env.fate (.write name .fdopen) = .ok
  swap
  · have hfirst := firstFault_of h3 [.openDirectory, .openTemporary] rfl (by simp [hopen, h2])
    simp only [Prog.bind_run, Environment.step, Prog.step, Prog.reads, h2, hclean.notStopped _ (by simp) hfirst, ensure_of hfree, id]
    exact .temporary _ rfl (fun _ => hclean.descriptorClosed hfirst) (hclean.unlinked _ (by simp) hfirst)
  have hcontent : ∀ {call} (earlier : List WriteStep), call ∈ [WriteStep.write, .flush, .fsyncFile] →
      env.fate (.write name call) ≠ .ok →
      replaceCalls.takeWhile (fun other => other ≠ call) = earlier →
      (∀ other ∈ earlier, env.fate (.write name other) = .ok) →
      env.fate (.write name call) = .fails ∧ env.fate (.write name .unlink) = .ok ∧
        env.fate (.write name .closeFile) ≠ .stops := by
    intro call earlier hcall hfate htake hearlier
    have hfirst := firstFault_of hfate earlier htake hearlier
    have hmem : call ∈ [WriteStep.fdopen, .write, .flush, .fsyncFile, .closeFile, .replace] := by
      revert hcall
      cases call <;> decide
    exact ⟨hclean.notStopped _ hmem hfirst, hclean.unlinked _ hmem hfirst, hclean.closing _ hcall hfirst⟩
  by_cases h4 : env.fate (.write name .write) = .ok
  swap
  · obtain ⟨hfate, hunlink, hclose⟩ := hcontent [.openDirectory, .openTemporary, .fdopen] (by simp) h4 rfl (by simp [hopen, h2, h3])
    rcases hfile : env.fate (.write name .closeFile) with _ | _ | _
    · simp only [Prog.bind_run, Environment.step, Prog.step, Prog.reads, Prog.always, h2, h3, hfate, hfile, ensure_of hfree, id]
      exact .temporary _ rfl (fun hd => by cases hd) hunlink
    · simp only [Prog.bind_run, Environment.step, Prog.step, Prog.reads, Prog.always, h2, h3, hfate, hfile, ensure_of hfree, id]
      exact .temporary _ rfl (fun hd => by cases hd) hunlink
    · exact absurd hfile hclose
  by_cases h5 : env.fate (.write name .flush) = .ok
  swap
  · obtain ⟨hfate, hunlink, hclose⟩ := hcontent [.openDirectory, .openTemporary, .fdopen, .write] (by simp) h5 rfl (by simp [hopen, h2, h3, h4])
    rcases hfile : env.fate (.write name .closeFile) with _ | _ | _
    · simp only [Prog.bind_run, Environment.step, Prog.step, Prog.reads, Prog.always, h2, h3, h4, hfate, hfile, ensure_of hfree, id]
      exact .temporary _ rfl (fun hd => by cases hd) hunlink
    · simp only [Prog.bind_run, Environment.step, Prog.step, Prog.reads, Prog.always, h2, h3, h4, hfate, hfile, ensure_of hfree, id]
      exact .temporary _ rfl (fun hd => by cases hd) hunlink
    · exact absurd hfile hclose
  by_cases h6 : env.fate (.write name .fsyncFile) = .ok
  swap
  · obtain ⟨hfate, hunlink, hclose⟩ := hcontent [.openDirectory, .openTemporary, .fdopen, .write, .flush] (by simp) h6 rfl (by simp [hopen, h2, h3, h4, h5])
    rcases hfile : env.fate (.write name .closeFile) with _ | _ | _
    · simp only [Prog.bind_run, Environment.step, Prog.step, Prog.reads, Prog.always, h2, h3, h4, h5, hfate, hfile,
        ensure_of hfree, id]
      exact .temporary (Γ.encode content) (by rw [insert_bundle, insert_bundle, Finmap.insert_insert]) (fun hd => by cases hd) hunlink
    · simp only [Prog.bind_run, Environment.step, Prog.step, Prog.reads, Prog.always, h2, h3, h4, h5, hfate, hfile,
        ensure_of hfree, id]
      exact .temporary (Γ.encode content) (by rw [insert_bundle, insert_bundle, Finmap.insert_insert]) (fun hd => by cases hd) hunlink
    · exact absurd hfile hclose
  by_cases h7 : env.fate (.write name .closeFile) = .ok
  swap
  · have hfirst := firstFault_of h7 [.openDirectory, .openTemporary, .fdopen, .write, .flush, .fsyncFile] rfl (by simp [hopen, h2, h3, h4, h5, h6])
    simp only [Prog.bind_run, Environment.step, Prog.step, Prog.reads, Prog.always, h2, h3, h4, h5, h6,
      hclean.notStopped _ (by simp) hfirst, ensure_of hfree, id]
    exact .temporary (Γ.encode content) (by rw [insert_bundle, insert_bundle, Finmap.insert_insert]) (fun hd => by cases hd)
      (hclean.unlinked _ (by simp) hfirst)
  by_cases h8 : env.fate (.write name .replace) = .ok
  swap
  · have hfirst := firstFault_of h8 [.openDirectory, .openTemporary, .fdopen, .write, .flush, .fsyncFile, .closeFile] rfl (by simp [hopen, h2, h3, h4, h5, h6, h7])
    simp only [Prog.bind_run, Environment.step, Prog.step, Prog.reads, Prog.always, h2, h3, h4, h5, h6, h7,
      hclean.notStopped _ (by simp) hfirst, ensure_of hfree, id]
    exact .temporary (Γ.encode content) (by rw [insert_bundle, insert_bundle, Finmap.insert_insert]) (fun hd => by cases hd)
      (hclean.unlinked _ (by simp) hfirst)
  exact absurd (by simp [Replaces, replaceCalls, hopen, h2, h3, h4, h5, h6, h7, h8]) h

/-- The handler undoes what was done before the cut. -/
theorem bundle_of_cut {result : Outcome PyError Unit × Machine Γ} (h : Cut env name machine result)
    (hrun : protectedPart env name content machine = result) (hfree : temporaryName env name ∉ machine.bundle.files) :
    (Prog.handle (protectedPart env name content) (cleanUp env name) machine).2.bundle = machine.bundle := by
  unfold Prog.handle
  rw [hrun]
  cases h with
  | untouched h =>
    rcases h with rfl | rfl
    · rcases cleanUp_bundle_or env name machine with hor | hor
      · exact hor
      · rw [erase_of_notMem hfree] at hor
        exact hor
    · rfl
  | temporary content hs hdescriptor hunlink =>
    dsimp only
    rw [cleanUp_bundle hdescriptor hunlink, hs]
    simp only [erase_insert_self hfree]

/-- A write that does not get to the replacement leaves the bundle as it was, and does not return. -/
theorem atomicWrite_of_not_replaces (h : ¬Replaces env name) (hclean : CleansUp env name)
    (hfree : temporaryName env name ∉ machine.bundle.files) (content : Text) :
    (atomicWrite env name content machine).2.bundle = machine.bundle ∧
      ∀ u, (atomicWrite env name content machine).1 ≠ .returned u := by
  by_cases hopen : env.fate (.write name .openDirectory) = .ok
  · have hcut := protectedPart_cut hopen h hclean hfree content
    refine ⟨by rw [atomicWrite_state hopen, bundle_of_cut hcut rfl hfree], fun u hreturned => ?_⟩
    have hrun : atomicWrite env name content machine = (.returned u, (atomicWrite env name content machine).2) :=
      Prod.ext hreturned rfl
    rw [atomicWrite_run hopen] at hrun
    obtain ⟨s, _, hbody, -⟩ := always_eq_returned.mp hrun
    rcases handle_eq_returned.mp hbody with hbody | ⟨error, failed, -, hhandler⟩
    · rw [hbody] at hcut
      cases hcut with
      | untouched h => rcases h with h | h <;> cases h
    · exact cleanUp_ne_returned env name error failed s u hhandler
  · unfold atomicWrite
    rcases hfate : env.fate (.write name .openDirectory) with _ | _ | _
    · exact absurd hfate hopen
    · simp only [Prog.bind_run, Environment.step, Prog.step, hfate, id]
      exact ⟨trivial, fun u hu => by cases hu⟩
    · simp only [Prog.bind_run, Environment.step, Prog.step, hfate, id]
      exact ⟨trivial, fun u hu => by cases hu⟩

/-! ## The whole update -/

/-- Where a bundle ends in a state that passes its check: a certificate that is not replaced leaves nothing behind, and once it is
replaced the calls that follow succeed, up to the replacement of the checksum list. -/
structure Settles (env : Environment Γ) : Prop where
  before : ¬Replaces env "certificate.json".toList → CleansUp env "certificate.json".toList
  between : Replaces env "certificate.json".toList →
    env.fate (.write "certificate.json".toList .fsyncDirectory) = .ok ∧
      env.fate (.write "certificate.json".toList .closeDirectory) = .ok ∧
      ∀ name ∈ bundleArtifacts, env.fate (.digest name) = .ok
  after : Replaces env "certificate.json".toList → Replaces env sha256Sums

/-- Nothing is written before the text of the new certificate is there. -/
theorem prepareUpdate_keeps (Γ : Host) (env : Environment Γ) (root : String) (sourceContent replayContent : Γ.Bytes)
    (source replay : LoadedStream) (comparison : Comparison) (lbaBytes : Int) :
    Prog.Keeps (prepareUpdate Γ env root sourceContent replayContent source replay comparison lbaBytes) := by
  unfold prepareUpdate
  refine keeps_bind (keeps_step _ _) fun _ => keeps_bind (keeps_reads _) fun _ =>
    keeps_bind (keeps_reads _) fun _ => keeps_bind (keeps_step _ _) fun _ =>
    keeps_bind (keeps_reads _) fun _ => keeps_bind (keeps_step _ _) fun _ =>
    keeps_bind (keeps_reads _) fun _ => keeps_pure _

/-- The checksum lines of files that are there. -/
theorem mapM_sumLine {names : List Text} (hfate : ∀ name ∈ names, env.fate (.digest name) = .ok)
    (hregular : ∀ name ∈ names, machine.bundle.files.lookup name = some (.regular (contents name))) :
    names.mapM (sumLine env) machine =
      (.returned (names.map (fun name => checksumLine (Γ.sha256 (contents name)) name)), machine) := by
  induction names with
  | nil => rfl
  | cons name names ih =>
    have hline : sumLine env name machine = (.returned (checksumLine (Γ.sha256 (contents name)) name), machine) := by
      simp only [sumLine, Prog.bind_run, Environment.step, Prog.step, hfate name (by simp), Prog.reads, id,
        readFile_of_lookup (hregular name (by simp))]
      rfl
    rw [List.mapM_cons, Prog.bind_run, hline]
    dsimp only
    rw [Prog.bind_run, ih (fun other hother => hfate other (by simp [hother])) fun other hother => hregular other (by simp [hother])]
    rfl

/-- The contents of the artifacts once the certificate is replaced. -/
def renewed (contents : Text → Γ.Bytes) (text : Text) (name : Text) : Γ.Bytes :=
  if name = "certificate.json".toList then Γ.encode text else contents name

/-- A bundle with both files written is fresh again. -/
theorem fresh_written {root : String} {bundle : Bundle Γ} {certificate workload : Dict} (hv : Verified root bundle certificate workload) (hcontents : ∀ name ∈ bundleArtifacts, bundle.files.lookup name = some (.regular (contents name)))
    (text : Text) :
    Fresh (written (written bundle "certificate.json".toList text) sha256Sums (freshSums Γ (renewed contents text)))
      (renewed contents text) := by
  refine ⟨hv.notSymlink, hv.isDir, ?_, ?_, lookup_insert _⟩
  · exact keys_written (keys_written hv.inventory _ (by decide) text) _ (by decide) _
  · intro name hname
    have hsums : name ≠ sha256Sums := by
      rintro rfl
      exact absurd hname (by decide)
    rw [written, lookup_insert_of_ne _ hsums, written, renewed]
    by_cases heq : name = "certificate.json".toList
    · rw [if_pos heq, heq, lookup_insert]
    · rw [if_neg heq, lookup_insert_of_ne _ heq]
      exact hcontents name hname

/-- The two writes of an update leave the old bundle or one that is fresh with the new certificate. -/
theorem commitUpdate_settles {root : String} {certificate workload : Dict} (hsettles : Settles env)
    (hv : Verified root machine.bundle certificate workload)
    (hcontents : ∀ name ∈ bundleArtifacts, machine.bundle.files.lookup name = some (.regular (contents name))) (text : Text) :
    (commitUpdate env text machine).2.bundle = machine.bundle ∨
      Fresh (commitUpdate env text machine).2.bundle (renewed contents text) := by
  have hfree := temporaryName_free hv.inventory env "certificate.json".toList
  unfold commitUpdate
  rw [Prog.bind_run]
  rcases hfirst : atomicWrite env "certificate.json".toList text machine with ⟨outcome, first⟩
  by_cases hreplaces : Replaces env "certificate.json".toList
  · obtain ⟨hsync, hclose, hdigests⟩ := hsettles.between hreplaces
    have hbundle := atomicWrite_of_replaces hreplaces hfree text
    have hreturns := atomicWrite_returns hreplaces hfree hsync hclose text
    rw [hfirst] at hbundle hreturns
    simp only at hbundle hreturns
    subst hreturns
    have hfresh := fresh_written hv hcontents text
    have hartifacts : ∀ name ∈ bundleArtifacts, first.bundle.files.lookup name = some (.regular (renewed contents text name)) := by
      intro name hname
      have hsums : name ≠ sha256Sums := by
        rintro rfl
        exact absurd hname (by decide)
      have hlookup := hfresh.artifacts name hname
      rw [written, lookup_insert_of_ne _ hsums] at hlookup
      rw [hbundle, hlookup]
    have hkeys : first.bundle.files.keys = bundleInventory.toFinset := by
      rw [hbundle]
      exact keys_written hv.inventory _ (by decide) text
    dsimp only
    rw [Prog.bind_run, mapM_sumLine hdigests hartifacts]
    dsimp only
    right
    rw [atomicWrite_of_replaces (hsettles.after hreplaces) (temporaryName_free hkeys env _) _, hbundle]
    exact hfresh
  · obtain ⟨hbundle, houtcome⟩ := atomicWrite_of_not_replaces hreplaces (hsettles.before hreplaces) hfree text
    rw [hfirst] at hbundle houtcome
    left
    cases outcome with
    | returned u => exact absurd rfl (houtcome u)
    | raised e => exact hbundle
    | stopped => exact hbundle

end CrashAux

end EbpfSyscall
