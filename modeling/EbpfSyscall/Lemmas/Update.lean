import EbpfSyscall.Lemmas.Bundle
import EbpfSyscall.Replay.Update

/-!
# What an update leaves behind

`_atomic_write` returns only after the temporary file has taken the place of the file it is written for. From it: what
`update_runtime_bundle` has checked and written when it returns, and which exceptions it can raise once its own checks have passed.
-/

namespace EbpfSyscall

open Checked Faults CompareStreams BundleAux Prog Finmap

namespace UpdateAux

variable {Γ : Host} {env : Environment Γ} {name content : Text} {machine t : Machine Γ} {sourceContent replayContent : Γ.Bytes}
  {comparison : Comparison} {source replay : LoadedStream} {lbaBytes : Int} {root : String} {certificate : Dict} {e : PyError}

/-- The bundle with one file written. -/
def written (bundle : Bundle Γ) (name content : Text) : Bundle Γ :=
  { bundle with files := bundle.files.insert name (.regular (Γ.encode content)) }

/-! ## One file -/

theorem erase_insert_self {files : Directory Γ} (h : name ∉ files) (entry : DirectoryEntry Γ) : (files.insert name entry).erase name = files := by
  refine ext_lookup fun other => ?_
  by_cases heq : other = name
  · rw [heq, lookup_erase, lookup_eq_none.mpr h]
  · rw [lookup_erase_ne heq, lookup_insert_of_ne _ heq]

/-- A temporary file that was filled and renamed leaves only the file under its new name. -/
theorem rename_temporary {temporary : Text} (h : temporary ∉ machine.bundle.files) (name content : Text) (torn : Γ.Bytes) (d : Bool) :
    ((({ machine.insert temporary torn with descriptor := d }).insert temporary (Γ.encode content)).rename temporary name).bundle =
      written machine.bundle name content := by
  unfold Machine.rename Machine.insert written
  simp only [lookup_insert, insert_insert, erase_insert_self h]

theorem cleanUp_ne_returned (env : Environment Γ) (name : Text) (error : PyError) (machine t : Machine Γ) (u : Unit) :
    cleanUp env name error machine ≠ (.returned u, t) := by
  intro h
  cases error with
  | osError =>
    simp only [cleanUp, Prog.bind_eq_returned, raise_run] at h
    obtain ⟨_, _, -, _, _, -, h⟩ := h
    cases h
  | captureFormatError _ | captureError _ | comparisonError _ | intentError _ | intent2Error _ | workload3Error _
  | crossShardError _ | traceError _ | keyError _ | indexError | typeError | valueError _ | overflowError | zeroDivisionError | attributeError _
  | unicodeDecodeError => cases h

/-- When `_atomic_write` returns, the file holds the content and nothing else has changed. -/
theorem atomicWrite_returned {u : Unit} (hfree : temporaryName env name ∉ machine.bundle.files)
    (h : atomicWrite env name content machine = (.returned u, t)) : t.bundle = written machine.bundle name content := by
  unfold atomicWrite at h
  rw [Prog.bind_eq_returned] at h
  obtain ⟨_, _, hopen, h⟩ := h
  obtain ⟨-, rfl⟩ := Prog.step_eq_returned.mp hopen
  rw [Prog.always_eq_returned] at h
  obtain ⟨done, _, hbody, hclose⟩ := h
  obtain ⟨-, rfl⟩ := Prog.step_eq_returned.mp hclose
  rcases Prog.handle_eq_returned.mp hbody with hbody | ⟨error, failed, -, hclean⟩
  · simp only [Prog.bind_eq_returned, openTemporary, fillTemporary, replaceFile, Environment.step, Prog.step_eq_returned,
      Prog.reads_eq_returned, Prog.always_eq_returned] at hbody
    obtain ⟨_, _, ⟨_, _, ⟨-, rfl⟩, -, rfl⟩, _, _, ⟨_, _, ⟨-, rfl⟩, _, _, ⟨_, _, ⟨-, rfl⟩, _, _, ⟨-, rfl⟩, -, rfl⟩, -, rfl⟩, _, _,
      ⟨-, rfl⟩, -, rfl⟩ := hbody
    exact rename_temporary hfree name content env.torn false
  · exact absurd hclean (cleanUp_ne_returned env name error failed _ u)

/-- The exceptions of `_atomic_write`. -/
theorem atomicWrite_raisesOnly (env : Environment Γ) (name content : Text) : Prog.RaisesOnly (atomicWrite env name content) (fun e => e = .osError ∨
      e = .comparisonError s!"cannot update runtime bundle {String.ofList name}") := by
  have hstep : ∀ {place effect left} {P : PyError → Prop}, P .osError → RaisesOnly (env.step place effect left) P :=
    fun h => raisesOnly_step h
  refine raisesOnly_bind (hstep (Or.inl rfl)) fun _ => raisesOnly_always ?_ (hstep (Or.inl rfl))
  refine raisesOnly_handle (Q := fun e => e = .osError) ?_ ?_
  · refine raisesOnly_bind (raisesOnly_bind (raisesOnly_reads ?_) fun _ => hstep rfl) fun _ =>
      raisesOnly_bind (raisesOnly_bind (hstep rfl) fun _ => raisesOnly_always
        (raisesOnly_bind (hstep rfl) fun _ => raisesOnly_bind (hstep rfl) fun _ => hstep rfl) (hstep rfl)) fun _ =>
      raisesOnly_bind (hstep rfl) fun _ => hstep rfl
    intro s e h
    unfold ensure at h
    split at h <;> cases h
    rfl
  · rintro _ rfl
    refine raisesOnly_bind (raisesOnly_whenever (hstep (Or.inl rfl))) fun _ =>
      raisesOnly_bind (raisesOnly_handle (Q := fun _ => True) (hstep trivial) fun _ _ => raisesOnly_pure) fun _ =>
      raisesOnly_raise (Or.inr rfl)

/-- Where every call succeeds, the file is written. -/
theorem atomicWrite_calm (hfate : ∀ place, env.fate place = .ok) (hfree : temporaryName env name ∉ machine.bundle.files)
    (content : Text) : ∃ t, atomicWrite env name content machine = (.returned (), t) := by
  unfold atomicWrite openTemporary fillTemporary replaceFile
  simp only [Prog.bind_run, Environment.step, Prog.step, Prog.always, Prog.handle, Prog.reads, hfate, id, ensure_of hfree]
  exact ⟨_, rfl⟩

/-! ## The update -/

/-- No file of a bundle has the name of a temporary file. -/
theorem temporaryName_notMem_inventory (env : Environment Γ) (name : Text) : temporaryName env name ∉ bundleInventory := by
  have hdot : bundleInventory.all (fun entry => entry.head? != some '.') = true := by decide
  intro hmem
  have := List.all_eq_true.mp hdot _ hmem
  simp [temporaryName] at this

theorem temporaryName_free {bundle : Bundle Γ} (h : bundle.files.keys = bundleInventory.toFinset) (env : Environment Γ)
    (name : Text) : temporaryName env name ∉ bundle.files := by
  rw [← mem_keys, h, List.mem_toFinset]
  exact temporaryName_notMem_inventory env name

/-- Writing a file of the bundle keeps the inventory. -/
theorem keys_written {bundle : Bundle Γ} (h : bundle.files.keys = bundleInventory.toFinset) (name : Text)
    (hname : name ∈ bundleInventory) (content : Text) : (written bundle name content).files.keys = bundleInventory.toFinset := by
  rw [← h]
  ext other
  rw [mem_keys, mem_keys, written, mem_insert]
  constructor
  · rintro (rfl | hother)
    · rw [← mem_keys, h, List.mem_toFinset]
      exact hname
    · exact hother
  · exact Or.inr

/-- Computing the checksum lines changes nothing. -/
theorem sumLine_state (env : Environment Γ) (name : Text) (machine : Machine Γ) (line : Text) (t : Machine Γ)
    (h : sumLine env name machine = (.returned line, t)) : t = machine := by
  simp only [sumLine, Prog.bind_eq_returned, Environment.step, Prog.step_eq_returned, Prog.reads_eq_returned] at h
  obtain ⟨_, _, ⟨-, rfl⟩, -, rfl⟩ := h
  rfl

/-- What has been checked when the text of the new certificate is there. -/
structure Prepared (Γ : Host) (root : String) (sourceContent replayContent : Γ.Bytes) (source replay : LoadedStream)
    (comparison : Comparison) (lbaBytes : Int) (bundle : Bundle Γ) (runtime : RuntimeDeviceValidation) (text : Text)
    (certificate workload : Dict) : Prop where
  verified : verifyBundle Γ root bundle = .ok (certificate, workload)
  checked : checkUpdate (Γ.sha256 sourceContent) certificate workload source lbaBytes = .ok ()
  record : runtime = runtimeRecord (Γ.sha256 replayContent) source replay comparison
  text : text = jsonText Γ (.obj (certificate.set "runtime_device_validation" runtime.toJson))

theorem prepareUpdate_returned {runtime : RuntimeDeviceValidation} {text : Text}
    (h : prepareUpdate Γ env root sourceContent replayContent source replay comparison lbaBytes machine =
      (.returned (runtime, text), t)) :
    t = machine ∧ ∃ certificate workload, Prepared Γ root sourceContent replayContent source replay comparison lbaBytes
      machine.bundle runtime text certificate workload := by
  unfold prepareUpdate at h
  simp only [Prog.bind_eq_returned, Environment.step, Prog.step_eq_returned, Prog.reads_eq_returned, Prog.pure_run] at h
  obtain ⟨_, _, ⟨-, rfl⟩, ⟨certificate, workload⟩, _, ⟨hverified, rfl⟩, _, _, ⟨-, rfl⟩, _, _, ⟨-, rfl⟩, _, _, ⟨hchecked, rfl⟩, _,
    _, ⟨-, rfl⟩, _, _, ⟨htext, rfl⟩, h⟩ := h
  rw [Prod.mk.injEq, Outcome.returned.injEq, Prod.mk.injEq] at h
  obtain ⟨⟨rfl, rfl⟩, rfl⟩ := h
  simp only [certificateText, check_bind_eq_ok, pure_eq_ok, Except.ok.injEq] at htext
  exact ⟨rfl, certificate, workload, hverified, hchecked, rfl, htext.2.symm⟩

/-- Both writes of an update that returns have been made. -/
theorem commitUpdate_returned {text : Text} {u : Unit} (hkeys : machine.bundle.files.keys = bundleInventory.toFinset)
    (h : commitUpdate env text machine = (.returned u, t)) :
    ∃ sums, t.bundle = written (written machine.bundle "certificate.json".toList text) sha256Sums (checksumText sums) := by
  unfold commitUpdate at h
  simp only [Prog.bind_eq_returned] at h
  obtain ⟨_, first, hfirst, sums, _, hsums, hsecond⟩ := h
  obtain ⟨rfl, -⟩ := mapM_eq_returned (sumLine_state env) hsums
  have hbundle := atomicWrite_returned (temporaryName_free hkeys env _) hfirst
  have hkeys' := keys_written hkeys "certificate.json".toList (by decide) text
  rw [← hbundle] at hkeys'
  exact ⟨sums, by rw [atomicWrite_returned (temporaryName_free hkeys' env _) hsecond, hbundle]⟩

/-- What an update that returns has checked, and the certificate it has written. -/
theorem updateRuntimeBundle_returned {runtime : RuntimeDeviceValidation}
    (h : updateRuntimeBundle Γ env root sourceContent replayContent source replay comparison lbaBytes machine =
      (.returned runtime, t)) :
    ∃ text certificate workload, Prepared Γ root sourceContent replayContent source replay comparison lbaBytes machine.bundle
        runtime text certificate workload ∧
      t.bundle.files.lookup "certificate.json".toList = some (.regular (Γ.encode text)) := by
  unfold updateRuntimeBundle at h
  simp only [Prog.bind_eq_returned, Prog.pure_run] at h
  obtain ⟨⟨_, text⟩, _, hprepare, _, _, hcommit, h⟩ := h
  rw [Prod.mk.injEq, Outcome.returned.injEq] at h
  obtain ⟨rfl, rfl⟩ := h
  obtain ⟨rfl, certificate, workload, hprepared⟩ := prepareUpdate_returned hprepare
  obtain ⟨sums, hbundle⟩ := commitUpdate_returned (verified_of_verifyBundle hprepared.verified).inventory hcommit
  refine ⟨text, certificate, workload, hprepared, ?_⟩
  rw [hbundle, written, lookup_insert_of_ne _ (by decide), written, lookup_insert]

/-- Where every call succeeds, the checksum lines of files that are there are computed. -/
theorem mapM_sumLine_calm (hfate : ∀ place, env.fate place = .ok) {names : List Text}
    (hregular : ∀ name ∈ names, ∃ content, machine.bundle.files.lookup name = some (.regular content)) :
    ∃ sums, names.mapM (sumLine env) machine = (.returned sums, machine) := by
  induction names with
  | nil => exact ⟨[], rfl⟩
  | cons name names ih =>
    obtain ⟨content, hcontent⟩ := hregular name (by simp)
    obtain ⟨sums, hsums⟩ := ih fun other hother => hregular other (by simp [hother])
    have hline : sumLine env name machine = (.returned (checksumLine (Γ.sha256 content) name), machine) := by
      simp only [sumLine, Prog.bind_run, Environment.step, Prog.step, hfate, Prog.reads, id, readFile_of_lookup hcontent]
      rfl
    refine ⟨checksumLine (Γ.sha256 content) name :: sums, ?_⟩
    rw [List.mapM_cons, Prog.bind_run, hline]
    dsimp only
    rw [Prog.bind_run, hsums]
    rfl

/-- Where every call succeeds, the update of a bundle that passes its check with a source that matches it returns the record. -/
theorem updateRuntimeBundle_calm {workload : Dict} (hfate : ∀ place, env.fate place = .ok)
    (hverified : verifyBundle Γ root machine.bundle = .ok (certificate, workload))
    (hschema : differs (certificate.get "schema_version") (.int 1) = false)
    (hchecked : checkUpdate (Γ.sha256 sourceContent) certificate workload source lbaBytes = .ok ())
    (hfinite : Json.finite (.obj (certificate.set "runtime_device_validation"
      (runtimeRecord (Γ.sha256 replayContent) source replay comparison).toJson)) = true) :
    ∃ t, updateRuntimeBundle Γ env root sourceContent replayContent source replay comparison lbaBytes machine =
      (.returned (runtimeRecord (Γ.sha256 replayContent) source replay comparison), t) := by
  have hv := verified_of_verifyBundle hverified
  generalize htext : jsonText Γ (.obj (certificate.set "runtime_device_validation"
    (runtimeRecord (Γ.sha256 replayContent) source replay comparison).toJson)) = text
  obtain ⟨first, hfirst⟩ := atomicWrite_calm hfate (temporaryName_free hv.inventory env "certificate.json".toList) text
  have hbundle := atomicWrite_returned (temporaryName_free hv.inventory env _) hfirst
  have hkeys := keys_written hv.inventory "certificate.json".toList (by decide) text
  rw [← hbundle] at hkeys
  have hregular : ∀ name ∈ bundleArtifacts, ∃ content, first.bundle.files.lookup name = some (.regular content) := by
    intro name hname
    rw [hbundle, written]
    by_cases heq : name = "certificate.json".toList
    · rw [heq]
      exact ⟨_, Finmap.lookup_insert _⟩
    · rw [Finmap.lookup_insert_of_ne _ heq]
      exact hv.regular name (by simp [bundleInventory, hname])
  obtain ⟨sums, hsums⟩ := mapM_sumLine_calm hfate hregular
  obtain ⟨second, hsecond⟩ := atomicWrite_calm hfate (temporaryName_free hkeys env sha256Sums) (checksumText sums)
  refine ⟨second, ?_⟩
  unfold updateRuntimeBundle prepareUpdate commitUpdate
  simp only [Prog.bind_run, Prog.pure_run, Environment.step, Prog.step, hfate, Prog.reads, id, hverified, ensure_of hschema, hchecked,
    certificateText, ensure_of hfinite, ok_bind, pure_eq_ok, htext, hfirst, hsums, hsecond]

/-- What an update raises once the bundle has passed its check. -/
inductive UpdateError (sourceSha256 : Text) (certificate workload : Dict) (source : LoadedStream) (lbaBytes : Int) :
    PyError → Prop where
  | os : UpdateError sourceSha256 certificate workload source lbaBytes .osError
  | schema : UpdateError sourceSha256 certificate workload source lbaBytes
      (.comparisonError "runtime bundle has an unsupported certificate")
  | source {e : PyError} (h : checkUpdate sourceSha256 certificate workload source lbaBytes = .error e) :
      UpdateError sourceSha256 certificate workload source lbaBytes e
  | notFinite : UpdateError sourceSha256 certificate workload source lbaBytes
      (.valueError "Out of range float values are not JSON compliant")
  | write {name : Text} (h : name = "certificate.json".toList ∨ name = sha256Sums) :
      UpdateError sourceSha256 certificate workload source lbaBytes
        (.comparisonError s!"cannot update runtime bundle {String.ofList name}")

theorem eq_of_ensure_eq_error {c : Prop} [Decidable c] {e' : PyError} (h : ensure c e = .error e') : e' = e := by
  unfold ensure at h
  split at h <;> cases h
  rfl

theorem certificateText_error (h : certificateText Γ certificate = .error e) :
    e = .valueError "Out of range float values are not JSON compliant" := by
  unfold certificateText at h
  cases hfinite : ensure (Json.finite (.obj certificate) = true)
    (PyError.valueError "Out of range float values are not JSON compliant") with
  | ok u =>
    rw [hfinite] at h
    cases h
  | error e' =>
    rw [hfinite] at h
    cases h
    exact eq_of_ensure_eq_error hfinite

theorem readFile_error {files : Directory Γ} (h : readFile files name = .error e) : e = .osError := by
  unfold readFile at h
  split at h <;> cases h
  rfl

theorem sumLine_raisesOnly (env : Environment Γ) (name : Text) : Prog.RaisesOnly (sumLine env name) (fun e => e = .osError) := by
  refine raisesOnly_bind (raisesOnly_step rfl) fun _ => raisesOnly_reads fun s e h => ?_
  cases hread : readFile s.bundle.files name with
  | ok file =>
    rw [hread] at h
    cases h
  | error e' =>
    rw [hread] at h
    cases h
    exact readFile_error hread

theorem updateRuntimeBundle_raised {workload : Dict} (hverified : verifyBundle Γ root machine.bundle = .ok (certificate, workload))
    (h : updateRuntimeBundle Γ env root sourceContent replayContent source replay comparison lbaBytes machine =
      (.raised e, t)) : UpdateError (Γ.sha256 sourceContent) certificate workload source lbaBytes e := by
  have hwrite : ∀ file text, file = "certificate.json".toList ∨ file = sha256Sums → Prog.RaisesOnly (atomicWrite env file text)
      (UpdateError (Γ.sha256 sourceContent) certificate workload source lbaBytes) := by
    intro file text hfile s e t he
    rcases atomicWrite_raisesOnly env file text s e t he with rfl | rfl
    · exact .os
    · exact .write hfile
  have hprepare : ∀ {e t}, prepareUpdate Γ env root sourceContent replayContent source replay comparison lbaBytes machine =
      (.raised e, t) → UpdateError (Γ.sha256 sourceContent) certificate workload source lbaBytes e := by
    intro e t h
    unfold prepareUpdate at h
    rw [Prog.bind_run] at h
    cases hfate : env.fate .verify with
    | fails =>
      simp only [Environment.step, Prog.step, hfate] at h
      cases h
      exact .os
    | stops =>
      simp only [Environment.step, Prog.step, hfate] at h
      cases h
    | ok =>
      simp only [Environment.step, Prog.step, hfate] at h
      rw [Prog.bind_run, Prog.reads, id, hverified] at h
      dsimp only at h
      refine Prog.raisesOnly_bind (P := UpdateError (Γ.sha256 sourceContent) certificate workload source lbaBytes)
        (Prog.raisesOnly_reads fun s e he => ?_) (fun _ => Prog.raisesOnly_bind (Prog.raisesOnly_step .os)
        fun _ => Prog.raisesOnly_bind (Prog.raisesOnly_reads fun s e he => .source he) fun _ => Prog.raisesOnly_bind
        (Prog.raisesOnly_step .os) fun _ => Prog.raisesOnly_bind (Prog.raisesOnly_reads fun s e he => ?_) fun text =>
        Prog.raisesOnly_pure) _ e t h
      · rw [eq_of_ensure_eq_error he]
        exact .schema
      · rw [certificateText_error he]
        exact .notFinite
  have hcommit : ∀ text, Prog.RaisesOnly (commitUpdate env text)
      (UpdateError (Γ.sha256 sourceContent) certificate workload source lbaBytes) := by
    intro text
    refine Prog.raisesOnly_bind (hwrite _ text (Or.inl rfl)) fun _ => Prog.raisesOnly_bind (Prog.raisesOnly_mapM ?_ _) fun sums =>
      hwrite _ _ (Or.inr rfl)
    intro file s e t he
    rw [sumLine_raisesOnly env file s e t he]
    exact .os
  unfold updateRuntimeBundle at h
  rw [Prog.bind_run] at h
  rcases hrun : prepareUpdate Γ env root sourceContent replayContent source replay comparison lbaBytes machine with
    ⟨⟨runtime, text⟩ | e' | _, u⟩
  · rw [hrun] at h
    exact Prog.raisesOnly_bind (hcommit text) (fun _ => Prog.raisesOnly_pure) u e t h
  · rw [hrun] at h
    cases h
    exact hprepare hrun
  · rw [hrun] at h
    cases h

end UpdateAux

end EbpfSyscall
