import EbpfSyscall.Lemmas.Export
import EbpfSyscall.Replay.Bundle

/-!
# Bundles that pass their check

A checksum list written over the artifacts of a directory is read back line by line, so a directory with exactly the files of a
bundle and a fresh checksum list passes `_verify_bundle`, and so does the bundle that the exporter writes.
-/

namespace EbpfSyscall

open Checked List Python

/-- What `json.dumps` writes for the value, with the line break after it, is read back as the value. -/
def Host.ReadsBack (Γ : Host) (value : Json) : Prop :=
  Γ.jsonLoads (Python.universalNewlines (jsonText Γ value)) = .ok value

namespace BundleAux

/-! ## The checksum list -/

/-- The characters of a digest, and that they are none of those that end a field or a line. -/
theorem hexDigit_plain {c : Char} (h : (c.isDigit || ('a' ≤ c && c ≤ 'f')) = true) :
    c ∈ "0123456789abcdef".toList ∧ c ≠ ' ' ∧ c ≠ '\r' ∧ Python.isLineBreak c = false := by
  have hrange : (48 ≤ c.toNat ∧ c.toNat ≤ 57) ∨ (97 ≤ c.toNat ∧ c.toNat ≤ 102) := by
    rw [Bool.or_eq_true, Bool.and_eq_true, decide_eq_true_eq, decide_eq_true_eq] at h
    rcases h with h | h
    · rw [Char.isDigit, Bool.and_eq_true, decide_eq_true_eq, decide_eq_true_eq] at h
      exact Or.inl h
    · exact Or.inr h
  have hc : c = Char.ofNat c.toNat := (Char.ofNat_toNat c).symm
  rw [hc]
  generalize c.toNat = n at hrange
  rcases hrange with ⟨h1, h2⟩ | ⟨h1, h2⟩
  · interval_cases n <;> decide
  · interval_cases n <;> decide

theorem plain_of_isSha256 {digest : Text} (h : isSha256 digest = true) : digest.length = 64 ∧ ∀ c ∈ digest,
      c ∈ "0123456789abcdef".toList ∧ c ≠ ' ' ∧ c ≠ '\r' ∧ Python.isLineBreak c = false := by
  rw [isSha256, Bool.and_eq_true, beq_iff_eq, all_eq_true] at h
  exact ⟨h.1, fun c hc => hexDigit_plain (h.2 c hc)⟩

/-- The names of the artifacts hold no line break. -/
theorem plain_of_mem_bundleArtifacts : ∀ name ∈ bundleArtifacts, ∀ c ∈ name, c ≠ '\r' ∧ Python.isLineBreak c = false := by
  have h : bundleArtifacts.all (fun name => name.all (fun c => c != '\r' && !isLineBreak c)) = true := by decide
  intro name hname c hc
  simpa using all_eq_true.mp (all_eq_true.mp h name hname) c hc

theorem splitDigest_checksumLine {digest : Text} (h : ∀ c ∈ digest, c ≠ ' ') (name : Text) :
    splitDigest (checksumLine digest name) = some (digest, name) := by
  unfold checksumLine
  induction digest with
  | nil => rfl
  | cons c digest ih =>
    have hc : c ≠ ' ' := h c (by simp)
    rw [cons_append, cons_append, splitDigest]
    · rw [ih fun d hd => h d (by simp [hd])]
      rfl
    · intro rest heq
      exact absurd heq hc

/-- The loop over the lines of a list for distinct names. -/
theorem foldFrom_checksumStep {digest : Text → Text} (hdigest : ∀ name, isSha256 (digest name) = true) (names : List Text)
    (hnodup : names.Nodup) (i : Nat) (seen : List (Text × Text)) (hseen : ∀ name ∈ names, name ∉ seen.map Prod.fst) :
    foldFrom checksumStep i seen (names.map (fun name => checksumLine (digest name) name)) =
      .ok (seen ++ names.map (fun name => (name, digest name))) := by
  induction names generalizing i seen with
  | nil => simp
  | cons name names ih =>
    obtain ⟨hlength, hplain⟩ := plain_of_isSha256 (hdigest name)
    rw [nodup_cons] at hnodup
    have hstep : checksumStep seen i (checksumLine (digest name) name) = .ok (seen ++ [(name, digest name)]) := by
      unfold checksumStep
      rw [splitDigest_checksumLine fun c hc => (hplain c hc).2.1]
      have hall : (digest name).all (fun c => c ∈ "0123456789abcdef".toList) = true :=
        all_eq_true.mpr fun c hc => decide_eq_true (hplain c hc).1
      simp only [require, ok_bind]
      rw [ensure_of ⟨hlength, hall, hseen name (by simp)⟩]
      rfl
    rw [map_cons, foldFrom_cons, hstep, ok_bind, ih hnodup.2 (i + 1) (seen ++ [(name, digest name)])]
    · simp
    · intro other hother
      simp only [map_append, map_cons, map_nil, mem_append, mem_singleton, not_or]
      refine ⟨hseen other (by simp [hother]), ?_⟩
      rintro rfl
      exact hnodup.1 hother

theorem universalNewlines_of_not_mem {text : Text} (h : '\r' ∉ text) : Python.universalNewlines text = text := by
  rw [universalNewlines, PythonTextAux.joinCrLf_of_not_mem h]
  refine (map_congr_left fun c hc => ?_).trans (map_id _)
  rw [if_neg]
  · rfl
  · rintro rfl
    exact h hc

/-- The lines of a fresh checksum list. -/
theorem splitlines_checksumText {digest : Text → Text} (hdigest : ∀ name, isSha256 (digest name) = true) :
    let sums := bundleArtifacts.map (fun name => checksumLine (digest name) name)
    '\r' ∉ checksumText sums ∧ splitlines (checksumText sums) = sums := by
  intro sums
  have hline : ∀ line ∈ sums, ∀ c ∈ line, c ≠ '\r' ∧ isLineBreak c = false := by
    intro line hline c hc
    obtain ⟨name, hname, rfl⟩ := mem_map.mp hline
    rw [checksumLine, mem_append, mem_append] at hc
    rcases hc with (hc | hc) | hc
    · exact ⟨((plain_of_isSha256 (hdigest name)).2 c hc).2.2.1, ((plain_of_isSha256 (hdigest name)).2 c hc).2.2.2⟩
    · obtain rfl : c = ' ' := by simpa using hc
      decide
    · exact plain_of_mem_bundleArtifacts name hname c hc
  have htext : checksumText sums = sums.flatMap (fun line => line ++ ['\n']) :=
    ExportAux.intercalate_newline (by simp [sums, bundleArtifacts])
  have hcr : '\r' ∉ checksumText sums := by
    rw [htext, mem_flatMap]
    rintro ⟨line, hmem, hc⟩
    rcases mem_append.mp hc with hc | hc
    · exact (hline line hmem _ hc).1 rfl
    · simp at hc
  refine ⟨hcr, ?_⟩
  rw [splitlines, PythonTextAux.joinCrLf_of_not_mem hcr, htext,
    Fields.lines_flatMap (by decide) fun line hmem c hc => (hline line hmem c hc).2, map_id]

/-! ## The check -/

/-- The checksum list of the artifacts' contents. -/
def freshSums (Γ : Host) (contents : Text → Γ.Bytes) : Text :=
  checksumText (bundleArtifacts.map (fun name => checksumLine (Γ.sha256 (contents name)) name))

/-- A directory with the files of a bundle and the digests of their contents. -/
structure Fresh {Γ : Host} (bundle : Bundle Γ) (contents : Text → Γ.Bytes) : Prop where
  notSymlink : bundle.isSymlink = false
  isDir : bundle.isDir = true
  inventory : bundle.files.keys = bundleInventory.toFinset
  artifacts : ∀ name ∈ bundleArtifacts, bundle.files.lookup name = some (.regular (contents name))
  sums : bundle.files.lookup sha256Sums = some (.regular (Γ.encode (freshSums Γ contents)))

variable {Γ : Host} {files : Directory Γ} {name : Text}

theorem readFile_of_lookup {content : Γ.Bytes} (h : files.lookup name = some (.regular content)) : readFile files name = .ok content := by
  rw [readFile, h]

theorem readText_encode (text : Text) : Python.readText Γ (Γ.encode text) = .ok (Python.universalNewlines text) := by
  rw [readText, Γ.decode_encode]
  rfl

theorem loadJson_of_readsBack {d : Dict} (h : Γ.ReadsBack (.obj d)) (path : String) : loadJson Γ path (Γ.encode (jsonText Γ (.obj d))) = .ok d := by
  unfold loadJson
  rw [readText_encode, ok_bind]
  unfold Host.ReadsBack at h
  rw [h]

/-- A directory with fresh checksums passes the check when its certificate and its workload are JSON objects. -/
theorem verifyBundle_of_fresh {root : String} {bundle : Bundle Γ} {contents : Text → Γ.Bytes}
    (h : Fresh bundle contents) {certificate workload : Dict}
    (hcertificate : loadJson Γ s!"{root}/certificate.json" (contents "certificate.json".toList) = .ok certificate)
    (hworkload : loadJson Γ s!"{root}/workload.json" (contents "workload.json".toList) = .ok workload) :
    verifyBundle Γ root bundle = .ok (certificate, workload) := by
  have hdigest : ∀ name, isSha256 (Γ.sha256 (contents name)) = true := fun name => Γ.sha256_hex _
  obtain ⟨hcr, hlines⟩ := splitlines_checksumText hdigest
  rw [← freshSums] at hcr
  have hsums : foldFrom checksumStep 0 [] (splitlines (freshSums Γ contents)) =
      .ok (bundleArtifacts.map (fun name => (name, Γ.sha256 (contents name)))) := by
    rw [freshSums, hlines]
    exact foldFrom_checksumStep hdigest bundleArtifacts (by decide) 0 [] (by simp)
  have hnames : (bundleArtifacts.map (fun name => (name, Γ.sha256 (contents name)))).map Prod.fst = bundleArtifacts := by
    rw [map_map]
    exact map_id _
  have hregular : ∀ name ∈ bundleInventory, isRegular bundle.files name = true := by
    intro name hname
    rcases mem_cons.mp hname with rfl | hname
    · rw [isRegular, h.sums]
    · rw [isRegular, h.artifacts name hname]
  have hread := fun name hname => readFile_of_lookup (h.artifacts name hname)
  have hdigests : checkAll (bundleArtifacts.map (fun name => (name, Γ.sha256 (contents name)))) (checkDigest bundle.files) =
      .ok () := by
    rw [checkAll_eq_ok]
    intro checksum hchecksum
    obtain ⟨name, hname, rfl⟩ := mem_map.mp hchecksum
    rw [checkDigest, hread name hname, ok_bind, ensure_of rfl]
  unfold verifyBundle
  rw [ensure_of (by simp [h.notSymlink, h.isDir]), ok_bind, ensure_of h.inventory, ok_bind,
    (checkAll_eq_ok (u := ())).mpr fun name hname => ensure_of (hregular name hname) _, ok_bind, readFile_of_lookup h.sums, ok_bind,
    readText_encode, ok_bind, universalNewlines_of_not_mem hcr, hsums, ok_bind, ensure_of (by rw [hnames]), ok_bind, hdigests,
    ok_bind, hread _ (by decide), ok_bind, hcertificate, ok_bind, hread _ (by decide), ok_bind, hworkload, ok_bind, pure_eq_ok]

/-- What the check has read of a bundle that passes it. -/
structure Verified {Γ : Host} (root : String) (bundle : Bundle Γ) (certificate workload : Dict) : Prop where
  notSymlink : bundle.isSymlink = false
  isDir : bundle.isDir = true
  inventory : bundle.files.keys = bundleInventory.toFinset
  regular : ∀ name ∈ bundleInventory, ∃ content, bundle.files.lookup name = some (.regular content)
  certificate : ∃ content, bundle.files.lookup "certificate.json".toList = some (.regular content) ∧
    loadJson Γ s!"{root}/certificate.json" content = .ok certificate
  workload : ∃ content, bundle.files.lookup "workload.json".toList = some (.regular content) ∧
    loadJson Γ s!"{root}/workload.json" content = .ok workload

theorem readFile_eq_ok {content : Γ.Bytes} : readFile files name = .ok content ↔ files.lookup name = some (.regular content) := by
  unfold readFile
  cases files.lookup name with
  | none => simp
  | some entry => cases entry <;> simp

theorem isRegular_iff : isRegular files name = true ↔ ∃ content, files.lookup name = some (.regular content) := by
  unfold isRegular
  cases files.lookup name with
  | none => simp
  | some entry => cases entry <;> simp

theorem verified_of_verifyBundle {root : String} {bundle : Bundle Γ} {certificate workload : Dict}
    (h : verifyBundle Γ root bundle = .ok (certificate, workload)) : Verified root bundle certificate workload := by
  unfold verifyBundle at h
  rw [check_bind_eq_ok, check_bind_eq_ok, check_bind_eq_ok] at h
  obtain ⟨hreal, hinventory, hregular, h⟩ := h
  simp only [bind_eq_ok] at h
  obtain ⟨sums, -, text, -, checksums, -, _, -, _, -, content, hcontent, c, hc, content', hcontent', w, hw, h⟩ := h
  rw [pure_eq_ok, Except.ok.injEq, Prod.mk.injEq] at h
  obtain ⟨rfl, rfl⟩ := h
  rw [ensure_eq_ok] at hreal hinventory
  rw [checkAll_eq_ok] at hregular
  rw [not_or, Bool.not_eq_true, Bool.not_eq_false] at hreal
  refine ⟨hreal.1, hreal.2, hinventory, ?_, ⟨content, readFile_eq_ok.mp hcontent, hc⟩,
    ⟨content', readFile_eq_ok.mp hcontent', hw⟩⟩
  intro name hname
  exact isRegular_iff.mp (ensure_eq_ok.mp (hregular name hname))

/-! ## The bundle the exporter writes -/

theorem lookup_directoryOf {texts : List (Text × Text)} (hnodup : (texts.map Prod.fst).Nodup) :
    ∀ file ∈ texts, (directoryOf Γ texts).lookup file.1 = some (.regular (Γ.encode file.2)) := by
  induction texts with
  | nil => simp
  | cons first texts ih =>
    rw [map_cons, nodup_cons] at hnodup
    intro file hfile
    rw [directoryOf, foldr_cons, ← directoryOf]
    rcases mem_cons.mp hfile with rfl | hfile
    · exact Finmap.lookup_insert _
    · rw [Finmap.lookup_insert_of_ne]
      · exact ih hnodup.2 file hfile
      · intro heq
        exact hnodup.1 (heq ▸ mem_map_of_mem hfile)

theorem keys_directoryOf (texts : List (Text × Text)) : (directoryOf Γ texts).keys = (texts.map Prod.fst).toFinset := by
  ext name
  rw [Finmap.mem_keys, mem_toFinset]
  induction texts with
  | nil => simp [directoryOf, Finmap.notMem_empty]
  | cons first texts ih =>
    rw [directoryOf, foldr_cons, ← directoryOf, Finmap.mem_insert, ih, map_cons, mem_cons]

theorem lookup_of_mem {files : List (Text × Text)} (hnodup : (files.map Prod.fst).Nodup) : ∀ file ∈ files, files.lookup file.1 = some file.2 := by
  induction files with
  | nil => simp
  | cons first files ih =>
    rw [map_cons, nodup_cons] at hnodup
    intro file hfile
    rw [lookup_cons]
    rcases mem_cons.mp hfile with rfl | hfile
    · rw [beq_self_eq_true]
    · have hne : (file.1 == first.1) = false := by
        rw [beq_eq_false_iff_ne]
        intro heq
        exact hnodup.1 (heq ▸ mem_map_of_mem hfile)
      rw [hne]
      exact ih hnodup.2 file hfile

/-- The text of an artifact. -/
def artifactText (Γ : Host) (iolog : Text) (certificate : Certificate) (normalized : List NormalizedCommand) (name : Text) : Text :=
  ((artifacts Γ iolog certificate normalized).lookup name).getD []

theorem fresh_writeBundle (Γ : Host) (iolog : Text) (certificate : Certificate) (normalized : List NormalizedCommand) :
    Fresh (writeBundle Γ iolog certificate normalized)
      (fun name => Γ.encode (artifactText Γ iolog certificate normalized name)) := by
  have hnames : (artifacts Γ iolog certificate normalized).map Prod.fst = bundleArtifacts := rfl
  have hnodup : ∀ sums, (((sha256Sums, sums) :: artifacts Γ iolog certificate normalized).map Prod.fst).Nodup := by
    intro sums
    have hinventory : bundleInventory.Nodup := by decide
    exact hinventory
  have htext : ∀ file ∈ artifacts Γ iolog certificate normalized,
      artifactText Γ iolog certificate normalized file.1 = file.2 := by
    intro file hfile
    rw [artifactText, lookup_of_mem (nodup_cons.mp (hnodup [])).2 file hfile, Option.getD_some]
  have hsums : (artifacts Γ iolog certificate normalized).map (fun file => checksumLine (Γ.sha256Text file.2) file.1) =
      bundleArtifacts.map (fun name =>
        checksumLine (Γ.sha256 (Γ.encode (artifactText Γ iolog certificate normalized name))) name) := by
    rw [← hnames, map_map]
    refine map_congr_left fun file hfile => ?_
    rw [Function.comp_apply, htext file hfile]
    rfl
  refine ⟨rfl, rfl, ?_, ?_, ?_⟩
  · rw [writeBundle, keys_directoryOf]
    rfl
  · intro name hname
    rw [← hnames] at hname
    obtain ⟨file, hfile, rfl⟩ := mem_map.mp hname
    rw [htext file hfile]
    exact lookup_directoryOf (hnodup _) file (by simp [hfile])
  · rw [freshSums, ← hsums]
    exact lookup_directoryOf (hnodup _) (sha256Sums, _) mem_cons_self

end BundleAux

open BundleAux

/-- The bundle the exporter writes passes the check, with the certificate and the workload that were written. -/
theorem verifyBundle_writeBundle {Γ : Host} (root : String) (iolog : Text) {certificate : Certificate}
    {normalized : List NormalizedCommand} (hcertificate : Γ.ReadsBack (.obj certificate.toDict))
    (hworkload : Γ.ReadsBack (workloadJson normalized)) :
    verifyBundle Γ root (writeBundle Γ iolog certificate normalized) = .ok (certificate.toDict,
      [Dict.entry "commands" (.arr (normalized.map NormalizedCommand.toJson)), Dict.entry "schema_version" (.int 1)]) :=
  verifyBundle_of_fresh (fresh_writeBundle Γ iolog certificate normalized) (loadJson_of_readsBack hcertificate _)
    (loadJson_of_readsBack hworkload _)

end EbpfSyscall
