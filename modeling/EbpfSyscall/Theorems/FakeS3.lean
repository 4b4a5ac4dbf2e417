import EbpfSyscall.Kvio.FakeS3
import EbpfSyscall.Lemmas.Content
import EbpfSyscall.Lemmas.TypedRun
import EbpfSyscall.Theorems.Simulated

/-!
# Gets on the in-memory bucket

Which keys are present after a history of calls, and where each object came from, can be told from the workload and the calls alone.
A get finds its key exactly when it is present, and it accepts what it finds if that was written under its own key.
-/

namespace EbpfSyscall.Kvio

open Checked Workload3 List Function Option

/-! ## The history of a bucket -/

/-- Where an object came from. -/
inductive Origin where
  /-- It was there before the first operation, with the content of this node. -/
  | initial (node : Text)
  | put
  | multipart
  deriving DecidableEq, Repr

/-- What a history of calls leaves: the objects with their origins, and the uploads that are under way. -/
structure BucketHistory where
  origins : Text → Option Origin
  uploads : Text → Bool

namespace BucketHistory

/-- The objects a workload starts with. -/
def start (wl : Workload3) : BucketHistory where
  origins := wl.entries.foldl (fun origins entry =>
    if (wl.nodes.get entry.node).map Node.kind = some .object then Function.update origins entry.path (some (.initial entry.node))
    else origins) (fun _ => none)
  uploads _ := false

/-- What a call leaves. -/
def after (b : BucketHistory) (operation : Operation3) : BucketHistory :=
  match operation.call, operation.args.key, operation.args.upload with
  | .put, some key, _ => { b with origins := Function.update b.origins key (some .put) }
  | .delete, some key, _ => { b with origins := Function.update b.origins key none }
  | .mpuCreate, _, some upload => { b with uploads := Function.update b.uploads upload true }
  | .mpuComplete, some key, some upload =>
    if b.uploads upload = true then
      ⟨Function.update b.origins key (some .multipart), Function.update b.uploads upload false⟩
    else b
  | .mpuAbort, _, some upload => { b with uploads := Function.update b.uploads upload false }
  | _, _, _ => b

end BucketHistory

/-- The operation is submitted: the source did not cancel it, or cancelled operations are submitted too. -/
def Operation3.Submitted (settings : Settings) (operation : Operation3) : Prop :=
  ¬(settings.cancelledSkip = true ∧ operation.outcome = some .cancelled)

instance (settings : Settings) (operation : Operation3) : Decidable (operation.Submitted settings) := inferInstanceAs (Decidable ¬_)

/-- The history of the operations that were submitted. -/
def Workload3.historyOf (wl : Workload3) (settings : Settings) (performed : List Operation3) : BucketHistory :=
  (performed.filter (fun operation => operation.Submitted settings)).foldl BucketHistory.after (.start wl)

/-- The object was written under its own key: by a put, or before the first operation as the content of a node with the name of the
key. -/
def Origin.IsOwn (key : Text) (origin : Origin) : Prop := origin = .put ∨ origin = .initial key

instance (key : Text) (origin : Origin) : Decidable (origin.IsOwn key) := inferInstanceAs (Decidable (_ ∨ _))

/-- If the get finds an object, then one that was written under its own key, and a get of a part says how long the part is. -/
def FindsOwn (b : BucketHistory) (operation : Operation3) : Prop :=
  ∀ key ∈ operation.args.key, ∀ origin ∈ b.origins key,
    origin.IsOwn key ∧ (operation.args.offset.isSome = true → operation.args.length.isSome = true)

instance (b : BucketHistory) (operation : Operation3) : Decidable (FindsOwn b operation) :=
  inferInstanceAs (Decidable (∀ key ∈ operation.args.key, ∀ origin ∈ b.origins key, _))

/-- What a get should report: success if its key is present, a miss if it is not, and never a content mismatch. -/
def GetReports (b : BucketHistory) (operation : Operation3) (outcome : Outcome) : Prop :=
  ∃ key, operation.args.key = some key ∧ outcome.status = (if (b.origins key).isSome = true then .success else .miss) ∧
    outcome.detail ≠ "content mismatch".toList

namespace FakeS3Aux

variable {H : ContentHost} {fake : FakeS3} {wl : Workload3} {b : BucketHistory} {s : S3State} {operation : Operation3}

/-- The name whose content an object with the given origin holds. -/
def nameOf (key : Text) : Origin → Option Text
  | .initial node => some node
  | .put => some key
  | .multipart => none

/-- The bucket holds what the history says. -/
structure Tracks (H : ContentHost) (fake : FakeS3) (b : BucketHistory) (s : S3State) : Prop where
  present : ∀ key, (s.objects.get key).isSome = (b.origins key).isSome
  holds : ∀ key origin name data, b.origins key = some origin → nameOf key origin = some name → s.objects.get key = some data →
    ∃ size, data = fake.content H name 0 size
  uploads : ∀ upload, (s.mpu.get upload).isSome = b.uploads upload

/-- An object is written. -/
theorem Tracks.write (h : Tracks H fake b s) {key : Text} (origin : Origin) {data : Bytes}
    (hdata : ∀ name, nameOf key origin = some name → ∃ size, data = fake.content H name 0 size) :
    Tracks H fake { b with origins := Function.update b.origins key (some origin) } { s with objects := s.objects.set key data } where
  present other := by
    dsimp only
    by_cases heq : other = key
    · subst heq
      simp
    · rw [Assoc.get_set_of_ne _ heq, h.present, update_of_ne heq]
  holds other o name found := by
    dsimp only
    by_cases heq : other = key
    · subst heq
      intro horigin hname hfound
      rw [update_self, some.injEq] at horigin
      rw [Assoc.get_set_self, some.injEq] at hfound
      subst horigin hfound
      exact hdata name hname
    · rw [Assoc.get_set_of_ne _ heq, update_of_ne heq]
      exact h.holds other o name found
  uploads := h.uploads

theorem Tracks.erase (h : Tracks H fake b s) (key : Text) :
    Tracks H fake { b with origins := Function.update b.origins key none } { s with objects := s.objects.erase key } where
  present other := by
    dsimp only
    rw [Assoc.get_erase]
    by_cases heq : other = key
    · subst heq
      simp
    · rw [if_neg heq, h.present, update_of_ne heq]
  holds other o name found := by
    dsimp only
    rw [Assoc.get_erase]
    by_cases heq : other = key
    · subst heq
      simp
    · rw [if_neg heq, update_of_ne heq]
      exact h.holds other o name found
  uploads := h.uploads

/-- An upload gets other parts. -/
theorem Tracks.setUpload (h : Tracks H fake b s) (upload : Text) (parts : Assoc Int Bytes) :
    Tracks H fake { b with uploads := Function.update b.uploads upload true } { s with mpu := s.mpu.set upload parts } where
  present := h.present
  holds := h.holds
  uploads other := by
    dsimp only
    by_cases heq : other = upload
    · subst heq
      simp
    · rw [Assoc.get_set_of_ne _ heq, h.uploads, update_of_ne heq]

/-- An upload comes to its end. -/
theorem Tracks.endUpload (h : Tracks H fake b s) (upload : Text) :
    Tracks H fake { b with uploads := Function.update b.uploads upload false } { s with mpu := s.mpu.erase upload } where
  present := h.present
  holds := h.holds
  uploads other := by
    dsimp only
    rw [Assoc.get_erase]
    by_cases heq : other = upload
    · subst heq
      simp
    · rw [if_neg heq, h.uploads, update_of_ne heq]

theorem tracks_start (H : ContentHost) (fake : FakeS3) (wl : Workload3) : Tracks H fake (.start wl) (fake.initialized H wl) := by
  have hloop : ∀ (entries : List DirEntry) (origins : Text → Option Origin) (s : S3State),
      Tracks H fake ⟨origins, fun _ => false⟩ s →
      Tracks H fake ⟨entries.foldl (fun origins entry => if (wl.nodes.get entry.node).map Node.kind = some .object then
          update origins entry.path (some (.initial entry.node)) else origins) origins, fun _ => false⟩
        (entries.foldl (fake.initialEntry H wl) s) := by
    intro entries
    induction entries with
    | nil => exact fun _ _ h => h
    | cons entry rest ih =>
      intro origins s h
      rw [foldl_cons, foldl_cons]
      refine ih _ _ ?_
      unfold FakeS3.initialEntry
      cases hnode : wl.nodes.get entry.node with
      | none => exact h
      | some node =>
        by_cases hkind : node.kind = .object
        · simp only [map_some, hkind, if_true]
          exact h.write (.initial entry.node) fun name hname => ⟨node.size.toNat, by cases hname; rfl⟩
        · simp only [map_some, some.injEq, hkind, if_false]
          exact h
  exact hloop wl.entries _ _ ⟨fun _ => rfl, fun _ _ _ _ horigin => (by cases horigin), fun _ => rfl⟩

/-- The bytes of an object that was written under its own key pass the comparison, whole or in part. -/
theorem compare_own {key : Text} {size : Nat} (offset : Option Int) (length : Nat) :
    (fake.compare H key none (fake.content H key 0 size)).outcome = .success ∧
      (fake.compare H key offset (((fake.content H key 0 size).drop (offset.getD 0).toNat).take length)).outcome = .success := by
  have hlength : ∀ offset length, (fake.content H key offset length).length = length := by
    intro offset length
    rw [FakeS3.content, ContentAux.content_eq, Blocks.length_range]
  constructor
  · rw [FakeS3.compare, if_neg]
    rw [hlength]
    simp
  · rw [FakeS3.compare, if_neg]
    rw [not_not, length_take, length_drop, hlength]
    generalize (offset.getD 0).toNat = start
    have hcut : ((fake.content H key 0 size).drop start).take length =
        ((fake.content H key 0 size).drop start).take (min length (size - start)) := by
      rw [take_eq_take_iff]
      rw [length_drop, hlength]
      omega
    rw [hcut]
    rcases Nat.lt_or_ge start size with hlt | hge
    · rw [FakeS3.content, FakeS3.content, ContentAux.content_eq, ContentAux.content_eq, Blocks.take_drop_range _ _ _ _ (by omega),
        Nat.cast_zero, Int.zero_add]
    · have hzero : min length (size - start) = 0 := by omega
      rw [hzero, take_zero]
      rfl

theorem performV3_s3 (hfamily : operation.family = .s3) : fake.performV3 H operation s =
    (fake.perform H operation s).map fun result => (⟨result.1.outcome, result.1.bytes, result.1.detail⟩, result.2) := by
  unfold FakeS3.performV3
  rw [hfamily]
  cases fake.perform H operation s <;> rfl

theorem perform_get (h : Tracks H fake b s) (hcall : operation.call = .get) (hfail : fake.fail operation.opId = none)
    (hkey : operation.args.key.isSome = true) (hown : FindsOwn b operation) :
    ∃ result, fake.perform H operation s = .ok (result, s) ∧ GetReports b operation ⟨result.outcome, result.bytes, result.detail⟩ := by
  obtain ⟨key, hkey⟩ := isSome_iff_exists.mp hkey
  have hpresent := h.present key
  have hsuccess : ∀ result : S3Result, ∀ offset data, result = fake.compare H key offset data → result.outcome = .success →
      (b.origins key).isSome = true → GetReports b operation ⟨result.outcome, result.bytes, result.detail⟩ := by
    rintro result offset data rfl hsuccess hsome
    refine ⟨key, hkey, by rw [hsome]; exact hsuccess, ?_⟩
    unfold FakeS3.compare at hsuccess ⊢
    split at hsuccess
    · cases hsuccess
    · rename_i heq
      rw [if_neg heq]
      show ([] : Text) ≠ "content mismatch".toList
      decide
  unfold FakeS3.perform
  simp only [hfail, hcall, hkey, require, ok_bind]
  cases hfound : s.objects.get key with
  | none =>
    rw [hfound] at hpresent
    refine ⟨_, rfl, key, hkey, ?_, by decide⟩
    rw [← hpresent]
    rfl
  | some data =>
    rw [hfound, isSome_some] at hpresent
    obtain ⟨origin, horigin⟩ := isSome_iff_exists.mp hpresent.symm
    obtain ⟨hisOwn, hpart⟩ := hown key hkey origin horigin
    obtain ⟨size, rfl⟩ : ∃ size, data = fake.content H key 0 size := by
      rcases hisOwn with rfl | rfl
      · exact h.holds key _ key data horigin rfl hfound
      · exact h.holds key _ key data horigin rfl hfound
    cases hoffset : operation.args.offset with
    | none => exact ⟨_, rfl, hsuccess _ _ _ rfl (compare_own none 0).1 hpresent.symm⟩
    | some offset =>
      obtain ⟨length, hlength⟩ := isSome_iff_exists.mp (hpart (by rw [hoffset]; rfl))
      simp only [hlength, ok_bind]
      exact ⟨_, rfl, hsuccess _ _ _ rfl (compare_own (some offset) length.toNat).2 hpresent.symm⟩

/-- A submitted call of a valid workload: it does not raise, the bucket keeps to its history, and a get reports what it should. -/
theorem performV3_spec (h : Tracks H fake b s) (hargs : ArgsOk wl operation) (hfamily : operation.family = .s3)
    (hfail : fake.fail operation.opId = none) (hown : operation.call = .get → FindsOwn b operation) :
    ∃ outcome s', fake.performV3 H operation s = .ok (outcome, s') ∧ Tracks H fake (b.after operation) s' ∧
      (operation.call = .get → GetReports b operation outcome) := by
  suffices hperform : ∃ result s', fake.perform H operation s = .ok (result, s') ∧ Tracks H fake (b.after operation) s' ∧
      (operation.call = .get → GetReports b operation ⟨result.outcome, result.bytes, result.detail⟩) by
    obtain ⟨result, s', hresult, hrest⟩ := hperform
    exact ⟨_, s', by rw [performV3_s3 hfamily, hresult]; rfl, hrest⟩
  cases hcall : operation.call with
  | put =>
    obtain ⟨key, hkey⟩ := Option.isSome_iff_exists.mp (hargs.has hfamily hcall rfl .key (by simp))
    obtain ⟨size, hsize⟩ := Option.isSome_iff_exists.mp (hargs.has hfamily hcall rfl .size (by simp))
    simp only [FakeS3.perform, BucketHistory.after, hfail, hcall, hkey, hsize, require, ok_bind, pure_eq_ok]
    exact ⟨_, _, rfl, h.write .put fun name hname => ⟨size.toNat, by cases hname; rfl⟩, by simp⟩
  | get =>
    have hkey := hargs.has hfamily hcall rfl .key (by simp)
    obtain ⟨result, hresult, hreports⟩ := perform_get h hcall hfail hkey (hown hcall)
    refine ⟨result, s, hresult, ?_, fun _ => hreports⟩
    rw [BucketHistory.after, hcall]
    exact h
  | head =>
    obtain ⟨key, hkey⟩ := Option.isSome_iff_exists.mp (hargs.has hfamily hcall rfl .key (by simp))
    simp only [FakeS3.perform, BucketHistory.after, hfail, hcall, hkey, require, ok_bind, pure_eq_ok]
    cases s.objects.get key with
    | none | some data => exact ⟨_, _, rfl, h, by simp⟩
  | list =>
    obtain ⟨front, hfront⟩ := Option.isSome_iff_exists.mp (hargs.has hfamily hcall rfl .pre (by simp))
    simp only [FakeS3.perform, BucketHistory.after, hfail, hcall, hfront, require, ok_bind, pure_eq_ok]
    exact ⟨_, _, rfl, h, by simp⟩
  | delete =>
    obtain ⟨key, hkey⟩ := Option.isSome_iff_exists.mp (hargs.has hfamily hcall rfl .key (by simp))
    simp only [FakeS3.perform, BucketHistory.after, hfail, hcall, hkey, require, ok_bind, pure_eq_ok]
    exact ⟨_, _, rfl, h.erase key, by simp⟩
  | mpuCreate =>
    obtain ⟨upload, hupload⟩ := Option.isSome_iff_exists.mp (hargs.has hfamily hcall rfl .upload (by simp))
    simp only [FakeS3.perform, BucketHistory.after, hfail, hcall, hupload, require, ok_bind, pure_eq_ok]
    exact ⟨_, _, rfl, h.setUpload upload _, by simp⟩
  | mpuPart =>
    obtain ⟨key, hkey⟩ := Option.isSome_iff_exists.mp (hargs.has hfamily hcall rfl .key (by simp))
    obtain ⟨upload, hupload⟩ := Option.isSome_iff_exists.mp (hargs.has hfamily hcall rfl .upload (by simp))
    obtain ⟨part, hpart⟩ := Option.isSome_iff_exists.mp (hargs.has hfamily hcall rfl .part (by simp))
    obtain ⟨size, hsize⟩ := Option.isSome_iff_exists.mp (hargs.has hfamily hcall rfl .size (by simp))
    have hopen := h.uploads upload
    simp only [FakeS3.perform, BucketHistory.after, hfail, hcall, hkey, hupload, hpart, hsize, require, ok_bind, pure_eq_ok]
    cases hparts : s.mpu.get upload with
    | none => exact ⟨_, _, rfl, h, by simp⟩
    | some parts =>
      rw [hparts, Option.isSome_some] at hopen
      have hset := h.setUpload upload (parts.set part (fake.content H (FakeS3.partName key part) 0 size.toNat))
      rw [hopen, Function.update_eq_self] at hset
      exact ⟨_, _, rfl, hset, by simp⟩
  | mpuComplete =>
    obtain ⟨key, hkey⟩ := Option.isSome_iff_exists.mp (hargs.has hfamily hcall rfl .key (by simp))
    obtain ⟨upload, hupload⟩ := Option.isSome_iff_exists.mp (hargs.has hfamily hcall rfl .upload (by simp))
    have hopen := h.uploads upload
    simp only [FakeS3.perform, BucketHistory.after, hfail, hcall, hkey, hupload, require, ok_bind, pure_eq_ok, ← hopen]
    cases hparts : s.mpu.get upload with
    | none => exact ⟨_, _, rfl, h, by simp⟩
    | some parts => exact ⟨_, _, rfl, (h.write .multipart fun _ hname => by cases hname).endUpload upload, by simp⟩
  | mpuAbort =>
    obtain ⟨upload, hupload⟩ := Option.isSome_iff_exists.mp (hargs.has hfamily hcall rfl .upload (by simp))
    have hopen := h.uploads upload
    simp only [FakeS3.perform, BucketHistory.after, hfail, hcall, hupload, require, ok_bind, pure_eq_ok]
    cases hparts : s.mpu.get upload with
    | none =>
      rw [hparts, Option.isSome_none] at hopen
      refine ⟨_, _, rfl, ?_, by simp⟩
      rw [hopen, Function.update_eq_self]
      exact h
    | some parts => exact ⟨_, _, rfl, h.endUpload upload, by simp⟩
  | _ =>
    obtain ⟨fields, hfields, -⟩ := hargs.fields
    rw [hfamily, hcall] at hfields
    cases hfields

theorem historyOf_concat (settings : Settings) (performed : List Operation3) (operation : Operation3) :
    wl.historyOf settings (performed ++ [operation]) =
      if operation.Submitted settings then (wl.historyOf settings performed).after operation else wl.historyOf settings performed := by
  rw [historyOf, historyOf, filter_append, foldl_append]
  by_cases h : operation.Submitted settings
  · rw [if_pos h, filter_cons_of_pos (by simpa using h)]
    rfl
  · rw [if_neg h, filter_cons_of_neg (by simpa using h)]
    rfl

/-- A run from a state that keeps to its history does not raise, and its gets report what they should. -/
theorem performAll_spec {settings : Settings} (hvalid : Valid wl) (hs3 : ∀ operation ∈ wl.operations, operation.family = .s3)
    (hfail : ∀ opId, fake.fail opId = none) {rest : List Operation3} (hrest : ∀ operation ∈ rest, operation ∈ wl.operations)
    (performed : List Operation3) {s : S3State} (h : Tracks H fake (wl.historyOf settings performed) s)
    (hown : ∀ before operation after, rest = before ++ operation :: after → operation.call = .get → operation.Submitted settings →
      FindsOwn (wl.historyOf settings (performed ++ before)) operation) :
    ∃ outcomes s', (wl.executor settings (fake.performV3 H) (fun _ => 0)).performAll (rest.map Operation3.opId) s = .ok (outcomes, s') ∧
      ∀ before operation after, rest = before ++ operation :: after → operation.call = .get → operation.Submitted settings →
        ∃ outcome, outcomes[before.length]? = some outcome ∧
          GetReports (wl.historyOf settings (performed ++ before)) operation outcome := by
  induction rest generalizing performed s with
  | nil => exact ⟨[], s, rfl, fun before operation after heq => by simp at heq⟩
  | cons first rest ih =>
    have hmem := hrest first mem_cons_self
    obtain ⟨front, back, -, haccepts⟩ : ∃ front back, wl.operations = front ++ first :: back ∧
        Accepts wl (seenAfter wl front) front.length first := by
      obtain ⟨front, back, heq⟩ := append_of_mem hmem
      exact ⟨front, back, heq, hvalid.operations front first back heq⟩
    -- The first operation, submitted or not.
    obtain ⟨outcome, next, hperform, htracks, hreports⟩ : ∃ outcome next,
        (wl.executor settings (fake.performV3 H) (fun _ => 0)).perform first.opId s = .ok (outcome, next) ∧
        Tracks H fake (wl.historyOf settings (performed ++ [first])) next ∧
        (first.call = .get → first.Submitted settings → GetReports (wl.historyOf settings performed) first outcome) := by
      rw [TypedRunAux.perform_eq hvalid hmem, historyOf_concat]
      by_cases hsubmitted : first.Submitted settings
      · have hfirst : first.call = .get → FindsOwn (wl.historyOf settings performed) first := by
          intro hcall
          have := hown [] first rest rfl hcall hsubmitted
          rwa [append_nil] at this
        obtain ⟨outcome, next, hperform, htracks, hreports⟩ :=
          performV3_spec h haccepts.args (hs3 first hmem) (hfail first.opId) hfirst
        rw [if_neg hsubmitted, if_pos hsubmitted]
        exact ⟨outcome, next, hperform, htracks, fun hcall _ => hreports hcall⟩
      · rw [if_neg hsubmitted, if_pos (not_not.mp hsubmitted)]
        exact ⟨_, s, rfl, h, fun _ hyes => absurd hyes hsubmitted⟩
    obtain ⟨outcomes, last, hall, hlater⟩ := ih (fun operation hin => hrest operation (mem_cons_of_mem _ hin)) _ htracks
      fun before operation after heq hcall hsubmitted => by
        have := hown (first :: before) operation after (by rw [heq]; rfl) hcall hsubmitted
        rwa [append_assoc, singleton_append]
    refine ⟨outcome :: outcomes, last, ?_, ?_⟩
    · simp only [map_cons, Executor.performAll, hperform, ok_bind, hall, pure_eq_ok]
    · intro before operation after heq hcall hsubmitted
      cases before with
      | nil =>
        obtain ⟨rfl, -⟩ := cons.inj heq
        exact ⟨outcome, rfl, by rw [append_nil]; exact hreports hcall hsubmitted⟩
      | cons head before =>
        obtain ⟨rfl, htail⟩ := cons.inj heq
        obtain ⟨found, hfound, hgood⟩ := hlater before operation after htail hcall hsubmitted
        rw [append_assoc, singleton_append] at hgood
        exact ⟨found, by rw [length_cons, getElem?_cons_succ, hfound], hgood⟩

end FakeS3Aux

open FakeS3Aux

/-- In every order that respects the dependencies of an accepted s3 workload, and without injected failures: if every get that finds
an object finds one that was written under its own key, then no operation raises, a get succeeds when its key is present and misses
when it is not, and none ends with a content mismatch. -/
theorem runS3_gets (H : ContentHost) {wl : Workload3} {fake : FakeS3} (settings : Settings) (hvalid : validateWorkload wl = .ok ())
    (hs3 : ∀ operation ∈ wl.operations, operation.family = .s3) (hfail : ∀ opId, fake.fail opId = none) (order : DependencyOrder wl)
    (hown : ∀ before operation after, order.operations = before ++ operation :: after → operation.call = .get →
      operation.Submitted settings → FindsOwn (wl.historyOf settings before) operation) :
    ∃ outcomes s, wl.runS3 H fake settings order = .ok (outcomes, s) ∧
      ∀ before operation after, order.operations = before ++ operation :: after → operation.call = .get →
        operation.Submitted settings →
          ∃ outcome, outcomes[before.length]? = some outcome ∧ GetReports (wl.historyOf settings before) operation outcome :=
  performAll_spec (validateWorkload_eq_ok.mp hvalid) hs3 hfail (fun _ hin => order.perm.mem_iff.mp hin) []
    (tracks_start H fake wl) hown

/-! ## Two runs -/

/-- An s3 operation after the given ones. -/
def s3Operation (opId : String) (seq : Int) (call : Call) (args : Args) (deps : List String) : Operation3 where
  opId := opId.toList
  seq := seq
  family := .s3
  call := call
  args := args
  stream := some "s".toList
  deps := deps.map fun dep => ⟨dep.toList, .program⟩
  releaseNs := none
  declaredDelayNs := none

/-- A key is put and read in part; another one is not there. -/
def putAndGet : Workload3 :=
  { newWorkload .generated .declared .absent .none ⟨"s3".toList, "engine".toList, "1".toList, []⟩ with
    operations :=
      [s3Operation "a" 0 .put { key := "k".toList, size := some 4 } [],
        s3Operation "b" 1 .get { key := "k".toList, offset := some 1, length := some 2 } ["a"],
        s3Operation "c" 2 .get { key := "other".toList } ["b"]] }

/-- The order of the list. -/
def listOrder (wl : Workload3) (h : validateWorkload wl = .ok ()) : DependencyOrder wl where
  operations := wl.operations
  perm := List.Perm.refl _
  respects before _ after heq dep hdep := by
    have hdeps := ((validateWorkload_eq_ok.mp h).operations before _ after heq).deps dep hdep
    rwa [seenAfter_ids] at hdeps

theorem validateWorkload_putAndGet : validateWorkload putAndGet = .ok () := by decide +kernel

theorem runS3_gets_putAndGet : ∃ outcomes s, putAndGet.runS3 sampleHost {} {} (listOrder putAndGet validateWorkload_putAndGet) = .ok (outcomes, s) ∧
      ∀ before operation after, putAndGet.operations = before ++ operation :: after → operation.call = .get →
        operation.Submitted {} →
          ∃ outcome, outcomes[before.length]? = some outcome ∧ GetReports (putAndGet.historyOf {} before) operation outcome := by
  have hown : ∀ before operation after, putAndGet.operations = before ++ operation :: after → operation.call = .get →
      operation.Submitted {} → FindsOwn (putAndGet.historyOf {} before) operation := by
    refine forall_split.mpr ?_
    decide +kernel
  exact runS3_gets sampleHost {} validateWorkload_putAndGet (by decide) (fun _ => rfl)
    (listOrder putAndGet validateWorkload_putAndGet) hown

/-- A hash that tells texts of different lengths apart. -/
def lengthHost : ContentHost where
  blake2b n text := List.replicate n (UInt8.ofNat text.length)
  double x := x
  length_blake2b _ _ := List.length_replicate

/-- A key is written by a multipart upload of one part and read. -/
def uploadAndGet : Workload3 :=
  { newWorkload .generated .declared .absent .none ⟨"s3".toList, "engine".toList, "1".toList, []⟩ with
    operations :=
      [s3Operation "a" 0 .mpuCreate { key := "k".toList, upload := "u".toList } [],
        s3Operation "b" 1 .mpuPart { key := "k".toList, upload := "u".toList, part := some 1, size := some 4 } ["a"],
        s3Operation "c" 2 .mpuComplete { key := "k".toList, upload := "u".toList } ["b"],
        s3Operation "d" 3 .get { key := "k".toList } ["c"]] }

theorem validateWorkload_uploadAndGet : validateWorkload uploadAndGet = .ok () := by decide +kernel

/-- The parts of an upload have the content of their own names, and the get expects the content of the key. -/
theorem runS3_uploadAndGet : ∃ outcomes s,
    uploadAndGet.runS3 lengthHost {} {} (listOrder uploadAndGet validateWorkload_uploadAndGet) = .ok (outcomes, s) ∧
      ((uploadAndGet.historyOf {} (uploadAndGet.operations.take 3)).origins "k".toList).isSome = true ∧
      outcomes[3]? = some ⟨.error, 4, "content mismatch".toList⟩ := by
  have hany : (uploadAndGet.runS3 lengthHost {} {} (listOrder uploadAndGet validateWorkload_uploadAndGet)).toOption.any (fun result =>
      decide (result.1[3]? = some ⟨.error, 4, "content mismatch".toList⟩)) = true := by
    decide +kernel
  obtain ⟨⟨outcomes, s⟩, hresult, hlast⟩ := exists_ok_of_any hany
  exact ⟨outcomes, s, hresult, by decide +kernel, of_decide_eq_true hlast⟩

end EbpfSyscall.Kvio
