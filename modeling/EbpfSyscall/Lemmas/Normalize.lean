import EbpfSyscall.Kvio.CaptureEvents
import EbpfSyscall.Lemmas.ObjectRun

/-!
# What the normalizer builds

A record that `normalize_capture` returns has gone through three loops: over the events, over the objects of the initial state and
over the items of the operations. Each step is described once; what holds of every draft follows by induction over the loops. The
operations on one object are chained, each a dependency of the next.
-/

namespace EbpfSyscall.Kvio

open Checked Capture List

namespace NormalizeAux

variable {Γ : CaptureHost} {events : List Event} {sidecarPath : Option Text} {intent : Intent2} {sidecar : List SidecarLine}
  {draft next : Draft}

/-- The stages of a run that returns a record. -/
structure Normalized (Γ : CaptureHost) (events : List Event) (sidecarPath : Option Text) (intent : Intent2) (sidecar : List SidecarLine) where
  seq : Option Int
  start : Start
  rest : List Event
  collected : Collected
  described : Draft
  ordered : List Begin
  draft : Draft
  events_eq : events = ⟨seq, .start start⟩ :: rest
  schema_eq : start.schema = some schema
  collected_eq : rest.foldlM collect {} = .ok collected
  described_eq : collected.initial.foldlM liveStep { intent := blank Γ start collected } = .ok described
  ordered_eq : order collected.begins = .ok ordered
  draft_eq : ordered.foldlM (beginStep ordered collected.ends) described = .ok draft
  intent_eq : intent = finish Γ collected sidecarPath draft
  sidecar_eq : sidecar = draft.sidecar
  valid : Intent2.Valid intent

theorem normalizeCapture_eq_ok : normalizeCapture Γ events sidecarPath = .ok (intent, sidecar) ↔
    Nonempty (Normalized Γ events sidecarPath intent sidecar) := by
  constructor
  · intro h
    unfold normalizeCapture at h
    split at h
    · rename_i seq start rest
      rw [check_bind_eq_ok, ensure_eq_ok] at h
      obtain ⟨hschema, h⟩ := h
      obtain ⟨collected, hcollected, h⟩ := bind_eq_ok.mp h
      obtain ⟨described, hdescribed, h⟩ := bind_eq_ok.mp h
      obtain ⟨ordered, hordered, h⟩ := bind_eq_ok.mp h
      obtain ⟨draft, hdraft, h⟩ := bind_eq_ok.mp h
      rw [check_bind_eq_ok, pure_eq_ok, Except.ok.injEq, Prod.mk.injEq] at h
      obtain ⟨hvalid, rfl, rfl⟩ := h
      exact ⟨⟨seq, start, rest, collected, described, ordered, draft, rfl, hschema, hcollected, hdescribed, hordered, hdraft, rfl, rfl,
        validateIntent2_eq_ok.mp hvalid⟩⟩
    · cases h
  · rintro ⟨n⟩
    rw [n.events_eq, normalizeCapture, ensure_of n.schema_eq, ok_bind, n.collected_eq, ok_bind, n.described_eq, ok_bind, n.ordered_eq,
      ok_bind, n.draft_eq, ok_bind]
    dsimp only
    rw [← n.intent_eq, validateIntent2_eq_ok (u := ()) |>.mpr n.valid, ok_bind, ← n.sidecar_eq]
    rfl

/-! ## Steps -/

/-- The operation that an item becomes. -/
def operationOf (ordered : List Begin) (b : Begin) (e : Option End) (draft : Draft) (i : Nat) (item : ItemSpec)
    (itemEnd : Option ItemEnd) (requested : Int) : Operation where
  opId := b.itemId i
  seq := draft.intent.operations.length
  op := b.op
  objectId := item.objectId
  version := .int (versionOf b.op item (itemEnd.bind ItemEnd.outcome) (draft.versions item.objectId))
  range := item.range
  stream := b.stream
  batchId := batchIdOf b
  deps := itemDeps ordered b (draft.lastOnObject item.objectId)
  releaseNs := some b.tsNs
  declaredDelayNs := none
  requestedBytes := requested
  sourceOutcome := outcomeOf e itemEnd

/-- A record that differs from another in its representations and objects at most. -/
def Describes (intent next : Intent2) : Prop := ∃ representations objects, next = { intent with representations, objects }

theorem Describes.refl (intent : Intent2) : Describes intent intent := ⟨_, _, rfl⟩

theorem Describes.trans {first second third : Intent2} (h : Describes first second) (h' : Describes second third) : Describes first third := by
  obtain ⟨representations, objects, rfl⟩ := h
  obtain ⟨representations', objects', rfl⟩ := h'
  exact ⟨representations', objects', rfl⟩

theorem withRepresentation_describes (intent : Intent2) (rep : Text × Text × Int) : Describes intent (withRepresentation intent rep) := by
  unfold withRepresentation
  split
  · exact Describes.refl intent
  · exact ⟨_, _, rfl⟩

theorem addObjectVersion_describes {intent next : Intent2} {objectId representation : Text} {version : Int}
    (h : addObjectVersion intent objectId version representation = .ok next) : Describes intent next := by
  obtain ⟨rep, -, h⟩ := bind_eq_ok.mp h
  cases h
  exact ⟨_, _, rfl⟩

theorem describe_describes {intent next : Intent2} {verb : Verb} {item : ItemSpec} {version : Int}
    (h : describe intent verb item version = .ok next) : Describes intent next := by
  have hother : ∀ {next}, describeOther intent item version = .ok next → Describes intent next := by
    intro next h
    unfold describeOther at h
    split at h
    · cases h
      exact Describes.refl intent
    · obtain ⟨rep, -, h⟩ := bind_eq_ok.mp h
      exact (withRepresentation_describes intent rep).trans (addObjectVersion_describes h)
  cases verb with
  | store =>
    obtain ⟨rep, -, h⟩ := bind_eq_ok.mp h
    dsimp only at h
    split at h
    · cases h
      exact withRepresentation_describes intent rep
    · exact (withRepresentation_describes intent rep).trans (addObjectVersion_describes h)
  | load => exact hother h
  | release => exact hother h

/-- What one item does to the draft. -/
theorem itemStep_eq_ok {ordered : List Begin} {b : Begin} {e : Option End} {i : Nat}
    {entry : ItemSpec × Option ItemEnd} (h : itemStep ordered b e draft i entry = .ok next) :
    ∃ described requested, describe draft.intent b.op entry.1
        (versionOf b.op entry.1 (entry.2.bind ItemEnd.outcome) (draft.versions entry.1.objectId)) = .ok described ∧
      requestedOf described b.op entry.1.objectId
        (versionOf b.op entry.1 (entry.2.bind ItemEnd.outcome) (draft.versions entry.1.objectId)) entry.1.range
        entry.1.requestedBytes = .ok requested ∧
      next.intent = { described with
        operations := draft.intent.operations ++ [operationOf ordered b e draft i entry.1 entry.2 requested] } ∧
      next.lastOnObject = Function.update draft.lastOnObject entry.1.objectId (some (b.itemId i)) ∧
      next.versions = if b.op = .store then Function.update draft.versions entry.1.objectId (some
        (versionOf b.op entry.1 (entry.2.bind ItemEnd.outcome) (draft.versions entry.1.objectId))) else draft.versions := by
  obtain ⟨described, hdescribed, h⟩ := bind_eq_ok.mp h
  obtain ⟨added, hadded, h⟩ := bind_eq_ok.mp h
  obtain ⟨requested, hrequested, hadded⟩ := bind_eq_ok.mp hadded
  rw [pure_eq_ok, Except.ok.injEq] at h hadded
  subst hadded h
  refine ⟨described, requested, hdescribed, hrequested, ?_, rfl, rfl⟩
  obtain ⟨representations, objects, rfl⟩ := describe_describes hdescribed
  rfl

/-- What holds of the draft after the initial state and is kept by every item holds of the last draft. -/
theorem Normalized.draft_invariant (n : Normalized Γ events sidecarPath intent sidecar) (P : Draft → Prop) (hfirst : P n.described)
    (hitem : ∀ b ∈ n.ordered, ∀ e draft i entry next, P draft → itemStep n.ordered b e draft i entry = .ok next → P next) :
    P n.draft := by
  refine foldlM_invariant P ?_ hfirst n.draft_eq
  intro draft b next hb hp hstep
  obtain ⟨itemEnds, -, hloop⟩ := bind_eq_ok.mp hstep
  exact foldFrom_invariant (fun _ => P) (fun i s a s' _ hp hs => hitem b hb _ s i a s' hp hs) hp hloop

/-- What one object of the initial state does to the draft. -/
theorem liveStep_eq_ok {item : LiveSpec} (h : liveStep draft item = .ok next) : ∃ rep added, repId item.representation item.bytes = .ok rep ∧
      addObjectVersion (withRepresentation draft.intent rep) item.objectId (item.version.getD 1) rep.1 = .ok added ∧
      next = { draft with
        intent := { added with live := draft.intent.live ++ [⟨item.objectId, .int (item.version.getD 1), item.tier.getD .storage⟩] }
        versions := Function.update draft.versions item.objectId (some (item.version.getD 1)) } := by
  obtain ⟨rep, hrep, h⟩ := bind_eq_ok.mp h
  obtain ⟨added, hadded, h⟩ := bind_eq_ok.mp h
  rw [pure_eq_ok, Except.ok.injEq] at h
  subst h
  obtain ⟨representations, objects, heq⟩ :=
    (withRepresentation_describes draft.intent rep).trans (addObjectVersion_describes hadded)
  refine ⟨rep, added, hrep, hadded, ?_⟩
  rw [heq]

/-- The loops over the initial state and over the items leave the rest of the record as it was. -/
theorem Normalized.described_frame (n : Normalized Γ events sidecarPath intent sidecar) :
    n.described.intent.operations = [] ∧ n.described.lastOnObject = (fun _ => none) ∧
      n.described.intent.provenance = (blank Γ n.start n.collected).provenance ∧
      n.described.intent.engine = (blank Γ n.start n.collected).engine := by
  refine foldlM_invariant (fun draft : Draft => draft.intent.operations = [] ∧ draft.lastOnObject = (fun _ => none) ∧
    draft.intent.provenance = (blank Γ n.start n.collected).provenance ∧
    draft.intent.engine = (blank Γ n.start n.collected).engine) ?_ ⟨rfl, rfl, rfl, rfl⟩ n.described_eq
  rintro draft item next - ⟨hoperations, hlast, hprovenance, hengine⟩ hstep
  obtain ⟨rep, added, -, hadded, rfl⟩ := liveStep_eq_ok hstep
  obtain ⟨representations, objects, rfl⟩ :=
    (withRepresentation_describes draft.intent rep).trans (addObjectVersion_describes hadded)
  exact ⟨hoperations, hlast, hprovenance, hengine⟩

theorem Normalized.draft_frame (n : Normalized Γ events sidecarPath intent sidecar) :
    n.draft.intent.provenance = (blank Γ n.start n.collected).provenance ∧
      n.draft.intent.engine = (blank Γ n.start n.collected).engine := by
  refine n.draft_invariant (fun draft => draft.intent.provenance = (blank Γ n.start n.collected).provenance ∧
    draft.intent.engine = (blank Γ n.start n.collected).engine) n.described_frame.2.2 ?_
  intro b _ e draft i entry next hp hstep
  obtain ⟨described, requested, hdescribed, -, hintent, -⟩ := itemStep_eq_ok hstep
  obtain ⟨representations, objects, rfl⟩ := describe_describes hdescribed
  rw [hintent]
  exact hp

theorem Normalized.timingModel (n : Normalized Γ events sidecarPath intent sidecar) : intent.provenance.timingModel = .captured := by
  rw [n.intent_eq]
  show n.draft.intent.provenance.timingModel = .captured
  rw [n.draft_frame.1]
  rfl

/-! ## Operations on one object -/

/-- The operations on each object are chained, and the last of them is the one the next will depend on. -/
def Linked (draft : Draft) : Prop := ∀ k,
  (draft.intent.operations.filter (fun operation => operation.objectId = k)).IsChain (fun a b => a.opId ∈ b.deps) ∧
    draft.lastOnObject k =
      ((draft.intent.operations.filter (fun operation => operation.objectId = k)).getLast?).map Operation.opId

theorem mem_itemDeps (ordered : List Begin) (b : Begin) (last : Text) : last ∈ itemDeps ordered b (some last) := by
  unfold itemDeps
  dsimp only
  split
  · assumption
  · simp

theorem linked_item {ordered : List Begin} {b : Begin} {e : Option End} {i : Nat}
    {entry : ItemSpec × Option ItemEnd} (h : Linked draft) (hstep : itemStep ordered b e draft i entry = .ok next) : Linked next := by
  obtain ⟨described, requested, -, -, hintent, hlast, -⟩ := itemStep_eq_ok hstep
  intro k
  obtain ⟨hchain, hprev⟩ := h k
  rw [hintent, hlast]
  dsimp only
  by_cases hk : entry.1.objectId = k
  · have hself : (operationOf ordered b e draft i entry.1 entry.2 requested).objectId = k := hk
    rw [filter_append, filter_cons_of_pos (by simp [hself]), filter_nil, hk, Function.update_self,
      getLast?_concat]
    refine ⟨?_, rfl⟩
    rw [isChain_append]
    refine ⟨hchain, isChain_singleton _, ?_⟩
    intro a ha c hc
    obtain rfl : c = operationOf ordered b e draft i entry.1 entry.2 requested := by simpa using hc.symm
    have hdeps : draft.lastOnObject entry.1.objectId = some a.opId := by
      rw [hk, hprev, ha]
      rfl
    show a.opId ∈ itemDeps ordered b (draft.lastOnObject entry.1.objectId)
    rw [hdeps]
    exact mem_itemDeps ordered b a.opId
  · have hother : (operationOf ordered b e draft i entry.1 entry.2 requested).objectId ≠ k := hk
    rw [filter_append, filter_cons_of_neg (by simp [hother]), filter_nil, append_nil,
      Function.update_of_ne (Ne.symm hk)]
    exact ⟨hchain, hprev⟩

theorem Normalized.linked (n : Normalized Γ events sidecarPath intent sidecar) : Linked n.draft := by
  refine n.draft_invariant Linked ?_ (fun b _ e draft i entry next hp hstep => linked_item hp hstep)
  intro k
  rw [n.described_frame.1, n.described_frame.2.1]
  exact ⟨isChain_nil, rfl⟩

end NormalizeAux

end EbpfSyscall.Kvio
