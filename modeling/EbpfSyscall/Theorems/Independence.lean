import EbpfSyscall.Lemmas.Normalize
import EbpfSyscall.Theorems.Simulated

/-!
# Independence of the schedule

A record that comes from a capture gives the same outcomes and the same objects however it is scheduled.
-/

namespace EbpfSyscall.Kvio

open Checked NormalizeAux

/-- Any two simulated runs of a normalized capture, on fresh targets with the same injected failures, agree on the outcome and the
completed bytes of every operation and on the objects that are stored at the end, whatever their workers, service times, profiles and
delays are. -/
theorem normalizeCapture_independent {Γ : CaptureHost} {events : List Event} {sidecarPath : Option Text} {intent : Intent2}
    {sidecar : List SidecarLine} (hnormalized : normalizeCapture Γ events sidecarPath = .ok (intent, sidecar)) (H : ContentHost)
    (backend : FakeBackend) (latencyNs latencyNs' : Text → Nat) (settings settings' : Settings)
    (hskip : settings.cancelledSkip = settings'.cancelledSkip) :
    ∃ last last', (∀ fuel, 8 * intent.operations.length + 4 ≤ fuel →
        simulateIntent2 H intent { backend with latencyNs } settings fuel = .ok (some last) ∧
        simulateIntent2 H intent { backend with latencyNs := latencyNs' } settings' fuel = .ok (some last')) ∧
      (∀ operation ∈ intent.operations, ∃ outcome, (last.board.rows operation.opId).outcome = some outcome ∧
        (last'.board.rows operation.opId).outcome = some outcome) ∧
      last.backend = last'.backend := by
  obtain ⟨n⟩ := normalizeCapture_eq_ok.mp hnormalized
  have hlinked : ∀ k, (intent.operations.filter (fun operation => operation.objectId = k)).IsChain (fun a b => a.opId ∈ b.deps) := by
    intro k
    rw [n.intent_eq]
    exact (n.linked k).1
  have htimed : intent.provenance.timingModel ≠ .absent := by
    rw [n.timingModel]
    simp
  have hrun : ∀ (latencyNs : Text → Nat) (settings : Settings), ∃ last,
      (∀ fuel, 8 * intent.operations.length + 4 ≤ fuel →
        simulateIntent2 H intent { backend with latencyNs } settings fuel = .ok (some last)) ∧
      last.backend = Cells.run intent.objectOf (intent.act H backend settings.cancelledSkip) (intent.operations.map Operation.opId)
        (backend.initialized H intent.initialObjects) ∧
      ∀ operation ∈ intent.operations, (last.board.rows operation.opId).outcome =
        Cells.result intent.objectOf (intent.act H backend settings.cancelledSkip) operation.opId
          (intent.operations.map Operation.opId) (backend.initialized H intent.initialObjects) := by
    intro latencyNs settings
    obtain ⟨last, hlast, hbackend, houtcomes⟩ := simulateIntent2_sequential H { backend with latencyNs } settings n.valid hlinked
      (fun hoffered => htimed hoffered.2) (le_refl _)
    exact ⟨last, fun fuel hfuel => simulateIntent2_mono hfuel hlast, hbackend, houtcomes⟩
  obtain ⟨last, hlast, hbackend, houtcomes⟩ := hrun latencyNs settings
  obtain ⟨last', hlast', hbackend', houtcomes'⟩ := hrun latencyNs' settings'
  refine ⟨last, last', fun fuel hfuel => ⟨hlast fuel hfuel, hlast' fuel hfuel⟩, ?_, ?_⟩
  · intro operation hmem
    have hin : operation.opId ∈ intent.operations.map Operation.opId := List.mem_map_of_mem hmem
    obtain ⟨outcome, houtcome⟩ := Cells.exists_result hin (backend.initialized H intent.initialObjects)
    refine ⟨outcome, ?_, ?_⟩
    · rw [houtcomes operation hmem, houtcome]
    · rw [houtcomes' operation hmem, ← hskip, houtcome]
  · rw [hbackend, hbackend', hskip]

/-! ## A capture -/

def sampleCaptureHost : CaptureHost where
  sidecarSha256 _ := "digest".toList
  str _ := []
  sidecarSha256_ne_nil _ := by decide

/-- A batch that stores two objects, one that loads them on another stream, and the end marker. -/
def sampleEvents : List Event :=
  [⟨some 1, .start ⟨some Capture.schema, some "engine".toList, some "1".toList, none⟩⟩,
    ⟨some 2, .opBegin ⟨"p-2".toList, 10, .store, some "s".toList, none, [], .batch [
      { objectId := "a".toList, representation := some ⟨none, some 4⟩, requestedBytes := some 4 },
      { objectId := "b".toList, representation := some ⟨none, some 8⟩, requestedBytes := some 8 }]⟩⟩,
    ⟨some 3, .opEnd ⟨"p-2".toList, 20, ⟨none, none⟩, some [⟨some .success, some 4⟩, ⟨some .success, some 8⟩]⟩⟩,
    ⟨some 4, .opBegin ⟨"p-4".toList, 15, .load, some "t".toList, none, [], .batch [
      { objectId := "b".toList, requestedBytes := some 8 }, { objectId := "a".toList, requestedBytes := some 4 }]⟩⟩,
    ⟨some 5, .opEnd ⟨"p-4".toList, 30, ⟨none, none⟩, some [⟨some .success, some 8⟩, ⟨some .success, some 4⟩]⟩⟩,
    ⟨some 6, .stop (some [])⟩]

theorem sampleEvents_normalize : ∃ intent sidecar, normalizeCapture sampleCaptureHost sampleEvents = .ok (intent, sidecar) := by
  have hok : (normalizeCapture sampleCaptureHost sampleEvents).isOk = true := by decide +kernel
  cases h : normalizeCapture sampleCaptureHost sampleEvents with
  | error e =>
    rw [h] at hok
    cases hok
  | ok result => exact ⟨result.1, result.2, rfl⟩

theorem normalizeCapture_independent_sample : ∃ intent sidecar, normalizeCapture sampleCaptureHost sampleEvents = .ok (intent, sidecar) ∧
    ∃ last last', (∀ fuel, 8 * intent.operations.length + 4 ≤ fuel →
        simulateIntent2 sampleHost intent { sampleBackend with latencyNs := fun _ => 1 } {} fuel = .ok (some last) ∧
        simulateIntent2 sampleHost intent { sampleBackend with latencyNs := fun _ => 9 }
          { profile := .offered, workers := 1, declaredDelayNs := 3 } fuel = .ok (some last')) ∧
      (∀ operation ∈ intent.operations, ∃ outcome, (last.board.rows operation.opId).outcome = some outcome ∧
        (last'.board.rows operation.opId).outcome = some outcome) ∧
      last.backend = last'.backend := by
  obtain ⟨intent, sidecar, h⟩ := sampleEvents_normalize
  exact ⟨intent, sidecar, h, normalizeCapture_independent h sampleHost sampleBackend _ _ _ _ rfl⟩

end EbpfSyscall.Kvio
