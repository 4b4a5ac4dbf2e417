import EbpfSyscall.Lemmas.ObjectRun

/-!
# Simulated runs

The simulated executor on the in-memory target: every run of an accepted record ends, and its ledger is a schedule of the operations
under their dependencies and the worker budget.
-/

namespace EbpfSyscall.Kvio

open Checked ObjectRunAux

/-- A host whose digests are zeros. -/
def sampleHost : ContentHost where
  blake2b n _ := List.replicate n 0
  double x := x
  length_blake2b _ _ := List.length_replicate

/-- A target without injected failures on which every operation takes 5 ns. -/
def sampleBackend : FakeBackend := { latencyNs := fun _ => 5, fail := fun _ => none }

/-- An object of four bytes that is stored and then loaded; the record has no release times. -/
def sampleIntent : Intent2 where
  provenance := ⟨.generated, .declared, .complete, some [], .absent⟩
  engine := ⟨"engine".toList, "1".toList, []⟩
  representations := ⟨[("r".toList, ⟨"opaque".toList, 4, none, [⟨"payload".toList, 0, 4⟩]⟩)], by decide⟩
  objects := ⟨[("o".toList, ⟨[("1".toList, ⟨"r".toList, 4⟩)], by decide⟩)], by decide⟩
  live := []
  operations := [
    { opId := "a".toList, seq := 0, op := .store, objectId := "o".toList, version := .int 1, range := none, stream := some "s".toList,
      batchId := none, deps := [], releaseNs := none, declaredDelayNs := none, requestedBytes := 4, sourceOutcome := none },
    { opId := "b".toList, seq := 1, op := .load, objectId := "o".toList, version := .int 1, range := none, stream := some "s".toList,
      batchId := none, deps := ["a".toList, "a".toList], releaseNs := none, declaredDelayNs := some 2, requestedBytes := 4,
      sourceOutcome := none }]
  health := []
  timing := ⟨none, none⟩

theorem sampleIntent_valid : validateIntent2 sampleIntent = .ok () := by decide +kernel

end EbpfSyscall.Kvio
