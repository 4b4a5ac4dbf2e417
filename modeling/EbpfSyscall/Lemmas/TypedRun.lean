import EbpfSyscall.Kvio.TypedRun
import EbpfSyscall.Lemmas.Board
import EbpfSyscall.Lemmas.Workload3

/-!
# Executors of typed workloads

The executor of an accepted workload has unique operations with earlier dependencies.
-/

namespace EbpfSyscall.Kvio

open Checked

namespace TypedRunAux

variable {σ : Type} {wl : Workload3} {settings : Settings} {perform : Operation3 → σ → Except PyError (Outcome × σ)}
  {serviceNs : Text → Int} {ex : Executor σ}

theorem ofWorkload_eq_ok : Executor.ofWorkload wl settings perform serviceNs = .ok ex ↔ Workload3.Valid wl ∧
    ¬(settings.profile = .offered ∧ wl.provenance.timingModel = .absent) ∧ ex = wl.executor settings perform serviceNs := by
  rw [Executor.ofWorkload, check_bind_eq_ok, validateWorkload_eq_ok, check_bind_eq_ok, ensure_eq_ok, pure_eq_ok, Except.ok.injEq,
    eq_comm (b := ex)]

theorem order_eq : (wl.executor settings perform serviceNs).order = wl.operations.map Operation3.opId := by
  rw [Executor.order, Workload3.executor, List.map_map]
  rfl

theorem depsOf_eq (h : Workload3.Valid wl) {operation : Operation3} (hmem : operation ∈ wl.operations) :
    (wl.executor settings perform serviceNs).depsOf operation.opId = operation.deps.map Dep.op := by
  have hnodup : (wl.executor settings perform serviceNs).order.Nodup := by
    rw [order_eq]
    exact h.opIds_nodup
  have hin : operation.task ∈ (wl.executor settings perform serviceNs).tasks := List.mem_map_of_mem hmem
  exact BoardAux.depsOf_of_mem hnodup hin

theorem wellFormed (h : Workload3.Valid wl) : (wl.executor settings perform serviceNs).WellFormed := by
  refine ⟨by rw [order_eq]; exact h.opIds_nodup, ?_⟩
  intro before opId after heq d hd
  rw [order_eq] at heq
  obtain ⟨front, rest, hsplit, rfl, hrest⟩ := List.map_eq_append_iff.mp heq
  obtain ⟨operation, tail, rfl, rfl, rfl⟩ := List.map_eq_cons_iff.mp hrest
  rw [depsOf_eq h (by rw [hsplit]; simp)] at hd
  obtain ⟨dep, hdep, rfl⟩ := List.mem_map.mp hd
  have hdeps := (h.operations front operation tail hsplit).deps dep hdep
  rwa [Workload3.seenAfter_ids] at hdeps

/-- An operation that the source cancelled is not submitted; any other is performed. -/
theorem perform_eq (h : Workload3.Valid wl) {operation : Operation3} (hmem : operation ∈ wl.operations) (s : σ) :
    (wl.executor settings perform serviceNs).perform operation.opId s =
      if settings.cancelledSkip = true ∧ operation.outcome = some .cancelled then .ok (sourceCancelled, s) else perform operation s := by
  have hfind := find?_of_nodup h.opIds_nodup hmem
  simp only [Workload3.executor, hfind, require, ok_bind, pure_eq_ok]

end TypedRunAux

end EbpfSyscall.Kvio
