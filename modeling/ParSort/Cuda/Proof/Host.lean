import ParSort.Conc.Proof.Queue
import ParSort.Cuda.Proof.Sort

/-!
# `cuda_sort` over the default stream

The host of `cuda_sort` launches kernel after kernel without waiting for any; only the two copies
block it. No run can tell from a host that waits for each launch (`cudaSortCalls_always_iff`).
-/

namespace Cuda

open Conc Machine

variable {fuel n : Nat} {p : Prog Cell F32} {host : List (Queue.Call Cell F32)}

theorem cudaSortCalls_wellFormed (hc : cudaSortCalls fuel n = some host) :
    Queue.WellFormed true host := by
  obtain ⟨kj, -, rfl⟩ := Option.map_eq_some_iff.1 hc
  refine Queue.wellFormed_of_eventsBefore ?_
  refine Queue.eventsBefore_append.2 ⟨Queue.eventsBefore_append.2 ⟨?_, ?_⟩, ?_⟩
  · simp [Queue.EventsBefore, Queue.Call.events]
  · refine Queue.eventsBefore_of_eq_nil fun call hcall => ?_
    obtain ⟨q, -, rfl⟩ := List.mem_map.1 hcall
    rfl
  · simp only [Queue.EventsBefore, Queue.Call.events, List.not_mem_nil, false_implies,
      implies_true, true_and, and_true, List.mem_singleton, forall_eq, List.length_append,
      List.length_map, List.length_cons, List.length_nil]
    omega

theorem cudaSortCalls_ordered (hc : cudaSortCalls fuel n = some host) :
    Queue.Ordered true host := by
  obtain ⟨kj, -, rfl⟩ := Option.map_eq_some_iff.1 hc
  refine Queue.ordered_of_queue (q := 0) fun c hc => ?_
  simp only [List.mem_append, List.mem_cons, List.mem_map, reduceCtorEq, List.not_mem_nil, or_false,
    Queue.Call.enqueue.injEq] at hc
  obtain (rfl | ⟨-, -, rfl⟩) | rfl := hc
  · rfl
  · rfl
  · rfl

theorem sequential_cudaSortCalls (hp : cudaSort fuel n = some p)
    (hc : cudaSortCalls fuel n = some host) : Queue.sequential host = p := by
  obtain ⟨kj, hk, rfl⟩ := Option.map_eq_some_iff.1 hp
  obtain ⟨kj', hk', rfl⟩ := Option.map_eq_some_iff.1 hc
  obtain rfl : kj = kj' := Option.some.inj (hk.symm.trans hk')
  simp [Queue.sequential, Queue.Call.prog, Prog.seq, Prog.forEach_append, Prog.forEach_map,
    Prog.map_forEach]

/-- **The stream is not observable.** For every number of elements from 1 on (with none `cuda_sort`
divides by zero, here on both sides): the runs of `cuda_sort` over the default stream, in whatever
order the host and the device proceed, are finite, never get stuck and end like the interleavings of
`cuda_sort` with every launch executed as it is enqueued. -/
theorem cudaSortCalls_always_iff (fuel n : Nat) (p : Prog Cell F32)
    (host : List (Queue.Call Cell F32)) (hp : cudaSort fuel n = some p)
    (hc : cudaSortCalls fuel n = some host) (Q : Mem Cell F32 → Prop) (M : Mem Cell F32) :
    Queue.Always true host Q (.init host M) ↔ p.Always Q M := by
  rw [← sequential_cudaSortCalls hp hc]
  exact Queue.always_iff (cudaSortCalls_wellFormed hc) (cudaSortCalls_ordered hc)

theorem cudaSortCalls_always_iff_four : ∃ p host, cudaSort 64 4 = some p ∧
    cudaSortCalls 64 4 = some host ∧
      (Queue.Always true host (fun M' => Sorted (Cell.data M') 0 4) (.init host Cell.countdown) ↔
        p.Always (fun M' => Sorted (Cell.data M') 0 4) Cell.countdown) := by
  have hp := cudaSort_eq (n := 4) (by decide) (Nat.le_refl 64)
  obtain ⟨host, hc⟩ : ∃ host, cudaSortCalls 64 4 = some host :=
    ⟨_, congrArg (Option.map _) (loops_eq (by decide) (by decide))⟩
  exact ⟨_, _, hp, hc, cudaSortCalls_always_iff 64 4 _ _ hp hc _ _⟩

end Cuda
