import ParSort.Conc.Proof.Queue
import ParSort.Fpga.Proof.Kernel
import ParSort.Machine.Proof.Transfer

/-!
# `fpga_sort` over its command queue

The host of `fpga_sort` only enqueues: the kernel runs while the host goes on to enqueue the read,
which waits for no event. On a queue that executes in order no run can tell
(`fpgaSortCalls_always_iff`); on one that does not, the read may come first, and then the host
merges its own input (`fpgaSortCalls_outOfOrder`).
-/

namespace Fpga

open Conc

variable {fuel n : Nat} {kernel : Prog Nat F32}

theorem hostCalls_wellFormed {inOrder : Bool} :
    Queue.WellFormed inOrder (hostCalls n kernel) := by
  refine Queue.wellFormed_of_eventsBefore ?_
  simp [hostCalls, Queue.EventsBefore, Queue.Call.events]

/-- Blocking calls order the commands, but for the read: it is behind the kernel on the queue. -/
theorem hostCalls_ordered : Queue.Ordered true (hostCalls n kernel) := by
  refine Queue.ordered_of_chain fun k hk => ?_
  rcases k with _ | _ | _ | _ | _ | _ | _ | _ | _ | _ | k
  · exact .inl fun j hj => absurd hj (Nat.not_lt_zero j)
  · cases hk
  · refine .inr ⟨0, by decide, .host (h := 1) ?_ (by decide) rfl, rfl, fun j h1 h2 => ?_⟩
    · exact List.mem_singleton_self 0
    · obtain rfl : j = 1 := by omega
      rfl
  · cases hk
  · cases hk
  · refine .inr ⟨2, by decide, .host (h := 3) ?_ (by decide) rfl, rfl, fun j h1 h2 => ?_⟩
    · exact List.mem_singleton_self 2
    · obtain rfl | rfl : j = 3 ∨ j = 4 := by omega
      · rfl
      · rfl
  · refine .inr ⟨5, by decide, .command ?_, rfl, fun j h1 h2 => by omega⟩
    exact ⟨_, rfl, .inr ⟨rfl, by decide, _, rfl, rfl⟩⟩
  · cases hk
  · refine .inr ⟨6, by decide, .host (h := 7) ?_ (by decide) rfl, rfl, fun j h1 h2 => ?_⟩
    · exact List.mem_singleton_self 6
    · obtain rfl : j = 7 := by omega
      rfl
  · cases hk
  · cases hk

theorem sequential_fpgaSortCalls {p : Prog Cell F32} {host : List (Queue.Call Cell F32)}
    (hp : fpgaSort fuel n = some p) (hc : fpgaSortCalls fuel n = some host) :
    Queue.sequential host = p := by
  obtain ⟨kernel, hk, rfl⟩ := Option.map_eq_some_iff.1 hp
  obtain ⟨kernel', hk', rfl⟩ := Option.map_eq_some_iff.1 hc
  obtain rfl : kernel = kernel' := Option.some.inj (hk.symm.trans hk')
  simp [Queue.sequential, hostCalls, Queue.Call.prog, Prog.seq]

/-- **The queue is not observable.** For every number of elements, whether or not the work-items
race: the runs of `fpga_sort` over its queue, in whatever order the host and the device proceed, are
finite, never get stuck and end like the interleavings of `fpga_sort` with every command executed as
it is enqueued. -/
theorem fpgaSortCalls_always_iff (fuel n : Nat) (p : Prog Cell F32)
    (host : List (Queue.Call Cell F32)) (hp : fpgaSort fuel n = some p)
    (hc : fpgaSortCalls fuel n = some host) (Q : Mem Cell F32 → Prop) (M : Mem Cell F32) :
    Queue.Always true host Q (.init host M) ↔ p.Always Q M := by
  rw [← sequential_fpgaSortCalls hp hc]
  obtain ⟨kernel, -, rfl⟩ := Option.map_eq_some_iff.1 hc
  exact Queue.always_iff hostCalls_wellFormed hostCalls_ordered

theorem fpgaSortCalls_always_iff_four : ∃ p host, fpgaSort 64 4 = some p ∧
    fpgaSortCalls 64 4 = some host ∧
      (Queue.Always true host (fun M' => Sorted (Cell.data M') 0 4) (.init host Cell.countdown) ↔
        p.Always (fun M' => Sorted (Cell.data M') 0 4) Cell.countdown) := by
  have hk : ndRangeKernel 64 4 2 = some _ := ndRangeKernel_eq (p := 1) (by decide) (Nat.le_refl 64)
  obtain ⟨p, hp⟩ : ∃ p, fpgaSort 64 4 = some p := by
    simp only [fpgaSort, hk, Option.map_some]
    exact ⟨_, rfl⟩
  obtain ⟨host, hc⟩ : ∃ host, fpgaSortCalls 64 4 = some host := ⟨_, congrArg (Option.map _) hk⟩
  exact ⟨_, _, hp, hc, fpgaSortCalls_always_iff 64 4 _ _ hp hc _ _⟩

/-! ## Without the order of the queue -/

/-- On a queue that executes out of order nothing holds a command of `fpga_sort` back. -/
theorem not_commandWaits {k j : Nat} : ¬Queue.CommandWaits false (hostCalls n kernel) k j := by
  rintro ⟨c, hc, hj | ⟨hj, -⟩⟩
  · rcases k with _ | _ | _ | _ | _ | _ | _ | _ | _ | _ | k <;> cases hc <;> cases hj
  · cases hj

/-- For `kernel`, whatever it does. -/
theorem reaches_outOfOrder (M : Mem Cell F32) :
    ∃ s m, Queue.Reaches false (hostCalls n kernel) (.init (hostCalls n kernel) M) s ∧
      s.Final (hostCalls n kernel) ∧ (∀ i, m (.host i) = M (.host i)) ∧ ∀ i, s.mem (.host i) =
        (mergeLoop n 2 [1] (↑(n / 2) - 1)).exec m (.host i) := by
  let m := (Cell.deviceToHost n).exec ((Cell.hostToDevice n).exec M)
  let m' := (mergeLoop n 2 [1] (↑(n / 2) - 1)).exec m
  -- the kernel comes last
  have hlate : Queue.Unawaited false (hostCalls n kernel) fun j => j == 5 := by
    rintro k j hj
    obtain rfl : j = 5 := eq_of_beq hj
    refine ⟨fun hwait => ?_, fun hwait => absurd hwait not_commandWaits⟩
    rcases k with _ | _ | _ | _ | _ | _ | _ | _ | _ | _ | k
    all_goals simp [Queue.HostWaits, hostCalls] at hwait
  have hmem : (Prog.forEach ((List.range 10).filter fun j => !(j == 5))
      (Queue.progAt (hostCalls n kernel))).exec M = m' := by
    have hrange : ((List.range 10).filter fun j => !(j == 5)) = [0, 1, 2, 3, 4, 6, 7, 8, 9] := by
      decide
    rw [hrange]
    simp only [Prog.forEach_cons, Prog.exec_seq]
    rfl
  have hrun := Queue.reaches_upTo (k := 10) hostCalls_wellFormed hlate (Nat.le_refl 10)
    (hmem ▸ Prog.steps_exec _ M)
  have hkernel := hrun.command (k := 5) (by decide) rfl (fun j hj => absurd hj not_commandWaits)
    (Prog.steps_exec (Queue.progAt (hostCalls n kernel) 5) m')
  refine ⟨_, m, hkernel, ⟨rfl, fun k => ?_⟩, fun i => ?_, fun i => ?_⟩
  · rcases k with _ | _ | _ | _ | _ | _ | _ | _ | _ | _ | k <;> rfl
  · exact Cell.transfers_host i
  · exact Cell.device_host kernel i

/-- **What the order of the queue is needed for**: were `queue[0]` to execute out of order, there
would be a run for every input in which the host merges the array as it was given. -/
theorem fpgaSortCalls_outOfOrder (n : Nat) (hn : n < 2 ^ 30) (M : Mem Cell F32) :
    ∃ host, fpgaSortCalls 64 n = some host ∧
      ∃ s m, Queue.Reaches false host (.init host M) s ∧ s.Final host ∧
        (∀ i, m (.host i) = M (.host i)) ∧ ∀ i, s.mem (.host i) =
          (mergeLoop n 2 [1] (↑(n / 2) - 1)).exec m (.host i) := by
  obtain ⟨kernel, hk⟩ := ndRangeKernel_of_lt hn (Nat.le_refl 64)
  exact ⟨hostCalls n kernel, congrArg (Option.map _) hk, reaches_outOfOrder M⟩

/-- Four elements from the largest down. -/
theorem fpgaSortCalls_outOfOrder_four : ∃ host, fpgaSortCalls 64 4 = some host ∧
    ∃ s m, Queue.Reaches false host (.init host Cell.countdown) s ∧ s.Final host ∧
      (∀ i, m (.host i) = Cell.countdown (.host i)) ∧ ∀ i, s.mem (.host i) =
        (mergeLoop 4 2 [1] (↑(4 / 2) - 1)).exec m (.host i) :=
  fpgaSortCalls_outOfOrder 4 (by decide) Cell.countdown

end Fpga
