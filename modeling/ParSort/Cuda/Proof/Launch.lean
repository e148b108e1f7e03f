import ParSort.Conc.Proof.Race
import ParSort.Cuda.Def
import ParSort.Fpga.Proof.Stage

/-!
# One launch of `bitonic_sort`

A thread of the launch does what the body of `fpgasort.cl`'s inner loop does (`bitonicSort_exec`):
its second `if` never swaps again. The threads touch disjoint pairs, so every interleaving of a
launch ends like the sequential inner loop (`launch_always`).
-/

namespace Cuda

open Conc Machine Fpga

/-! ## One thread -/

theorem bitonicSort_exec (j k i : Nat) (m : Mem Nat F32) :
    (bitonicSort j k i).exec m = (exchange j k i).exec m := by
  rw [bitonicSort, Prog.exec_seq]
  by_cases h : i < i ^^^ j
  · rw [exchange_of_lt h]
    by_cases hk : i &&& k = 0
    · rw [if_neg (fun hc => hc.2 hk), if_pos ⟨h, hk⟩, if_pos hk]
      rfl
    · rw [if_pos ⟨h, hk⟩, if_neg (fun hc => hk hc.2), if_neg hk]
      rfl
  · rw [exchange_of_not_lt h, if_neg (fun hc => h hc.1), if_neg (fun hc => h hc.1)]
    rfl

/-- A thread reads or writes both cells of its pair when `i` is the lower one, else nothing. -/
theorem bitonicSort_within {j k i : Nat} {S : Set Nat} :
    (bitonicSort j k i).Within S ↔ (i < i ^^^ j → i ∈ S ∧ i ^^^ j ∈ S) := by
  rw [bitonicSort, Prog.within_seq]
  by_cases h : i < i ^^^ j
  · by_cases hk : i &&& k = 0
    · rw [if_pos ⟨h, hk⟩, if_neg (fun hc => hc.2 hk), Prog.within_swapIf]
      simp [h, Prog.Within]
    · rw [if_neg (fun hc => hk hc.2), if_pos ⟨h, hk⟩, Prog.within_swapIf]
      simp [h, Prog.Within]
  · rw [if_neg (fun hc => h hc.1), if_neg (fun hc => h hc.1)]
    simp [h, Prog.Within]

theorem bitonicSort_serial (j k i : Nat) : (bitonicSort j k i).Serial := by
  refine Prog.Serial.seq ?_ ?_
  · split
    · exact Prog.serial_swapIf _ _ _
    · trivial
  · split
    · exact Prog.serial_swapIf _ _ _
    · trivial

/-! ## The grid -/

theorem grid_eq (blocks threads : Nat) : grid blocks threads = List.range (threads * blocks) := by
  induction blocks with
  | zero => rfl
  | succ b ih =>
    rw [grid, List.range_succ, List.flatMap_append, ← grid, ih, Nat.mul_succ, List.range_add]
    simp [Nat.add_comm]

theorem threadIds_eq (n : Nat) : threadIds n = List.range (threads n * blocks n) := grid_eq _ _

/-- The launches for a power of two have one thread for each element. -/
theorem threadIds_two_pow (m : Nat) : threadIds (2 ^ m) = List.range (2 ^ m) := by
  have hdvd : threads (2 ^ m) ∣ 2 ^ m := by
    unfold threads
    split
    · rename_i h
      have hm : 9 ≤ m := by
        by_contra hc
        have : 2 ^ m ≤ 2 ^ 9 := Nat.pow_le_pow_right (by decide) (by omega)
        omega
      exact Nat.pow_dvd_pow 2 hm
    · exact Nat.dvd_refl _
  rw [threadIds_eq, blocks, Nat.mul_div_cancel' hdvd]

/-! ## One launch -/

theorem launch_exec (n j k : Nat) (m : Mem Nat F32) :
    (launch n j k).exec m = (pass (threadIds n) (k, j)).exec m := by
  rw [launch, Prog.exec_parEach]
  exact Prog.exec_forEach_congr (fun i _ m => bitonicSort_exec j k i m) m

theorem launch_raceFree (n j k : Nat) : (launch n j k).RaceFree := by
  refine Prog.raceFree_parEach (S := Pair j) ?_ (fun i _ => ?_)
    fun i _ => (bitonicSort_serial j k i).raceFree
  · rw [threadIds_eq]
    exact List.nodup_range.imp fun h => pair_disjoint j h
  · exact bitonicSort_within.2 fun h => ⟨⟨h, .inl rfl⟩, h, .inr rfl⟩

/-- **Every interleaving** of the loads and stores of the `2 ^ m` threads of a launch ends in the
array the sequential inner loop of `fpgasort.cl` leaves. -/
theorem launch_always (m j k : Nat) (M : Mem Nat F32) :
    Prog.Always (fun M' => M' = (innerLoop 0 (2 ^ m) j k).exec M) (launch (2 ^ m) j k) M := by
  refine Prog.always_of_raceFree (launch_raceFree _ j k) ?_
  rw [launch_exec, threadIds_two_pow, innerLoop, Nat.sub_zero, ← List.range_eq_range']
  rfl

end Cuda
