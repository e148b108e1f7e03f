import ParSort.Cuda.Proof.Sort
import ParSort.Machine.Iterations

/-!
# The outer loop of `cuda_sort`, stage by stage

`cudaSortUpTo` is `cuda_sort` up to the end of stage `k = 2 ^ s` (`cudaSortUpTo_prefix`); it is
defined for every stage that is entered, also for the length `2 ^ 30`, whose loop does not end
after its last stage. What the stages leave on the device is the invariant of the network
(`cudaSortUpTo_blocks`).
-/

namespace Cuda

open Conc Machine Fpga

/-- `cuda_sort(number_of_elements, a)` up to the end of the first `s` iterations of its outer
loop. -/
def cudaSortUpTo (fuel s numberOfElements : Nat) : Option (Prog Cell F32) :=
  (loopsUpTo fuel s numberOfElements).map fun kj =>
    (Cell.hostToDevice numberOfElements).seq ((launches numberOfElements kj).map Cell.dev)

/-- The buffer on the device. -/
def values (M : Mem Cell F32) : Mem Nat F32 := M ∘ Cell.dev

/-- It is how every run of `cuda_sort` that ends begins. -/
theorem cudaSortUpTo_prefix {f f' s n : Nat} {p q : Prog Cell F32} (h : cudaSort f n = some p)
    (h' : cudaSortUpTo f' s n = some q) : ∃ r, p = q.seq r := by
  obtain ⟨kj, hkj, rfl⟩ := Option.map_eq_some_iff.1 h
  obtain ⟨kj', hkj', rfl⟩ := Option.map_eq_some_iff.1 h'
  obtain ⟨rest, rfl⟩ := loopsUpTo_prefix hkj hkj'
  refine ⟨((launches n rest).map Cell.dev).seq (Cell.deviceToHost n), ?_⟩
  rw [Prog.forEach_append, Prog.map_seq, Prog.seq_assoc, Prog.seq_assoc]
  rfl

/-- The stages up to `2 ^ s` on the buffer: every aligned block of `2 ^ s` values keeps them, in
the order of its direction. -/
theorem launches_blocks {m s b : Nat} (hsm : s ≤ m) (hb : (b + 1) * 2 ^ s ≤ 2 ^ m)
    {M : Mem Nat F32} (hM : NaNFree M 0 (2 ^ m)) :
    (slice ((launches (2 ^ m) (stages s)).exec M) (b * 2 ^ s) (2 ^ s)).Perm
        (slice M (b * 2 ^ s) (2 ^ s)) ∧
      SortedIn (b % 2 = 0) ((launches (2 ^ m) (stages s)).exec M) (b * 2 ^ s) (2 ^ s) := by
  rw [launches_exec, threadIds_two_pow]
  have hdvd : 2 ^ s ∣ b * 2 ^ s := Nat.dvd_mul_left _ _
  have hend : b * 2 ^ s + 2 ^ s ≤ 2 ^ m := by rwa [Nat.succ_mul] at hb
  have hperm := stages_slice_perm hdvd (List.range (2 ^ m)) M
  refine ⟨hperm, ?_⟩
  have hnum : NaNFree ((Prog.forEach (stages s) (pass (List.range (2 ^ m)))).exec M)
      (b * 2 ^ s) (2 ^ s) := forall_of_slice_perm hperm (hM.mono (Nat.zero_le _) (by omega))
  have hM' : ∀ i ∈ Set.Ico 0 (2 ^ m), (M i).IsNum := by rwa [NaNFree, Nat.zero_add] at hM
  have hs := stageSorted_stages List.nodup_range (fun x _ hx => List.mem_range.2 hx)
    ((closed_range m).mono hsm) hM' (b * 2 ^ s) hdvd (Nat.zero_le _) hend
  rw [up, Nat.mul_div_cancel _ (Nat.two_pow_pos s)] at hs
  exact (sortedIn_iff_ascending hnum _).2 hs

/-- **The invariant of `cuda_sort`'s outer loop**, for every length `2 ^ m` an `int` holds: after
stage `k = 2 ^ s`, in every interleaving of each launch, block `b` of `2 ^ s` values is a
permutation of the original block, ascending when `b` is even and descending when it is odd. -/
theorem cudaSortUpTo_blocks (m s : Nat) (hm : 2 ^ m < 2 ^ 31) (hsm : s ≤ m) (M : Mem Cell F32)
    (hM : NaNFree (Cell.data M) 0 (2 ^ m)) : ∃ fuel p, cudaSortUpTo fuel s (2 ^ m) = some p ∧
    p.Always (fun M' => ∀ b, (b + 1) * 2 ^ s ≤ 2 ^ m →
      (slice (values M') (b * 2 ^ s) (2 ^ s)).Perm (slice (Cell.data M) (b * 2 ^ s) (2 ^ s)) ∧
        SortedIn (b % 2 = 0) (values M') (b * 2 ^ s) (2 ^ s)) M := by
  have hm31 : m < 31 := (Nat.pow_lt_pow_iff_right (by decide)).1 hm
  have hloops : loopsUpTo 31 s (2 ^ m) = some (stages s) :=
    loopsUpTo_eq (by omega) (Nat.pow_le_pow_right (by decide) hsm) (Nat.le_refl 31)
  refine ⟨31, _, by rw [cudaSortUpTo, hloops]; rfl, Prog.always_of_raceFree ?_ ?_⟩
  · exact (Cell.hostToDevice_serial _).raceFree.seq
      ((launches_raceFree _ _).map Cell.dev_injective)
  · intro b hb
    have hend : b * 2 ^ s + 2 ^ s ≤ 2 ^ m := by rwa [Nat.succ_mul] at hb
    -- the buffer holds the array when the first launch starts
    have hcopy : ∀ i < 2 ^ m, values ((Cell.hostToDevice (2 ^ m)).exec M) i = Cell.data M i :=
      fun i hi => Cell.hostToDevice_dev hi
    have hM' : NaNFree (values ((Cell.hostToDevice (2 ^ m)).exec M)) 0 (2 ^ m) := fun i hi => by
      rw [hcopy i (by have := hi.2; omega)]
      exact hM i hi
    rw [Prog.exec_seq, values, Prog.exec_map Cell.dev_injective,
      ← slice_congr fun i hi => hcopy i (by have := hi.2; omega)]
    exact launches_blocks hsm hb hM'

theorem cudaSortUpTo_blocks_countdown : ∃ fuel p, cudaSortUpTo fuel 1 (2 ^ 2) = some p ∧
    p.Always (fun M' => ∀ b, (b + 1) * 2 ^ 1 ≤ 2 ^ 2 →
      (slice (values M') (b * 2 ^ 1) (2 ^ 1)).Perm
          (slice (Cell.data Cell.countdown) (b * 2 ^ 1) (2 ^ 1)) ∧
        SortedIn (b % 2 = 0) (values M') (b * 2 ^ 1) (2 ^ 1)) Cell.countdown :=
  cudaSortUpTo_blocks 2 1 (by decide) (by decide) Cell.countdown Cell.countdown_nanFree

end Cuda
