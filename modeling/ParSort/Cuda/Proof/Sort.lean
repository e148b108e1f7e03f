import ParSort.Cuda.Proof.Launch
import ParSort.Machine.Proof.Order
import ParSort.Machine.Proof.Transfer

/-!
# `cuda_sort`

The launches of `cuda_sort` on a power of two are the stages of the sorting network over all
indices, whatever the interleaving of each launch (`launches_exec`), so the array comes back
rearranged and, without NaNs, ascending (`cudaSort_sorts`). A length whose launches stay in the
array and cover it is a power of two (`launches_cover_iff`).
-/

namespace Cuda

open Conc Machine Net Fpga

/-! ## All launches -/

/-- The launches of the `(j, k)` in `kj`, one after another. -/
def launches (n : Nat) (kj : List (Nat × Nat)) : Prog Nat F32 :=
  .forEach kj fun p => launch n p.2 p.1

theorem launches_exec (n : Nat) (kj : List (Nat × Nat)) (m : Mem Nat F32) :
    (launches n kj).exec m = (Prog.forEach kj (pass (threadIds n))).exec m :=
  Prog.exec_forEach_congr (fun p _ m => launch_exec n p.2 p.1 m) m

theorem launches_raceFree (n : Nat) (kj : List (Nat × Nat)) : (launches n kj).RaceFree :=
  Prog.raceFree_forEach fun p _ => launch_raceFree n p.2 p.1

/-- The passes of a network over `2 ^ m` cells stay among them. -/
theorem closed_range (m : Nat) : Closed (List.range (2 ^ m)) (Set.Ico 0 (2 ^ m)) m := by
  intro u hu x hx _
  have hx' : x < 2 ^ m := List.mem_range.1 hx
  have h := xor_mem_block hu (Nat.dvd_zero (2 ^ m)) (Nat.zero_le x) (by omega)
  exact ⟨⟨Nat.zero_le x, hx'⟩, h.1, by have := h.2; omega⟩

theorem launches_within (m : Nat) : (launches (2 ^ m) (stages m)).Within {a | a < 2 ^ m} := by
  rw [launches, Prog.within_forEach]
  rintro ⟨k, j⟩ hkj
  obtain ⟨s, t, hts, hsm, rfl, rfl⟩ := mem_stages.1 hkj
  rw [launch, Prog.within_parEach, threadIds_two_pow]
  intro i hi
  refine bitonicSort_within.2 fun h => ?_
  have := closed_range m t (by omega) i hi h
  exact ⟨this.1.2, this.2.2⟩

/-- The network on the device buffer: no value is lost, and NaN-free values end up in order. -/
theorem launches_sort (m : Nat) (M : Mem Nat F32) :
    Rearranges (Set.Ico 0 (2 ^ m)) M ((launches (2 ^ m) (stages m)).exec M) ∧
      (NaNFree M 0 (2 ^ m) → Sorted ((launches (2 ^ m) (stages m)).exec M) 0 (2 ^ m)) := by
  rw [launches_exec, threadIds_two_pow]
  have hr := rearranges_stages (closed_range m) M
  refine ⟨hr, fun hM => ?_⟩
  have hM' : ∀ i ∈ Set.Ico 0 (2 ^ m), (M i).IsNum := by rwa [NaNFree, Nat.zero_add] at hM
  have hs := stageSorted_stages List.nodup_range (fun x _ hx => List.mem_range.2 hx)
    (closed_range m) hM' 0 (Nat.dvd_zero _) (Nat.le_refl 0) (by omega)
  have hok := hr.forall hM'
  rw [show up m 0 = true by simp [up]] at hs
  refine (sorted_iff_ascending ?_).2 hs
  rwa [NaNFree, Nat.zero_add]

/-! ## The host function -/

theorem cudaSort_eq {fuel n : Nat} (hn : n < 2 ^ 30) (hf : 64 ≤ fuel) :
    cudaSort fuel n = some ((Cell.hostToDevice n).seq
      (((launches n (stages (Nat.log 2 n))).map Cell.dev).seq (Cell.deviceToHost n))) := by
  rw [cudaSort, loops_eq hn hf]
  rfl

/-- **`cuda_sort` sorts** every array of `2 ^ m` floats whose length keeps the counter `k` in range,
in every interleaving of the threads of each launch: the array is a permutation of the original
contents, and ascending when these are NaN-free. -/
theorem cudaSort_sorts (m : Nat) (hm : 2 ^ m < 2 ^ 30) : ∃ fuel p, cudaSort fuel (2 ^ m) = some p ∧
    ∀ M, p.Always (fun M' =>
      (slice (Cell.data M') 0 (2 ^ m)).Perm (slice (Cell.data M) 0 (2 ^ m)) ∧
        (NaNFree (Cell.data M) 0 (2 ^ m) → Sorted (Cell.data M') 0 (2 ^ m))) M := by
  have hlog : Nat.log 2 (2 ^ m) = m := Nat.log_pow (by decide) m
  have heq := cudaSort_eq hm (Nat.le_refl 64)
  rw [hlog] at heq
  refine ⟨64, _, heq, fun M => Prog.always_of_raceFree ?_ ?_⟩
  · exact (Cell.hostToDevice_serial _).raceFree.seq
      (((launches_raceFree _ _).map Cell.dev_injective).seq (Cell.deviceToHost_serial _).raceFree)
  · rw [Prog.exec_seq, Prog.exec_seq]
    have hdata : ∀ i < 2 ^ m, _ := fun i hi => Cell.roundTrip_data (M := M)
      (launches (2 ^ m) (stages m)) (launches_within m) (fun _ h => h) hi
    obtain ⟨hr, hs⟩ := launches_sort m (Cell.data M)
    constructor
    · rw [slice_congr fun i hi => hdata i (by have := hi.2; omega)]
      exact hr.slice_perm (Nat.zero_add _).symm
    · intro hM i j h0 hij hj
      rw [hdata i (by omega), hdata j (by omega)]
      exact hs hM i j h0 hij hj

theorem cudaSort_sorts_four : ∃ fuel p, cudaSort fuel (2 ^ 2) = some p ∧
    ∀ M, p.Always (fun M' =>
      (slice (Cell.data M') 0 (2 ^ 2)).Perm (slice (Cell.data M) 0 (2 ^ 2)) ∧
        (NaNFree (Cell.data M) 0 (2 ^ 2) → Sorted (Cell.data M') 0 (2 ^ 2))) M :=
  cudaSort_sorts 2 (by decide)

/-! ## Which lengths the launches fit -/

/-- **The launches fit a length** below `2 ^ 30`, every access inside the array and a thread for
every element, exactly when it is a power of two. -/
theorem launches_cover_iff (n : Nat) (h1 : 1 ≤ n) (hn : n < 2 ^ 30) :
    (∃ fuel kj, loops fuel n = some kj ∧
      (∀ p ∈ kj, ∀ i ∈ threadIds n, (bitonicSort p.2 p.1 i).Within {a | a < n}) ∧
        ∀ a < n, a ∈ threadIds n) ↔ ∃ m, n = 2 ^ m := by
  constructor
  · rintro ⟨fuel, kj, hkj, hin, hcov⟩
    by_contra hc
    push Not at hc
    obtain ⟨t, c, hnt, hc1⟩ := exists_odd_part h1 hc
    have hpos := Nat.two_pow_pos t
    have hmem : (2 ^ (t + 1), 2 ^ t) ∈ kj := by
      obtain rfl : kj = stages (Nat.log 2 n) := loops_unique hkj (loops_eq hn (Nat.le_refl 64))
      exact mem_stages_log hnt hc1
    have hlt : 2 ^ t * (2 * c) < n := by
      rw [hnt]
      exact Nat.mul_lt_mul_of_pos_left (by omega) hpos
    obtain ⟨hi, he⟩ := last_block_partner (t := t) (c := c)
    have hout := (bitonicSort_within.1 (hin _ hmem _ (hcov _ hlt)) hi).2
    rw [he, ← hnt] at hout
    exact absurd hout (lt_irrefl n)
  · rintro ⟨m, rfl⟩
    refine ⟨64, _, loops_eq hn (Nat.le_refl 64), fun p hp i hi => ?_, fun a ha => ?_⟩
    · rw [Nat.log_pow (by decide)] at hp
      obtain ⟨s, t, hts, hsm, hk, hj⟩ := mem_stages.1 (show (p.1, p.2) ∈ stages m from hp)
      rw [threadIds_two_pow] at hi
      rw [hj]
      refine bitonicSort_within.2 fun h => ?_
      have := closed_range m t (by omega) i hi h
      exact ⟨this.1.2, this.2.2⟩
    · rw [threadIds_two_pow]
      exact List.mem_range.2 ha

theorem launches_cover_six : (∃ fuel kj, loops fuel 6 = some kj ∧
      (∀ p ∈ kj, ∀ i ∈ threadIds 6, (bitonicSort p.2 p.1 i).Within {a | a < 6}) ∧
        ∀ a < 6, a ∈ threadIds 6) ↔ ∃ m, 6 = 2 ^ m :=
  launches_cover_iff 6 (by decide) (by decide)

end Cuda
