import ParSort.Cuda.Proof.Sort

/-!
# The lengths `cuda_sort` may be called with

From 513 elements on a launch has whole blocks of 512 threads, so its threads may be fewer than the
elements. Its accesses stay in the array exactly when the threads are a power of two
(`launches_within_iff`): also when up to 511 elements have no thread. `cuda_sort` then sorts the
elements that have one and leaves the others where they are (`cudaSort_prefix`).
-/

namespace Cuda

open Conc Machine Net Fpga

/-- The launches for `n` elements have `2 ^ m` threads. -/
def Fits (m n : Nat) : Prop := n = 2 ^ m ∨ 9 ≤ m ∧ 2 ^ m ≤ n ∧ n < 2 ^ m + 512

/-! ## The threads of a launch -/

/-- Fewer elements than a block has threads have none. -/
theorem threads_mul_blocks_gt {n : Nat} (hn : 512 < n) : n < threads n * blocks n + 512 := by
  rw [blocks, threads, if_pos hn]
  omega

theorem threads_mul_blocks_of_le {n : Nat} (hn : n ≤ 512) : threads n * blocks n = n := by
  have ht : threads n = n := by rw [threads, if_neg (by omega)]
  rw [blocks, ht]
  exact Nat.mul_div_cancel' (Nat.dvd_refl n)

section
variable {m n : Nat} (hfit : Fits m n)
include hfit

theorem Fits.le : 2 ^ m ≤ n := by
  obtain rfl | ⟨-, h, -⟩ := hfit
  · exact Nat.le_refl _
  · exact h

theorem Fits.log : Nat.log 2 n = m := by
  obtain rfl | ⟨h9, hle, hlt⟩ := hfit
  · exact Nat.log_pow (by decide) m
  · have h512 : 2 ^ 9 ≤ 2 ^ m := Nat.pow_le_pow_right (by decide) h9
    refine Nat.log_eq_of_pow_le_of_lt_pow hle ?_
    rw [pow_succ]
    omega

theorem Fits.threads : Cuda.threads n * blocks n = 2 ^ m := by
  obtain rfl | ⟨h9, hle, hlt⟩ := hfit
  · have h := congrArg List.length ((threadIds_eq (2 ^ m)).symm.trans (threadIds_two_pow m))
    rwa [List.length_range, List.length_range] at h
  · obtain ⟨d, rfl⟩ := Nat.exists_eq_add_of_le h9
    rw [pow_add] at hle hlt ⊢
    have hpos := Nat.two_pow_pos d
    by_cases hn : 512 < n
    · rw [blocks, Cuda.threads, if_pos hn]
      omega
    · have h1 : 2 ^ d = 1 := by omega
      rw [threads_mul_blocks_of_le (by omega)]
      omega

theorem Fits.launches (kj : List (Nat × Nat)) : launches n kj = Cuda.launches (2 ^ m) kj := by
  have hids : threadIds n = threadIds (2 ^ m) := by
    rw [threadIds_eq, hfit.threads, threadIds_two_pow]
  simp only [Cuda.launches, launch, hids]

end

theorem fits_of_threads {m n : Nat} (h : threads n * blocks n = 2 ^ m) : Fits m n := by
  by_cases hn : 512 < n
  · refine .inr ⟨?_, h ▸ Nat.mul_div_le n (threads n), h ▸ threads_mul_blocks_gt hn⟩
    -- the threads are whole blocks
    have hdvd : 2 ^ 9 ∣ 2 ^ m := by
      rw [← h, threads, if_pos hn]
      exact Nat.dvd_mul_right _ _
    exact (Nat.pow_dvd_pow_iff_le_right (by decide)).1 hdvd
  · rw [threads_mul_blocks_of_le (by omega)] at h
    exact .inl h

/-- Without a power of two of threads, one of them reaches past the array: the partners of the
threads in the last aligned block lie past all threads, and one of them is the array's end. -/
theorem exists_partner_eq {n : Nat} (h1 : 1 ≤ n) (hn : ∀ m, threads n * blocks n ≠ 2 ^ m) :
    ∃ s t i, t < s ∧ 2 ^ s ≤ n ∧ i ∈ threadIds n ∧ i < i ^^^ 2 ^ t ∧ i ^^^ 2 ^ t = n := by
  have hpos : 1 ≤ threads n * blocks n := by
    by_cases h : 512 < n
    · have := threads_mul_blocks_gt h
      rw [threads, if_pos h] at this ⊢
      omega
    · rwa [threads_mul_blocks_of_le (by omega)]
  obtain ⟨t, c, hodd, hc⟩ := exists_odd_part hpos hn
  have htwo := Nat.two_pow_pos t
  have hle : threads n * blocks n ≤ n := Nat.mul_div_le n (threads n)
  have hlast : 2 ^ t * (2 * c + 1) = 2 ^ t * (2 * c) + 2 ^ t := Nat.mul_succ _ _
  have hsize : 2 ^ t * 2 ≤ 2 ^ t * (2 * c) := Nat.mul_le_mul_left _ (by omega)
  -- the elements without a thread are fewer than the last aligned block
  have hrest : n - threads n * blocks n < 2 ^ t := by
    by_cases h : 512 < n
    · have hgt := threads_mul_blocks_gt h
      have hdvd : 2 ^ 9 ∣ 2 ^ t * (2 * c + 1) := by
        rw [← hodd, threads, if_pos h]
        exact Nat.dvd_mul_right _ _
      have hcop : (2 ^ 9).Coprime (2 * c + 1) :=
        Nat.Coprime.pow_left 9 (Nat.coprime_two_left.2 ⟨c, rfl⟩)
      have := Nat.le_of_dvd htwo (hcop.dvd_of_dvd_mul_right hdvd)
      omega
    · rw [threads_mul_blocks_of_le (by omega)]
      omega
  have hclear : (2 ^ t * (2 * c) + (n - threads n * blocks n)) / 2 ^ t % 2 = 0 := by
    rw [Nat.mul_add_div htwo, Nat.div_eq_of_lt hrest]
    omega
  refine ⟨t + 1, t, 2 ^ t * (2 * c) + (n - threads n * blocks n), Nat.lt_succ_self t, ?_, ?_,
    lt_xor_iff.2 hclear, ?_⟩
  · rw [pow_succ]
    omega
  · rw [threadIds_eq, List.mem_range]
    omega
  · rw [xor_two_pow_of_clear hclear]
    omega

/-- **Where `cuda_sort` stays in its array.** For every length below `2 ^ 30`, all accesses of all
launches are inside the array exactly when the launches have a power of two of threads: a power of
two of elements, or fewer than 512 more. -/
theorem launches_within_iff (n : Nat) (h1 : 1 ≤ n) (hn : n < 2 ^ 30) :
    (∃ fuel kj, loops fuel n = some kj ∧
      ∀ p ∈ kj, ∀ i ∈ threadIds n, (bitonicSort p.2 p.1 i).Within {a | a < n}) ↔
        ∃ m, Fits m n := by
  constructor
  · rintro ⟨fuel, kj, hkj, hin⟩
    by_contra hc
    obtain ⟨s, t, i, hts, hs, hi, hlt, heq⟩ := exists_partner_eq h1 fun m h =>
      hc ⟨m, fits_of_threads h⟩
    have hmem : (2 ^ s, 2 ^ t) ∈ kj := by
      obtain rfl : kj = stages (Nat.log 2 n) := loops_unique hkj (loops_eq hn (Nat.le_refl 64))
      exact mem_stages.2 ⟨s, t, hts, Nat.le_log_of_pow_le (by decide) hs, rfl, rfl⟩
    have hout := (bitonicSort_within.1 (hin _ hmem i hi) hlt).2
    rw [heq] at hout
    exact absurd hout (lt_irrefl n)
  · rintro ⟨m, hfit⟩
    refine ⟨64, _, loops_eq hn (Nat.le_refl 64), fun p hp i hi => ?_⟩
    rw [hfit.log] at hp
    have hw := launches_within m
    rw [launches, Prog.within_forEach] at hw
    have hp' := hw p hp
    rw [threadIds_eq, hfit.threads, ← threadIds_two_pow] at hi
    rw [launch, Prog.within_parEach] at hp'
    exact (hp' i hi).mono fun a ha => Nat.lt_of_lt_of_le ha hfit.le

/-- 1000 elements have 512 threads, and no access is out of bounds. -/
theorem launches_within_thousand : (∃ fuel kj, loops fuel 1000 = some kj ∧
    ∀ p ∈ kj, ∀ i ∈ threadIds 1000, (bitonicSort p.2 p.1 i).Within {a | a < 1000}) ↔
      ∃ m, Fits m 1000 :=
  launches_within_iff 1000 (by decide) (by decide)

/-! ## What comes back -/

/-- The array `cuda_sort` leaves. -/
theorem cudaSort_outcome {m n : Nat} (hn : n < 2 ^ 30) (hfit : Fits m n) :
    ∃ p, cudaSort 64 n = some p ∧ p.RaceFree ∧ ∀ M,
      (slice (Cell.data (p.exec M)) 0 (2 ^ m)).Perm (slice (Cell.data M) 0 (2 ^ m)) ∧
      (NaNFree (Cell.data M) 0 (2 ^ m) → Sorted (Cell.data (p.exec M)) 0 (2 ^ m)) ∧
      ∀ i, 2 ^ m ≤ i → i < n → Cell.data (p.exec M) i = Cell.data M i := by
  have heq := cudaSort_eq hn (Nat.le_refl 64)
  rw [hfit.log, hfit.launches] at heq
  refine ⟨_, heq, ?_, fun M => ?_⟩
  · exact (Cell.hostToDevice_serial _).raceFree.seq
      (((launches_raceFree _ _).map Cell.dev_injective).seq (Cell.deviceToHost_serial _).raceFree)
  · rw [Prog.exec_seq, Prog.exec_seq]
    have hle := hfit.le
    have hdata : ∀ i < n, _ := fun i hi => Cell.roundTrip_data (M := M)
      (launches (2 ^ m) (stages m)) (launches_within m)
      (fun a ha => Nat.lt_of_lt_of_le ha hle) hi
    obtain ⟨hr, hs⟩ := launches_sort m (Cell.data M)
    refine ⟨?_, fun hM i j h0 hij hj => ?_, fun i hi hin => ?_⟩
    · rw [slice_congr fun i hi => hdata i (by have := hi.2; omega)]
      exact hr.slice_perm (Nat.zero_add _).symm
    · rw [hdata i (by omega), hdata j (by omega)]
      exact hs hM i j h0 hij hj
    · rw [hdata i hin]
      exact Prog.exec_frame (launches_within m) (Nat.not_lt.2 hi) _

/-- **`cuda_sort` on every length its launches fit**: in every interleaving the elements that have
a thread come back sorted, and the at most 511 others are untouched. -/
theorem cudaSort_prefix (m n : Nat) (hn : n < 2 ^ 30) (hfit : Fits m n) :
    ∃ fuel p, cudaSort fuel n = some p ∧ ∀ M, p.Always (fun M' =>
      (slice (Cell.data M') 0 (2 ^ m)).Perm (slice (Cell.data M) 0 (2 ^ m)) ∧
      (NaNFree (Cell.data M) 0 (2 ^ m) → Sorted (Cell.data M') 0 (2 ^ m)) ∧
      ∀ i, 2 ^ m ≤ i → i < n → Cell.data M' i = Cell.data M i) M := by
  obtain ⟨p, hp, hrace, hout⟩ := cudaSort_outcome hn hfit
  exact ⟨64, p, hp, fun M => Prog.always_of_raceFree hrace (hout M)⟩

theorem cudaSort_prefix_thousand : ∃ fuel p, cudaSort fuel 1000 = some p ∧ ∀ M,
    p.Always (fun M' =>
      (slice (Cell.data M') 0 (2 ^ 9)).Perm (slice (Cell.data M) 0 (2 ^ 9)) ∧
      (NaNFree (Cell.data M) 0 (2 ^ 9) → Sorted (Cell.data M') 0 (2 ^ 9)) ∧
      ∀ i, 2 ^ 9 ≤ i → i < 1000 → Cell.data M' i = Cell.data M i) M :=
  cudaSort_prefix 9 1000 (by decide) (.inr (by decide))

end Cuda
