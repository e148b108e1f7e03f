import ParSort.Cuda.Proof.Lengths
import ParSort.Driver.Main
import ParSort.Driver.Proof.Verify
import ParSort.Pthread.Proof.PowerOfTwo

/-!
# The driver on its back ends

Every back end leaves a permutation of what it was given (`backEnd_outcome`), so what the driver
prints comes down to order and NaNs: it passes a run exactly when the input is NaN-free and the
array in order (`verify_perm_iff`). The `qsort` and the GPU pass on every NaN-free input, the
threads when their result is in order (`main_pass_iff`); with a NaN every mode prints `Failed`
(`main_failed`). On the GPU that is so for the lengths its launches fit.
-/

namespace Driver

open Conc

/-! ## The verdict on a permutation of the input -/

theorem verify_eq_pass_iff {qsort : Qsort} {n : Nat} {inputData outputData : Mem Nat F32} :
    verify qsort n inputData outputData = .pass ↔
      ∀ i < n, F32.eq (outputData i) ((qsort compareFunction 0 n).exec inputData i) = true := by
  rw [← compareLoop_eq_iff]
  simp only [verify, ite_not]
  split <;> simp [*]

/-- The driver names the first element that differs from the reference. -/
theorem verify_eq_failedAt_of_ne {qsort : Qsort} {n : Nat} {inputData outputData : Mem Nat F32}
    (h : verify qsort n inputData outputData ≠ .pass) :
    ∃ i < n, verify qsort n inputData outputData = .failedAt i ∧
      (∀ j < i, F32.eq (outputData j) ((qsort compareFunction 0 n).exec inputData j) = true) ∧
        F32.eq (outputData i) ((qsort compareFunction 0 n).exec inputData i) = false := by
  obtain ⟨-, hle, hsame, hdiff⟩ :=
    compareLoop_spec ((qsort compareFunction 0 n).exec inputData) outputData (Nat.zero_le n)
  simp only [verify, ite_not] at h ⊢
  split at h
  case isTrue e => exact absurd rfl h
  case isFalse e =>
    have hlt := Nat.lt_of_le_of_ne hle e
    refine ⟨_, hlt, if_neg e, fun j hj => hsame j (Nat.zero_le j) hj, ?_⟩
    simpa [F32.ne] using hdiff hlt

section
variable {qsort : Qsort} (hq : Qsort.Spec qsort) {n : Nat} {inputData outputData : Mem Nat F32}
include hq

/-- A NaN is equal to nothing, and the reference keeps it. -/
theorem nanFree_of_pass (h : verify qsort n inputData outputData = .pass) :
    NaNFree inputData 0 n := by
  rw [verify_eq_pass_iff] at h
  have href : NaNFree ((qsort compareFunction 0 n).exec inputData) 0 n := fun i hi =>
    (F32.eq_iff_isNum.1 (h i (by have := hi.2; omega))).2.1
  have hperm := (hq.rearranges compareFunction 0 n inputData).slice_perm rfl
  exact forall_of_slice_perm hperm.symm href

theorem verify_perm_iff (hs : Qsort.Sorts qsort)
    (hperm : (slice outputData 0 n).Perm (slice inputData 0 n)) :
    verify qsort n inputData outputData = .pass ↔
      NaNFree inputData 0 n ∧ Sorted outputData 0 n := by
  constructor
  · intro h
    have hin := nanFree_of_pass hq h
    refine ⟨hin, fun i j h0 hij hj => ?_⟩
    rw [verify_eq_pass_iff] at h
    obtain ⟨hi₁, hi₂, hik⟩ := F32.eq_iff_isNum.1 (h i (by omega))
    obtain ⟨hj₁, hj₂, hjk⟩ := F32.eq_iff_isNum.1 (h j (by omega))
    rw [F32.le_iff hi₁ hj₁, hik, hjk, ← F32.le_iff hi₂ hj₂]
    exact reference_sorted hq hs hin i j h0 hij hj
  · rintro ⟨hin, hout⟩
    rw [verify_eq_pass_iff]
    exact fun i hi => reference_eq hq hs hin hout hperm i ⟨Nat.zero_le i, by omega⟩

end

/-! ## The back ends -/

theorem onHost_injective : Function.Injective onHost := fun _ _ h => by
  simpa only [onHost, Cell.host.injEq, Nat.cast_inj] using h

/-- A program on the caller's array. -/
theorem data_exec_onHost (p : Prog Nat F32) (M : Mem Cell F32) :
    Cell.data ((p.map onHost).exec M) = p.exec (Cell.data M) :=
  Prog.exec_map onHost_injective p M

theorem data_memcpy {n : Nat} {inputData : Mem Nat F32} {M : Mem Cell F32} {i : Nat} (hi : i < n) :
    Cell.data (memcpy n inputData M) i = inputData i := by
  rw [Cell.data, memcpy, if_pos ⟨Int.natCast_nonneg i, Int.ofNat_lt.2 hi⟩, Int.toNat_natCast]

/-- The elements from `T` on are in order, above all before them. -/
def TailInOrder (T n : Nat) (M : Mem Nat F32) : Prop :=
  Sorted M T (n - T) ∧ ∀ i < T, ∀ j, T ≤ j → j < n → F32.le (M i) (M j) = true

/-- Sorting the elements before `T` sorts all exactly when the others were in place. -/
theorem sorted_iff_tailInOrder {T n : Nat} (hT : T ≤ n) {M M' : Mem Nat F32}
    (hperm : (slice M' 0 T).Perm (slice M 0 T)) (hsorted : Sorted M' 0 T)
    (htail : ∀ i, T ≤ i → i < n → M' i = M i) : Sorted M' 0 n ↔ TailInOrder T n M := by
  constructor
  · intro h
    refine ⟨fun i j hi hij hj => ?_, fun i hi j hj hjn => ?_⟩
    · rw [← htail i hi (by omega), ← htail j (by omega) (by omega)]
      exact h i j (Nat.zero_le i) hij (by omega)
    · obtain ⟨i', hi', heq⟩ := mem_slice.1 (hperm.mem_iff.2 (mem_slice.2
        ⟨i, ⟨Nat.zero_le i, by omega⟩, rfl⟩))
      rw [← heq, ← htail j hj hjn]
      exact h i' j (Nat.zero_le i') (by have := hi'.2; omega) (by omega)
  · rintro ⟨hrest, habove⟩ i j hi hij hj
    by_cases hjT : j < T
    · exact hsorted i j hi hij (by omega)
    · rw [htail j (by omega) (by omega)]
      by_cases hiT : i < T
      · obtain ⟨i', hi', heq⟩ := mem_slice.1 (hperm.mem_iff.1 (mem_slice.2
          ⟨i, ⟨Nat.zero_le i, by omega⟩, rfl⟩))
        rw [← heq]
        exact habove i' (by have := hi'.2; omega) j (by omega) (by omega)
      · rw [htail i (by omega) (by omega)]
        exact hrest i j (by omega) hij (by omega)

/-- A permutation of the elements before `T`, with the others in place. -/
theorem slice_perm_of_take {T n : Nat} (hT : T ≤ n) {M M' : Mem Nat F32}
    (hperm : (slice M' 0 T).Perm (slice M 0 T)) (htail : ∀ i, T ≤ i → i < n → M' i = M i) :
    (slice M' 0 n).Perm (slice M 0 n) := by
  obtain ⟨d, rfl⟩ := Nat.exists_eq_add_of_le hT
  have hrest : slice M' (0 + T) d = slice M (0 + T) d := slice_congr fun i hi =>
    htail i (by have := hi.1; omega) (by have := hi.2; omega)
  rw [slice_append, slice_append, hrest]
  exact hperm.append_right _

/-- When the back end of a mode sorts NaN-free `input`: the threads when what they leave is in
order, the GPU when the elements that no thread of its launches has were in place, `qsort`
always. -/
def InOrder (qsort : Qsort) (mode : Int) (n : Nat) (inputData : Mem Nat F32) : Prop :=
  if mode = 1 then Sorted ((Pthread.sequentialSort qsort n).exec inputData) 0 n
  else if mode = 3 then TailInOrder (Cuda.threads n * Cuda.blocks n) n inputData
  else True

theorem inOrder_congr {qsort : Qsort} (hq : Qsort.Spec qsort) {mode : Int} {n : Nat}
    {M M' : Mem Nat F32} (h : ∀ i ∈ Set.Ico 0 (0 + n), M i = M' i) :
    InOrder qsort mode n M → InOrder qsort mode n M' := by
  unfold InOrder
  split
  · have hw : (Pthread.pthreadSort qsort n).Within (Set.Ico 0 (0 + n)) :=
      (Pthread.BS_within hq _).mono (Set.Ico_subset_Ico (Nat.le_refl 0) (by dsimp only; omega))
    intro hs i j h0 hij hj
    rw [← Pthread.pthreadSort_exec] at hs ⊢
    rw [← Prog.exec_congr hw h i ⟨h0, by omega⟩, ← Prog.exec_congr hw h j ⟨by omega, hj⟩]
    exact hs i j h0 hij hj
  · split
    · rintro ⟨hrest, habove⟩
      refine ⟨fun i j hi hij hj => ?_, fun i hi j hj hjn => ?_⟩
      · rw [← h i ⟨Nat.zero_le i, by omega⟩, ← h j ⟨Nat.zero_le j, by omega⟩]
        exact hrest i j hi hij hj
      · rw [← h i ⟨Nat.zero_le i, by omega⟩, ← h j ⟨Nat.zero_le j, by omega⟩]
        exact habove i hi j hj hjn
    · exact id

section
variable {qsort : Qsort} (hq : Qsort.Spec qsort) (hs : Qsort.Sorts qsort) {n : Nat} {mode : Int}
include hq hs

/-- What every back end does to the caller's array. -/
theorem backEnd_outcome (hgpu : mode = 3 → n < 2 ^ 30 ∧ ∃ m, Cuda.Fits m n) :
    ∃ p, backEnd qsort 64 mode n = some p ∧ p.RaceFree ∧ ∀ M,
      (slice (Cell.data (p.exec M)) 0 n).Perm (slice (Cell.data M) 0 n) ∧
      (NaNFree (Cell.data M) 0 n → (Sorted (Cell.data (p.exec M)) 0 n ↔
        InOrder qsort mode n (Cell.data M))) := by
  rw [backEnd]
  split
  case isTrue hmode =>
    refine ⟨_, rfl, (Pthread.BS_raceFree hq _).map onHost_injective, fun M => ?_⟩
    rw [data_exec_onHost, InOrder, if_pos hmode, ← Pthread.pthreadSort_exec]
    exact ⟨Pthread.BS_slice_perm hq _ _, fun _ => Iff.rfl⟩
  case isFalse hmode =>
    split
    case isTrue hmode' =>
      obtain ⟨hn, m, hfit⟩ := hgpu hmode'
      obtain ⟨p, hp, hrace, hout⟩ := Cuda.cudaSort_outcome hn hfit
      have hle := hfit.le
      refine ⟨p, hp, hrace, fun M => ?_⟩
      obtain ⟨hperm, hsorted, htail⟩ := hout M
      refine ⟨slice_perm_of_take hle hperm htail, fun hM => ?_⟩
      rw [InOrder, if_neg hmode, if_pos hmode', hfit.threads]
      exact sorted_iff_tailInOrder hle hperm (hsorted (hM.mono (Nat.le_refl 0) (by omega))) htail
    case isFalse hmode' =>
      refine ⟨_, rfl, (hq.serial compareFunction 0 n).raceFree.map onHost_injective, fun M => ?_⟩
      rw [data_exec_onHost, InOrder, if_neg hmode, if_neg hmode']
      exact ⟨(hq.rearranges compareFunction 0 n _).slice_perm rfl,
        fun hM => iff_of_true (reference_sorted hq hs hM) trivial⟩

end

/-! ## `main` -/

section
variable {qsort : Qsort} (hq : Qsort.Spec qsort) (hs : Qsort.Sorts qsort) {n : Nat} {mode : Int}
  (hgpu : mode = 3 → n < 2 ^ 30 ∧ ∃ m, Cuda.Fits m n) (inputData : Mem Nat F32) (M : Mem Cell F32)
include hq hs hgpu

/-- Every run of `main` ends, and all print the same verdict. -/
theorem main_iff : ∃ outputData, (∀ Q, main qsort 64 mode n inputData M Q ↔
      Q (verify qsort n inputData outputData)) ∧
    (slice outputData 0 n).Perm (slice inputData 0 n) ∧
      (NaNFree inputData 0 n → (Sorted outputData 0 n ↔ InOrder qsort mode n inputData)) := by
  obtain ⟨p, hp, hrace, hout⟩ := backEnd_outcome hq hs hgpu
  obtain ⟨hperm, hsorted⟩ := hout (memcpy n inputData M)
  have hcopy : ∀ i ∈ Set.Ico 0 (0 + n), Cell.data (memcpy n inputData M) i = inputData i :=
    fun i hi => data_memcpy (by have := hi.2; omega)
  refine ⟨Cell.data (p.exec (memcpy n inputData M)), fun Q => ⟨?_, fun h => ?_⟩, ?_, fun hin => ?_⟩
  · rintro ⟨p', hp', h⟩
    obtain rfl : p' = p := Option.some.inj (hp'.symm.trans hp)
    exact (Prog.always_iff hrace).1 h
  · exact ⟨p, hp, (Prog.always_iff hrace).2 h⟩
  · rwa [slice_congr hcopy] at hperm
  · have hM : NaNFree (Cell.data (memcpy n inputData M)) 0 n := fun i hi => by
      rw [hcopy i hi]
      exact hin i hi
    rw [hsorted hM]
    exact ⟨inOrder_congr hq hcopy, inOrder_congr hq fun i hi => (hcopy i hi).symm⟩

end

/-- **The runs the driver passes.** Whatever the interleaving, a run prints `Pass` exactly when the
input is NaN-free and the back end of the mode sorts it: the GPU, on every length its launches fit,
sorts it when the elements without a thread were in place. -/
theorem main_pass_iff (qsort : Qsort) (hq : Qsort.Spec qsort) (hs : Qsort.Sorts qsort) (mode : Int)
    (n : Nat) (hgpu : mode = 3 → n < 2 ^ 30 ∧ ∃ m, Cuda.Fits m n) (inputData : Mem Nat F32)
    (M : Mem Cell F32) :
    main qsort 64 mode n inputData M (· = .pass) ↔
      NaNFree inputData 0 n ∧ InOrder qsort mode n inputData := by
  obtain ⟨outputData, hmain, hperm, hsorted⟩ := main_iff hq hs hgpu inputData M
  rw [hmain, verify_perm_iff hq hs hperm]
  exact and_congr_right hsorted

/-- `1000` zeros on the GPU: the 488 without a thread are in place. -/
example : main exchangeSort 64 3 1000 (fun _ => ⟨0⟩) (fun _ => ⟨0⟩) (· = .pass) ↔
    NaNFree (fun _ => ⟨0⟩) 0 1000 ∧ InOrder exchangeSort 3 1000 fun _ => ⟨0⟩ :=
  main_pass_iff exchangeSort exchangeSort_spec exchangeSort_sorts 3 1000
    (fun _ => ⟨by decide, 9, .inr (by decide)⟩) _ _

/-- **What the driver prints otherwise**: in every mode, the GPU's on a length its launches fit, all
runs name the same element. So it is for every input with a NaN, which no run of these passes. -/
theorem main_failed (qsort : Qsort) (hq : Qsort.Spec qsort) (hs : Qsort.Sorts qsort) (mode : Int)
    (n : Nat) (hgpu : mode = 3 → n < 2 ^ 30 ∧ ∃ m, Cuda.Fits m n) (inputData : Mem Nat F32)
    (M : Mem Cell F32) (hbad : ¬(NaNFree inputData 0 n ∧ InOrder qsort mode n inputData)) :
    ∃ i < n, main qsort 64 mode n inputData M (· = .failedAt i) := by
  obtain ⟨outputData, hmain, hperm, hsorted⟩ := main_iff hq hs hgpu inputData M
  have hne : verify qsort n inputData outputData ≠ .pass := fun h =>
    hbad ((and_congr_right hsorted).1 ((verify_perm_iff hq hs hperm).1 h))
  obtain ⟨i, hi, hfail, -⟩ := verify_eq_failedAt_of_ne hne
  exact ⟨i, hi, (hmain _).2 hfail⟩

/-- A NaN, sorted by `qsort`. -/
theorem main_failed_nan : ∃ i < 2,
    main exchangeSort 64 0 2 (fun _ => ⟨0x7FC00000⟩) (fun _ => ⟨0⟩) (· = .failedAt i) :=
  main_failed exchangeSort exchangeSort_spec exchangeSort_sorts 0 2 nofun _ _
    fun h => F32.not_isNum_nan (h.1 0 ⟨Nat.le_refl 0, by decide⟩)

end Driver
