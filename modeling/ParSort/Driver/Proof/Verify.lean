import Mathlib.Data.List.Forall2
import ParSort.Driver.Proof.Compare
import ParSort.Machine.Proof.Qsort

/-!
# The driver's verification

The comparison loop stops at the first element that differs (`compareLoop_spec`). The driver prints
`Pass` for exactly the outputs that are ascending and hold the input's values up to float equality
(`verify_pass_iff`), whatever else the output may hold: the ascending arrangement of given keys is
unique, and a NaN is equal to nothing.
-/

namespace Driver

open Conc

/-! ## The comparison loop -/

/-- The loop stops at the first element that differs, or after the last one. -/
theorem compareLoop_spec (inputData outputData : Mem Nat F32) {n i : Nat} (hi : i ≤ n) :
    i ≤ compareLoop inputData outputData n i ∧ compareLoop inputData outputData n i ≤ n ∧
      (∀ j, i ≤ j → j < compareLoop inputData outputData n i →
        F32.eq (outputData j) (inputData j) = true) ∧
      (compareLoop inputData outputData n i < n →
        F32.ne (outputData (compareLoop inputData outputData n i))
          (inputData (compareLoop inputData outputData n i)) = true) := by
  fun_induction compareLoop inputData outputData n i with
  | case1 i _ hne => exact ⟨le_refl i, hi, fun j h1 h2 => by omega, fun _ => hne⟩
  | case2 i hlt heq ih =>
    obtain ⟨h1, h2, hsame, hdiff⟩ := ih hlt
    refine ⟨by omega, h2, fun j hij hj => ?_, hdiff⟩
    rcases Nat.eq_or_lt_of_le hij with rfl | hij
    · exact F32.ne_eq_false_iff.1 (by simpa using heq)
    · exact hsame j hij hj
  | case3 i hge => exact ⟨le_refl i, hi, fun j h1 h2 => by omega, fun h => absurd h hge⟩

theorem compareLoop_eq_iff {inputData outputData : Mem Nat F32} {n : Nat} :
    compareLoop inputData outputData n 0 = n ↔
      ∀ i < n, F32.eq (outputData i) (inputData i) = true := by
  obtain ⟨-, hle, hsame, hdiff⟩ := compareLoop_spec inputData outputData (Nat.zero_le n)
  constructor
  · intro h i hi
    exact hsame i (Nat.zero_le i) (by omega)
  · intro h
    by_contra hne
    have hlt : compareLoop inputData outputData n 0 < n := by omega
    have hdiff := hdiff hlt
    simp [F32.ne, h _ hlt] at hdiff

/-! ## Permutations up to float equality -/

/-- `l` is a permutation of `l'` up to the sign of zeros. -/
def PermEq (l l' : List F32) : Prop :=
  ∃ l₁, l₁.Perm l' ∧ List.Forall₂ (fun x y => F32.eq x y = true) l l₁

theorem PermEq.isNum {l l' : List F32} (h : PermEq l l') : ∀ x ∈ l, x.IsNum := by
  obtain ⟨l₁, -, h⟩ := h
  induction h with
  | nil => simp
  | cons he _ ih =>
    intro x hx
    cases hx with
    | head => exact (F32.eq_iff_isNum.1 he).1
    | tail _ hx => exact ih x hx

theorem PermEq.key_perm {l l' : List F32} (h : PermEq l l') :
    (l.map F32.key).Perm (l'.map F32.key) := by
  obtain ⟨l₁, hp, h⟩ := h
  have hkeys : l.map F32.key = l₁.map F32.key := by
    clear hp
    induction h with
    | nil => rfl
    | cons he _ ih => rw [List.map_cons, List.map_cons, ih, (F32.eq_iff_isNum.1 he).2.2]
  rw [hkeys]
  exact hp.map F32.key

theorem forall₂_slice {m m' : Mem Nat F32} {lo n : Nat} :
    List.Forall₂ (fun x y => F32.eq x y = true) (slice m lo n) (slice m' lo n) ↔
      ∀ i ∈ Set.Ico lo (lo + n), F32.eq (m i) (m' i) = true := by
  rw [slice, slice, List.forall₂_map_left_iff, List.forall₂_map_right_iff, List.forall₂_same]
  simp only [List.mem_range'_1, Set.mem_Ico]

/-! ## The verdict -/

/-- **The driver passes exactly the sorted outputs**: for a NaN-free input and any output. -/
theorem verify_pass_iff (qsort : Qsort) (hq : Qsort.Spec qsort) (hs : Qsort.Sorts qsort) (n : Nat)
    (inputData outputData : Mem Nat F32) (hin : NaNFree inputData 0 n) :
    verify qsort n inputData outputData = .pass ↔
      Sorted outputData 0 n ∧ PermEq (slice outputData 0 n) (slice inputData 0 n) := by
  have hnum := reference_nanFree hq hin
  have hsorted := reference_sorted hq hs hin
  have hperm := (hq.rearranges compareFunction 0 n inputData).slice_perm rfl
  have hpass : verify qsort n inputData outputData = .pass ↔ ∀ i ∈ Set.Ico 0 (0 + n),
      F32.eq (outputData i) ((qsort compareFunction 0 n).exec inputData i) = true := by
    simp only [verify, ite_not, Set.mem_Ico, Nat.zero_le, true_and, Nat.zero_add,
      ← compareLoop_eq_iff]
    split <;> simp [*]
  rw [hpass]
  generalize (qsort compareFunction 0 n).exec inputData = reference at hnum hsorted hperm
  constructor
  · intro h
    refine ⟨fun i j h0 hij hj => ?_, slice reference 0 n, hperm, forall₂_slice.2 h⟩
    obtain ⟨hi₁, hi₂, hik⟩ := F32.eq_iff_isNum.1 (h i ⟨h0, by omega⟩)
    obtain ⟨hj₁, hj₂, hjk⟩ := F32.eq_iff_isNum.1 (h j ⟨by omega, hj⟩)
    rw [F32.le_iff hi₁ hj₁, hik, hjk, ← F32.le_iff hi₂ hj₂]
    exact hsorted i j h0 hij hj
  · rintro ⟨hout, hpe⟩
    have hnum' : NaNFree outputData 0 n := fun i hi => hpe.isNum _ (mem_slice.2 ⟨i, hi, rfl⟩)
    refine hout.eq_of_key_perm hnum' hnum hsorted ?_
    exact hpe.key_perm.trans (hperm.map F32.key).symm

theorem verify_pass_zeros : verify exchangeSort 2 (fun _ => ⟨0x80000000⟩) (fun _ => ⟨0⟩) = .pass ↔
    Sorted (fun _ => ⟨0⟩) 0 2 ∧
      PermEq (slice (fun _ => ⟨0⟩) 0 2) (slice (fun _ => ⟨0x80000000⟩) 0 2) :=
  verify_pass_iff exchangeSort exchangeSort_spec exchangeSort_sorts 2 _ _ fun _ _ => rfl

end Driver
