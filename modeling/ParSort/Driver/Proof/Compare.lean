import ParSort.Driver.Def
import ParSort.Machine.Proof.Order

/-!
# The driver's single-core sort

On numbers `compare_function` is the float order (`compareFunction_isPreorder`), so `qsort` sorts
with it, and every other sorted arrangement of the input agrees with the outcome (`reference_eq`).
-/

namespace Driver

open Conc

section
variable {x y : F32} (hx : x.IsNum) (hy : y.IsNum)
include hx hy

theorem compareFunction_le_iff : compareFunction x y ≤ 0 ↔ x.key ≤ y.key := by
  have hlt := F32.lt_iff hx hy
  have hgt := F32.gt_iff hx hy
  unfold compareFunction
  split
  case isTrue h =>
    rw [hlt] at h
    omega
  case isFalse h =>
    split
    case isTrue h' =>
      rw [hgt] at h'
      omega
    case isFalse h' =>
      rw [hgt] at h'
      omega

theorem le_compareFunction_iff : 0 ≤ compareFunction x y ↔ y.key ≤ x.key := by
  have hlt := F32.lt_iff hx hy
  unfold compareFunction
  split
  case isTrue h =>
    rw [hlt] at h
    omega
  case isFalse h =>
    rw [hlt] at h
    split <;> omega

end

theorem compareFunction_isPreorder {P : F32 → Prop} (hP : ∀ x, P x → x.IsNum) :
    Comparator.IsPreorder compareFunction P where
  antisymm x y hx hy :=
    (compareFunction_le_iff (hP x hx) (hP y hy)).trans
      (le_compareFunction_iff (hP y hy) (hP x hx)).symm
  trans x y z hx hy hz := by
    rw [compareFunction_le_iff (hP x hx) (hP y hy), compareFunction_le_iff (hP y hy) (hP z hz),
      compareFunction_le_iff (hP x hx) (hP z hz)]
    exact le_trans

section
variable {qsort : Qsort} (hq : Qsort.Spec qsort) (hs : Qsort.Sorts qsort) {lo n : Nat}
  {M M' : Mem Nat F32} (hM : NaNFree M lo n)
include hq hs hM

omit hs in
theorem reference_nanFree : NaNFree ((qsort compareFunction lo n).exec M) lo n :=
  (hq.rearranges compareFunction lo n M).forall hM

theorem reference_sorted : Sorted ((qsort compareFunction lo n).exec M) lo n := by
  intro i j hi hij hj
  have hok := reference_nanFree hq hM
  have hle := hs compareFunction lo n M
    (compareFunction_isPreorder fun x ⟨i, hi, e⟩ => e ▸ hM i hi) i j hi hij hj
  rw [F32.le_iff (hok i ⟨hi, by omega⟩) (hok j ⟨by omega, hj⟩)]
  rwa [compareFunction_le_iff (hok i ⟨hi, by omega⟩) (hok j ⟨by omega, hj⟩)] at hle

/-- **Any sorted arrangement** of the input agrees with the reference. -/
theorem reference_eq (hsorted : Sorted M' lo n) (hperm : (slice M' lo n).Perm (slice M lo n)) :
    ∀ i ∈ Set.Ico lo (lo + n), F32.eq (M' i) ((qsort compareFunction lo n).exec M i) = true := by
  have hM' : NaNFree M' lo n := forall_of_slice_perm hperm hM
  have hr := (hq.rearranges compareFunction lo n M).slice_perm rfl
  exact hsorted.eq_of_perm hM' (reference_nanFree hq hM) (reference_sorted hq hs hM)
    (hperm.trans hr.symm)

end

end Driver
