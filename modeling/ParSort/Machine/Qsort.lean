import ParSort.Machine.F32

/-!
# The C library's `qsort` on floats

A parameter of the model: `Qsort.Spec` says what it does with any comparator, `Qsort.Sorts` what it
does with one that is a total preorder on the values at hand.
-/

open Conc

/-- A comparator: negative, zero or positive. -/
abbrev Comparator := F32 → F32 → Int

/-- `qsort(a + lo, cnt, 4, cmp)` -/
abbrev Qsort := Comparator → (lo cnt : Nat) → Prog Nat F32

/-- What `qsort` always does: it runs on its own, touches only its slice (so its result depends only
on the slice) and rearranges it. The C standard promises this for consistent comparators; here it is
assumed for all of them, also for `compare_function` on NaNs, as it is true of a merge sort. -/
structure Qsort.Spec (qsort : Qsort) : Prop where
  serial : ∀ cmp lo cnt, (qsort cmp lo cnt).Serial
  within : ∀ cmp lo cnt, (qsort cmp lo cnt).Within (Set.Ico lo (lo + cnt))
  rearranges : ∀ cmp lo cnt m, Rearranges (Set.Ico lo (lo + cnt)) m ((qsort cmp lo cnt).exec m)

/-- `cmp` is a total preorder on the values with `P`. -/
structure Comparator.IsPreorder (cmp : Comparator) (P : F32 → Prop) : Prop where
  antisymm : ∀ x y, P x → P y → (cmp x y ≤ 0 ↔ 0 ≤ cmp y x)
  trans : ∀ x y z, P x → P y → P z → cmp x y ≤ 0 → cmp y z ≤ 0 → cmp x z ≤ 0

/-- `qsort` sorts a slice on whose elements its comparator is a total preorder. -/
def Qsort.Sorts (qsort : Qsort) : Prop :=
  ∀ (cmp : Comparator) lo cnt (m : Mem Nat F32),
    Comparator.IsPreorder cmp (fun x => ∃ i ∈ Set.Ico lo (lo + cnt), m i = x) →
    ∀ i j, lo ≤ i → i < j → j < lo + cnt →
      cmp ((qsort cmp lo cnt).exec m i) ((qsort cmp lo cnt).exec m j) ≤ 0
