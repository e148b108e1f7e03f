import ParSort.Conc.Proof.Rearrange
import ParSort.Machine.F32
import ParSort.Net.ListMerge
import ParSort.Net.Program

/-!
# Float order and key order

On NaN-free cells, ascending in the float order is ascending in the key, and the ascending
arrangement of given values is unique up to the sign of zeros (`Sorted.eq_of_perm`).
-/

open Conc Net

variable {m : Mem Nat F32} {lo n : Nat}

theorem NaNFree.mono (h : NaNFree m lo n) {lo' n' : Nat} (h1 : lo ≤ lo')
    (h2 : lo' + n' ≤ lo + n) : NaNFree m lo' n' :=
  fun i hi => h i ⟨by have := hi.1; omega, by have := hi.2; omega⟩

/-- Sorted in a direction: the slice, as a list, ascends in the key of the direction. -/
theorem sortedIn_iff_pairwise (hm : NaNFree m lo n) (d : Bool) : SortedIn d m lo n ↔
    (slice m lo n).Pairwise fun x y => F32.dirKey d x ≤ F32.dirKey d y := by
  have hle : ∀ i ∈ Set.Ico lo (lo + n), ∀ j ∈ Set.Ico lo (lo + n),
      (F32.le (m i) (m j) = true ↔ (m i).key ≤ (m j).key) := fun i hi j hj =>
    F32.le_iff (hm i hi) (hm j hj)
  rw [slice_pairwise]
  cases d with
  | true => exact forall₅_congr fun i j hi hij hj => hle i ⟨hi, by omega⟩ j ⟨by omega, hj⟩
  | false =>
    exact forall₅_congr fun i j hi hij hj =>
      (hle j ⟨by omega, hj⟩ i ⟨hi, by omega⟩).trans Int.neg_le_neg_iff.symm

theorem sortedIn_iff_ascending (hm : NaNFree m lo n) (d : Bool) :
    SortedIn d m lo n ↔ AscendingBlock (F32.dirKey d) m lo n :=
  (sortedIn_iff_pairwise hm d).trans ascendingBlock_iff_pairwise.symm

theorem sorted_iff_ascending (hm : NaNFree m lo n) :
    Sorted m lo n ↔ AscendingBlock F32.key m lo n := sortedIn_iff_ascending hm true

/-- Ascending, as a list. -/
abbrev AscList (l : List F32) : Prop := l.Pairwise fun x y => x.key ≤ y.key

theorem ascList_slice : AscList (slice m lo n) ↔
    ∀ i j, lo ≤ i → i < j → j < lo + n → (m i).key ≤ (m j).key := slice_pairwise

theorem sorted_iff_ascList (hm : NaNFree m lo n) : Sorted m lo n ↔ AscList (slice m lo n) :=
  sortedIn_iff_pairwise hm true

theorem ascList_merge_iff {u v : List F32} (hu : ∀ x ∈ u, x.IsNum) (hv : ∀ x ∈ v, x.IsNum) :
    AscList (u.merge v F32.le) ↔ AscList u ∧ AscList v := by
  refine pairwise_merge_iff fun x hx y hy => ?_
  rw [Bool.eq_iff_iff, decide_eq_true_eq]
  exact F32.le_iff (hu x hx) (hv y hy)

theorem NaNFree.mem_isNum (h : NaNFree m lo n) : ∀ x ∈ slice m lo n, x.IsNum := by
  intro x hx
  obtain ⟨i, hi, rfl⟩ := mem_slice.1 hx
  exact h i hi

/-- Two sorted arrangements of the same keys agree, up to the sign of zeros. -/
theorem Sorted.eq_of_key_perm {m' : Mem Nat F32} (hm : NaNFree m lo n) (hm' : NaNFree m' lo n)
    (hs : Sorted m lo n) (hs' : Sorted m' lo n)
    (hp : ((slice m lo n).map F32.key).Perm ((slice m' lo n).map F32.key)) :
    ∀ i ∈ Set.Ico lo (lo + n), F32.eq (m i) (m' i) = true := by
  have hkeys : (slice m lo n).map F32.key = (slice m' lo n).map F32.key := by
    refine hp.eq_of_pairwise (fun a b _ _ => le_antisymm) ?_ ?_
    · exact List.pairwise_map.2 ((sorted_iff_ascList hm).1 hs)
    · exact List.pairwise_map.2 ((sorted_iff_ascList hm').1 hs')
  intro i hi
  rw [F32.eq_iff (hm i hi) (hm' i hi)]
  have hlen : i - lo < n := by have := hi.1; have := hi.2; omega
  have h := List.getElem_of_eq hkeys (i := i - lo) (by simpa using hlen)
  simp only [List.getElem_map, slice_getElem] at h
  rwa [show lo + (i - lo) = i by have := hi.1; omega] at h

/-- Two sorted arrangements of the same values agree, up to the sign of zeros. -/
theorem Sorted.eq_of_perm {m' : Mem Nat F32} (hm : NaNFree m lo n) (hm' : NaNFree m' lo n)
    (hs : Sorted m lo n) (hs' : Sorted m' lo n) (hp : (slice m lo n).Perm (slice m' lo n)) :
    ∀ i ∈ Set.Ico lo (lo + n), F32.eq (m i) (m' i) = true :=
  hs.eq_of_key_perm hm hm' hs' (hp.map F32.key)

/-- Two neighbouring blocks, ascending and descending, are a bitonic block, either way up. -/
theorem bitonicBlock_of_halves {L : Nat} (hup : AscendingBlock (F32.dirKey true) m lo L)
    (hdown : AscendingBlock (F32.dirKey false) m (lo + L) L) (d : Bool) :
    BitonicBlock (F32.dirKey d) m lo (L + L) := by
  have hlow : ∀ i j, i ≤ j → j < L → (m (lo + i)).key ≤ (m (lo + j)).key := hup
  have hhigh : ∀ i j, L ≤ i → i ≤ j → j < L + L → (m (lo + j)).key ≤ (m (lo + i)).key := by
    intro i j hi hij hj
    have := hdown (i - L) (j - L) (by omega) (by omega)
    simp only [F32.dirKey, Bool.false_eq_true, if_false] at this
    rw [show lo + L + (i - L) = lo + i by omega, show lo + L + (j - L) = lo + j by omega] at this
    omega
  cases d with
  | true => exact bitonic_of_peak L (fun i j hij hj _ => hlow i j hij hj) hhigh
  | false =>
    exact bitonic_of_valley L (fun i j hij hj _ => neg_le_neg (hlow i j hij hj))
      fun i j hi hij hj => neg_le_neg (hhigh i j hi hij hj)
