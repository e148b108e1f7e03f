import ParSort.Net.Fold
import ParSort.Pthread.Proof.Run

/-!
# The two levels of `BS` on a power of two

At layer 1 `BS` sorts the quarters of its half by their bits, one up and one down, and merges them
by float order (`half_merges`); at layer 0 it merges the two halves (`pthreadSort_merges`). Both
together, for the positions of the values below a bound: `pthreadSort_sorted_iff`.
-/

namespace Pthread

open Conc Net

/-! ## The comparators -/

section
variable {x y : F32}

theorem asc_le_iff : asc x y ≤ 0 ↔ x.toInt ≤ y.toInt := by
  unfold asc
  split
  · omega
  · split <;> omega

theorem le_asc_iff : 0 ≤ asc x y ↔ y.toInt ≤ x.toInt := by
  unfold asc
  split
  · omega
  · split <;> omega

theorem desc_le_iff : desc x y ≤ 0 ↔ y.toInt ≤ x.toInt := by
  unfold desc
  split
  · omega
  · split <;> omega

theorem le_desc_iff : 0 ≤ desc x y ↔ x.toInt ≤ y.toInt := by
  unfold desc
  split
  · omega
  · split <;> omega

end

theorem asc_isPreorder (P : F32 → Prop) : Comparator.IsPreorder asc P where
  antisymm x y _ _ := asc_le_iff.trans le_asc_iff.symm
  trans x y z _ _ _ := by
    simp only [asc_le_iff]
    exact le_trans

theorem desc_isPreorder (P : F32 → Prop) : Comparator.IsPreorder desc P where
  antisymm x y _ _ := desc_le_iff.trans le_desc_iff.symm
  trans x y z _ _ _ := by
    simp only [desc_le_iff]
    exact fun h h' => le_trans h' h

/-- Two neighbouring slices of `k` cells, ascending and descending as `int`s. -/
structure IntSorted (m : Mem Nat F32) (lo k : Nat) : Prop where
  up : ∀ i j, i ≤ j → j < k → (m (lo + i)).toInt ≤ (m (lo + j)).toInt
  down : ∀ i j, i ≤ j → j < k → (m (lo + k + j)).toInt ≤ (m (lo + k + i)).toInt

/-- … and each with the values of the slice in `m`. -/
structure IntSortedFrom (m m₁ : Mem Nat F32) (lo k : Nat) : Prop extends IntSorted m₁ lo k where
  first : (slice m₁ lo k).Perm (slice m lo k)
  second : (slice m₁ (lo + k) k).Perm (slice m (lo + k) k)

/-! ## Merges on positions -/

section
variable {m m' : Mem Nat F32} {lo t x : Nat} {v : Int}

theorem merges_up_lt_iff (h : Merges (F32.dirKey true) m m' lo t) (hx : x < 2 ^ t) :
    (m' (lo + x)).key < v ↔ mergeZeros t (fun y => (m (lo + y)).key < v) x := by
  have hkey : (m' (lo + x)).key = mergeNet t (fun y => (m (lo + y)).key) x := h x hx
  rw [hkey, mergeNet_lt_iff]

theorem merges_down_lt_iff (h : Merges (F32.dirKey false) m m' lo t) (hx : x < 2 ^ t) :
    (m' (lo + x)).key < v ↔ ¬mergeZeros t (fun y => ¬(m (lo + y)).key < v) x := by
  have hkey : -(m' (lo + x)).key = mergeNet t (fun y => -(m (lo + y)).key) x := h x hx
  -- not below `v` is below `-v + 1` in the reversed order
  have hrev : ∀ k : Int, ¬k < v ↔ -k < -v + 1 := fun k => by omega
  simp only [hrev]
  rw [← mergeNet_lt_iff, ← hkey, ← hrev, not_not]

end

section
variable {qsort : Qsort} (hq : Qsort.Spec qsort) (hs : Qsort.Sorts qsort)
include hq hs

/-! ## The quarters of a half -/

theorem quarters_sorted (lo k : Nat) (m : Mem Nat F32) : ∃ m₁,
    (qsort desc (lo + k) k).exec ((qsort asc lo k).exec m) = m₁ ∧ IntSortedFrom m m₁ lo k := by
  refine ⟨_, rfl, ?_, ?_, ?_⟩
  · have hlow : ∀ i < k, (qsort desc (lo + k) k).exec ((qsort asc lo k).exec m) (lo + i) =
        (qsort asc lo k).exec m (lo + i) := fun i hi =>
      (hq.rearranges desc (lo + k) k _).frame fun h => by have := h.1; omega
    constructor
    · intro i j hij hj
      rw [hlow i (by omega), hlow j hj]
      rcases Nat.eq_or_lt_of_le hij with rfl | hlt
      · exact le_refl _
      · rw [← asc_le_iff]
        exact hs asc lo k m (asc_isPreorder _) _ _ (by omega) (by omega) (by omega)
    · intro i j hij hj
      rcases Nat.eq_or_lt_of_le hij with rfl | hlt
      · exact le_refl _
      · rw [← desc_le_iff]
        exact hs desc (lo + k) k _ (desc_isPreorder _) _ _ (by omega) (by omega) (by omega)
  · have hr := hq.rearranges desc (lo + k) k ((qsort asc lo k).exec m)
    rw [slice_congr fun i hi => hr.frame fun h => by have := hi.2; have := h.1; omega]
    exact (hq.rearranges asc lo k m).slice_perm rfl
  · have hr := hq.rearranges asc lo k m
    refine ((hq.rearranges desc (lo + k) k _).slice_perm rfl).trans ?_
    rw [slice_congr fun i hi => hr.frame fun h => by have := hi.1; have := h.2; omega]

/-- **A half after layer 1**: the merging network in the half's direction, on the two quarters
sorted by their bits. -/
theorem half_merges (d : Bool) {lo t : Nat} {m : Mem Nat F32} (hm : NaNFree m lo (2 ^ (t + 1))) :
    ∃ m₁, IntSortedFrom m m₁ lo (2 ^ t) ∧
      Merges (F32.dirKey d) m₁ ((BS qsort ⟨lo, 2 ^ (t + 1), dirOf d, 1⟩).exec m) lo (t + 1) := by
  have hp : 2 ^ (t + 1) = 2 ^ t + 2 ^ t := by omega
  have hpos := Nat.two_pow_pos t
  have hhalf : 2 ^ (t + 1) / 2 = 2 ^ t := by omega
  obtain ⟨m₁, hm₁, hsort⟩ := quarters_sorted hq hs lo (2 ^ t) m
  refine ⟨m₁, hsort, ?_⟩
  rw [BS, if_pos (by dsimp only; omega)]
  simp only [hhalf]
  rw [if_pos (by decide), Prog.exec_seq, Prog.exec_seq, hm₁, BM_eq_merge]
  refine merge_merges d fun i hi => ?_
  -- the quarters hold the values they held
  have hperm : (slice m₁ lo (2 ^ (t + 1))).Perm (slice m lo (2 ^ (t + 1))) := by
    rw [hp, slice_append, slice_append]
    exact hsort.first.append hsort.second
  exact forall_of_slice_perm hperm hm i hi

/-! ## The two halves -/

omit hs in
/-- **`pthread_sort` after layer 0**: the merging network on the two halves, each as its own thread
leaves it. -/
theorem pthreadSort_merges {t : Nat} {M : Mem Nat F32} (hM : NaNFree M 0 (2 ^ (t + 1))) : ∃ M₂,
    (∀ i < 2 ^ t, M₂ i = (BS qsort ⟨0, 2 ^ t, ASCENDING, 1⟩).exec M i) ∧
      (∀ i < 2 ^ t, M₂ (2 ^ t + i) = (BS qsort ⟨2 ^ t, 2 ^ t, DESCENDING, 1⟩).exec M (2 ^ t + i)) ∧
      Merges F32.key M₂ ((pthreadSort qsort (2 ^ (t + 1))).exec M) 0 (t + 1) := by
  have hp : 2 ^ (t + 1) = 2 ^ t + 2 ^ t := by omega
  have hpos := Nat.two_pow_pos t
  have hhalf : 2 ^ (t + 1) / 2 = 2 ^ t := by omega
  have hr0 := BS_rearranges hq ⟨0, 2 ^ t, ASCENDING, 1⟩ M
  have hr1 := BS_rearranges hq ⟨2 ^ t, 2 ^ t, DESCENDING, 1⟩
    ((BS qsort ⟨0, 2 ^ t, ASCENDING, 1⟩).exec M)
  refine ⟨(BS qsort ⟨2 ^ t, 2 ^ t, DESCENDING, 1⟩).exec
    ((BS qsort ⟨0, 2 ^ t, ASCENDING, 1⟩).exec M), fun i hi => ?_, fun i hi => ?_, ?_⟩
  · exact hr1.frame fun h => by have := h.1; dsimp only at this; omega
  · refine Prog.exec_congr ((BS_within hq _).mono (T := Set.Ico (2 ^ t) (2 ^ t + 2 ^ t)) ?_)
      (fun a ha => hr0.frame fun h => ?_) _ ⟨by omega, by omega⟩
    · exact Set.Ico_subset_Ico (Nat.le_refl _) (by dsimp only; omega)
    · have h1 := ha.1
      have h2 := h.2
      dsimp only at h2
      omega
  · rw [pthreadSort_exec, sequentialSort, hhalf, if_pos (by omega), Prog.exec_seq, Prog.exec_seq,
      BM_eq_merge]
    refine merge_merges true ?_
    have hr : Rearranges (Set.Ico 0 (2 ^ (t + 1))) M ((BS qsort ⟨2 ^ t, 2 ^ t, DESCENDING, 1⟩).exec
        ((BS qsort ⟨0, 2 ^ t, ASCENDING, 1⟩).exec M)) := by
      refine (hr0.mono ?_).trans (hr1.mono ?_)
      · exact Set.Ico_subset_Ico (Nat.le_refl _) (by dsimp only; omega)
      · exact Set.Ico_subset_Ico (Nat.zero_le _) (by dsimp only; omega)
    intro i hi
    rw [Nat.zero_add] at hi
    exact hr.forall (fun a ha => hM a (by rwa [Nat.zero_add])) i hi

omit hs in
theorem pthreadSort_nanFree {n : Nat} {M : Mem Nat F32} (hM : NaNFree M 0 n) :
    NaNFree ((pthreadSort qsort n).exec M) 0 n :=
  forall_of_slice_perm (BS_slice_perm hq ⟨0, n, ASCENDING, 0⟩ M) hM

/-- **`pthread_sort` on positions**: with the quarters of both halves sorted by their bits, the
array ends sorted exactly when the positions of the values below every bound fold through both
merges. -/
theorem pthreadSort_sorted_iff {t : Nat} {M : Mem Nat F32} (hM : NaNFree M 0 (2 ^ (t + 2))) :
    ∃ m₁ m₂, IntSortedFrom M m₁ 0 (2 ^ t) ∧ IntSortedFrom M m₂ (2 ^ (t + 1)) (2 ^ t) ∧
      (Sorted ((pthreadSort qsort (2 ^ (t + 2))).exec M) 0 (2 ^ (t + 2)) ↔
        ∀ v, Foldable (t + 2) (mergeHalves (t + 1) (fun x => (m₁ (0 + x)).key < v)
          fun x => (m₂ (2 ^ (t + 1) + x)).key < v)) := by
  have hp : 2 ^ (t + 2) = 2 ^ (t + 1) + 2 ^ (t + 1) := by rw [pow_succ, Nat.mul_two]
  have hM₁ : NaNFree M 0 (2 ^ (t + 1)) := hM.mono (Nat.le_refl 0)
    (by rw [hp]; exact Nat.add_le_add_left (Nat.le_add_right _ _) 0)
  have hM₂ : NaNFree M (2 ^ (t + 1)) (2 ^ (t + 1)) := hM.mono (Nat.zero_le _)
    (by rw [hp, Nat.zero_add])
  obtain ⟨m₁, h₁, hmerge₁⟩ := half_merges hq hs true hM₁
  obtain ⟨m₂, h₂, hmerge₂⟩ := half_merges hq hs false hM₂
  obtain ⟨M₂, hlow, hhigh, hmerge⟩ := pthreadSort_merges hq hM
  refine ⟨m₁, m₂, h₁, h₂, ?_⟩
  rw [sorted_iff_ascending (pthreadSort_nanFree hq hM)]
  refine (ascending_congr hmerge).trans (ascending_mergeNet_iff.trans (forall_congr' fun v => ?_))
  refine Foldable.congr fun x hx => ?_
  rcases Nat.lt_or_ge x (2 ^ (t + 1)) with hl | hl
  · rw [mergeHalves_low hl, Nat.zero_add, hlow x hl, ← merges_up_lt_iff hmerge₁ hl, Nat.zero_add]
    rfl
  · obtain ⟨y, rfl⟩ : ∃ y, x = y + 2 ^ (t + 1) := ⟨x - 2 ^ (t + 1), by omega⟩
    have hy : y < 2 ^ (t + 1) := by omega
    rw [mergeHalves_high, Nat.zero_add, Nat.add_comm y, hhigh y hy,
      ← merges_down_lt_iff hmerge₂ hy]
    rfl

end

end Pthread
