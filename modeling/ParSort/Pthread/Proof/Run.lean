import ParSort.Conc.Proof.Race
import ParSort.Machine.Proof.Qsort
import ParSort.Pthread.Proof.Merge

/-!
# `BS` and `pthread_sort`

The two threads that `BS` starts keep to the two halves of its slice, so every interleaving ends
where the run of one after the other ends (`pthreadSort_always`), whatever the values and the
length.
-/

namespace Pthread

open Conc

section
variable {qsort : Qsort} (hq : Qsort.Spec qsort)
include hq

/-! ## Footprints -/

/-- The cells `BS` touches: an odd slice keeps its last one. -/
theorem BS_within (x : Arr) :
    (BS qsort x).Within (Set.Ico x.lo (x.lo + (x.cnt / 2 + x.cnt / 2))) := by
  fun_induction BS qsort x with
  | case1 x hcnt k merged hlayer =>
    refine Prog.within_seq.2 ⟨(hq.within asc x.lo k).mono ?_,
      Prog.within_seq.2 ⟨(hq.within desc (x.lo + k) k).mono ?_, ?_⟩⟩
    · exact Set.Ico_subset_Ico (Nat.le_refl _) (by omega)
    · exact Set.Ico_subset_Ico (by omega) (by omega)
    · exact BM_within ⟨x.lo, x.cnt, x.dir, 1 - x.layer⟩
  | case2 x hcnt k merged hlayer ih1 ih2 =>
    refine ⟨ih1.mono ?_, ih2.mono ?_, ?_⟩
    · exact Set.Ico_subset_Ico (Nat.le_refl _) (by dsimp only; omega)
    · exact Set.Ico_subset_Ico (by dsimp only; omega) (by dsimp only; omega)
    · exact BM_within ⟨x.lo, x.cnt, x.dir, 1 - x.layer⟩
  | case3 x hcnt => trivial

/-- Both threads of every fork keep to their own half. -/
theorem BS_raceFree (x : Arr) : (BS qsort x).RaceFree := by
  fun_induction BS qsort x with
  | case1 x hcnt k merged hlayer =>
    exact (hq.serial asc x.lo k).raceFree.seq
      ((hq.serial desc (x.lo + k) k).raceFree.seq (BM_serial _).raceFree)
  | case2 x hcnt k merged hlayer ih1 ih2 =>
    refine ⟨⟨_, _, ?_, BS_within hq _, BS_within hq _⟩, ih1, ih2, (BM_serial _).raceFree⟩
    rw [Set.disjoint_left]
    intro a ha hb
    have h1 := ha.2
    have h2 := hb.1
    dsimp only at h1 h2
    omega
  | case3 x hcnt => trivial

/-! ## No value is lost -/

theorem BS_rearranges (x : Arr) (m : Mem Nat F32) :
    Rearranges (Set.Ico x.lo (x.lo + (x.cnt / 2 + x.cnt / 2))) m ((BS qsort x).exec m) := by
  have hsub : ∀ {lo hi lo' hi'}, lo ≤ lo' → hi' ≤ hi → Set.Ico lo' hi' ⊆ Set.Ico (lo : Nat) hi :=
    Set.Ico_subset_Ico
  fun_induction BS qsort x generalizing m with
  | case1 x hcnt k merged hlayer =>
    simp only [Prog.exec_seq]
    refine ((hq.rearranges asc x.lo k m).mono (hsub ?_ ?_)).trans
      (((hq.rearranges desc (x.lo + k) k _).mono (hsub ?_ ?_)).trans
        (BM_rearranges ⟨x.lo, x.cnt, x.dir, 1 - x.layer⟩ _)) <;> omega
  | case2 x hcnt k merged hlayer ih1 ih2 =>
    refine ((ih1 m).mono (hsub ?_ ?_)).trans
      (((ih2 _).mono (hsub ?_ ?_)).trans
        (BM_rearranges ⟨x.lo, x.cnt, x.dir, 1 - x.layer⟩ _)) <;> dsimp only <;> omega
  | case3 x hcnt => exact .refl _ m

theorem BS_slice_perm (x : Arr) (m : Mem Nat F32) :
    (slice ((BS qsort x).exec m) x.lo x.cnt).Perm (slice m x.lo x.cnt) :=
  ((BS_rearranges hq x m).mono (Set.Ico_subset_Ico (Nat.le_refl _) (by omega))).slice_perm rfl

/-! ## Every interleaving -/

theorem pthreadSort_always_iff {n : Nat} {Q : Mem Nat F32 → Prop} {M : Mem Nat F32} :
    (pthreadSort qsort n).Always Q M ↔ Q ((pthreadSort qsort n).exec M) :=
  Prog.always_iff (BS_raceFree hq _)

end

/-- `pthread_sort` with the two calls of `BS` one after the other, in one thread. -/
def sequentialSort (qsort : Qsort) (numOfElements : Nat) : Prog Nat F32 :=
  let k := numOfElements / 2
  if numOfElements > 1 then
    (BS qsort { lo := 0, cnt := k, dir := ASCENDING, layer := 1 }).seq
      ((BS qsort { lo := k, cnt := k, dir := DESCENDING, layer := 1 }).seq
        (BM { lo := 0, cnt := numOfElements, dir := ASCENDING, layer := 1 }))
  else .done

theorem pthreadSort_exec (qsort : Qsort) (n : Nat) (M : Mem Nat F32) :
    (pthreadSort qsort n).exec M = (sequentialSort qsort n).exec M := by
  rw [pthreadSort, BS, sequentialSort]
  split
  · rw [if_neg (by dsimp only; decide), Prog.exec_seq, Prog.exec_seq]
    simp only [Prog.exec, Nat.zero_add, Int.zero_add, Int.sub_zero]
  · rfl

/-- **`pthread_sort` on any array of any length**: every interleaving of its two threads ends in
the array that the two calls of `BS`, one after the other, leave; this is a permutation of the
input, and no access leaves `[0, n)`. -/
theorem pthreadSort_always (qsort : Qsort) (hq : Qsort.Spec qsort) (n : Nat) (M : Mem Nat F32) :
    (pthreadSort qsort n).Within (Set.Ico 0 n) ∧
      (pthreadSort qsort n).Always (fun M' => M' = (sequentialSort qsort n).exec M ∧
        (slice M' 0 n).Perm (slice M 0 n)) M := by
  constructor
  · refine (BS_within hq _).mono ?_
    exact Set.Ico_subset_Ico (Nat.le_refl _) (by dsimp only; omega)
  · rw [pthreadSort_always_iff hq]
    exact ⟨pthreadSort_exec qsort n M, BS_slice_perm hq _ M⟩

theorem pthreadSort_always_five : (pthreadSort exchangeSort 5).Within (Set.Ico 0 5) ∧
    (pthreadSort exchangeSort 5).Always (fun M' =>
      M' = (sequentialSort exchangeSort 5).exec (fun i => ⟨BitVec.ofNat 32 i⟩) ∧
        (slice M' 0 5).Perm (slice (fun i => ⟨BitVec.ofNat 32 i⟩) 0 5))
      fun i => ⟨BitVec.ofNat 32 i⟩ :=
  pthreadSort_always exchangeSort exchangeSort_spec 5 _

end Pthread
