import ParSort.Machine.Proof.Order
import ParSort.Net.Program
import ParSort.Pthread.Def

/-!
# `compareAndSwap`, `merge` and `BM`

`BM` is the recursion `merge` whatever its layer (`BM_eq_merge`). `merge` touches, and rearranges,
only the cells its halves reach: `cnt / 2` halves leave the last cell of an odd slice out
(`merge_within`, `merge_rearranges`). On `2 ^ t` NaN-free cells it is the merging network in its
direction (`merge_merges`).
-/

namespace Pthread

open Conc Net

theorem BM_eq_merge (x : Arr) : BM x = merge x.lo x.cnt x.dir := by
  fun_induction BM x with
  | case1 x hcnt k ih1 ih2 =>
    rw [ih1, ih2]
    conv_rhs => rw [merge, if_pos hcnt]
    split <;> rfl
  | case2 x hcnt =>
    rw [merge, if_neg hcnt]

/-! ## Footprints -/

section
variable {lo k cnt : Nat} {S : Set Nat}

theorem compareAndSwap_within {i j : Nat} {dir : Int} :
    (compareAndSwap i j dir).Within S ↔ i ∈ S ∧ j ∈ S :=
  Prog.within_swapIf

theorem compareLoop_within (dir : Int) :
    (compareLoop lo k dir).Within (Set.Ico lo (lo + (k + k))) := by
  refine Prog.within_forEach.2 fun i hi => compareAndSwap_within.2 ?_
  rw [List.mem_range'_1] at hi
  exact ⟨⟨hi.1, by omega⟩, by omega, by omega⟩

/-- The cells `merge` touches: an odd slice keeps its last one. -/
theorem merge_within (lo cnt : Nat) (dir : Int) :
    (merge lo cnt dir).Within (Set.Ico lo (lo + (cnt / 2 + cnt / 2))) := by
  fun_induction merge lo cnt dir with
  | case1 lo cnt hcnt k ih1 ih2 =>
    refine Prog.within_seq.2 ⟨compareLoop_within dir, Prog.within_seq.2 ⟨ih1.mono ?_, ih2.mono ?_⟩⟩
    · exact Set.Ico_subset_Ico (Nat.le_refl lo) (by omega)
    · exact Set.Ico_subset_Ico (by omega) (by omega)
  | case2 lo cnt hcnt => trivial

theorem compareLoop_serial (lo k : Nat) (dir : Int) : (compareLoop lo k dir).Serial :=
  Prog.serial_forEach fun _ _ => Prog.serial_swapIf _ _ _

theorem merge_serial (lo cnt : Nat) (dir : Int) : (merge lo cnt dir).Serial := by
  fun_induction merge lo cnt dir with
  | case1 lo cnt hcnt k ih1 ih2 => exact (compareLoop_serial lo k dir).seq (ih1.seq ih2)
  | case2 lo cnt hcnt => trivial

/-! ## No value is lost -/

theorem compareLoop_rearranges (dir : Int) (m : Mem Nat F32) :
    Rearranges (Set.Ico lo (lo + (k + k))) m ((compareLoop lo k dir).exec m) := by
  refine rearranges_forEach (fun i hi m => ?_) m
  rw [List.mem_range'_1] at hi
  exact rearranges_swapIf (by constructor <;> omega) (by constructor <;> omega) _ m

theorem merge_rearranges (lo cnt : Nat) (dir : Int) (m : Mem Nat F32) :
    Rearranges (Set.Ico lo (lo + (cnt / 2 + cnt / 2))) m ((merge lo cnt dir).exec m) := by
  fun_induction merge lo cnt dir generalizing m with
  | case1 lo cnt hcnt k ih1 ih2 =>
    simp only [Prog.exec_seq]
    refine (compareLoop_rearranges dir m).trans (((ih1 _).mono ?_).trans ((ih2 _).mono ?_))
    · exact Set.Ico_subset_Ico (Nat.le_refl lo) (by omega)
    · exact Set.Ico_subset_Ico (by omega) (by omega)
  | case2 lo cnt hcnt => exact .refl _ m

end

/-! ## The same for `BM` -/

theorem BM_within (x : Arr) : (BM x).Within (Set.Ico x.lo (x.lo + (x.cnt / 2 + x.cnt / 2))) := by
  rw [BM_eq_merge]
  exact merge_within _ _ _

theorem BM_serial (x : Arr) : (BM x).Serial := by
  rw [BM_eq_merge]
  exact merge_serial _ _ _

theorem BM_rearranges (x : Arr) (m : Mem Nat F32) :
    Rearranges (Set.Ico x.lo (x.lo + (x.cnt / 2 + x.cnt / 2))) m ((BM x).exec m) := by
  rw [BM_eq_merge]
  exact merge_rearranges _ _ _ m

/-! ## The merging network -/

/-- The direction as `dir` encodes it. -/
def dirOf (ascending : Bool) : Int := if ascending then ASCENDING else DESCENDING

theorem swapTest (d : Bool) (x y : F32) : decide (dirOf d = if F32.gt x y then 1 else 0) =
    if d then F32.gt x y else !F32.gt x y := by
  cases d <;> cases F32.gt x y <;> rfl

/-- `compareAndSwap` orders its cells in its direction. Descending, it exchanges equal elements. -/
theorem compareAndSwap_min_max {i j : Nat} (d : Bool) {m : Mem Nat F32} (hi : (m i).IsNum)
    (hj : (m j).IsNum) :
    F32.dirKey d ((compareAndSwap i j (dirOf d)).exec m i) =
        min (F32.dirKey d (m i)) (F32.dirKey d (m j)) ∧
      F32.dirKey d ((compareAndSwap i j (dirOf d)).exec m j) =
        max (F32.dirKey d (m i)) (F32.dirKey d (m j)) := by
  simp only [compareAndSwap, swapTest]
  cases d with
  | true => exact swapIf_min_max (F32.gt_dirKey hi hj).1 (F32.gt_dirKey hi hj).2
  | false =>
    have hgt := F32.gt_iff hi hj
    refine swapIf_min_max (fun hc => ?_) fun hc => ?_
    · have : ¬F32.gt (m i) (m j) = true := by simpa using hc
      rw [hgt] at this
      simp only [F32.dirKey, Bool.false_eq_true, if_false]
      omega
    · have : F32.gt (m i) (m j) = true := by simpa using hc
      rw [hgt] at this
      simp only [F32.dirKey, Bool.false_eq_true, if_false]
      omega

/-- The loop half-cleans its slice. -/
theorem compareLoop_halfCleans (d : Bool) {lo k : Nat} {m : Mem Nat F32}
    (hm : NaNFree m lo (k + k)) :
    HalfCleans (F32.dirKey d) m ((compareLoop lo k (dirOf d)).exec m) lo k := by
  have hdisj : (List.range' lo k).Pairwise fun i j =>
      Disjoint ({i, i + k} : Set Nat) {j, j + k} := by
    refine (List.pairwise_iff_forall_sublist.2 fun {i j} hs => ?_)
    have hij : i ≠ j := by
      have := hs.nodup List.nodup_range'
      simpa using this
    have hi : i ∈ List.range' lo k := hs.subset (by simp)
    have hj : j ∈ List.range' lo k := hs.subset (by simp)
    rw [List.mem_range'_1] at hi hj
    rw [Set.disjoint_left]
    intro a ha hb
    simp only [Set.mem_insert_iff, Set.mem_singleton_iff] at ha hb
    omega
  have hw : ∀ i ∈ List.range' lo k, (compareAndSwap i (i + k) (dirOf d)).Within {i, i + k} :=
    fun i _ => compareAndSwap_within.2 ⟨.inl rfl, .inr rfl⟩
  intro i hi
  have hmem : lo + i ∈ List.range' lo k := List.mem_range'_1.2 ⟨by omega, by omega⟩
  have h := compareAndSwap_min_max (i := lo + i) (j := lo + i + k) d
    (hm _ ⟨by omega, by omega⟩) (hm _ ⟨by omega, by omega⟩)
  rw [compareLoop, Prog.exec_forEach_at hdisj hw hmem (.inl rfl),
    Prog.exec_forEach_at hdisj hw hmem (.inr (by rw [Set.mem_singleton_iff]; omega)),
    ← Nat.add_assoc]
  exact h

/-- **`merge` on `2 ^ t` cells is the merging network** in its direction. The induction is on `t`;
the two halves do not see each other. -/
theorem merge_merges (d : Bool) {lo t : Nat} {m : Mem Nat F32} (hm : NaNFree m lo (2 ^ t)) :
    Merges (F32.dirKey d) m ((merge lo (2 ^ t) (dirOf d)).exec m) lo t := by
  induction t generalizing lo m with
  | zero =>
    rw [merge, if_neg (by decide)]
    exact .zero rfl
  | succ t ih =>
    have hp : 2 ^ (t + 1) = 2 ^ t + 2 ^ t := by omega
    have hpos := Nat.two_pow_pos t
    have hhalf : (2 ^ t + 2 ^ t) / 2 = 2 ^ t := by omega
    rw [hp] at hm ⊢
    rw [merge, if_pos (by omega)]
    simp only [hhalf, Prog.exec_seq]
    have hclean := compareLoop_halfCleans d hm
    have hok : NaNFree ((compareLoop lo (2 ^ t) (dirOf d)).exec m) lo (2 ^ t + 2 ^ t) :=
      (compareLoop_rearranges (dirOf d) m).forall hm
    generalize (compareLoop lo (2 ^ t) (dirOf d)).exec m = m₁ at hclean hok
    -- neither half's merge touches the other half
    have hlow : ∀ m, ∀ i < 2 ^ t, (merge (lo + 2 ^ t) (2 ^ t) (dirOf d)).exec m (lo + i) =
        m (lo + i) := fun m i hi => Prog.exec_frame (merge_within _ _ _)
      (fun h => by have := h.1; omega) m
    have hhigh : ∀ i < 2 ^ t, m₁ (lo + 2 ^ t + i) =
        (merge lo (2 ^ t) (dirOf d)).exec m₁ (lo + 2 ^ t + i) := fun i hi =>
      (Prog.exec_frame (merge_within _ _ _) (fun h => by have := h.2; omega) m₁).symm
    have hok' : NaNFree ((merge lo (2 ^ t) (dirOf d)).exec m₁) (lo + 2 ^ t) (2 ^ t) :=
      fun i hi => by
        have := hhigh (i - (lo + 2 ^ t)) (by have := hi.2; omega)
        rw [show lo + 2 ^ t + (i - (lo + 2 ^ t)) = i by have := hi.1; omega] at this
        rw [← this]
        exact hok i ⟨by have := hi.1; omega, by have := hi.2; omega⟩
    refine Merges.step hclean ?_ ?_
    · exact (ih (hok.mono (Nat.le_refl lo) (by omega))).congr_right (hlow _)
    · exact (ih hok').congr_left hhigh

end Pthread
