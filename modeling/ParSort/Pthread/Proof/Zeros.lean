import ParSort.Net.Fold
import ParSort.Pthread.Proof.Half

/-!
# Where a half sorted by its bits holds its small values

Read as `int`s, negative floats are ordered the wrong way round. In the two quarters of `IntSorted`
the negative values come first in one and last in the other, and the values below a bound `v ≤ 0`
are the last of the former and the first of the latter: `Ends` of the half (`half_below_iff`). The
values below a bound `v > 0` are a cyclic interval, which folds (`half_below_foldable`). Hence the
exact condition on the array, `EndsFold` (`sorted_iff_endsFold`).
-/

namespace Pthread

open Conc Net

/-! ## Counting in slices -/

section
variable {m : Mem Nat F32} {lo k x : Nat} {p : F32 → Bool}

/-- A set of positions closed downwards is an initial segment. -/
theorem lt_countP_iff {p : Nat → Bool}
    (h : ∀ i j, i ≤ j → j < k → p j = true → p i = true) :
    ∀ x < k, p x = true ↔ x < (List.range k).countP p := by
  induction k with
  | zero => exact fun x hx => absurd hx (Nat.not_lt_zero x)
  | succ k ih =>
    have ih' := ih fun i j hij hj => h i j hij (by omega)
    have hle : (List.range k).countP p ≤ k := by
      simpa using List.countP_le_length (p := p) (l := List.range k)
    intro x hx
    rw [List.range_succ, List.countP_append, List.countP_singleton]
    by_cases hk : p k = true
    · -- all positions
      have hall : (List.range k).countP p = k := by
        rw [List.countP_eq_length.2 fun a ha => h a k (by simp at ha; omega) (by omega) hk,
          List.length_range]
      rw [if_pos hk, hall]
      exact iff_of_true (h x k (by omega) (by omega) hk) hx
    · rw [if_neg hk, Nat.add_zero]
      rcases Nat.eq_or_lt_of_le (Nat.lt_succ_iff.1 hx) with rfl | hlt
      · exact iff_of_false hk (by omega)
      · exact ih' x hlt

theorem slice_countP :
    (slice m lo k).countP p = (List.range k).countP fun x => p (m (lo + x)) := by
  rw [slice, List.range'_eq_map_range, List.countP_map, List.countP_map]
  rfl

theorem slice_countP_le : (slice m lo k).countP p ≤ k := by
  simpa using List.countP_le_length (p := p) (l := slice m lo k)

theorem slice_init (h : ∀ i j, i ≤ j → j < k → p (m (lo + j)) = true → p (m (lo + i)) = true)
    (hx : x < k) : p (m (lo + x)) = true ↔ x < (slice m lo k).countP p := by
  rw [slice_countP]
  exact lt_countP_iff (p := fun x => p (m (lo + x))) h x hx

theorem slice_final (h : ∀ i j, i ≤ j → j < k → p (m (lo + i)) = true → p (m (lo + j)) = true)
    (hx : x < k) : p (m (lo + x)) = true ↔ k - (slice m lo k).countP p ≤ x := by
  have hnot : (!p (m (lo + x))) = true ↔ x < (slice m lo k).countP fun a => !p a := by
    refine slice_init (p := fun a => !p a) (fun i j hij hj hpj => ?_) hx
    rw [Bool.not_eq_true'] at hpj ⊢
    exact Bool.eq_false_iff.2 fun hpi => by rw [h i j hij hj hpi] at hpj; cases hpj
  have hlen := List.length_eq_countP_add_countP p (l := slice m lo k)
  rw [slice_length] at hlen
  have hcongr : (slice m lo k).countP (fun a => decide ¬p a = true) =
      (slice m lo k).countP fun a => !p a := List.countP_congr fun a _ => by simp
  have hcount : (slice m lo k).countP (fun a => !p a) = k - (slice m lo k).countP p := by omega
  rw [hcount, Bool.not_eq_true', Bool.eq_false_iff] at hnot
  rw [← not_lt, ← hnot, not_not]

theorem countP_split (p q : F32 → Bool) (l : List F32) :
    l.countP p = l.countP (fun a => p a && !q a) + l.countP fun a => p a && q a := by
  induction l with
  | nil => rfl
  | cons a l ih =>
    simp only [List.countP_cons, ih]
    cases p a <;> cases q a <;> simp <;> omega

end

/-! ## Below a bound -/

/-- The key is below `v`. -/
def below (v : Int) (x : F32) : Bool := x.key < v

/-- The sign bit is set and the key is not below `v`. -/
def closeToZero (v : Int) (x : F32) : Bool := x.sign && !below v x

section
variable {x y : F32} {v : Int}

theorem sign_iff : x.sign = true ↔ x.toInt < 0 := by
  rw [← not_iff_not, not_lt, F32.toInt_nonneg_iff, Bool.not_eq_true]

theorem sign_of_below (hv : v ≤ 0) (h : below v x = true) : x.sign = true := by
  by_contra hs
  rw [Bool.not_eq_true] at hs
  have hkey := F32.key_of_sign_clear hs
  have hnonneg := F32.toInt_nonneg_iff.2 hs
  have := of_decide_eq_true h
  omega

theorem sign_of_toInt_le (h : x.toInt ≤ y.toInt) (hy : y.sign = true) : x.sign = true := by
  rw [sign_iff] at hy ⊢
  omega

/-- Among the negative values the bits run against the float order. -/
theorem closeToZero_of_toInt_le (h : x.toInt ≤ y.toInt) (hy : closeToZero v y = true) :
    closeToZero v x = true := by
  rw [closeToZero, Bool.and_eq_true, Bool.not_eq_true', below, decide_eq_false_iff_not] at hy ⊢
  have hx := sign_of_toInt_le h hy.1
  rw [F32.key_of_sign_set hy.1] at hy
  rw [F32.key_of_sign_set hx]
  exact ⟨hx, by omega⟩

theorem below_iff (hv : v ≤ 0) : below v x = true ↔ x.sign = true ∧ ¬closeToZero v x = true := by
  rw [closeToZero, Bool.and_eq_true, not_and, Bool.not_eq_true', Bool.not_eq_false]
  exact ⟨fun h => ⟨sign_of_below hv h, fun _ => h⟩, fun h => h.2 h.1⟩

/-- Above zero the bits tell what is below the bound. -/
theorem below_iff_toInt (hv : 0 < v) : below v x = true ↔ x.toInt < v := by
  rw [below, decide_eq_true_eq]
  cases hs : x.sign with
  | false => rw [F32.key_of_sign_clear hs]
  | true =>
    have hlt := sign_iff.1 hs
    have hge : -2 ^ 31 ≤ x.toInt := by
      have := BitVec.le_toInt x.bits
      simpa [F32.toInt] using this
    rw [F32.key_of_sign_set hs]
    omega

end

/-! ## A half sorted by its bits -/

section
variable {m : Mem Nat F32} {lo k : Nat} {v : Int}

theorem count_closeToZero (hv : v ≤ 0) (lo k : Nat) :
    (slice m lo k).countP (closeToZero v) =
      (slice m lo k).countP F32.sign - (slice m lo k).countP (below v) ∧
    (slice m lo k).countP (below v) ≤ (slice m lo k).countP F32.sign := by
  have h := countP_split F32.sign (below v) (slice m lo k)
  have hb : (slice m lo k).countP (fun a => a.sign && below v a) =
      (slice m lo k).countP (below v) := List.countP_congr fun a _ => by
    rw [Bool.and_eq_true, and_iff_right_of_imp (sign_of_below hv)]
  rw [hb] at h
  have hc : (slice m lo k).countP (closeToZero v) =
      (slice m lo k).countP fun a => a.sign && !below v a := rfl
  omega

/-- Where the quarters of `m` at `lo`, sorted by their bits, hold the values below `v ≤ 0`: it
depends on how many negative values a quarter has, and how many of them are below `v`. -/
def endsBelow (m : Mem Nat F32) (lo k : Nat) (v : Int) : Nat → Prop :=
  Ends (k + k) ((slice m lo k).countP F32.sign) ((slice m (lo + k) k).countP F32.sign)
    ((slice m lo k).countP (below v)) ((slice m (lo + k) k).countP (below v))

/-- **Below a bound `v ≤ 0`**: the last of the negative values in front, the first of those at the
end. -/
theorem half_below_iff {m₁ : Mem Nat F32} (h : IntSortedFrom m m₁ lo k) (hv : v ≤ 0) {x : Nat}
    (hx : x < k + k) : (m₁ (lo + x)).key < v ↔ endsBelow m lo k v x := by
  have hkey : (m₁ (lo + x)).key < v ↔ below v (m₁ (lo + x)) = true := (decide_eq_true_iff).symm
  have hN0 : (slice m₁ lo k).countP F32.sign ≤ k := slice_countP_le
  have hN1 : (slice m₁ (lo + k) k).countP F32.sign ≤ k := slice_countP_le
  obtain ⟨hc0, hb0⟩ := count_closeToZero (m := m₁) hv lo k
  obtain ⟨hc1, hb1⟩ := count_closeToZero (m := m₁) hv (lo + k) k
  rw [hkey, below_iff hv, endsBelow, ← h.first.countP_eq, ← h.second.countP_eq,
    ← h.first.countP_eq, ← h.second.countP_eq, Ends]
  rcases Nat.lt_or_ge x k with hlt | hge
  · rw [slice_init (fun i j hij hj => sign_of_toInt_le (h.up i j hij hj)) hlt,
      slice_init (fun i j hij hj => closeToZero_of_toInt_le (h.up i j hij hj)) hlt, hc0]
    omega
  · obtain ⟨y, rfl⟩ : ∃ y, x = k + y := ⟨x - k, by omega⟩
    have hy : y < k := by omega
    rw [← Nat.add_assoc, slice_final (fun i j hij hj => sign_of_toInt_le (h.down i j hij hj)) hy,
      slice_final (fun i j hij hj => closeToZero_of_toInt_le (h.down i j hij hj)) hy, hc1]
    omega

/-- Above zero the two orders agree on what is below the bound. -/
theorem half_below_foldable {t : Nat} (h : IntSorted m lo (2 ^ t)) (hv : 0 < v) :
    Foldable (t + 1) fun x => (m (lo + x)).key < v := by
  have hp : 2 ^ (t + 1) = 2 ^ t + 2 ^ t := by omega
  have hb : Bitonic (2 ^ (t + 1)) fun x => (m (lo + x)).toInt := by
    refine bitonic_of_peak (2 ^ t) (fun i j hij hj _ => h.up i j hij hj) fun i j hi hij hj => ?_
    have := h.down (i - 2 ^ t) (j - 2 ^ t) (by omega) (by omega)
    rwa [show lo + 2 ^ t + (i - 2 ^ t) = lo + i by omega,
      show lo + 2 ^ t + (j - 2 ^ t) = lo + j by omega] at this
  refine (Foldable.congr fun x _ => ?_).1 (hb v).foldable
  rw [← below_iff_toInt hv, below, decide_eq_true_eq]

end

/-! ## The whole array -/

/-- Below every bound `v ≤ 0`, the ends in the two halves of an array of `2 ^ m` cells fold through
the merges of `pthread_sort`. -/
def EndsFold (m : Nat) (M : Mem Nat F32) : Prop :=
  ∀ v : Int, v ≤ 0 → Foldable m (mergeHalves (m - 1) (endsBelow M 0 (2 ^ m / 4) v)
    (endsBelow M (2 ^ m / 2) (2 ^ m / 4) v))

theorem quarter_eq (t : Nat) : 2 ^ (t + 2) / 4 = 2 ^ t ∧ 2 ^ (t + 2) / 2 = 2 ^ (t + 1) := by
  have h : 2 ^ (t + 2) = 2 ^ (t + 1) * 2 := pow_succ 2 (t + 1)
  omega

theorem endsFold_succ {t : Nat} {M : Mem Nat F32} : EndsFold (t + 2) M ↔ ∀ v : Int, v ≤ 0 →
    Foldable (t + 2) (mergeHalves (t + 1) (endsBelow M 0 (2 ^ t) v)
      (endsBelow M (2 ^ (t + 1)) (2 ^ t) v)) := by
  rw [EndsFold, (quarter_eq t).1, (quarter_eq t).2]
  rfl

/-- Two cells are folded without overlap or without gap. -/
theorem foldable_one (P : Nat → Prop) : Foldable 1 P :=
  CyclicInterval.foldable fun a b c d hab hbc hcd hd => by omega

theorem endsFold_zero (M : Mem Nat F32) : EndsFold 0 M := fun _ _ => trivial

theorem endsFold_one (M : Mem Nat F32) : EndsFold 1 M := fun _ _ => foldable_one _

section
variable {qsort : Qsort} (hq : Qsort.Spec qsort) (hs : Qsort.Sorts qsort)
include hq hs

/-- **When `pthread_sort` sorts an array.** -/
theorem sorted_iff_endsFold {m : Nat} {M : Mem Nat F32} (hM : NaNFree M 0 (2 ^ m)) :
    Sorted ((pthreadSort qsort (2 ^ m)).exec M) 0 (2 ^ m) ↔ EndsFold m M := by
  match m with
  | 0 => exact iff_of_true (fun i j _ hij hj => by omega) (endsFold_zero M)
  | 1 =>
    refine iff_of_true ?_ (endsFold_one M)
    obtain ⟨M₂, -, -, hmerge⟩ := pthreadSort_merges hq hM
    rw [sorted_iff_ascending (pthreadSort_nanFree hq hM)]
    exact (ascending_congr hmerge).2 (ascending_mergeNet_iff.2 fun v => foldable_one _)
  | t + 2 =>
    have hp : 2 ^ (t + 1) = 2 ^ t + 2 ^ t := by omega
    obtain ⟨m₁, m₂, h₁, h₂, hiff⟩ := pthreadSort_sorted_iff hq hs hM
    rw [hiff, endsFold_succ]
    have hends : ∀ v : Int, v ≤ 0 → (Foldable (t + 2) (mergeHalves (t + 1)
          (fun x => (m₁ (0 + x)).key < v) fun x => (m₂ (2 ^ (t + 1) + x)).key < v) ↔
        Foldable (t + 2) (mergeHalves (t + 1) (endsBelow M 0 (2 ^ t) v)
          (endsBelow M (2 ^ (t + 1)) (2 ^ t) v))) := fun v hv =>
      foldable_mergeHalves_congr (fun x hx => half_below_iff h₁ hv (hp ▸ hx))
        fun x hx => half_below_iff h₂ hv (hp ▸ hx)
    constructor
    · intro h v hv
      exact (hends v hv).1 (h v)
    · intro h v
      rcases lt_or_ge 0 v with hv | hv
      · exact foldable_mergeHalves (half_below_foldable h₁.toIntSorted hv)
          (half_below_foldable h₂.toIntSorted hv)
      · exact (hends v hv).2 (h v hv)

end

end Pthread
