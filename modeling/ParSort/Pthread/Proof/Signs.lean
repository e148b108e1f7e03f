import Mathlib.Data.Nat.Log
import ParSort.Driver.Proof.Compare
import ParSort.Machine.Proof.Qsort
import ParSort.Pthread.Proof.Zeros

/-!
# The sign bits `pthread_sort` copes with

The quarters are sorted by their bits, the merges compare floats. An array is sorted exactly when
its ends fold (`sorted_iff_endsFold`). `SignsFit` is what that means for the signs alone: one of the
two quarters of a half has no negative value, or the negative values of both add up to a power of
two. Then the ends fold whatever the values (`endsFold_of_signsFit`). If the signs do not fit, some
values with these signs overlap (`exists_overlaps`) and come out unsorted.
-/

namespace Pthread

open Conc Net

/-- How many of the positions have `σ`. -/
def negatives (σ : Nat → Bool) (lo cnt : Nat) : Nat := (List.range' lo cnt).countP σ

/-- The sign bits `σ` of the quarters `[lo, lo + k)` and `[lo + k, lo + 2 * k)` do no harm. -/
def SignsFit (σ : Nat → Bool) (lo k : Nat) : Prop :=
  negatives σ lo k = 0 ∨ negatives σ (lo + k) k = 0 ∨
    ∃ r, negatives σ lo k + negatives σ (lo + k) k = 2 ^ r

/-- The sign bits of a slice. -/
theorem slice_sign {σ : Nat → Bool} {m : Mem Nat F32} {lo k : Nat}
    (h : ∀ i ∈ Set.Ico lo (lo + k), (m i).sign = σ i) :
    (slice m lo k).countP F32.sign = negatives σ lo k := by
  rw [slice, List.countP_map, negatives]
  refine List.countP_congr fun i hi => ?_
  rw [Function.comp_apply, h i (by simpa [List.mem_range'_1] using hi)]

section
variable {m : Mem Nat F32} {lo k t : Nat} {v : Int}

theorem countP_below_le (hv : v ≤ 0) :
    (slice m lo k).countP (below v) ≤ (slice m lo k).countP F32.sign :=
  (count_closeToZero hv lo k).2

/-! ## Signs that fit -/

theorem foldable_endsBelow {σ : Nat → Bool}
    (hσ : ∀ i ∈ Set.Ico lo (lo + 2 ^ (t + 1)), (m i).sign = σ i) (hfit : SignsFit σ lo (2 ^ t))
    (hv : v ≤ 0) : Foldable (t + 1) (endsBelow m lo (2 ^ t) v) := by
  have hp : 2 ^ (t + 1) = 2 ^ t + 2 ^ t := by omega
  have hpos := Nat.two_pow_pos t
  have hN0 : (slice m lo (2 ^ t)).countP F32.sign = negatives σ lo (2 ^ t) :=
    slice_sign fun i hi => hσ i ⟨hi.1, by have := hi.2; omega⟩
  have hN1 : (slice m (lo + 2 ^ t) (2 ^ t)).countP F32.sign = negatives σ (lo + 2 ^ t) (2 ^ t) :=
    slice_sign fun i hi => hσ i ⟨by have := hi.1; omega, by have := hi.2; omega⟩
  have hle0 : (slice m lo (2 ^ t)).countP F32.sign ≤ 2 ^ t := slice_countP_le
  have hle1 : (slice m (lo + 2 ^ t) (2 ^ t)).countP F32.sign ≤ 2 ^ t := slice_countP_le
  rw [SignsFit, ← hN0, ← hN1] at hfit
  rw [endsBelow, ← hp]
  exact foldable_ends (countP_below_le hv) (countP_below_le hv) (by omega) hfit

/-- **Signs that fit**: the ends fold whatever the values. -/
theorem endsFold_of_signsFit {σ : Nat → Bool} {s : Nat} (hσ : ∀ i < 2 ^ s, (m i).sign = σ i)
    (h0 : SignsFit σ 0 (2 ^ s / 4)) (h1 : SignsFit σ (2 ^ s / 2) (2 ^ s / 4)) : EndsFold s m := by
  match s with
  | 0 => exact endsFold_zero m
  | 1 => exact endsFold_one m
  | t + 2 =>
    obtain ⟨h4, h2⟩ := quarter_eq t
    have hp : 2 ^ (t + 2) = 2 ^ (t + 1) + 2 ^ (t + 1) := by rw [pow_succ, Nat.mul_two]
    rw [h4] at h0 h1
    rw [h2] at h1
    refine endsFold_succ.2 fun v hv => foldable_mergeHalves ?_ ?_
    · refine foldable_endsBelow (fun i hi => hσ i (hi.2.trans_le ?_)) h0 hv
      rw [hp, Nat.zero_add]
      exact Nat.le_add_right _ _
    · exact foldable_endsBelow (fun i hi => hσ i (hi.2.trans_le hp.ge)) h1 hv

/-! ## Values that overlap -/

/-- The negative values of the two quarters do not add up to a power of two, and those below `v`
are one too many to pass each other in the fold. -/
def Overlaps (m : Mem Nat F32) (lo k : Nat) (v : Int) : Prop :=
  let N := (slice m lo k).countP F32.sign + (slice m (lo + k) k).countP F32.sign
  let b₀ := (slice m lo k).countP (below v)
  let b₁ := (slice m (lo + k) k).countP (below v)
  ∃ i, 2 ^ i < N ∧ N < 2 ^ (i + 1) ∧ 1 ≤ b₀ ∧ 1 ≤ b₁ ∧ b₀ + b₁ = N - 2 ^ i + 1

theorem Overlaps.not_foldable (hover : Overlaps m lo (2 ^ t) v) (hv : v ≤ 0) :
    ¬Foldable (t + 1) (mergeZeros (t + 1) (endsBelow m lo (2 ^ t) v)) ∧
      ¬Foldable (t + 1) (mergeZeros (t + 1) fun x => ¬endsBelow m lo (2 ^ t) v x) := by
  have hp : 2 ^ (t + 1) = 2 ^ t + 2 ^ t := by omega
  obtain ⟨i, hlt, hgt, hb0, hb1, hb⟩ := hover
  have hle0 : (slice m lo (2 ^ t)).countP F32.sign ≤ 2 ^ t := slice_countP_le
  have hle1 : (slice m (lo + 2 ^ t) (2 ^ t)).countP F32.sign ≤ 2 ^ t := slice_countP_le
  have hi : i + 1 ≤ t + 1 :=
    (Nat.pow_lt_pow_iff_right (by decide : 1 < 2)).1 (show 2 ^ i < 2 ^ (t + 1) by omega)
  simp only [endsBelow]
  rw [← hp]
  exact not_foldable_mergeZeros_ends (countP_below_le hv) (countP_below_le hv) hb0 hb1 hi hlt hgt hb

theorem not_endsBelow (h : ∀ i ∈ Set.Ico lo (lo + (k + k)), below v (m i) = false) (x : Nat) :
    ¬endsBelow m lo k v x := by
  have hzero : ∀ lo', lo ≤ lo' → lo' + k ≤ lo + (k + k) → (slice m lo' k).countP (below v) = 0 := by
    intro lo' h1 h2
    refine List.countP_eq_zero.2 fun a ha => ?_
    obtain ⟨i, hi, rfl⟩ := mem_slice.1 ha
    rw [h i ⟨by have := hi.1; omega, by have := hi.2; omega⟩]
    exact Bool.false_ne_true
  rw [endsBelow, hzero lo (Nat.le_refl lo) (by omega), hzero (lo + k) (by omega) (by omega), Ends]
  omega

/-- The first half overlaps, the second one has nothing below the bound. -/
theorem Overlaps.not_endsFold_first (hover : Overlaps m 0 (2 ^ t) v) (hv : v ≤ 0)
    (h : ∀ i, 2 ^ t + 2 ^ t ≤ i → below v (m i) = false) : ¬EndsFold (t + 2) m := by
  have hp : 2 ^ (t + 1) = 2 ^ t + 2 ^ t := by omega
  intro hfold
  refine (hover.not_foldable hv).1 ((endsFold_succ.1 hfold v hv).of_mergeHalves_left fun x _ => ?_)
  exact not_endsBelow (fun i hi => h i (hp ▸ hi.1)) x

/-- The second half overlaps, the first one has nothing below the bound. -/
theorem Overlaps.not_endsFold_second (hover : Overlaps m (2 ^ (t + 1)) (2 ^ t) v) (hv : v ≤ 0)
    (h : ∀ i, i < 2 ^ (t + 1) → below v (m i) = false) : ¬EndsFold (t + 2) m := by
  have hp : 2 ^ (t + 1) = 2 ^ t + 2 ^ t := by omega
  intro hfold
  refine (hover.not_foldable hv).2 ((endsFold_succ.1 hfold v hv).of_mergeHalves_right fun x _ => ?_)
  refine not_endsBelow (fun i hi => h i ?_) x
  have := hi.2
  omega

end

/-! ## Values for signs that do not fit -/

/-- `1.0` -/
def one : F32 := ⟨0x3F800000⟩

/-- `-1.0` -/
def minusOne : F32 := ⟨0xBF800000⟩

/-- `-2.0` -/
def minusTwo : F32 := ⟨0xC0000000⟩

/-- The first `b₀` and `b₁` negative values of the two quarters at `lo` are `-2.0`, the others
`-1.0`; `1.0` elsewhere. -/
def firstLow (σ : Nat → Bool) (lo k b₀ b₁ : Nat) : Mem Nat F32 := fun i =>
  if σ i then
    if i < lo then minusOne
    else if i < lo + k then if negatives σ lo (i - lo) < b₀ then minusTwo else minusOne
    else if i < lo + k + k then
      if negatives σ (lo + k) (i - (lo + k)) < b₁ then minusTwo else minusOne
    else minusOne
  else one

section
variable {σ : Nat → Bool} {lo k b₀ b₁ : Nat}

theorem countP_first (b : Nat) : (List.range' lo k).countP
    (fun i => σ i && decide (negatives σ lo (i - lo) < b)) = min b (negatives σ lo k) := by
  induction k with
  | zero => exact (Nat.min_zero b).symm
  | succ k ih =>
    have hsucc : negatives σ lo (k + 1) = negatives σ lo k + if σ (lo + k) then 1 else 0 := by
      rw [negatives, List.range'_1_concat, List.countP_append, List.countP_singleton]
      rfl
    rw [List.range'_1_concat, List.countP_append, List.countP_singleton, ih, hsucc,
      Nat.add_sub_cancel_left]
    cases σ (lo + k) with
    | false => simp
    | true =>
      simp only [Bool.true_and, decide_eq_true_eq, if_true]
      split <;> omega

theorem firstLow_sign (i : Nat) : (firstLow σ lo k b₀ b₁ i).sign = σ i := by
  unfold firstLow
  cases hσ : σ i with
  | false =>
    rw [if_neg Bool.false_ne_true]
    rfl
  | true =>
    rw [if_pos rfl]
    (repeat' split) <;> rfl

theorem firstLow_isNum (i : Nat) : (firstLow σ lo k b₀ b₁ i).IsNum := by
  unfold firstLow
  (repeat' split) <;> rfl

/-- The bound between `-2.0` and `-1.0`. -/
theorem below_minusOne (i : Nat) : below minusOne.key (firstLow σ lo k b₀ b₁ i) = true ↔
    σ i = true ∧ (lo ≤ i ∧ i < lo + k ∧ negatives σ lo (i - lo) < b₀ ∨
      lo + k ≤ i ∧ i < lo + k + k ∧ negatives σ (lo + k) (i - (lo + k)) < b₁) := by
  have h1 : below minusOne.key minusOne = false := by decide
  have h2 : below minusOne.key minusTwo = true := by decide
  have h3 : below minusOne.key one = false := by decide
  unfold firstLow
  (repeat' split) <;> simp only [h1, h2, h3, Bool.false_eq_true, false_iff, true_iff] <;> grind

/-- Only in the two quarters. -/
theorem not_below_outside {i : Nat} (h : i < lo ∨ lo + k + k ≤ i) :
    below minusOne.key (firstLow σ lo k b₀ b₁ i) = false := by
  rw [← Bool.not_eq_true, below_minusOne]
  omega

theorem count_first : (slice (firstLow σ lo k b₀ b₁) lo k).countP (below minusOne.key) =
    min b₀ (negatives σ lo k) := by
  rw [slice, List.countP_map, ← countP_first]
  refine List.countP_congr fun i hi => ?_
  rw [List.mem_range'_1] at hi
  rw [Function.comp_apply, below_minusOne, Bool.and_eq_true, decide_eq_true_eq]
  exact and_congr_right fun _ => by omega

theorem count_second : (slice (firstLow σ lo k b₀ b₁) (lo + k) k).countP (below minusOne.key) =
    min b₁ (negatives σ (lo + k) k) := by
  rw [slice, List.countP_map, ← countP_first]
  refine List.countP_congr fun i hi => ?_
  rw [List.mem_range'_1] at hi
  rw [Function.comp_apply, below_minusOne, Bool.and_eq_true, decide_eq_true_eq]
  exact and_congr_right fun _ => by omega

/-- **Signs that do not fit** have values that overlap. -/
theorem exists_overlaps (h : ¬SignsFit σ lo k) :
    ∃ b₀ b₁, Overlaps (firstLow σ lo k b₀ b₁) lo k minusOne.key := by
  simp only [SignsFit, not_or, not_exists] at h
  obtain ⟨h0, h1, hpow⟩ := h
  generalize hN₀ : negatives σ lo k = N₀ at *
  generalize hN₁ : negatives σ (lo + k) k = N₁ at *
  have hle := Nat.pow_log_le_self 2 (show N₀ + N₁ ≠ 0 by omega)
  have hgt := Nat.lt_pow_succ_log_self (by decide : 1 < 2) (N₀ + N₁)
  have hne := hpow (Nat.log 2 (N₀ + N₁))
  have hpos := Nat.two_pow_pos (Nat.log 2 (N₀ + N₁))
  generalize Nat.log 2 (N₀ + N₁) = i at *
  -- as many as possible in the first quarter, the rest in the second
  refine ⟨min N₀ (N₀ + N₁ - 2 ^ i), N₀ + N₁ - 2 ^ i + 1 - min N₀ (N₀ + N₁ - 2 ^ i), i, ?_⟩
  rw [count_first, count_second, slice_sign fun i _ => firstLow_sign i,
    slice_sign fun i _ => firstLow_sign i, hN₀, hN₁]
  generalize 2 ^ (i + 1) = b at *
  generalize 2 ^ i = a at *
  omega

end

theorem exists_not_endsFold {σ : Nat → Bool} {s : Nat}
    (h : ¬(SignsFit σ 0 (2 ^ s / 4) ∧ SignsFit σ (2 ^ s / 2) (2 ^ s / 4))) :
    ∃ M : Mem Nat F32, NaNFree M 0 (2 ^ s) ∧ (∀ i, (M i).sign = σ i) ∧ ¬EndsFold s M := by
  have hzero : ∀ lo, SignsFit σ lo 0 := fun lo => .inl rfl
  have hv : minusOne.key ≤ 0 := by decide
  match s with
  | 0 => exact absurd ⟨hzero _, hzero _⟩ h
  | 1 => exact absurd ⟨hzero _, hzero _⟩ h
  | t + 2 =>
    have hp : 2 ^ (t + 1) = 2 ^ t + 2 ^ t := by omega
    obtain ⟨h4, h2⟩ := quarter_eq t
    rw [h4, h2, not_and_or] at h
    rcases h with h | h
    · obtain ⟨b₀, b₁, hover⟩ := exists_overlaps h
      exact ⟨_, fun i _ => firstLow_isNum i, firstLow_sign,
        hover.not_endsFold_first hv fun i hi => not_below_outside (.inr (by omega))⟩
    · obtain ⟨b₀, b₁, hover⟩ := exists_overlaps h
      exact ⟨_, fun i _ => firstLow_isNum i, firstLow_sign,
        hover.not_endsFold_second hv fun i hi => not_below_outside (.inl hi)⟩

/-! ## The reference -/

/-- What `pthread_sort` is for: in every interleaving of its threads, the `n` cells end in ascending
float order, hold a permutation of what they held, and agree with the driver's `qsort`. -/
def SortsAsReference (qsort : Qsort) (n : Nat) (M : Mem Nat F32) : Prop :=
  (pthreadSort qsort n).Always (fun M' => Sorted M' 0 n ∧ (slice M' 0 n).Perm (slice M 0 n) ∧
    ∀ i < n, F32.eq (M' i) ((qsort Driver.compareFunction 0 n).exec M i) = true) M

section
variable {qsort : Qsort} (hq : Qsort.Spec qsort) (hs : Qsort.Sorts qsort)
include hq hs

theorem sortsAsReference_iff {n : Nat} {M : Mem Nat F32} (hM : NaNFree M 0 n) :
    SortsAsReference qsort n M ↔ Sorted ((pthreadSort qsort n).exec M) 0 n := by
  rw [SortsAsReference, pthreadSort_always_iff hq]
  refine and_iff_left_of_imp fun hsorted => ?_
  have hperm := BS_slice_perm hq ⟨0, n, ASCENDING, 0⟩ M
  refine ⟨hperm, fun i hi => ?_⟩
  exact Driver.reference_eq hq hs hM hsorted hperm i ⟨Nat.zero_le i, by rwa [Nat.zero_add]⟩

/-- An array is sorted when its ends fold; all arrays with given signs are when the signs fit. -/
theorem sortsAsReference_iff_endsFold {s : Nat} {M : Mem Nat F32} (hM : NaNFree M 0 (2 ^ s)) :
    SortsAsReference qsort (2 ^ s) M ↔ EndsFold s M :=
  (sortsAsReference_iff hq hs hM).trans (sorted_iff_endsFold hq hs hM)

end

/-- **The arrays `pthread_sort` sorts** are those whose ends fold below every bound; for all values
that signs `σ` may come with, these are the signs that fit in both halves. -/
theorem pthreadSort_signs_iff (qsort : Qsort) (hq : Qsort.Spec qsort) (hs : Qsort.Sorts qsort)
    (m : Nat) :
    (∀ M, NaNFree M 0 (2 ^ m) → (SortsAsReference qsort (2 ^ m) M ↔ EndsFold m M)) ∧
      ∀ σ : Nat → Bool, (∀ M, NaNFree M 0 (2 ^ m) → (∀ i < 2 ^ m, (M i).sign = σ i) →
        SortsAsReference qsort (2 ^ m) M) ↔
          SignsFit σ 0 (2 ^ m / 4) ∧ SignsFit σ (2 ^ m / 2) (2 ^ m / 4) := by
  refine ⟨fun M hM => sortsAsReference_iff_endsFold hq hs hM, fun σ => ⟨fun h => ?_, ?_⟩⟩
  · by_contra hfit
    obtain ⟨M, hM, hσ, hbad⟩ := exists_not_endsFold hfit
    exact hbad ((sortsAsReference_iff_endsFold hq hs hM).1 (h M hM fun i _ => hσ i))
  · rintro ⟨h0, h1⟩ M hM hσ
    exact (sortsAsReference_iff_endsFold hq hs hM).2 (endsFold_of_signsFit hσ h0 h1)

theorem pthreadSort_signs_eight :
    (∀ M, NaNFree M 0 (2 ^ 3) → (SortsAsReference exchangeSort (2 ^ 3) M ↔ EndsFold 3 M)) ∧
      ∀ σ : Nat → Bool, (∀ M, NaNFree M 0 (2 ^ 3) → (∀ i < 2 ^ 3, (M i).sign = σ i) →
        SortsAsReference exchangeSort (2 ^ 3) M) ↔
          SignsFit σ 0 (2 ^ 3 / 4) ∧ SignsFit σ (2 ^ 3 / 2) (2 ^ 3 / 4) :=
  pthreadSort_signs_iff exchangeSort exchangeSort_spec exchangeSort_sorts 3

/-- `-2 1 -2 -1 1 1 1 1`: three negative values in the first half. -/
def threeNegatives : Mem Nat F32 := fun i =>
  if i = 0 ∨ i = 2 then minusTwo else if i = 3 then minusOne else one

theorem not_pthreadSort_threeNegatives :
    NaNFree threeNegatives 0 (2 ^ 3) ∧ Qsort.Spec exchangeSort ∧ Qsort.Sorts exchangeSort ∧
      ¬SortsAsReference exchangeSort (2 ^ 3) threeNegatives := by
  have hM : NaNFree threeNegatives 0 (2 ^ 3) := fun i _ => by
    unfold threeNegatives
    (repeat' split) <;> rfl
  have hover : Overlaps threeNegatives 0 (2 ^ 1) minusOne.key := ⟨1, by decide⟩
  refine ⟨hM, exchangeSort_spec, exchangeSort_sorts, ?_⟩
  rw [sortsAsReference_iff_endsFold exchangeSort_spec exchangeSort_sorts hM]
  refine hover.not_endsFold_first (by decide) fun i hi => ?_
  have h4 : 4 ≤ i := hi
  rw [threeNegatives, if_neg (by omega), if_neg (by omega)]
  decide

end Pthread
