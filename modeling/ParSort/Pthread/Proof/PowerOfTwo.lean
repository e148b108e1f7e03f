import ParSort.Machine.Bits
import ParSort.Pthread.Proof.Signs

/-!
# The lengths `pthread_sort` works for

Without sign bits every power of two is sorted (`sorted_of_signClear`). Of `n = 2 ^ s * p` with `p`
odd the halving `cnt / 2` ends at slices of `p` cells, and drops the last one of each: the cells
`i ≡ p - 1 (mod p)` are exchanged only with one another. Invariant, `OnesOutside`: all other cells
hold `1.0`. The input with its only zero in the last cell is not sorted (`not_sorted_lastZero`).
-/

namespace Pthread

open Conc Net Machine

/-- No sign bit is set. -/
def SignClear (m : Mem Nat F32) (lo cnt : Nat) : Prop :=
  ∀ i ∈ Set.Ico lo (lo + cnt), (m i).sign = false

/-! ## Powers of two -/

theorem signsFit_false (lo k : Nat) : SignsFit (fun _ => false) lo k :=
  .inl (List.countP_eq_zero.2 fun _ _ => Bool.false_ne_true)

theorem sorted_of_signClear {qsort : Qsort} (hq : Qsort.Spec qsort) (hs : Qsort.Sorts qsort)
    {t : Nat} {M : Mem Nat F32} (hM : NaNFree M 0 (2 ^ t)) (hc : SignClear M 0 (2 ^ t)) :
    Sorted ((pthreadSort qsort (2 ^ t)).exec M) 0 (2 ^ t) := by
  have hσ : ∀ i < 2 ^ t, (M i).sign = false := fun i hi =>
    hc i ⟨Nat.zero_le i, by rwa [Nat.zero_add]⟩
  rw [sorted_iff_endsFold hq hs hM]
  exact endsFold_of_signsFit hσ (signsFit_false _ _) (signsFit_false _ _)

/-! ## All other lengths -/

/-- `0.0` -/
def zero : F32 := ⟨0⟩

/-- Ones, and a zero in the last of `n` cells. -/
def lastZero (n : Nat) : Mem Nat F32 := fun i => if i = n - 1 then zero else one

theorem two_pow_succ_mul (s p : Nat) : 2 ^ (s + 1) * p = 2 ^ s * p + 2 ^ s * p := by
  rw [pow_succ, Nat.mul_assoc, Nat.two_mul, Nat.mul_add]

/-- Only the cells `i ≡ p - 1 (mod p)` may hold something else than `1.0`. -/
def OnesOutside (p : Nat) (m : Mem Nat F32) : Prop := ∀ i, i % p ≠ p - 1 → m i = one

section
variable {p : Nat} {m m' : Mem Nat F32}

theorem OnesOutside.rearranges {S : Set Nat} (h : OnesOutside p m) (hr : Rearranges S m m')
    (hS : ∀ i ∈ S, i % p ≠ p - 1) : OnesOutside p m' := by
  intro i hi
  by_cases hiS : i ∈ S
  · obtain ⟨b, hb, e⟩ := hr.exists_eq hiS
    rw [e, h b (hS b hb)]
  · rw [hr.frame hiS, h i hi]

/-- The first `p - 1` cells of an aligned block of `p`. -/
theorem mod_ne_of_block {lo i : Nat} (hlo : p ∣ lo) (h1 : lo ≤ i) (h2 : i < lo + (p - 1)) :
    i % p ≠ p - 1 := by
  obtain ⟨c, rfl⟩ := hlo
  obtain ⟨x, rfl⟩ : ∃ x, i = p * c + x := ⟨i - p * c, by omega⟩
  rw [Nat.mul_add_mod, Nat.mod_eq_of_lt (by omega)]
  omega

/-- An exchange over a multiple of `p` stays among the cells `i ≡ p - 1`, or away from them. -/
theorem OnesOutside.compareAndSwap {k : Nat} (h : OnesOutside p m) (hk : p ∣ k) (i : Nat)
    (dir : Int) : OnesOutside p ((compareAndSwap i (i + k) dir).exec m) := by
  have hmod : (i + k) % p = i % p := by
    obtain ⟨c, rfl⟩ := hk
    rw [Nat.add_mul_mod_self_left]
  have hr : Rearranges ({i, i + k} : Set Nat) m ((Pthread.compareAndSwap i (i + k) dir).exec m) :=
    rearranges_swapIf (.inl rfl) (.inr rfl) _ m
  by_cases hi : i % p = p - 1
  · intro a ha
    rw [hr.frame]
    · exact h a ha
    · rintro (rfl | rfl)
      exacts [ha hi, ha (hmod.trans hi)]
  · refine h.rearranges hr ?_
    rintro a (rfl | rfl)
    exacts [hi, fun hc => hi (hmod.symm.trans hc)]

/-- **`merge` on `2 ^ s * p` cells** keeps the ones in their cells. The induction is on `s`; at
`s = 0` the halving drops the last cell. -/
theorem OnesOutside.merge (hodd : p % 2 = 1) {lo s : Nat} (h : OnesOutside p m) (hlo : p ∣ lo)
    (dir : Int) : OnesOutside p ((merge lo (2 ^ s * p) dir).exec m) := by
  induction s generalizing lo m with
  | zero =>
    refine h.rearranges (merge_rearranges lo (2 ^ 0 * p) dir m) fun i hi => ?_
    rw [pow_zero, Nat.one_mul] at hi
    exact mod_ne_of_block hlo hi.1 (by have := hi.2; omega)
  | succ s ih =>
    have hp := two_pow_succ_mul s p
    have hpos : 1 ≤ 2 ^ s * p := Nat.mul_pos (Nat.two_pow_pos s) (by omega)
    have hhalf : 2 ^ (s + 1) * p / 2 = 2 ^ s * p := by omega
    rw [Pthread.merge, if_pos (by omega)]
    simp only [hhalf, Prog.exec_seq]
    have hloop : OnesOutside p ((compareLoop lo (2 ^ s * p) dir).exec m) :=
      Prog.exec_forEach_induction (fun i _ m hm => hm.compareAndSwap (Nat.dvd_mul_left _ _) i dir) h
    exact ih (ih hloop hlo) (Nat.dvd_add hlo (Nat.dvd_mul_left _ _))

end

/-- A program that rearranges cells which all hold ones does nothing. -/
theorem eq_of_rearranges_ones {S : Set Nat} {m m' : Mem Nat F32} (h : Rearranges S m m')
    (hm : ∀ i ∈ S, m i = one) : m' = m := by
  funext i
  by_cases hi : i ∈ S
  · obtain ⟨b, hb, e⟩ := h.exists_eq hi
    rw [e, hm b hb, hm i hi]
  · exact h.frame hi

section
variable {qsort : Qsort} (hq : Qsort.Spec qsort) (hs : Qsort.Sorts qsort)
include hq hs

/-- Sorted in descending order, the zero stays in the last cell. -/
theorem qsort_desc_lastZero {lo cnt n : Nat} (hcnt : 1 ≤ cnt)
    (hn : lo + cnt = n) : (qsort desc lo cnt).exec (lastZero n) = lastZero n := by
  obtain ⟨σ, hσ, he⟩ := hq.rearranges desc lo cnt (lastZero n)
  have hmem : σ (n - 1) ∈ Set.Ico lo (lo + cnt) :=
    (perm_mem_of_fixes hσ).2 ⟨by omega, by omega⟩
  have hlast : σ (n - 1) = n - 1 := by
    by_contra hne
    -- the zero would be at an earlier cell, before the one that is now last
    obtain ⟨j, hj⟩ := σ.surjective (n - 1)
    have hjS : j ∈ Set.Ico lo (lo + cnt) := (perm_mem_of_fixes hσ).1 (hj ▸ ⟨by omega, by omega⟩)
    have hjlast : j ≠ n - 1 := fun e => hne (e ▸ hj)
    have hle := hs desc lo cnt (lastZero n) (desc_isPreorder _) j (n - 1) hjS.1
      (by have := hjS.2; omega) (by omega)
    rw [desc_le_iff, he, Function.comp_apply, Function.comp_apply, hj, lastZero, lastZero,
      if_pos rfl, if_neg hne] at hle
    exact absurd hle (by decide)
  rw [he]
  funext i
  rw [Function.comp_apply, lastZero, lastZero]
  refine if_congr ?_ rfl rfl
  constructor
  · intro h
    exact σ.injective (h.trans hlast.symm)
  · rintro rfl
    exact hlast

/-- The second half keeps the ones in their cells. -/
theorem half_onesOutside {p s : Nat} (hodd : p % 2 = 1) {n : Nat} (hn : n = 2 ^ s * p + 2 ^ s * p)
    (h : OnesOutside p (lastZero n)) : OnesOutside p
      ((BS qsort ⟨2 ^ s * p, 2 ^ s * p, DESCENDING, 1⟩).exec (lastZero n)) := by
  cases s with
  | zero =>
    refine h.rearranges (BS_rearranges hq ⟨2 ^ 0 * p, 2 ^ 0 * p, DESCENDING, 1⟩ _) fun i hi => ?_
    simp only [pow_zero, Nat.one_mul] at hi
    exact mod_ne_of_block (Nat.dvd_refl p) hi.1 (by have := hi.2; omega)
  | succ s =>
    have hquarter : 2 ^ (s + 1) * p = 2 ^ s * p + 2 ^ s * p := two_pow_succ_mul s p
    have hpos : 1 ≤ 2 ^ s * p := Nat.mul_pos (Nat.two_pow_pos s) (by omega)
    have hhalf : 2 ^ (s + 1) * p / 2 = 2 ^ s * p := by omega
    rw [BS, if_pos (by dsimp only; omega)]
    simp only [hhalf]
    rw [if_pos (by decide), Prog.exec_seq, Prog.exec_seq, BM_eq_merge]
    have hones : (qsort asc (2 ^ (s + 1) * p) (2 ^ s * p)).exec (lastZero n) = lastZero n :=
      eq_of_rearranges_ones (hq.rearranges asc _ _ _) fun i hi =>
        if_neg (by have := hi.2; omega)
    rw [hones, qsort_desc_lastZero hq hs hpos (by omega)]
    exact h.merge hodd (Nat.dvd_mul_left _ _) _

theorem pthreadSort_onesOutside {p s : Nat} (hodd : p % 2 = 1)
    (h : OnesOutside p (lastZero (2 ^ s * p))) :
    OnesOutside p ((pthreadSort qsort (2 ^ s * p)).exec (lastZero (2 ^ s * p))) := by
  cases s with
  | zero =>
    refine h.rearranges (BS_rearranges hq ⟨0, 2 ^ 0 * p, ASCENDING, 0⟩ _) fun i hi => ?_
    simp only [pow_zero, Nat.one_mul, Nat.zero_add] at hi
    exact mod_ne_of_block (Nat.dvd_zero p) hi.1 (by have := hi.2; omega)
  | succ s =>
    have hn : 2 ^ (s + 1) * p = 2 ^ s * p + 2 ^ s * p := two_pow_succ_mul s p
    have hpos : 1 ≤ 2 ^ s * p := Nat.mul_pos (Nat.two_pow_pos s) (by omega)
    have hhalf : 2 ^ (s + 1) * p / 2 = 2 ^ s * p := by omega
    rw [pthreadSort_exec, sequentialSort, hhalf, if_pos (by omega), Prog.exec_seq, Prog.exec_seq,
      BM_eq_merge]
    -- the first thread finds ones only
    have hones : (BS qsort ⟨0, 2 ^ s * p, ASCENDING, 1⟩).exec (lastZero (2 ^ (s + 1) * p)) =
        lastZero (2 ^ (s + 1) * p) :=
      eq_of_rearranges_ones (BS_rearranges hq ⟨0, 2 ^ s * p, ASCENDING, 1⟩ _) fun i hi =>
        if_neg (by have := hi.2; dsimp only at this; omega)
    rw [hones]
    exact (half_onesOutside hq hs hodd hn h).merge hodd (Nat.dvd_zero p) _

/-- A length with an odd part `p` from 3 on: the zero never reaches cell 0. -/
theorem not_sorted_lastZero {c s : Nat} (hc : 1 ≤ c) :
    ¬Sorted ((pthreadSort qsort (2 ^ s * (2 * c + 1))).exec (lastZero (2 ^ s * (2 * c + 1)))) 0
      (2 ^ s * (2 * c + 1)) := by
  have hpos : 1 ≤ 2 ^ s := Nat.two_pow_pos s
  have hcnt : 2 * c + 1 ≤ 2 ^ s * (2 * c + 1) := Nat.le_mul_of_pos_left _ hpos
  have h : OnesOutside (2 * c + 1) (lastZero (2 ^ s * (2 * c + 1))) := fun i hi => by
    refine if_neg fun e => hi ?_
    obtain ⟨k, hk⟩ : ∃ k, 2 ^ s = k + 1 := ⟨2 ^ s - 1, by omega⟩
    rw [e, hk, Nat.succ_mul, Nat.add_sub_assoc (by omega), Nat.mul_comm, Nat.mul_add_mod,
      Nat.mod_eq_of_lt (by omega)]
  have hones := pthreadSort_onesOutside hq hs (by omega) h
  have hperm := BS_slice_perm hq ⟨0, 2 ^ s * (2 * c + 1), ASCENDING, 0⟩
    (lastZero (2 ^ s * (2 * c + 1)))
  rw [← pthreadSort] at hperm
  generalize (pthreadSort qsort (2 ^ s * (2 * c + 1))).exec _ = m' at hones hperm
  have h0 : m' 0 = one := hones 0 (by rw [Nat.zero_mod]; omega)
  have hzero : zero ∈ slice (lastZero (2 ^ s * (2 * c + 1))) 0 (2 ^ s * (2 * c + 1)) :=
    mem_slice.2 ⟨2 ^ s * (2 * c + 1) - 1, ⟨Nat.zero_le _, by omega⟩, if_pos rfl⟩
  obtain ⟨j, hj, hj0⟩ := mem_slice.1 (hperm.mem_iff.2 hzero)
  intro hsorted
  rcases Nat.eq_zero_or_pos j with rfl | hjpos
  · rw [h0] at hj0
    exact absurd hj0 (by decide)
  · have := hsorted 0 j (Nat.le_refl 0) hjpos hj.2
    rw [h0, hj0] at this
    exact absurd this (by decide)

end

/-! ## Exactly the powers of two -/

/-- **The lengths of `pthread_sort`**: it sorts every array without NaNs and sign bits exactly when
the length is a power of two, and for any other length there is one it leaves out of order. -/
theorem pthreadSort_sorts_iff (qsort : Qsort) (hq : Qsort.Spec qsort) (hs : Qsort.Sorts qsort)
    (n : Nat) (h1 : 1 ≤ n) :
    ((∀ M, NaNFree M 0 n → SignClear M 0 n → (pthreadSort qsort n).Always (fun M' =>
        Sorted M' 0 n ∧ (slice M' 0 n).Perm (slice M 0 n)) M) ↔ ∃ m, n = 2 ^ m) ∧
      ((¬∃ m, n = 2 ^ m) → ∃ M, NaNFree M 0 n ∧ SignClear M 0 n ∧
        (pthreadSort qsort n).Always (fun M' => ¬Sorted M' 0 n) M) := by
  have hbad : (¬∃ m, n = 2 ^ m) → ∃ M, NaNFree M 0 n ∧ SignClear M 0 n ∧
      (pthreadSort qsort n).Always (fun M' => ¬Sorted M' 0 n) M := by
    intro hn
    push Not at hn
    obtain ⟨s, c, rfl, hc⟩ := exists_odd_part h1 hn
    refine ⟨lastZero (2 ^ s * (2 * c + 1)), fun i _ => ?_, fun i _ => ?_, ?_⟩
    · unfold lastZero
      split <;> rfl
    · unfold lastZero
      split <;> rfl
    · rw [pthreadSort_always_iff hq]
      exact not_sorted_lastZero hq hs hc
  refine ⟨⟨fun h => ?_, ?_⟩, hbad⟩
  · by_contra hn
    obtain ⟨M, hM, hclear, hout⟩ := hbad hn
    rw [pthreadSort_always_iff hq] at hout
    exact hout ((pthreadSort_always_iff hq).1 (h M hM hclear)).1
  · rintro ⟨t, rfl⟩ M hM hclear
    rw [pthreadSort_always_iff hq]
    exact ⟨sorted_of_signClear hq hs hM hclear, BS_slice_perm hq _ M⟩

theorem pthreadSort_sorts_six :
    ((∀ M, NaNFree M 0 6 → SignClear M 0 6 → (pthreadSort exchangeSort 6).Always (fun M' =>
        Sorted M' 0 6 ∧ (slice M' 0 6).Perm (slice M 0 6)) M) ↔ ∃ m, 6 = 2 ^ m) ∧
      ((¬∃ m, 6 = 2 ^ m) → ∃ M, NaNFree M 0 6 ∧ SignClear M 0 6 ∧
        (pthreadSort exchangeSort 6).Always (fun M' => ¬Sorted M' 0 6) M) :=
  pthreadSort_sorts_iff exchangeSort exchangeSort_spec exchangeSort_sorts 6 (by decide)

end Pthread
