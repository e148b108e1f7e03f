import Mathlib.Tactic.Common
import Mathlib.Algebra.Order.Ring.Int
import Mathlib.Order.Interval.Set.Basic
import ParSort.Conc.Prog

/-!
# 32-bit floats as bit patterns

A `float` is its four bytes. Its comparisons go through the sign-magnitude value `key`, which orders
the bit patterns as the numbers they stand for (`-0` and `+0` have the same key, infinities are the
extremes) and are false on a NaN. `toInt` is the same four bytes read as a signed `int`.
-/

structure F32 where
  bits : BitVec 32
  deriving DecidableEq, Repr, Inhabited

namespace F32

/-- The sign bit. -/
def sign (x : F32) : Bool := x.bits.msb

/-- Exponent and mantissa. -/
def magnitude (x : F32) : Nat := x.bits.toNat % 2 ^ 31

/-- Exponent all ones and a nonzero mantissa. -/
def isNaN (x : F32) : Bool := 0x7F800000 < x.magnitude

/-- A number: the order of `key` applies. -/
def IsNum (x : F32) : Prop := x.isNaN = false

theorem not_isNum_nan : ¬IsNum ⟨0x7FC00000⟩ := by
  unfold IsNum
  decide

/-- The sign-magnitude value. -/
def key (x : F32) : Int := if x.sign then -x.magnitude else x.magnitude

/-- `x < y` -/
def lt (x y : F32) : Bool := !x.isNaN && !y.isNaN && x.key < y.key

/-- `x <= y` -/
def le (x y : F32) : Bool := !x.isNaN && !y.isNaN && x.key ≤ y.key

/-- `x > y` -/
def gt (x y : F32) : Bool := lt y x

/-- `x == y` -/
def eq (x y : F32) : Bool := !x.isNaN && !y.isNaN && x.key = y.key

/-- `x != y` -/
def ne (x y : F32) : Bool := !eq x y

/-- `*(int *)&x` -/
def toInt (x : F32) : Int := x.bits.toInt

/-- The key to sort by in a direction: ascending in `key`, or descending. -/
def dirKey (ascending : Bool) (x : F32) : Int := if ascending then x.key else -x.key

/-! ## The order of NaN-free floats -/

variable {x y : F32}

@[simp] theorem lt_iff (hx : x.IsNum) (hy : y.IsNum) :
    lt x y = true ↔ x.key < y.key := by
  rw [IsNum] at hx hy
  simp [lt, hx, hy]

@[simp] theorem gt_iff (hx : x.IsNum) (hy : y.IsNum) :
    gt x y = true ↔ y.key < x.key := lt_iff hy hx

@[simp] theorem le_iff (hx : x.IsNum) (hy : y.IsNum) :
    le x y = true ↔ x.key ≤ y.key := by
  rw [IsNum] at hx hy
  simp [le, hx, hy]

@[simp] theorem eq_iff (hx : x.IsNum) (hy : y.IsNum) :
    eq x y = true ↔ x.key = y.key := by
  rw [IsNum] at hx hy
  simp [eq, hx, hy]

/-- Only numbers are equal to anything. -/
theorem eq_iff_isNum : eq x y = true ↔ x.IsNum ∧ y.IsNum ∧ x.key = y.key := by
  simp [eq, IsNum, and_assoc]

theorem ne_eq_false_iff : ne x y = false ↔ eq x y = true := by simp [ne]

theorem gt_dirKey (hx : x.IsNum) (hy : y.IsNum) :
    (gt x y = true → dirKey true y ≤ dirKey true x) ∧
      (gt x y = false → dirKey true x ≤ dirKey true y) := by
  rw [Bool.eq_false_iff, ne_eq, gt_iff hx hy, dirKey, dirKey, if_pos rfl, if_pos rfl]
  omega

theorem lt_dirKey (hx : x.IsNum) (hy : y.IsNum) :
    (lt x y = true → dirKey false y ≤ dirKey false x) ∧
      (lt x y = false → dirKey false x ≤ dirKey false y) := by
  rw [Bool.eq_false_iff, ne_eq, lt_iff hx hy, dirKey, dirKey, if_neg (by decide),
    if_neg (by decide)]
  omega

theorem key_of_sign_clear (h : x.sign = false) : x.key = x.toInt := by
  have hb : x.bits.toNat < 2 ^ 31 := by
    have := BitVec.msb_eq_false_iff_two_mul_lt.1 h
    omega
  have hk : x.key = ((x.bits.toNat % 2 ^ 31 : Nat) : Int) := by
    rw [key, h]
    rfl
  rw [hk, toInt, Nat.mod_eq_of_lt hb, BitVec.toInt_eq_toNat_of_msb h]

theorem key_of_sign_set (h : x.sign = true) : x.key = -(x.toInt + 2 ^ 31) := by
  have hb : 2 ^ 31 ≤ x.bits.toNat := by
    have := BitVec.msb_eq_true_iff_two_mul_ge.1 h
    omega
  have hlt := x.bits.isLt
  have hk : x.key = -((x.bits.toNat % 2 ^ 31 : Nat) : Int) := by
    rw [key, h]
    rfl
  have hi : x.toInt = (x.bits.toNat : Int) - (2 : Int) ^ 32 := by
    rw [toInt, BitVec.toInt_eq_msb_cond]
    rw [sign] at h
    simp [h]
  rw [hk, hi]
  omega

theorem toInt_nonneg_iff : 0 ≤ x.toInt ↔ x.sign = false := by
  rw [toInt, sign, BitVec.msb_eq_toInt]
  simp

end F32

open Conc

/-- The cells `lo, …, lo + cnt - 1` hold no NaN. -/
def NaNFree (m : Mem Nat F32) (lo cnt : Nat) : Prop :=
  ∀ i ∈ Set.Ico lo (lo + cnt), (m i).IsNum

/-- The cells `lo, …, lo + cnt - 1` are in ascending float order. -/
def Sorted (m : Mem Nat F32) (lo cnt : Nat) : Prop :=
  ∀ i j, lo ≤ i → i < j → j < lo + cnt → F32.le (m i) (m j) = true

/-- The cells `lo, …, lo + cnt - 1` are in descending float order. -/
def SortedDown (m : Mem Nat F32) (lo cnt : Nat) : Prop :=
  ∀ i j, lo ≤ i → i < j → j < lo + cnt → F32.le (m j) (m i) = true

/-- The cells `lo, …, lo + cnt - 1` are in ascending or in descending float order. -/
def SortedIn (ascending : Bool) (m : Mem Nat F32) (lo cnt : Nat) : Prop :=
  if ascending then Sorted m lo cnt else SortedDown m lo cnt
