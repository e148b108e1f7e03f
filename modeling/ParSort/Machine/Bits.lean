import Mathlib.Data.Nat.Bitwise
import Mathlib.Data.Nat.Factorization.Basic
import Mathlib.Tactic.Common

/-!
# The bit tricks `i ^ j` and `i & k` for powers of two

`i ^ 2 ^ t` moves `i` by `2 ^ t`, up when bit `t` of `i` is clear and down when it is set;
`i & 2 ^ s` reads bit `s`.
-/

namespace Machine

variable {x b i s t : Nat}

theorem xor_one (q : Nat) : q ^^^ 1 = if q % 2 = 0 then q + 1 else q - 1 := by
  have hd : (q ^^^ 1) / 2 ^ 1 = q / 2 ^ 1 ^^^ 1 / 2 ^ 1 := Nat.xor_div_two_pow
  have hm : (q ^^^ 1) % 2 ^ 1 = q % 2 ^ 1 ^^^ 1 % 2 ^ 1 := Nat.xor_mod_two_pow
  rw [show 1 / 2 ^ 1 = 0 from rfl, Nat.xor_zero] at hd
  rw [show 1 % 2 ^ 1 = 1 from rfl, pow_one] at hm
  rcases Nat.mod_two_eq_zero_or_one q with h | h
  · rw [h, show 0 ^^^ 1 = 1 from rfl] at hm
    rw [if_pos h]
    omega
  · rw [h, show 1 ^^^ 1 = 0 from rfl] at hm
    rw [if_neg (by omega)]
    omega

theorem xor_two_pow_div (x t : Nat) : (x ^^^ 2 ^ t) / 2 ^ t = x / 2 ^ t ^^^ 1 := by
  rw [Nat.xor_div_two_pow, Nat.div_self (Nat.two_pow_pos t)]

theorem xor_two_pow_mod (x t : Nat) : (x ^^^ 2 ^ t) % 2 ^ t = x % 2 ^ t := by
  rw [Nat.xor_mod_two_pow, Nat.mod_self, Nat.xor_zero]

/-- Bit `t` clear: up. -/
theorem xor_two_pow_of_clear (h : x / 2 ^ t % 2 = 0) : x ^^^ 2 ^ t = x + 2 ^ t := by
  rw [← Nat.div_add_mod (x ^^^ 2 ^ t) (2 ^ t), xor_two_pow_div, xor_two_pow_mod, xor_one, if_pos h,
    Nat.mul_succ]
  have := Nat.div_add_mod x (2 ^ t)
  omega

/-- Bit `t` set: down. -/
theorem xor_two_pow_of_set (h : x / 2 ^ t % 2 = 1) : (x ^^^ 2 ^ t) + 2 ^ t = x := by
  obtain ⟨q, hq⟩ : ∃ q, x / 2 ^ t = q + 1 := by
    refine Nat.exists_eq_succ_of_ne_zero fun h0 => ?_
    rw [h0] at h
    exact absurd h (by decide)
  have hne : ¬x / 2 ^ t % 2 = 0 := by
    rw [h]
    decide
  have hx := Nat.div_add_mod x (2 ^ t)
  have hxor : x ^^^ 2 ^ t = 2 ^ t * q + x % 2 ^ t := by
    rw [← Nat.div_add_mod (x ^^^ 2 ^ t) (2 ^ t), xor_two_pow_div, xor_two_pow_mod, xor_one,
      if_neg hne, hq, Nat.add_sub_cancel]
  rw [hq, Nat.mul_succ] at hx
  omega

theorem lt_xor_iff : x < x ^^^ 2 ^ t ↔ x / 2 ^ t % 2 = 0 := by
  have hp := Nat.two_pow_pos t
  rcases Nat.mod_two_eq_zero_or_one (x / 2 ^ t) with h | h
  · rw [xor_two_pow_of_clear h]
    omega
  · have := xor_two_pow_of_set h
    omega

theorem and_two_pow_eq_zero_iff : x &&& 2 ^ s = 0 ↔ x / 2 ^ s % 2 = 0 := by
  rw [Nat.and_two_pow, Nat.testBit_eq_decide_div_mod_eq]
  have hp := Nat.two_pow_pos s
  rcases Nat.mod_two_eq_zero_or_one (x / 2 ^ s) with h | h
  · simp [h]
  · simp [h]

/-! ## Aligned blocks -/

/-- The positions of an aligned block share the block's number. -/
theorem div_eq_of_mem_block (hb : 2 ^ s ∣ b) (h1 : b ≤ x) (h2 : x < b + 2 ^ s) :
    x / 2 ^ s = b / 2 ^ s := by
  obtain ⟨c, rfl⟩ := hb
  have hp := Nat.two_pow_pos s
  rw [Nat.mul_div_cancel_left c hp]
  refine Nat.div_eq_of_lt_le ?_ ?_
  · rw [Nat.mul_comm]
    exact h1
  · rw [Nat.mul_comm, Nat.mul_succ]
    exact h2

theorem mem_block_of_div_eq (hb : 2 ^ s ∣ b) (h : x / 2 ^ s = b / 2 ^ s) :
    b ≤ x ∧ x < b + 2 ^ s := by
  obtain ⟨c, rfl⟩ := hb
  have hp := Nat.two_pow_pos s
  rw [Nat.mul_div_cancel_left c hp] at h
  have hx := Nat.div_add_mod x (2 ^ s)
  have hm := Nat.mod_lt x hp
  rw [h] at hx
  omega

/-- Flipping a bit below `2 ^ s` stays in the aligned block of `2 ^ s` positions. -/
theorem xor_mem_block (ht : t < s) (hb : 2 ^ s ∣ b) (h1 : b ≤ x) (h2 : x < b + 2 ^ s) :
    b ≤ x ^^^ 2 ^ t ∧ x ^^^ 2 ^ t < b + 2 ^ s := by
  refine mem_block_of_div_eq hb ?_
  rw [Nat.xor_div_two_pow, Nat.div_eq_of_lt (Nat.pow_lt_pow_right (by decide) ht), Nat.xor_zero,
    div_eq_of_mem_block hb h1 h2]

/-- In the lower half of an aligned block of `2 ^ (t + 1)` positions, bit `t` is clear. -/
theorem clear_of_low (hb : 2 ^ (t + 1) ∣ b) (hi : i < 2 ^ t) : (b + i) / 2 ^ t % 2 = 0 := by
  obtain ⟨c, rfl⟩ := hb
  rw [pow_succ, Nat.mul_assoc, Nat.mul_add_div (Nat.two_pow_pos t), Nat.div_eq_of_lt hi]
  omega

/-! ## Lengths that are no power of two -/

/-- A length that is no power of two is `2 ^ t` times an odd number from 3 on. -/
theorem exists_odd_part {n : Nat} (h1 : 1 ≤ n) (hn : ∀ m, n ≠ 2 ^ m) :
    ∃ t c, n = 2 ^ t * (2 * c + 1) ∧ 1 ≤ c := by
  obtain ⟨t, q, hq, rfl⟩ := Nat.exists_eq_two_pow_mul_odd (Nat.pos_iff_ne_zero.1 h1)
  obtain ⟨c, rfl⟩ := hq
  refine ⟨t, c, rfl, Nat.pos_of_ne_zero fun h0 => hn t ?_⟩
  rw [h0, Nat.mul_zero, Nat.zero_add, Nat.mul_one]

/-- With `n = 2 ^ t * odd`, the partner of the index `n - 2 ^ t` in the pass `j = 2 ^ t` is `n`. -/
theorem last_block_partner {t c : Nat} :
    2 ^ t * (2 * c) < 2 ^ t * (2 * c) ^^^ 2 ^ t ∧
      2 ^ t * (2 * c) ^^^ 2 ^ t = 2 ^ t * (2 * c + 1) := by
  have hclear : 2 ^ t * (2 * c) / 2 ^ t % 2 = 0 := by
    rw [Nat.mul_div_cancel_left _ (Nat.two_pow_pos t)]
    omega
  refine ⟨lt_xor_iff.2 hclear, ?_⟩
  rw [xor_two_pow_of_clear hclear, Nat.mul_succ]

end Machine
