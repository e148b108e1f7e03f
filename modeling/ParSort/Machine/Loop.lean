import Mathlib.Data.Nat.Log
import Mathlib.Tactic.Common
import Mathlib.Algebra.Order.Ring.Int
import Mathlib.Tactic.Positivity

/-!
# The doubling and halving loops on 32-bit `int`s

`kLoop` and `jLoop` run the control part of

    for (k = 2; k <= n; k <<= 1)
      for (j = k >> 1; j > 0; j = j >> 1)

on signed 32-bit integers, `k <<= 1` wrapping modulo `2 ^ 32`; `none` when the fuel is used up
before the loop ends. `loops` is the list of the `(k, j)` of the inner iterations.
-/

namespace Machine

/-- The value a signed 32-bit integer keeps of `x`. -/
def wrap32 (x : Int) : Int := x.bmod (2 ^ 32)

/-- `for (; j > 0; j = j >> 1)`: the values of `j` in the iterations entered. -/
def jLoop : Nat → Int → Option (List Int)
  | 0, _ => none
  | fuel + 1, j => if 0 < j then (jLoop fuel (j >>> (1 : Nat))).map (j :: ·) else some []

/-- `for (; k <= n; k <<= 1)` around the `j` loop: the pairs `(k, j)` of the inner iterations. -/
def kLoop (n : Int) : Nat → Int → Option (List (Int × Int))
  | 0, _ => none
  | fuel + 1, k =>
    if k ≤ n then do
      let js ← jLoop fuel (k >>> (1 : Nat))
      let rest ← kLoop n fuel (wrap32 (2 * k))
      some (js.map (k, ·) ++ rest)
    else some []

/-- The `(k, j)` of both loops. An inner iteration is entered only with `0 < j = k >> 1 >> …`, so
both are positive and their bits are those of a natural number. -/
def loops (fuel n : Nat) : Option (List (Nat × Nat)) :=
  (kLoop n fuel 2).map (·.map fun p => (p.1.toNat, p.2.toNat))

/-- The inner iterations of `k = 2 ^ s`: `j = 2 ^ (s - 1), …, 2, 1`. -/
def stage : Nat → List (Nat × Nat)
  | s => (List.range s).reverse.map fun t => (2 ^ s, 2 ^ t)

/-- The stages `k = 2, 4, …, 2 ^ m`. -/
def stages (m : Nat) : List (Nat × Nat) := (List.range' 1 m).flatMap stage

theorem mem_stages {m k j : Nat} :
    (k, j) ∈ stages m ↔ ∃ s t, t < s ∧ s ≤ m ∧ k = 2 ^ s ∧ j = 2 ^ t := by
  simp only [stages, stage, List.mem_flatMap, List.mem_range'_1, List.mem_map, List.mem_reverse,
    List.mem_range, Prod.mk.injEq]
  constructor
  · rintro ⟨s, ⟨_, hs⟩, t, ht, rfl, rfl⟩
    exact ⟨s, t, ht, by omega, rfl, rfl⟩
  · rintro ⟨s, t, ht, hs, rfl, rfl⟩
    exact ⟨s, ⟨by omega, by omega⟩, t, ht, rfl, rfl⟩

theorem stages_succ (m : Nat) : stages (m + 1) = stages m ++ stage (m + 1) := by
  rw [stages, List.range'_1_concat, List.flatMap_append, Nat.add_comm 1 m]
  simp [stages]

/-! ## Below `2 ^ 30` the counters do not wrap -/

theorem shiftRight_two_pow (s : Nat) : (2 ^ (s + 1) : Int) >>> (1 : Nat) = 2 ^ s := by
  rw [Int.shiftRight_eq_div_pow, pow_succ]
  exact Int.mul_ediv_cancel _ (by decide)

theorem jLoop_two_pow {s fuel : Nat} (h : s < fuel) :
    jLoop fuel ((2 ^ s : Int) >>> (1 : Nat)) =
      some ((List.range s).reverse.map fun t => (2 ^ t : Int)) := by
  induction s generalizing fuel with
  | zero =>
    obtain ⟨f, rfl⟩ : ∃ f, fuel = f + 1 := ⟨fuel - 1, by omega⟩
    rfl
  | succ s ih =>
    obtain ⟨f, rfl⟩ : ∃ f, fuel = f + 1 := ⟨fuel - 1, by omega⟩
    have hpos : (0 : Int) < 2 ^ s := by positivity
    rw [shiftRight_two_pow, jLoop, if_pos hpos, ih (by omega)]
    simp [List.range_succ]

theorem wrap32_two_pow {s : Nat} (h : s < 31) : wrap32 (2 ^ s) = 2 ^ s := by
  have hs : (2 ^ s : Int) ≤ 2 ^ 30 := pow_le_pow_right₀ (by decide) (by omega)
  have hp : (0 : Int) < 2 ^ s := by positivity
  rw [wrap32, Int.bmod_eq_of_le] <;> omega

theorem wrap32_double {s : Nat} (h : s < 30) : wrap32 (2 * 2 ^ s) = 2 ^ (s + 1) := by
  rw [← wrap32_two_pow (s := s + 1) (by omega), pow_succ, mul_comm]

/-- The stages `k = 2 ^ s, …, 2 ^ m`. -/
theorem kLoop_two_pow {n m : Nat} (hm : m < 30) (hn : n < 2 ^ (m + 1)) {s fuel : Nat}
    (hmn : m = 0 ∨ 2 ^ m ≤ n) (hs : 1 ≤ s) (hsm : s ≤ m + 1) (hf : 2 * m + 2 ≤ fuel + s) :
    kLoop n fuel (2 ^ s) = some ((List.range' s (m + 1 - s)).flatMap fun s =>
      (List.range s).reverse.map fun t => (2 ^ s, 2 ^ t)) := by
  obtain ⟨d, hd⟩ : ∃ d, d = m + 1 - s := ⟨_, rfl⟩
  induction d generalizing s fuel with
  | zero =>
    obtain ⟨f, rfl⟩ : ∃ f, fuel = f + 1 := ⟨fuel - 1, by omega⟩
    have hlt : ¬(2 ^ s : Int) ≤ n := by
      rw [show s = m + 1 by omega]
      exact_mod_cast Nat.not_le.2 hn
    rw [kLoop, if_neg hlt, ← hd]
    rfl
  | succ d ih =>
    obtain ⟨f, rfl⟩ : ∃ f, fuel = f + 1 := ⟨fuel - 1, by omega⟩
    have hle : (2 ^ s : Int) ≤ n := by
      have h1 : 2 ^ s ≤ 2 ^ m := Nat.pow_le_pow_right (by decide) (by omega)
      have h2 : 2 ^ m ≤ n := by
        rcases hmn with h | h
        · omega
        · exact h
      exact_mod_cast h1.trans h2
    rw [kLoop, if_pos hle, jLoop_two_pow (by omega), wrap32_double (by omega), ih (by omega)
      (by omega) (by omega) (by omega), ← hd, List.range'_succ, show m + 1 - (s + 1) = d by omega]
    simp

/-- **The loops of an `n` below `2 ^ 30`**: stages `k = 2, 4, …` up to the largest power of two
not above `n`. -/
theorem loops_eq {fuel n : Nat} (hn : n < 2 ^ 30) (hf : 64 ≤ fuel) :
    loops fuel n = some (stages (Nat.log 2 n)) := by
  have hlog : Nat.log 2 n < 30 := by
    rcases Nat.eq_zero_or_pos n with rfl | hpos
    · decide
    · exact Nat.log_lt_of_lt_pow (by omega) hn
  have hup : n < 2 ^ (Nat.log 2 n + 1) := Nat.lt_pow_succ_log_self (by decide) n
  have hlow : Nat.log 2 n = 0 ∨ 2 ^ Nat.log 2 n ≤ n := by
    rcases Nat.eq_zero_or_pos n with rfl | hpos
    · exact .inl (by decide)
    · exact .inr (Nat.pow_log_le_self 2 (by omega))
  have h := kLoop_two_pow hlog hup (s := 1) hlow (by omega) (by omega)
    (by omega : 2 * Nat.log 2 n + 2 ≤ fuel + 1)
  rw [pow_one] at h
  rw [loops, h, stages, Nat.add_sub_cancel]
  have hpair : ∀ s t : Nat, ((2 ^ s : Int).toNat, (2 ^ t : Int).toNat) = (2 ^ s, 2 ^ t) :=
    fun s t => by norm_cast
  simp only [Option.map_some, List.map_flatMap, List.map_map, Function.comp_def, hpair]
  rfl

theorem mem_stages_log {n t c : Nat} (hn : n = 2 ^ t * (2 * c + 1)) (hc : 1 ≤ c) :
    (2 ^ (t + 1), 2 ^ t) ∈ stages (Nat.log 2 n) := by
  refine mem_stages.2 ⟨t + 1, t, by omega, ?_, rfl, rfl⟩
  refine Nat.le_log_of_pow_le (by decide) ?_
  rw [hn, pow_succ]
  exact Nat.mul_le_mul_left _ (by omega)

/-! ## The fuel does not matter -/

theorem jLoop_unique {f f' : Nat} {j : Int} {l l' : List Int} (h : jLoop f j = some l)
    (h' : jLoop f' j = some l') : l = l' := by
  induction f generalizing f' j l l' with
  | zero => exact nomatch h
  | succ f ih =>
    obtain _ | f' := f'
    · exact nomatch h'
    · rw [jLoop] at h h'
      split at h
      · rename_i hj
        rw [if_pos hj] at h'
        obtain ⟨r, hr, rfl⟩ := Option.map_eq_some_iff.1 h
        obtain ⟨r', hr', rfl⟩ := Option.map_eq_some_iff.1 h'
        rw [ih hr hr']
      · rename_i hj
        rw [if_neg hj] at h'
        exact Option.some.inj (h.symm.trans h')

theorem kLoop_unique {n : Int} {f f' : Nat} {k : Int} {l l' : List (Int × Int)}
    (h : kLoop n f k = some l) (h' : kLoop n f' k = some l') : l = l' := by
  induction f generalizing f' k l l' with
  | zero => exact nomatch h
  | succ f ih =>
    obtain _ | f' := f'
    · exact nomatch h'
    · rw [kLoop] at h h'
      split at h
      · rename_i hk
        rw [if_pos hk] at h'
        simp only [Option.bind_eq_bind, Option.bind_eq_some_iff, Option.some.injEq] at h h'
        obtain ⟨js, hjs, rest, hrest, rfl⟩ := h
        obtain ⟨js', hjs', rest', hrest', rfl⟩ := h'
        rw [jLoop_unique hjs hjs', ih hrest hrest']
      · rename_i hk
        rw [if_neg hk] at h'
        exact Option.some.inj (h.symm.trans h')

/-- Loops that end do so with the same iterations for any fuel. -/
theorem loops_unique {f f' n : Nat} {l l' : List (Nat × Nat)} (h : loops f n = some l)
    (h' : loops f' n = some l') : l = l' := by
  obtain ⟨r, hr, rfl⟩ := Option.map_eq_some_iff.1 h
  obtain ⟨r', hr', rfl⟩ := Option.map_eq_some_iff.1 h'
  rw [kLoop_unique hr hr']

/-! ## From `2 ^ 30` on the counters wrap -/

theorem kLoop_zero (n fuel : Nat) : kLoop n fuel 0 = none := by
  induction fuel with
  | zero => rfl
  | succ fuel ih =>
    have h0 : kLoop n fuel (wrap32 (2 * 0)) = none := ih
    rw [kLoop, if_pos (Int.natCast_nonneg n), h0]
    cases jLoop fuel ((0 : Int) >>> (1 : Nat)) <;> rfl

/-- Doubling `2 ^ 30` leaves the positive numbers: `k` becomes `-2 ^ 31`, then `0`, and stays. -/
theorem kLoop_overflow {n : Nat} (hn : 2 ^ 30 ≤ n) {s : Nat} (hs : s ≤ 30) (fuel : Nat) :
    kLoop n fuel (2 ^ s) = none := by
  obtain ⟨d, hd⟩ : ∃ d, d = 30 - s := ⟨_, rfl⟩
  have hle : (2 ^ s : Int) ≤ n := by
    have : 2 ^ s ≤ 2 ^ 30 := Nat.pow_le_pow_right (by decide) hs
    exact_mod_cast this.trans hn
  induction d generalizing s fuel with
  | zero =>
    obtain rfl : s = 30 := by omega
    cases fuel with
    | zero => rfl
    | succ fuel =>
      have hmin : kLoop n fuel (wrap32 (2 * 2 ^ 30)) = none := by
        cases fuel with
        | zero => rfl
        | succ fuel =>
          have h0 : kLoop n fuel (wrap32 (2 * wrap32 (2 * 2 ^ 30))) = none := kLoop_zero n fuel
          have hneg : wrap32 (2 * 2 ^ 30) ≤ (n : Int) := by
            have : wrap32 (2 * 2 ^ 30) = -2 ^ 31 := by decide
            omega
          rw [kLoop, if_pos hneg, h0]
          cases jLoop fuel (wrap32 (2 * 2 ^ 30) >>> (1 : Nat)) <;> rfl
      rw [kLoop, if_pos hle, hmin]
      cases jLoop fuel ((2 ^ 30 : Int) >>> (1 : Nat)) <;> rfl
  | succ d ih =>
    cases fuel with
    | zero => rfl
    | succ fuel =>
      have hle' : (2 ^ (s + 1) : Int) ≤ n := by
        have : 2 ^ (s + 1) ≤ 2 ^ 30 := Nat.pow_le_pow_right (by decide) (by omega)
        exact_mod_cast this.trans hn
      rw [kLoop, if_pos hle, wrap32_double (by omega), ih (by omega) fuel (by omega) hle']
      cases jLoop fuel ((2 ^ s : Int) >>> (1 : Nat)) <;> rfl

/-- **From `2 ^ 30` on the loops never end.** -/
theorem loops_overflow {n : Nat} (hn : 2 ^ 30 ≤ n) (fuel : Nat) : loops fuel n = none := by
  rw [loops, show (2 : Int) = 2 ^ 1 from rfl, kLoop_overflow hn (by decide)]
  rfl

end Machine
