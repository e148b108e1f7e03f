import ParSort.Machine.Loop

/-!
# The iterations of the doubling and halving loops

`kLoop` keeps the inner iterations only. `kIterations` keeps every iteration of the outer loop that
is entered, with the `j` of its inner ones, also where there are none (`kLoop_eq`); the counters of
a run are positive exactly below `2 ^ 30` (`kIterations_positive_iff`). `firstIterations` is the
run up to the end of its first `s` outer iterations, whether or not the loop ends afterwards.
-/

namespace Machine

/-- `for (; k <= n; k <<= 1)` around the `j` loop: every iteration entered, its `k` and the `j` of
its inner iterations. -/
def kIterations (n : Int) : Nat → Int → Option (List (Int × List Int))
  | 0, _ => none
  | fuel + 1, k =>
    if k ≤ n then do
      let js ← jLoop fuel (k >>> (1 : Nat))
      let rest ← kIterations n fuel (wrap32 (2 * k))
      some ((k, js) :: rest)
    else some []

/-- The first `s` iterations of the outer loop; `none` when it is left before, or when the fuel is
used up in an inner loop. -/
def firstIterations (n : Int) (fuel : Nat) : Nat → Int → Option (List (Int × List Int))
  | 0, _ => some []
  | s + 1, k =>
    if k ≤ n then do
      let js ← jLoop fuel (k >>> (1 : Nat))
      let rest ← firstIterations n fuel s (wrap32 (2 * k))
      some ((k, js) :: rest)
    else none

/-- The pairs `(k, j)` of the inner iterations. -/
def inner (its : List (Int × List Int)) : List (Int × Int) :=
  its.flatMap fun it => it.2.map (it.1, ·)

/-- The `(k, j)` of the first `s` outer iterations. -/
def loopsUpTo (fuel s n : Nat) : Option (List (Nat × Nat)) :=
  (firstIterations n fuel s 2).map fun its => (inner its).map fun p => (p.1.toNat, p.2.toNat)

theorem kLoop_eq (n : Int) (fuel : Nat) (k : Int) :
    kLoop n fuel k = (kIterations n fuel k).map inner := by
  induction fuel generalizing k with
  | zero => rfl
  | succ fuel ih =>
    rw [kLoop, kIterations]
    split
    · rw [ih]
      cases jLoop fuel (k >>> (1 : Nat)) with
      | none => rfl
      | some js => cases kIterations n fuel (wrap32 (2 * k)) <;> rfl
    · rfl

/-! ## Positive counters -/

theorem jLoop_pos {fuel : Nat} {j : Int} {js : List Int} (h : jLoop fuel j = some js) :
    ∀ x ∈ js, 0 < x := by
  induction fuel generalizing j js with
  | zero => exact nomatch h
  | succ fuel ih =>
    rw [jLoop] at h
    split at h
    case isTrue hj =>
      obtain ⟨r, hr, rfl⟩ := Option.map_eq_some_iff.1 h
      intro x hx
      cases hx with
      | head => exact hj
      | tail _ hx => exact ih hr x hx
    case isFalse =>
      cases h
      simp

/-- One doubling below `2 ^ 30` stays positive. -/
theorem wrap32_double_pos {k : Int} (h0 : 0 < k) (hk : k < 2 ^ 30) : 0 < wrap32 (2 * k) := by
  rw [wrap32, Int.bmod_eq_of_le] <;> omega

/-- The counters of a run from a positive `k` are positive while the bound is below `2 ^ 30`. -/
theorem kIterations_pos {n : Int} (hn : n < 2 ^ 30) {fuel : Nat} {k : Int} (hk : 0 < k)
    {its : List (Int × List Int)} (h : kIterations n fuel k = some its) :
    ∀ it ∈ its, 0 < it.1 ∧ ∀ j ∈ it.2, 0 < j := by
  induction fuel generalizing k its with
  | zero => exact nomatch h
  | succ fuel ih =>
    rw [kIterations] at h
    split at h
    case isTrue hle =>
      simp only [Option.bind_eq_bind, Option.bind_eq_some_iff, Option.some.injEq] at h
      obtain ⟨js, hjs, rest, hrest, rfl⟩ := h
      intro it hit
      cases hit with
      | head => exact ⟨hk, jLoop_pos hjs⟩
      | tail _ hit => exact ih (wrap32_double_pos hk (by omega)) hrest it hit
    case isFalse =>
      cases h
      simp

theorem kIterations_overflow {n : Nat} (hn : 2 ^ 30 ≤ n) (fuel : Nat) :
    kIterations n fuel 2 = none := by
  have hover := kLoop_overflow hn (show 1 ≤ 30 by decide) fuel
  rw [kLoop_eq, pow_one] at hover
  exact Option.map_eq_none_iff.1 hover

/-- **The loops end with positive counters** for exactly the bounds below `2 ^ 30`. -/
theorem kIterations_positive_iff (n : Int) (h1 : 1 ≤ n) (hn : n < 2 ^ 31) :
    (∃ fuel its, kIterations n fuel 2 = some its ∧ ∀ it ∈ its, 0 < it.1 ∧ ∀ j ∈ it.2, 0 < j) ↔
      n < 2 ^ 30 := by
  obtain ⟨N, rfl⟩ := Int.eq_ofNat_of_zero_le (show 0 ≤ n by omega)
  constructor
  · rintro ⟨fuel, its, hits, -⟩
    by_contra hge
    exact nomatch hits.symm.trans (kIterations_overflow (n := N) (by omega) fuel)
  · intro hlt
    have hends := loops_eq (n := N) (by omega) (Nat.le_refl 64)
    rw [loops, kLoop_eq] at hends
    obtain ⟨l, hl, -⟩ := Option.map_eq_some_iff.1 hends
    obtain ⟨its, hits, -⟩ := Option.map_eq_some_iff.1 hl
    exact ⟨64, its, hits, kIterations_pos hlt (by decide) hits⟩

theorem kIterations_positive_seven : (∃ fuel its, kIterations 7 fuel 2 = some its ∧
    ∀ it ∈ its, 0 < it.1 ∧ ∀ j ∈ it.2, 0 < j) ↔ (7 : Int) < 2 ^ 30 :=
  kIterations_positive_iff 7 (by decide) (by decide)

/-- At `2 ^ 30` the loops do not end. -/
theorem kIterations_never : ¬∃ fuel its, kIterations (2 ^ 30) fuel 2 = some its ∧
    ∀ it ∈ its, 0 < it.1 ∧ ∀ j ∈ it.2, 0 < j := by
  rintro ⟨fuel, its, hits, -⟩
  exact nomatch hits.symm.trans (kIterations_overflow (Nat.le_refl (2 ^ 30)) fuel)

/-! ## The first iterations -/

theorem firstIterations_two_pow {n a s fuel : Nat} (hn : s = 0 ∨ 2 ^ (a + s) ≤ 2 * n)
    (ha : a + s ≤ 31) (hf : a + s ≤ fuel) :
    firstIterations n fuel s (2 ^ a) =
      some ((List.range' a s).map fun a => (2 ^ a, (List.range a).reverse.map fun t => 2 ^ t)) := by
  induction s generalizing a with
  | zero => rfl
  | succ s ih =>
    have hle : (2 ^ a : Int) ≤ n := by
      have h1 : 2 ^ (a + 1) ≤ 2 ^ (a + (s + 1)) := Nat.pow_le_pow_right (by decide) (by omega)
      have h2 : 2 ^ a ≤ n := by omega
      exact_mod_cast h2
    have hrest : firstIterations n fuel s (wrap32 (2 * 2 ^ a)) =
        some ((List.range' (a + 1) s).map fun a =>
          (2 ^ a, (List.range a).reverse.map fun t => 2 ^ t)) := by
      cases s with
      | zero => rfl
      | succ s =>
        rw [wrap32_double (by omega)]
        rw [show a + (s + 1 + 1) = a + 1 + (s + 1) by omega] at hn
        exact ih (.inr (hn.resolve_left (by omega))) (by omega) (by omega)
    rw [firstIterations, if_pos hle, jLoop_two_pow (by omega), hrest]
    rfl

/-- The stages `k = 2, 4, …, 2 ^ s` of a length of at least `2 ^ s`, also when the loops never end
after them. -/
theorem loopsUpTo_eq {n s fuel : Nat} (hs : s ≤ 30) (hn : 2 ^ s ≤ n) (hf : 31 ≤ fuel) :
    loopsUpTo fuel s n = some (stages s) := by
  rw [loopsUpTo, show (2 : Int) = 2 ^ 1 from rfl,
    firstIterations_two_pow (.inr (by rw [Nat.pow_add]; omega)) (by omega) (by omega)]
  have htoNat : ∀ t, ((2 : Int) ^ t).toNat = 2 ^ t := fun t => by
    rw [show (2 : Int) ^ t = ((2 ^ t : Nat) : Int) by norm_cast, Int.toNat_natCast]
  simp only [Option.map_some, inner, List.flatMap_map, List.map_flatMap, List.map_map,
    Function.comp_def, htoNat]
  rfl

/-- The first iterations are the beginning of every run that ends. -/
theorem firstIterations_prefix {n k : Int} {f f' s : Nat} {its its' : List (Int × List Int)}
    (h : kIterations n f k = some its) (h' : firstIterations n f' s k = some its') :
    its' <+: its := by
  induction s generalizing f k its its' with
  | zero =>
    cases h'
    exact List.nil_prefix
  | succ s ih =>
    cases f with
    | zero => exact nomatch h
    | succ f =>
      rw [kIterations] at h
      rw [firstIterations] at h'
      split at h'
      case isTrue hk =>
        rw [if_pos hk] at h
        simp only [Option.bind_eq_bind, Option.bind_eq_some_iff, Option.some.injEq] at h h'
        obtain ⟨js, hjs, rest, hrest, rfl⟩ := h
        obtain ⟨js', hjs', rest', hrest', rfl⟩ := h'
        rw [jLoop_unique hjs' hjs, List.prefix_cons_inj]
        exact ih hrest hrest'
      case isFalse => exact nomatch h'

theorem loopsUpTo_prefix {f f' s n : Nat} {kj kj' : List (Nat × Nat)} (h : loops f n = some kj)
    (h' : loopsUpTo f' s n = some kj') : kj' <+: kj := by
  rw [loops, kLoop_eq, Option.map_map] at h
  obtain ⟨its, hits, rfl⟩ := Option.map_eq_some_iff.1 h
  obtain ⟨its', hits', rfl⟩ := Option.map_eq_some_iff.1 h'
  obtain ⟨r, rfl⟩ := firstIterations_prefix hits hits'
  simp only [Function.comp_apply, inner, List.flatMap_append, List.map_append]
  exact List.prefix_append _ _

end Machine
