import Mathlib.Algebra.Order.Ring.Int
import Mathlib.Order.Lattice
import Mathlib.Order.MinMax
import Mathlib.Tactic.Common

/-!
# The bitonic merging network

`mergeNet m s`: the network of `m` half-cleaners on the `2 ^ m` values `s 0, s 1, …`. Its exact
condition is `Foldable`: for every bound `v`, folding the positions of the values below `v` onto
the lower half never both overlaps and leaves a gap (`ascending_mergeNet_iff`). A sequence whose
values below each bound fill a cyclic interval of positions (`Bitonic`) is foldable, so the network
sorts it (`Bitonic.ascending_mergeNet`).
-/

namespace Net

variable {α : Type} [LinearOrder α] {m n : Nat} {s s' : Nat → α}

/-- Half-cleaners of width `2 ^ (m - 1), …, 2, 1`: minima to the lower half, maxima to the upper
one, then both halves on their own. -/
def mergeNet : Nat → (Nat → α) → Nat → α
  | 0, s, i => s i
  | m + 1, s, i =>
    if i < 2 ^ m then mergeNet m (fun x => min (s x) (s (x + 2 ^ m))) i
    else mergeNet m (fun x => max (s x) (s (x + 2 ^ m))) (i - 2 ^ m)

/-- The first `n` values are in ascending order. -/
def Ascending (n : Nat) (s : Nat → α) : Prop := ∀ i j, i ≤ j → j < n → s i ≤ s j

/-- Folding `[0, 2 ^ m)` onto its lower half, the positions with `P` do not overlap or leave no
gap; and so again for the folded positions and for the overlaps. -/
def Foldable : Nat → (Nat → Prop) → Prop
  | 0, _ => True
  | m + 1, P =>
    ((∀ i < 2 ^ m, P i ∨ P (i + 2 ^ m)) ∨ ∀ i < 2 ^ m, ¬(P i ∧ P (i + 2 ^ m))) ∧
      Foldable m (fun i => P i ∨ P (i + 2 ^ m)) ∧ Foldable m fun i => P i ∧ P (i + 2 ^ m)

/-- The positions with `P` are a cyclic interval of `[0, n)`: `P` and its negation do not alternate
four times. -/
def CyclicInterval (n : Nat) (P : Nat → Prop) : Prop :=
  ∀ a b c d, a < b → b < c → c < d → d < n →
    ¬(P a ∧ ¬P b ∧ P c ∧ ¬P d) ∧ ¬(¬P a ∧ P b ∧ ¬P c ∧ P d)

/-- The values below any bound fill a cyclic interval of positions. -/
def Bitonic (n : Nat) (s : Nat → α) : Prop := ∀ v, CyclicInterval n fun i => s i < v

/-! ## The network's values -/

theorem mergeNet_low {i : Nat} (hi : i < 2 ^ m) :
    mergeNet (m + 1) s i = mergeNet m (fun x => min (s x) (s (x + 2 ^ m))) i := by
  rw [mergeNet, if_pos hi]

theorem mergeNet_high (i : Nat) :
    mergeNet (m + 1) s (i + 2 ^ m) = mergeNet m (fun x => max (s x) (s (x + 2 ^ m))) i := by
  rw [mergeNet, if_neg (by omega), Nat.add_sub_cancel]

theorem mergeNet_congr (h : ∀ i < 2 ^ m, s i = s' i) :
    ∀ i < 2 ^ m, mergeNet m s i = mergeNet m s' i := by
  induction m generalizing s s' with
  | zero => exact h
  | succ m ih =>
    have hp : 2 ^ (m + 1) = 2 ^ m + 2 ^ m := by omega
    intro i hi
    rcases Nat.lt_or_ge i (2 ^ m) with hl | hl
    · rw [mergeNet_low hl, mergeNet_low hl]
      exact ih (fun x hx => by rw [h x (by omega), h (x + 2 ^ m) (by omega)]) i hl
    · obtain ⟨x, rfl⟩ : ∃ x, i = x + 2 ^ m := ⟨i - 2 ^ m, by omega⟩
      rw [mergeNet_high, mergeNet_high]
      exact ih (fun x hx => by rw [h x (by omega), h (x + 2 ^ m) (by omega)]) x (by omega)

/-- Positions of a double block, as positions of its halves. -/
theorem forall_lt_two_pow_succ {Q : Nat → Prop} :
    (∀ i < 2 ^ (m + 1), Q i) ↔ (∀ i < 2 ^ m, Q i) ∧ ∀ i < 2 ^ m, Q (i + 2 ^ m) := by
  have hp : 2 ^ (m + 1) = 2 ^ m + 2 ^ m := by omega
  refine ⟨fun h => ⟨fun i hi => h i (by omega), fun i hi => h _ (by omega)⟩, fun h i hi => ?_⟩
  rcases Nat.lt_or_ge i (2 ^ m) with hl | hl
  · exact h.1 i hl
  · have := h.2 (i - 2 ^ m) (by omega)
    rwa [Nat.sub_add_cancel hl] at this

/-- The network moves values only: what holds of all outputs holds of all inputs. -/
theorem mergeNet_forall {P : α → Prop} :
    (∀ i < 2 ^ m, P (mergeNet m s i)) ↔ ∀ i < 2 ^ m, P (s i) := by
  induction m generalizing s with
  | zero => rfl
  | succ m ih =>
    have hlow : (∀ i < 2 ^ m, P (mergeNet (m + 1) s i)) ↔
        ∀ i < 2 ^ m, P (min (s i) (s (i + 2 ^ m))) :=
      (forall₂_congr fun i hi => by rw [mergeNet_low hi]).trans ih
    have hhigh : (∀ i < 2 ^ m, P (mergeNet (m + 1) s (i + 2 ^ m))) ↔
        ∀ i < 2 ^ m, P (max (s i) (s (i + 2 ^ m))) :=
      (forall₂_congr fun i _ => by rw [mergeNet_high]).trans ih
    rw [forall_lt_two_pow_succ, forall_lt_two_pow_succ, hlow, hhigh, ← forall₂_and, ← forall₂_and]
    refine forall₂_congr fun i _ => ?_
    rcases le_total (s i) (s (i + 2 ^ m)) with h | h
    · rw [min_eq_left h, max_eq_right h]
    · rw [min_eq_right h, max_eq_left h, and_comm]

/-! ## When the network sorts -/

/-- A double block is ascending when its halves are and no value of the lower one exceeds one of
the upper one. -/
theorem ascending_halves {t : Nat → α} : Ascending (2 ^ (m + 1)) t ↔
    (∀ i < 2 ^ m, ∀ j < 2 ^ m, t i ≤ t (j + 2 ^ m)) ∧ Ascending (2 ^ m) t ∧
      Ascending (2 ^ m) fun i => t (i + 2 ^ m) := by
  have hp : 2 ^ (m + 1) = 2 ^ m + 2 ^ m := by omega
  constructor
  · intro h
    exact ⟨fun i hi j hj => h _ _ (by omega) (by omega), fun i j hij hj => h i j hij (by omega),
      fun i j hij hj => h _ _ (by omega) (by omega)⟩
  · rintro ⟨hc, hl, hh⟩ i j hij hj
    rcases Nat.lt_or_ge j (2 ^ m) with h2 | h2
    · exact hl i j hij h2
    · obtain ⟨y, rfl⟩ : ∃ y, j = y + 2 ^ m := ⟨j - 2 ^ m, by omega⟩
      rcases Nat.lt_or_ge i (2 ^ m) with h1 | h1
      · exact hc i h1 y (by omega)
      · obtain ⟨x, rfl⟩ : ∃ x, i = x + 2 ^ m := ⟨i - 2 ^ m, by omega⟩
        exact hh x y (by omega) (by omega)

theorem ascending_congr {t t' : Nat → α} (h : ∀ i < n, t i = t' i) :
    Ascending n t ↔ Ascending n t' := by
  refine ⟨fun ha i j hij hj => ?_, fun ha i j hij hj => ?_⟩
  · rw [← h i (by omega), ← h j hj]
    exact ha i j hij hj
  · rw [h i (by omega), h j hj]
    exact ha i j hij hj

/-- Every value of `f` is at most every value of `g` when no bound separates them the wrong way. -/
theorem forall_le_iff_bounds {f g : Nat → α} :
    (∀ i < n, ∀ j < n, f i ≤ g j) ↔ ∀ v, (∀ i < n, f i < v) ∨ ∀ j < n, ¬g j < v := by
  constructor
  · intro h v
    by_contra hc
    push Not at hc
    obtain ⟨⟨i, hi, hv⟩, j, hj, hgj⟩ := hc
    exact absurd (h i hi j hj) (not_le_of_gt (lt_of_lt_of_le hgj hv))
  · intro h i hi j hj
    rcases h (f i) with h | h
    · exact absurd (h i hi) (lt_irrefl _)
    · exact le_of_not_gt (h j hj)

/-- **The network sorts exactly the foldable sequences.** -/
theorem ascending_mergeNet_iff :
    Ascending (2 ^ m) (mergeNet m s) ↔ ∀ v, Foldable m fun i => s i < v := by
  induction m generalizing s with
  | zero =>
    refine ⟨fun _ _ => trivial, fun _ i j hij hj => ?_⟩
    rw [show i = j by simp at hj; omega]
  | succ m ih =>
    have hcross : (∀ i < 2 ^ m, ∀ j < 2 ^ m,
          mergeNet (m + 1) s i ≤ mergeNet (m + 1) s (j + 2 ^ m)) ↔
        ∀ v, (∀ i < 2 ^ m, s i < v ∨ s (i + 2 ^ m) < v) ∨
          ∀ i < 2 ^ m, ¬(s i < v ∧ s (i + 2 ^ m) < v) := by
      simp only [forall_le_iff_bounds, mergeNet_high]
      refine forall_congr' fun v => or_congr ?_ ?_
      · rw [forall₂_congr fun i hi => by rw [mergeNet_low hi], mergeNet_forall (P := (· < v))]
        simp only [min_lt_iff]
      · rw [mergeNet_forall (P := fun x => ¬x < v)]
        simp only [max_lt_iff]
    have hl : Ascending (2 ^ m) (mergeNet (m + 1) s) ↔
        ∀ v, Foldable m fun i => s i < v ∨ s (i + 2 ^ m) < v := by
      rw [ascending_congr fun i hi => mergeNet_low hi, ih]
      simp only [min_lt_iff]
    have hh : Ascending (2 ^ m) (fun i => mergeNet (m + 1) s (i + 2 ^ m)) ↔
        ∀ v, Foldable m fun i => s i < v ∧ s (i + 2 ^ m) < v := by
      rw [ascending_congr fun i _ => mergeNet_high i, ih]
      simp only [max_lt_iff]
    rw [ascending_halves, hcross, hl, hh]
    simp only [Foldable, forall_and]

/-! ## Bitonic sequences -/

theorem CyclicInterval.not {P : Nat → Prop} (h : CyclicInterval n P) :
    CyclicInterval n fun i => ¬P i := by
  intro a b c d hab hbc hcd hd
  simp only [not_not]
  exact (h a b c d hab hbc hcd hd).symm

/-- Folding a cyclic interval gives a cyclic interval: two folded positions with `P` lie between
folded positions without it. -/
theorem CyclicInterval.fold {L : Nat} {P : Nat → Prop} (h : CyclicInterval (L + L) P) :
    CyclicInterval L fun i => P i ∨ P (i + L) := by
  intro a b c d hab hbc hcd hd
  -- the eight positions around the circle
  have key : ∀ w x y z, w < x → x < y → y < z → z < L + L → P w → ¬P x → P y → ¬P z → False :=
    fun w x y z h1 h2 h3 h4 hw hx hy hz => (h w x y z h1 h2 h3 h4).1 ⟨hw, hx, hy, hz⟩
  have key' : ∀ w x y z, w < x → x < y → y < z → z < L + L → ¬P w → P x → ¬P y → P z → False :=
    fun w x y z h1 h2 h3 h4 hw hx hy hz => (h w x y z h1 h2 h3 h4).2 ⟨hw, hx, hy, hz⟩
  constructor
  · rintro ⟨ha, hb, hc, hd'⟩
    push Not at hb hd'
    rcases ha with ha | ha <;> rcases hc with hc | hc
    · exact key a b c d hab hbc hcd (by omega) ha hb.1 hc hd'.1
    · exact key a b (c + L) (d + L) hab (by omega) (by omega) (by omega) ha hb.1 hc hd'.2
    · exact key c d (a + L) (b + L) hcd (by omega) (by omega) (by omega) hc hd'.1 ha hb.2
    · exact key (a + L) (b + L) (c + L) (d + L) (by omega) (by omega) (by omega) (by omega)
        ha hb.2 hc hd'.2
  · rintro ⟨ha, hb, hc, hd'⟩
    push Not at ha hc
    rcases hb with hb | hb <;> rcases hd' with hd' | hd'
    · exact key' a b c d hab hbc hcd (by omega) ha.1 hb hc.1 hd'
    · exact key' a b c (d + L) hab hbc (by omega) (by omega) ha.1 hb hc.1 hd'
    · exact key' c d (a + L) (b + L) hcd (by omega) (by omega) (by omega) hc.1 hd' ha.2 hb
    · exact key' (a + L) (b + L) (c + L) (d + L) (by omega) (by omega) (by omega) (by omega)
        ha.2 hb hc.2 hd'

/-- A cyclic interval overlaps itself in the fold only when it leaves no gap. -/
theorem CyclicInterval.overlap {L : Nat} {P : Nat → Prop} (h : CyclicInterval (L + L) P) :
    (∀ i < L, P i ∨ P (i + L)) ∨ ∀ i < L, ¬(P i ∧ P (i + L)) := by
  by_contra hc
  push Not at hc
  obtain ⟨⟨i, hi, hi1, hi2⟩, j, hj, hj1, hj2⟩ := hc
  rcases Nat.lt_trichotomy i j with hij | rfl | hij
  · exact (h i j (i + L) (j + L) hij (by omega) (by omega) (by omega)).2 ⟨hi1, hj1, hi2, hj2⟩
  · exact hi1 hj1
  · exact (h j i (j + L) (i + L) hij (by omega) (by omega) (by omega)).1 ⟨hj1, hi1, hj2, hi2⟩

theorem CyclicInterval.foldable {P : Nat → Prop} (h : CyclicInterval (2 ^ m) P) :
    Foldable m P := by
  induction m generalizing P with
  | zero => trivial
  | succ m ih =>
    have h2 : CyclicInterval (2 ^ m + 2 ^ m) P := by
      rwa [show 2 ^ m + 2 ^ m = 2 ^ (m + 1) by omega]
    refine ⟨h2.overlap, ih h2.fold, ih ?_⟩
    -- the overlaps are the complement of the fold of the complement
    have h3 := h2.not.fold.not
    simpa only [not_or, not_not] using h3

/-- **The network sorts every bitonic sequence.** -/
theorem Bitonic.ascending_mergeNet (h : Bitonic (2 ^ m) s) : Ascending (2 ^ m) (mergeNet m s) :=
  ascending_mergeNet_iff.2 fun v => (h v).foldable

theorem Bitonic.congr (h : Bitonic n s) (hs : ∀ i < n, s i = s' i) : Bitonic n s' := by
  intro v a b c d hab hbc hcd hd
  have := h v a b c d hab hbc hcd hd
  simpa only [hs a (by omega), hs b (by omega), hs c (by omega), hs d hd] using this

/-- Ascending up to a peak, descending after it. -/
theorem bitonic_of_peak (p : Nat) (hup : ∀ i j, i ≤ j → j < p → j < n → s i ≤ s j)
    (hdown : ∀ i j, p ≤ i → i ≤ j → j < n → s j ≤ s i) : Bitonic n s := by
  intro v a b c d hab hbc hcd hd
  constructor
  · rintro ⟨-, hb, hc, hd'⟩
    rcases Nat.lt_or_ge c p with hp | hp
    · exact hb (lt_of_le_of_lt (hup b c hbc.le hp (by omega)) hc)
    · exact hd' (lt_of_le_of_lt (hdown c d hp hcd.le hd) hc)
  · rintro ⟨ha, hb, hc, -⟩
    rcases Nat.lt_or_ge b p with hp | hp
    · exact ha (lt_of_le_of_lt (hup a b hab.le hp (by omega)) hb)
    · exact hc (lt_of_le_of_lt (hdown b c hp hbc.le (by omega)) hb)

/-- Descending down to a valley, ascending after it. -/
theorem bitonic_of_valley (p : Nat) (hdown : ∀ i j, i ≤ j → j < p → j < n → s j ≤ s i)
    (hup : ∀ i j, p ≤ i → i ≤ j → j < n → s i ≤ s j) : Bitonic n s := by
  intro v a b c d hab hbc hcd hd
  constructor
  · rintro ⟨ha, hb, hc, -⟩
    rcases Nat.lt_or_ge b p with hp | hp
    · exact hb (lt_of_le_of_lt (hdown a b hab.le hp (by omega)) ha)
    · exact hb (lt_of_le_of_lt (hup b c hp hbc.le (by omega)) hc)
  · rintro ⟨-, hb, hc, hd'⟩
    rcases Nat.lt_or_ge c p with hp | hp
    · exact hc (lt_of_le_of_lt (hdown b c hbc.le hp (by omega)) hb)
    · exact hc (lt_of_le_of_lt (hup c d hp hcd.le hd) hd')

/-! ## Rotations -/

theorem not_alternate_rotate {p q r s : Prop} (h : ¬(s ∧ ¬p ∧ q ∧ ¬r) ∧ ¬(¬s ∧ p ∧ ¬q ∧ r)) :
    ¬(p ∧ ¬q ∧ r ∧ ¬s) ∧ ¬(¬p ∧ q ∧ ¬r ∧ s) :=
  ⟨fun ⟨hp, hq, hr, hs⟩ => h.2 ⟨hs, hp, hq, hr⟩, fun ⟨hp, hq, hr, hs⟩ => h.1 ⟨hs, hp, hq, hr⟩⟩

/-- A cyclic interval of a rotation is one of the sequence itself: the four positions keep their
cyclic order. -/
theorem CyclicInterval.of_rotate {P : Nat → Prop} (r : Nat)
    (h : CyclicInterval n fun x => P ((r + x) % n)) : CyclicInterval n P := by
  intro a b c d hab hbc hcd hd
  have hk := Nat.mod_lt r (show 0 < n by omega)
  have hmod : ∀ x, (r + x) % n = (r % n + x) % n := fun x => (Nat.mod_add_mod r n x).symm
  generalize r % n = k at hk hmod
  -- where the rotated sequence holds position `i`
  have hlow : ∀ i < k, (r + (i + n - k)) % n = i := fun i hi => by
    rw [hmod, show k + (i + n - k) = i + n by omega, Nat.add_mod_right,
      Nat.mod_eq_of_lt (by omega)]
  have hhigh : ∀ i, k ≤ i → i < n → (r + (i - k)) % n = i := fun i hi hn => by
    rw [hmod, Nat.add_sub_cancel' hi, Nat.mod_eq_of_lt hn]
  rcases Nat.lt_or_ge d k with hd' | hd'
  · have := h (a + n - k) (b + n - k) (c + n - k) (d + n - k) (by omega) (by omega) (by omega)
      (by omega)
    simpa only [hlow a (by omega), hlow b (by omega), hlow c (by omega), hlow d hd'] using this
  rcases Nat.lt_or_ge c k with hc | hc
  · have := h (d - k) (a + n - k) (b + n - k) (c + n - k) (by omega) (by omega) (by omega)
      (by omega)
    simp only [hhigh d hd' hd, hlow a (by omega), hlow b (by omega), hlow c hc] at this
    exact not_alternate_rotate this
  rcases Nat.lt_or_ge b k with hb | hb
  · have := h (c - k) (d - k) (a + n - k) (b + n - k) (by omega) (by omega) (by omega) (by omega)
    simp only [hhigh c hc (by omega), hhigh d hd' hd, hlow a (by omega), hlow b hb] at this
    exact not_alternate_rotate (not_alternate_rotate this)
  rcases Nat.lt_or_ge a k with ha | ha
  · have := h (b - k) (c - k) (d - k) (a + n - k) (by omega) (by omega) (by omega) (by omega)
    simp only [hhigh b hb (by omega), hhigh c hc (by omega), hhigh d hd' hd, hlow a ha] at this
    exact not_alternate_rotate (not_alternate_rotate (not_alternate_rotate this))
  · have := h (a - k) (b - k) (c - k) (d - k) (by omega) (by omega) (by omega) (by omega)
    simpa only [hhigh a ha (by omega), hhigh b hb (by omega), hhigh c hc (by omega),
      hhigh d hd' hd] using this

theorem Bitonic.of_rotate (r : Nat) (h : Bitonic n fun x => s ((r + x) % n)) : Bitonic n s :=
  fun v => (h v).of_rotate r

theorem Bitonic.neg {s : Nat → Int} (h : Bitonic n s) : Bitonic n fun i => -s i := by
  intro v a b c d hab hbc hcd hd
  -- not below `-v + 1` is below `v` in the reversed order
  have hrev : ∀ i, -s i < v ↔ ¬s i < -v + 1 := fun i => by omega
  simp only [hrev]
  exact (h (-v + 1)).not a b c d hab hbc hcd hd

end Net
