import ParSort.Net.Merge

/-!
# Folding two intervals

`mergeZeros m P`: where the merging network leaves the values below a bound that it finds at the
positions `P` (`mergeNet_lt_iff`); `mergeHalves`: where it leaves them in two blocks, one merged up
and one down. `Ends` is a set of positions in two intervals, `b₀` of the first `N₀` positions up to
their end and `b₁` of the last `N₁` from their start. Folding moves the two ends towards each other:
if `N₀ + N₁` is a power of two they meet without overlap and the set is foldable
(`foldable_ends`); else some `b₀` and `b₁` overlap in one position, and what the network makes of
them is not even foldable (`not_foldable_mergeZeros_ends`).
-/

namespace Net

variable {m n : Nat} {P Q : Nat → Prop}

/-! ## Foldable sets -/

theorem Foldable.congr (h : ∀ i < 2 ^ m, P i ↔ Q i) : Foldable m P ↔ Foldable m Q := by
  induction m generalizing P Q with
  | zero => rfl
  | succ m ih =>
    have hp : 2 ^ (m + 1) = 2 ^ m + 2 ^ m := by omega
    have hlow : ∀ i < 2 ^ m, P i ↔ Q i := fun i hi => h i (by omega)
    have hhigh : ∀ i < 2 ^ m, P (i + 2 ^ m) ↔ Q (i + 2 ^ m) := fun i hi => h _ (by omega)
    refine and_congr (or_congr ?_ ?_) (and_congr (ih fun i hi => ?_) (ih fun i hi => ?_))
    · exact forall₂_congr fun i hi => or_congr (hlow i hi) (hhigh i hi)
    · exact forall₂_congr fun i hi => not_congr (and_congr (hlow i hi) (hhigh i hi))
    · exact or_congr (hlow i hi) (hhigh i hi)
    · exact and_congr (hlow i hi) (hhigh i hi)

/-- The complement folds as the set does. -/
theorem foldable_not : (Foldable m fun i => ¬P i) ↔ Foldable m P := by
  induction m generalizing P with
  | zero => rfl
  | succ m ih =>
    simp only [Foldable, ← not_or, not_not, ← not_and_or, ih]
    rw [or_comm, and_comm (a := Foldable m fun i => P i ∧ P (i + 2 ^ m))]

theorem foldable_of_forall_not (h : ∀ i < 2 ^ m, ¬P i) : Foldable m P :=
  CyclicInterval.foldable fun a b c d hab hbc hcd hd =>
    ⟨fun hc => h a (by omega) hc.1, fun hc => h b (by omega) hc.2.1⟩

/-- Without overlap only the fold counts. -/
theorem foldable_succ_iff (h : ∀ i < 2 ^ m, ¬(P i ∧ P (i + 2 ^ m))) :
    Foldable (m + 1) P ↔ Foldable m fun i => P i ∨ P (i + 2 ^ m) := by
  constructor
  · exact fun hf => hf.2.1
  · exact fun hf => ⟨.inr h, hf, foldable_of_forall_not h⟩

/-! ## The network on positions -/

/-- The network on the positions `P` of the values below a bound. -/
def mergeZeros : Nat → (Nat → Prop) → Nat → Prop
  | 0, P, i => P i
  | m + 1, P, i =>
    if i < 2 ^ m then mergeZeros m (fun x => P x ∨ P (x + 2 ^ m)) i
    else mergeZeros m (fun x => P x ∧ P (x + 2 ^ m)) (i - 2 ^ m)

theorem mergeZeros_low {i : Nat} (hi : i < 2 ^ m) :
    mergeZeros (m + 1) P i ↔ mergeZeros m (fun x => P x ∨ P (x + 2 ^ m)) i := by
  rw [mergeZeros, if_pos hi]

theorem mergeZeros_high (i : Nat) :
    mergeZeros (m + 1) P (i + 2 ^ m) ↔ mergeZeros m (fun x => P x ∧ P (x + 2 ^ m)) i := by
  rw [mergeZeros, if_neg (by omega), Nat.add_sub_cancel]

/-- The network moves the positions below a bound as it moves the values. -/
theorem mergeNet_lt_iff {α : Type} [LinearOrder α] {s : Nat → α} {v : α} (i : Nat) :
    mergeNet m s i < v ↔ mergeZeros m (fun x => s x < v) i := by
  induction m generalizing s i with
  | zero => rfl
  | succ m ih =>
    rw [mergeNet, mergeZeros]
    split
    · rw [ih]
      simp only [min_lt_iff]
    · rw [ih]
      simp only [max_lt_iff]

theorem mergeZeros_congr (h : ∀ i < 2 ^ m, P i ↔ Q i) :
    ∀ i < 2 ^ m, mergeZeros m P i ↔ mergeZeros m Q i := by
  induction m generalizing P Q with
  | zero => exact h
  | succ m ih =>
    have hp : 2 ^ (m + 1) = 2 ^ m + 2 ^ m := by omega
    intro i hi
    rcases Nat.lt_or_ge i (2 ^ m) with hl | hl
    · rw [mergeZeros_low hl, mergeZeros_low hl]
      exact ih (fun x hx => or_congr (h x (by omega)) (h _ (by omega))) i hl
    · obtain ⟨x, rfl⟩ : ∃ x, i = x + 2 ^ m := ⟨i - 2 ^ m, by omega⟩
      rw [mergeZeros_high, mergeZeros_high]
      exact ih (fun x hx => and_congr (h x (by omega)) (h _ (by omega))) x (by omega)

section
open Classical

/-- A sequence of two values whose smaller ones are at the positions `P`. -/
noncomputable def indicator (P : Nat → Prop) (i : Nat) : Bool := decide (¬P i)

theorem indicator_lt (i : Nat) : indicator P i < true ↔ P i := by
  by_cases h : P i <;> simp [indicator, h]

theorem mergeZeros_iff (i : Nat) : mergeZeros m P i ↔ mergeNet m (indicator P) i < true := by
  rw [mergeNet_lt_iff]
  simp only [indicator_lt]

end

theorem mergeZeros_forall : (∀ i < 2 ^ m, mergeZeros m P i) ↔ ∀ i < 2 ^ m, P i := by
  simp only [mergeZeros_iff]
  rw [mergeNet_forall (P := (· < true))]
  simp only [indicator_lt]

theorem mergeZeros_forall_not : (∀ i < 2 ^ m, ¬mergeZeros m P i) ↔ ∀ i < 2 ^ m, ¬P i := by
  simp only [mergeZeros_iff]
  rw [mergeNet_forall (P := fun b => ¬b < true)]
  simp only [indicator_lt]

/-- The positions of a foldable set come out first. -/
theorem Foldable.mergeZeros_mono (h : Foldable m P) {i j : Nat} (hij : i ≤ j) (hj : j < 2 ^ m)
    (hz : mergeZeros m P j) : mergeZeros m P i := by
  have hasc : Ascending (2 ^ m) (mergeNet m (indicator P)) := by
    refine ascending_mergeNet_iff.2 fun v => ?_
    cases v with
    | true => simpa only [indicator_lt] using h
    | false => exact foldable_of_forall_not fun i _ hc => not_lt_of_ge (Bool.false_le _) hc
  rw [mergeZeros_iff] at hz ⊢
  exact lt_of_le_of_lt (hasc i j hij hj) hz

/-! ## Two blocks, merged up and down -/

/-- Where two blocks of `2 ^ m` positions, merged one up and one down, hold what was at the
positions `P` of the first and `Q` of the second. -/
def mergeHalves (m : Nat) (P Q : Nat → Prop) (x : Nat) : Prop :=
  if x < 2 ^ m then mergeZeros m P x else ¬mergeZeros m (fun y => ¬Q y) (x - 2 ^ m)

theorem mergeHalves_low {x : Nat} (hx : x < 2 ^ m) :
    mergeHalves m P Q x ↔ mergeZeros m P x := by
  rw [mergeHalves, if_pos hx]

theorem mergeHalves_high (x : Nat) :
    mergeHalves m P Q (x + 2 ^ m) ↔ ¬mergeZeros m (fun y => ¬Q y) x := by
  rw [mergeHalves, if_neg (by omega), Nat.add_sub_cancel]

theorem foldable_mergeHalves_congr {P' Q' : Nat → Prop} (hP : ∀ x < 2 ^ m, P x ↔ P' x)
    (hQ : ∀ x < 2 ^ m, Q x ↔ Q' x) :
    Foldable (m + 1) (mergeHalves m P Q) ↔ Foldable (m + 1) (mergeHalves m P' Q') := by
  have hp : 2 ^ (m + 1) = 2 ^ m + 2 ^ m := by omega
  refine Foldable.congr fun x hx => ?_
  rcases Nat.lt_or_ge x (2 ^ m) with hl | hl
  · rw [mergeHalves_low hl, mergeHalves_low hl]
    exact mergeZeros_congr hP x hl
  · obtain ⟨y, rfl⟩ : ∃ y, x = y + 2 ^ m := ⟨x - 2 ^ m, by omega⟩
    rw [mergeHalves_high, mergeHalves_high]
    exact not_congr (mergeZeros_congr (fun z hz => not_congr (hQ z hz)) y (by omega))

/-- Foldable blocks come out as an initial and a final segment, and these fold again. -/
theorem foldable_mergeHalves (hP : Foldable m P) (hQ : Foldable m Q) :
    Foldable (m + 1) (mergeHalves m P Q) := by
  have hp : 2 ^ (m + 1) = 2 ^ m + 2 ^ m := by omega
  have hlow : ∀ i j, i ≤ j → j < 2 ^ m → mergeHalves m P Q j → mergeHalves m P Q i := by
    intro i j hij hj h
    rw [mergeHalves_low (by omega)] at h ⊢
    exact hP.mergeZeros_mono hij hj h
  have hhigh : ∀ i j, i ≤ j → j < 2 ^ m → mergeHalves m P Q (i + 2 ^ m) →
      mergeHalves m P Q (j + 2 ^ m) := by
    intro i j hij hj h
    rw [mergeHalves_high] at h ⊢
    exact mt ((foldable_not.2 hQ).mergeZeros_mono hij hj) h
  refine CyclicInterval.foldable fun a b c d hab hbc hcd hd => ⟨?_, ?_⟩
  · rintro ⟨-, hb, hc, hnd⟩
    rcases Nat.lt_or_ge c (2 ^ m) with hl | hl
    · exact hb (hlow b c (by omega) hl hc)
    · have hup := hhigh (c - 2 ^ m) (d - 2 ^ m) (by omega) (by omega)
      rw [Nat.sub_add_cancel hl, Nat.sub_add_cancel (by omega)] at hup
      exact hnd (hup hc)
  · rintro ⟨ha, hb, hc, -⟩
    rcases Nat.lt_or_ge b (2 ^ m) with hl | hl
    · exact ha (hlow a b (by omega) hl hb)
    · have hup := hhigh (b - 2 ^ m) (c - 2 ^ m) (by omega) (by omega)
      rw [Nat.sub_add_cancel hl, Nat.sub_add_cancel (by omega)] at hup
      exact hc (hup hb)

/-- Nothing in the second block: the first one, merged, folds by itself. -/
theorem Foldable.of_mergeHalves_left (h : Foldable (m + 1) (mergeHalves m P Q))
    (hQ : ∀ x < 2 ^ m, ¬Q x) : Foldable m (mergeZeros m P) := by
  refine (Foldable.congr fun x hx => ?_).1 h.2.1
  rw [mergeHalves_low hx, mergeHalves_high]
  exact or_iff_left (not_not.2 (mergeZeros_forall.2 hQ x hx))

/-- Nothing in the first block. -/
theorem Foldable.of_mergeHalves_right (h : Foldable (m + 1) (mergeHalves m P Q))
    (hP : ∀ x < 2 ^ m, ¬P x) : Foldable m (mergeZeros m fun y => ¬Q y) := by
  refine foldable_not.1 ((Foldable.congr fun x hx => ?_).1 h.2.1)
  rw [mergeHalves_low hx, mergeHalves_high]
  exact or_iff_right (mergeZeros_forall_not.2 hP x hx)

/-! ## Two ends -/

/-- Of `n` positions, the last `b₀` of the first `N₀` and the first `b₁` of the last `N₁`. -/
def Ends (n N₀ N₁ b₀ b₁ x : Nat) : Prop :=
  N₀ - b₀ ≤ x ∧ x < N₀ ∨ n - N₁ ≤ x ∧ x < n - N₁ + b₁

section
variable {N₀ N₁ b₀ b₁ : Nat} (h₀ : b₀ ≤ N₀) (h₁ : b₁ ≤ N₁)
include h₀ h₁

/-- While the ends fit side by side, they do not overlap in the fold and are its ends. -/
theorem ends_fold {h : Nat} (hfit : N₀ + N₁ ≤ h) {x : Nat} (hx : x < h) :
    ¬(Ends (h + h) N₀ N₁ b₀ b₁ x ∧ Ends (h + h) N₀ N₁ b₀ b₁ (x + h)) ∧
      (Ends (h + h) N₀ N₁ b₀ b₁ x ∨ Ends (h + h) N₀ N₁ b₀ b₁ (x + h) ↔ Ends h N₀ N₁ b₀ b₁ x) := by
  simp only [Ends]
  omega

theorem foldable_ends_succ (hfit : N₀ + N₁ ≤ 2 ^ m) :
    Foldable (m + 1) (Ends (2 ^ (m + 1)) N₀ N₁ b₀ b₁) ↔ Foldable m (Ends (2 ^ m) N₀ N₁ b₀ b₁) := by
  have hp : 2 ^ (m + 1) = 2 ^ m + 2 ^ m := by omega
  rw [hp, foldable_succ_iff fun x hx => (ends_fold h₀ h₁ hfit hx).1]
  exact Foldable.congr fun x hx => (ends_fold h₀ h₁ hfit hx).2

omit h₀ h₁ in
theorem cyclicInterval_of_interval {a b : Nat} (h : ∀ x < n, P x ↔ a ≤ x ∧ x < b) :
    CyclicInterval n P := by
  intro w x y z hwx hxy hyz hz
  rw [h w (by omega), h x (by omega), h y (by omega), h z hz]
  omega

/-- **Ends whose lengths add up to a power of two**, or only one end: foldable. -/
theorem foldable_ends (hfit : N₀ + N₁ ≤ 2 ^ m)
    (hpow : N₀ = 0 ∨ N₁ = 0 ∨ ∃ r, N₀ + N₁ = 2 ^ r) :
    Foldable m (Ends (2 ^ m) N₀ N₁ b₀ b₁) := by
  rcases hpow with rfl | rfl | ⟨r, hr⟩
  · refine (cyclicInterval_of_interval (a := 2 ^ m - N₁) (b := 2 ^ m - N₁ + b₁)
      fun x hx => ?_).foldable
    simp only [Ends]
    omega
  · refine (cyclicInterval_of_interval (a := N₀ - b₀) (b := N₀) fun x hx => ?_).foldable
    simp only [Ends]
    omega
  · have hrm : r ≤ m := (Nat.pow_le_pow_iff_right (by decide)).1 (hr ▸ hfit)
    induction m, hrm using Nat.le_induction with
    | base =>
      -- the ends meet: one interval around their meeting point
      refine (cyclicInterval_of_interval (a := N₀ - b₀) (b := N₀ + b₁) fun x hx => ?_).foldable
      simp only [Ends]
      omega
    | succ m hrm ih =>
      have hfit' : N₀ + N₁ ≤ 2 ^ m := hr ▸ Nat.pow_le_pow_right (by decide) hrm
      exact (foldable_ends_succ h₀ h₁ hfit').2 (ih hfit')

end

/-! ## Ends that overlap -/

/-- Some, but not all of `n` positions. -/
def Partial (n : Nat) (P : Nat → Prop) : Prop := (∃ x < n, P x) ∧ ∃ x < n, ¬P x

theorem Partial.not (h : Partial n P) : Partial n fun i => ¬P i := by
  obtain ⟨hp, x, hx, hnx⟩ := h
  exact ⟨⟨x, hx, hnx⟩, hp.imp fun y hy => ⟨hy.1, not_not.2 hy.2⟩⟩

/-- What the network makes of a partial foldable set has the first position and not the last. -/
theorem Partial.mergeZeros_bounds (h : Partial (2 ^ m) P) (hf : Foldable m P) :
    mergeZeros m P 0 ∧ ¬mergeZeros m P (2 ^ m - 1) := by
  obtain ⟨⟨x, hx, hPx⟩, y, hy, hPy⟩ := h
  have hpos := Nat.two_pow_pos m
  constructor
  · by_contra h0
    exact mergeZeros_forall_not.1
      (fun j hj hc => h0 (hf.mergeZeros_mono (Nat.zero_le j) hj hc)) x hx hPx
  · intro hl
    exact hPy (mergeZeros_forall.1
      (fun j hj => hf.mergeZeros_mono (by omega) (by omega) hl) y hy)

/-- Both halves sorted, each with some positions and some gaps: the double block is not foldable. -/
theorem not_foldable_of_halves {U V : Nat → Prop} (hU : Partial (2 ^ m) U) (hUf : Foldable m U)
    (hV : Partial (2 ^ m) V) (hVf : Foldable m V)
    (hlow : ∀ x < 2 ^ m, P x ↔ mergeZeros m U x)
    (hhigh : ∀ x < 2 ^ m, P (x + 2 ^ m) ↔ mergeZeros m V x) : ¬Foldable (m + 1) P := by
  have hpos := Nat.two_pow_pos m
  obtain ⟨hU0, hU1⟩ := hU.mergeZeros_bounds hUf
  obtain ⟨hV0, hV1⟩ := hV.mergeZeros_bounds hVf
  rintro ⟨hover | hover, -⟩
  · rcases hover (2 ^ m - 1) (by omega) with h | h
    · exact hU1 ((hlow _ (by omega)).1 h)
    · exact hV1 ((hhigh _ (by omega)).1 h)
  · exact hover 0 hpos ⟨(hlow 0 hpos).2 hU0, (hhigh 0 hpos).2 hV0⟩

section
variable {N₀ N₁ b₀ b₁ : Nat} (h₀ : b₀ ≤ N₀) (h₁ : b₁ ≤ N₁) (p₀ : 1 ≤ b₀) (p₁ : 1 ≤ b₁)
include h₀ h₁ p₀ p₁

omit h₁ in
/-- Ends that overlap in one position: the overlap … -/
theorem ends_and_iff {h : Nat} (hlt : h < N₀ + N₁) (hgt : N₀ + N₁ < h + h)
    (he : b₀ + b₁ = N₀ + N₁ - h + 1) {x : Nat} (hx : x < h) :
    (Ends (h + h) N₀ N₁ b₀ b₁ x ∧ Ends (h + h) N₀ N₁ b₀ b₁ (x + h)) ↔ x = N₀ - b₀ := by
  simp only [Ends]
  omega

/-- … and the fold, an interval or, when one end is longer than the fold, the complement of one. -/
theorem ends_or_iff {h : Nat} (hlt : h < N₀ + N₁) (hgt : N₀ + N₁ < h + h)
    (he : b₀ + b₁ = N₀ + N₁ - h + 1) {x : Nat} (hx : x < h) :
    (Ends (h + h) N₀ N₁ b₀ b₁ x ∨ Ends (h + h) N₀ N₁ b₀ b₁ (x + h)) ↔
      if h < N₀ then ¬(N₀ - h ≤ x ∧ x < h - N₁)
      else if h < N₁ then ¬(N₀ ≤ x ∧ x < h + h - N₁) else h - N₁ ≤ x ∧ x < N₀ := by
  simp only [Ends]
  split
  · omega
  · split <;> omega

theorem ends_overlap {h : Nat} (hlt : h < N₀ + N₁) (hgt : N₀ + N₁ < h + h)
    (he : b₀ + b₁ = N₀ + N₁ - h + 1) :
    (CyclicInterval h (fun x => Ends (h + h) N₀ N₁ b₀ b₁ x ∨ Ends (h + h) N₀ N₁ b₀ b₁ (x + h)) ∧
      Partial h fun x => Ends (h + h) N₀ N₁ b₀ b₁ x ∨ Ends (h + h) N₀ N₁ b₀ b₁ (x + h)) ∧
    CyclicInterval h (fun x => Ends (h + h) N₀ N₁ b₀ b₁ x ∧ Ends (h + h) N₀ N₁ b₀ b₁ (x + h)) ∧
      Partial h fun x => Ends (h + h) N₀ N₁ b₀ b₁ x ∧ Ends (h + h) N₀ N₁ b₀ b₁ (x + h) := by
  have hor := @ends_or_iff N₀ N₁ b₀ b₁ h₀ h₁ p₀ p₁ h hlt hgt he
  have hand := @ends_and_iff N₀ N₁ b₀ b₁ h₀ p₀ p₁ h hlt hgt he
  refine ⟨⟨?_, ⟨N₀ - b₀, by omega, ?_⟩, if N₀ < h then N₀ else N₀ - h, by split <;> omega, ?_⟩,
    cyclicInterval_of_interval (a := N₀ - b₀) (b := N₀ - b₀ + 1) fun x hx => ?_,
    ⟨N₀ - b₀, by omega, (hand (by omega)).2 rfl⟩, if N₀ - b₀ = 0 then 1 else 0, by split <;> omega,
    ?_⟩
  · intro w x y z hwx hxy hyz hz
    dsimp only
    rw [hor (by omega), hor (by omega), hor (by omega), hor hz]
    split
    · omega
    · split <;> omega
  · exact .inl (by simp only [Ends]; omega)
  · dsimp only
    rw [hor (by split <;> omega)]
    split
    · rw [if_neg (by omega)]
      omega
    · split
      · rw [if_pos (by omega)]
        omega
      · split <;> omega
  · rw [hand hx]
    omega
  · dsimp only
    rw [hand (by split <;> omega)]
    split <;> omega

/-- **Ends whose lengths do not add up to a power of two**: what the network makes of some of them,
or of their complement, is not foldable. The induction is on the positions beyond the first fold
that the ends do not fit in. -/
theorem not_foldable_mergeZeros_ends {i m : Nat} (him : i + 1 ≤ m) (hlt : 2 ^ i < N₀ + N₁)
    (hgt : N₀ + N₁ < 2 ^ (i + 1)) (he : b₀ + b₁ = N₀ + N₁ - 2 ^ i + 1) :
    ¬Foldable m (mergeZeros m (Ends (2 ^ m) N₀ N₁ b₀ b₁)) ∧
      ¬Foldable m (mergeZeros m fun x => ¬Ends (2 ^ m) N₀ N₁ b₀ b₁ x) := by
  induction m, him using Nat.le_induction with
  | base =>
    have hp : 2 ^ (i + 1) = 2 ^ i + 2 ^ i := by omega
    obtain ⟨⟨hU, hUp⟩, hV, hVp⟩ := ends_overlap h₀ h₁ p₀ p₁ hlt (hp ▸ hgt) he
    rw [hp]
    constructor
    · exact not_foldable_of_halves hUp hU.foldable hVp hV.foldable
        (fun x hx => mergeZeros_low hx) fun x _ => mergeZeros_high x
    · refine not_foldable_of_halves hVp.not hV.not.foldable hUp.not hU.not.foldable
        (fun x hx => ?_) fun x _ => ?_
      · rw [mergeZeros_low hx]
        simp only [not_and_or]
      · rw [mergeZeros_high]
        simp only [not_or]
  | succ m him ih =>
    have hp : 2 ^ (m + 1) = 2 ^ m + 2 ^ m := by omega
    have hfit : N₀ + N₁ ≤ 2 ^ m := hgt.le.trans (Nat.pow_le_pow_right (by decide) him)
    have hfold := fun x hx => (ends_fold h₀ h₁ (h := 2 ^ m) hfit (x := x) hx).2
    have hno := fun x hx => (ends_fold h₀ h₁ (h := 2 ^ m) hfit (x := x) hx).1
    rw [hp]
    constructor
    · -- everything goes to the lower half
      refine fun hf => ih.1 ((Foldable.congr fun x hx => ?_).1 hf.2.1)
      have hhigh : ¬mergeZeros (m + 1) (Ends (2 ^ m + 2 ^ m) N₀ N₁ b₀ b₁) (x + 2 ^ m) := by
        rw [mergeZeros_high]
        exact mergeZeros_forall_not.2 hno x hx
      rw [or_iff_left hhigh, mergeZeros_low hx]
      exact mergeZeros_congr hfold x hx
    · -- everything comes from the upper half
      refine fun hf => ih.2 ((Foldable.congr fun x hx => ?_).1 hf.2.2)
      have hlow : mergeZeros (m + 1) (fun x => ¬Ends (2 ^ m + 2 ^ m) N₀ N₁ b₀ b₁ x) x := by
        rw [mergeZeros_low hx]
        exact mergeZeros_forall.2 (fun y hy => not_and_or.1 (hno y hy)) x hx
      rw [and_iff_right hlow, mergeZeros_high]
      exact mergeZeros_congr (fun y hy => not_or.symm.trans (not_congr (hfold y hy))) x hx

end

end Net
