import ParSort.Conc.Proof.Rearrange
import ParSort.Net.Merge

/-!
# Programs that run the merging network

Values are compared by a key `κ : V → α` into a linear order, on the memories whose values satisfy
`ok` (a comparison may fail to be an order elsewhere). `HalfCleans` and `Merges` say what a program
leaves in a block of cells in terms of the keys it found there; `merges_passes` is the network as a
sequence of passes over all blocks of one size, `Merges.step` as a recursion on the two halves.
-/

namespace Net

open Conc

variable {α V : Type} [LinearOrder α] {κ : V → α} {ok : V → Prop} {m m' m₁ m₂ : Mem Nat V}
  {lo L t : Nat}

/-- From `m` to `m'`: minima to the lower half of the block of `L + L` cells at `lo`, maxima to the
upper one. -/
def HalfCleans (κ : V → α) (m m' : Mem Nat V) (lo L : Nat) : Prop :=
  ∀ i < L, κ (m' (lo + i)) = min (κ (m (lo + i))) (κ (m (lo + (i + L)))) ∧
    κ (m' (lo + (i + L))) = max (κ (m (lo + i))) (κ (m (lo + (i + L))))

/-- From `m` to `m'`: the merging network on the block of `2 ^ t` cells at `lo`. -/
def Merges (κ : V → α) (m m' : Mem Nat V) (lo t : Nat) : Prop :=
  ∀ i < 2 ^ t, κ (m' (lo + i)) = mergeNet t (fun x => κ (m (lo + x))) i

/-- `p` half-cleans the block of `L + L` cells at `lo` and keeps its values comparable. -/
def Cleans (κ : V → α) (ok : V → Prop) (p : Prog Nat V) (lo L : Nat) : Prop :=
  ∀ m, (∀ i ∈ Set.Ico lo (lo + (L + L)), ok (m i)) →
    HalfCleans κ m (p.exec m) lo L ∧ ∀ i ∈ Set.Ico lo (lo + (L + L)), ok (p.exec m i)

/-- The keys of the block of `n` cells at `lo` ascend. -/
def AscendingBlock (κ : V → α) (m : Mem Nat V) (lo n : Nat) : Prop :=
  Ascending n fun x => κ (m (lo + x))

/-- The keys of the block of `n` cells at `lo` are bitonic. -/
def BitonicBlock (κ : V → α) (m : Mem Nat V) (lo n : Nat) : Prop :=
  Bitonic n fun x => κ (m (lo + x))

theorem ascendingBlock_iff_pairwise :
    AscendingBlock κ m lo L ↔ (slice m lo L).Pairwise fun x y => κ x ≤ κ y := by
  rw [slice_pairwise]
  constructor
  · intro h i j hi hij hj
    have hle := h (i - lo) (j - lo) (by omega) (by omega)
    dsimp only at hle
    rwa [show lo + (i - lo) = i by omega, show lo + (j - lo) = j by omega] at hle
  · intro h i j hij hj
    rcases Nat.eq_or_lt_of_le hij with rfl | hlt
    · exact le_refl _
    · exact h (lo + i) (lo + j) (by omega) (by omega) (by omega)

/-! ## One exchange -/

/-- An exchange decided by the order of the keys, either way on a tie, puts the minimum first. -/
theorem swapIf_min_max {c : V → V → Bool} {a b : Nat}
    (h1 : c (m a) (m b) = true → κ (m b) ≤ κ (m a))
    (h2 : c (m a) (m b) = false → κ (m a) ≤ κ (m b)) :
    κ ((Prog.swapIf c a b).exec m a) = min (κ (m a)) (κ (m b)) ∧
      κ ((Prog.swapIf c a b).exec m b) = max (κ (m a)) (κ (m b)) := by
  rw [Prog.exec_swapIf]
  cases hc : c (m a) (m b) with
  | true =>
    simp only [if_true, Function.comp, Equiv.swap_apply_left, Equiv.swap_apply_right]
    exact ⟨(min_eq_right (h1 hc)).symm, (max_eq_left (h1 hc)).symm⟩
  | false =>
    simp only [Bool.false_eq_true, if_false]
    exact ⟨(min_eq_left (h2 hc)).symm, (max_eq_right (h2 hc)).symm⟩

/-! ## The network, half-cleaner by half-cleaner -/

theorem Merges.zero (h : m' lo = m lo) : Merges κ m m' lo 0 := by
  intro i hi
  obtain rfl : i = 0 := by omega
  exact congrArg κ h

/-- A half-cleaner, then the network on both halves. -/
theorem Merges.step (h : HalfCleans κ m m₁ lo (2 ^ t)) (hl : Merges κ m₁ m₂ lo t)
    (hh : Merges κ m₁ m₂ (lo + 2 ^ t) t) : Merges κ m m₂ lo (t + 1) := by
  have hp : 2 ^ (t + 1) = 2 ^ t + 2 ^ t := by omega
  intro i hi
  rcases Nat.lt_or_ge i (2 ^ t) with hlt | hge
  · rw [hl i hlt, mergeNet_low hlt]
    exact mergeNet_congr (fun x hx => (h x hx).1) i hlt
  · obtain ⟨x, rfl⟩ : ∃ x, i = x + 2 ^ t := ⟨i - 2 ^ t, by omega⟩
    rw [show lo + (x + 2 ^ t) = lo + 2 ^ t + x by omega, hh x (by omega), mergeNet_high]
    refine mergeNet_congr (fun y hy => ?_) x (by omega)
    rw [show lo + 2 ^ t + y = lo + (y + 2 ^ t) by omega]
    exact (h y hy).2

theorem Merges.congr_left (h : Merges κ m₁ m' lo t) (he : ∀ i < 2 ^ t, m (lo + i) = m₁ (lo + i)) :
    Merges κ m m' lo t := by
  intro i hi
  rw [h i hi]
  exact mergeNet_congr (fun x hx => by rw [he x hx]) i hi

theorem Merges.congr_right (h : Merges κ m m₁ lo t) (he : ∀ i < 2 ^ t, m' (lo + i) = m₁ (lo + i)) :
    Merges κ m m' lo t := by
  intro i hi
  rw [he i hi, h i hi]

/-- **The network sorts a bitonic block.** -/
theorem Merges.ascending (h : Merges κ m m' lo t) (hb : BitonicBlock κ m lo (2 ^ t)) :
    AscendingBlock κ m' lo (2 ^ t) :=
  (ascending_congr h).2 hb.ascending_mergeNet

/-- The network as passes: `pass u` half-cleans the aligned blocks of `2 ^ (u + 1)` cells, and the
passes run from the largest blocks down. The induction is on the size of the block; both halves of
a block are aligned blocks of the next size. -/
theorem merges_passes {pass : Nat → Prog Nat V} (hlo : 2 ^ t ∣ lo)
    (h : ∀ u < t, ∀ b, 2 ^ (u + 1) ∣ b → lo ≤ b → b + 2 ^ (u + 1) ≤ lo + 2 ^ t →
      Cleans κ ok (pass u) b (2 ^ u))
    (hm : ∀ i ∈ Set.Ico lo (lo + 2 ^ t), ok (m i)) :
    Merges κ m ((Prog.forEach (List.range t).reverse pass).exec m) lo t := by
  induction t generalizing lo m with
  | zero => exact .zero rfl
  | succ t ih =>
    have hp : 2 ^ (t + 1) = 2 ^ t + 2 ^ t := by omega
    have hdvd : 2 ^ t ∣ 2 ^ (t + 1) := Nat.pow_dvd_pow 2 t.le_succ
    rw [List.range_succ, List.reverse_append, List.reverse_singleton, List.singleton_append,
      Prog.forEach_cons, Prog.exec_seq]
    obtain ⟨hc, hok⟩ := h t (by omega) lo hlo (by omega) (by omega) m (by rwa [← hp])
    rw [← hp] at hok
    refine Merges.step hc (ih (Nat.dvd_trans hdvd hlo) ?_ ?_)
      (ih (Nat.dvd_add (Nat.dvd_trans hdvd hlo) (Nat.dvd_refl _)) ?_ ?_)
    · exact fun u hu b hb h1 h2 => h u (by omega) b hb h1 (by omega)
    · exact fun i hi => hok i ⟨hi.1, by have := hi.2; omega⟩
    · exact fun u hu b hb h1 h2 => h u (by omega) b hb (by omega) (by omega)
    · exact fun i hi => hok i ⟨by have := hi.1; omega, by have := hi.2; omega⟩

end Net
