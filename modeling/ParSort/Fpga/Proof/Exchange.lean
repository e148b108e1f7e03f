import ParSort.Conc.Proof.Rearrange
import ParSort.Fpga.Def
import ParSort.Machine.Bits
import ParSort.Net.Program

/-!
# The exchange step of both kernels

Iteration `i` of a pass `(j, k)` touches the pair `{i, i ^ j}` when `i` is its lower index and
nothing otherwise, so the iterations of a pass do not meet (`pair_disjoint`). A pass over any list
of indices half-cleans the aligned blocks of `2 * j` cells it visits, in the direction of bit `k`
(`cleans_exchanges`), and the passes of a stage merge its blocks (`merges_exchanges`).
-/

namespace Fpga

open Conc Machine Net

/-- The direction of the pass `k = 2 ^ s` at index `b`: ascending? -/
def up (s b : Nat) : Bool := b / 2 ^ s % 2 = 0

/-! ## One iteration -/

theorem exchange_of_lt {j k i : Nat} (h : i < i ^^^ j) : exchange j k i =
    if i &&& k = 0 then .swapIf F32.gt i (i ^^^ j) else .swapIf F32.lt i (i ^^^ j) := if_pos h

theorem exchange_of_not_lt {j k i : Nat} (h : ¬i < i ^^^ j) : exchange j k i = .done := if_neg h

/-- The cells iteration `i` of a pass `j` touches. -/
def Pair (j i : Nat) : Set Nat := {a | i < i ^^^ j ∧ (a = i ∨ a = i ^^^ j)}

/-- Two iterations of a pass share no cell: the partner of a lower index is no lower index. -/
theorem pair_disjoint (j : Nat) {i i' : Nat} (h : i ≠ i') : Disjoint (Pair j i) (Pair j i') := by
  rw [Set.disjoint_left]
  rintro a ⟨hi, ha⟩ ⟨hi', ha'⟩
  rcases ha with rfl | rfl <;> rcases ha' with ha' | ha'
  · exact h ha'
  · rw [ha', Nat.xor_xor_cancel_right] at hi
    omega
  · rw [← ha', Nat.xor_xor_cancel_right] at hi'
    omega
  · exact h (Nat.xor_left_inj.1 ha')

theorem exchange_within (j k i : Nat) : (exchange j k i).Within (Pair j i) := by
  by_cases h : i < i ^^^ j
  · rw [exchange_of_lt h]
    split <;> exact Prog.within_swapIf.2 ⟨⟨h, .inl rfl⟩, ⟨h, .inr rfl⟩⟩
  · rw [exchange_of_not_lt h]
    trivial

theorem exchange_serial (j k i : Nat) : (exchange j k i).Serial := by
  by_cases h : i < i ^^^ j
  · rw [exchange_of_lt h]
    split <;> exact Prog.serial_swapIf _ _ _
  · rw [exchange_of_not_lt h]
    trivial

theorem exchange_rearranges {S : Set Nat} {j k i : Nat} (h : i < i ^^^ j → i ∈ S ∧ i ^^^ j ∈ S)
    (m : Mem Nat F32) : Rearranges S m ((exchange j k i).exec m) := by
  by_cases hi : i < i ^^^ j
  · rw [exchange_of_lt hi]
    split <;> exact rearranges_swapIf (h hi).1 (h hi).2 _ m
  · rw [exchange_of_not_lt hi]
    exact .refl S m

/-- An iteration at a lower index orders the pair in the direction of bit `s`. -/
theorem exchange_min_max {s t x : Nat} (hx : x / 2 ^ t % 2 = 0) {m : Mem Nat F32}
    (h1 : F32.IsNum (m x)) (h2 : F32.IsNum (m (x + 2 ^ t))) :
    (F32.dirKey (up s x) ((exchange (2 ^ t) (2 ^ s) x).exec m x) =
        min (F32.dirKey (up s x) (m x)) (F32.dirKey (up s x) (m (x + 2 ^ t))) ∧
      F32.dirKey (up s x) ((exchange (2 ^ t) (2 ^ s) x).exec m (x + 2 ^ t)) =
        max (F32.dirKey (up s x) (m x)) (F32.dirKey (up s x) (m (x + 2 ^ t)))) := by
  have hlt : x < x ^^^ 2 ^ t := lt_xor_iff.2 hx
  rw [exchange_of_lt hlt, xor_two_pow_of_clear hx]
  by_cases hs : x / 2 ^ s % 2 = 0
  · rw [if_pos (and_two_pow_eq_zero_iff.2 hs), up, decide_eq_true hs]
    exact swapIf_min_max (F32.gt_dirKey h1 h2).1 (F32.gt_dirKey h1 h2).2
  · rw [if_neg (mt and_two_pow_eq_zero_iff.1 hs), up, decide_eq_false hs]
    exact swapIf_min_max (F32.lt_dirKey h1 h2).1 (F32.lt_dirKey h1 h2).2

/-! ## Blocks -/

section
variable {s t b i : Nat}

/-- The cells of an aligned block of at most `2 ^ s` have one direction. -/
theorem up_of_block {x : Nat} (hts : t ≤ s) (hb : 2 ^ t ∣ b) (h1 : b ≤ x) (h2 : x < b + 2 ^ t) :
    up s x = up s b := by
  obtain ⟨c, hc⟩ : 2 ^ t ∣ 2 ^ s := Nat.pow_dvd_pow 2 hts
  rw [up, up, hc, ← Nat.div_div_eq_div_mul, ← Nat.div_div_eq_div_mul, div_eq_of_mem_block hb h1 h2]

/-- The pair of a cell in the lower half of an aligned block: the cell above it is the other one. -/
theorem pair_of_block (hb : 2 ^ (t + 1) ∣ b) (hi : i < 2 ^ t) :
    b + i < (b + i) ^^^ 2 ^ t ∧ (b + i) ^^^ 2 ^ t = b + (i + 2 ^ t) := by
  have hc := clear_of_low hb hi
  rw [xor_two_pow_of_clear hc]
  omega

/-- Every cell of an aligned block is in the pair of one in its lower half. -/
theorem exists_pair_of_block {a : Nat} (hb : 2 ^ (t + 1) ∣ b) (h1 : b ≤ a)
    (h2 : a < b + (2 ^ t + 2 ^ t)) : ∃ i < 2 ^ t, a ∈ Pair (2 ^ t) (b + i) := by
  rcases Nat.lt_or_ge a (b + 2 ^ t) with h | h
  · have hi : a - b < 2 ^ t := by omega
    exact ⟨a - b, hi, (pair_of_block hb hi).1, .inl (by omega)⟩
  · have hi : a - b - 2 ^ t < 2 ^ t := by omega
    obtain ⟨hlt, he⟩ := pair_of_block hb hi
    exact ⟨a - b - 2 ^ t, hi, hlt, .inr (by omega)⟩

end

/-! ## One pass -/

section
variable {l : List Nat} (hl : l.Nodup)
include hl

/-- A cell of iteration `i`'s pair, after the pass. -/
theorem exec_exchanges_at {j k i a : Nat} (hi : i ∈ l) (ha : a ∈ Pair j i) (m : Mem Nat F32) :
    (Prog.forEach l (exchange j k)).exec m a = (exchange j k i).exec m a :=
  Prog.exec_forEach_at (hl.imp fun h => pair_disjoint j h) (fun i _ => exchange_within j k i) hi ha
    m

/-- A pass half-cleans every aligned block whose lower half it visits. -/
theorem cleans_exchanges {s t b : Nat} (hts : t < s) (hb : 2 ^ (t + 1) ∣ b)
    (hvis : ∀ i < 2 ^ t, b + i ∈ l) :
    Cleans (F32.dirKey (up s b)) F32.IsNum (Prog.forEach l (exchange (2 ^ t) (2 ^ s))) b
      (2 ^ t) := by
  intro m hm
  constructor
  · intro i hi
    obtain ⟨hlt, he⟩ := pair_of_block hb hi
    have h := exchange_min_max (s := s) (clear_of_low hb hi) (hm _ ⟨by omega, by omega⟩)
      (hm _ ⟨by omega, by omega⟩)
    rw [up_of_block hts hb (Nat.le_add_right b i) (by omega), Nat.add_assoc] at h
    rw [exec_exchanges_at hl (hvis i hi) ⟨hlt, .inl rfl⟩,
      exec_exchanges_at hl (hvis i hi) ⟨hlt, .inr he.symm⟩]
    exact h
  · intro a ha
    -- the cell is in the pair of one lower index, which keeps its values in the pair
    obtain ⟨i, hi, hmem⟩ := exists_pair_of_block hb ha.1 ha.2
    have hpair : ∀ x ∈ Pair (2 ^ t) (b + i), F32.IsNum (m x) := by
      obtain ⟨-, he⟩ := pair_of_block hb hi
      rintro x ⟨-, rfl | rfl⟩
      · exact hm _ ⟨by omega, by omega⟩
      · rw [he]
        exact hm _ ⟨by omega, by omega⟩
    have hr : Rearranges (Pair (2 ^ t) (b + i)) m ((exchange (2 ^ t) (2 ^ s) (b + i)).exec m) := by
      refine exchange_rearranges (fun h => ?_) m
      exact ⟨⟨h, .inl rfl⟩, h, .inr rfl⟩
    rw [exec_exchanges_at hl (hvis i hi) hmem]
    exact hr.forall hpair a hmem

/-! ## One stage -/

/-- The passes `j = 2 ^ (t - 1), …, 2, 1` of stage `2 ^ s` merge every aligned block of `2 ^ t`
visited cells. -/
theorem merges_exchanges {s t b : Nat} (hts : t ≤ s) (hb : 2 ^ t ∣ b)
    (hvis : ∀ i < 2 ^ t, b + i ∈ l) {m : Mem Nat F32}
    (hm : ∀ i ∈ Set.Ico b (b + 2 ^ t), F32.IsNum (m i)) :
    Merges (F32.dirKey (up s b)) m ((Prog.forEach (List.range t).reverse fun u =>
      Prog.forEach l (exchange (2 ^ u) (2 ^ s))).exec m) b t := by
  refine merges_passes hb (fun u hu c hc h1 h2 => ?_) hm
  have hp : 2 ^ (u + 1) = 2 ^ u + 2 ^ u := by omega
  have hpos := Nat.two_pow_pos u
  rw [← up_of_block hts hb h1 (show c < b + 2 ^ t by omega)]
  refine cleans_exchanges hl (by omega) hc fun i hi => ?_
  have := hvis (c + i - b) (by omega)
  rwa [show b + (c + i - b) = c + i by omega] at this

end

end Fpga
