import ParSort.Fpga.Proof.Kernel
import ParSort.Fpga.Proof.Merge
import ParSort.Machine.Proof.Transfer
import ParSort.Net.ListMerge

/-!
# `fpga_sort`

The kernel hands `merge_s` two ascending halves. `merge_s` tells the direction of a half from its
first two elements, so it reads an ascending half backwards when these are equal: harmless when the
half is constant, wrong otherwise (`pairwise_towards_iff`). The element that two branches read twice
comes out last and is not copied back (`mergeS_data`). Hence the exact set of inputs `fpga_sort`
sorts (`fpgaSort_ascending_iff`, `fpgaSort_sorts_iff`); it permutes all of them.
-/

namespace Fpga

open Conc Machine Net

/-! ## When the first two elements tell the direction -/

/-- All cells compare equal. -/
def Constant (m : Mem Nat F32) (lo cnt : Nat) : Prop :=
  ∀ i ∈ Set.Ico lo (lo + cnt), ∀ j ∈ Set.Ico lo (lo + cnt), F32.eq (m i) (m j) = true

/-- The minimum is at exactly one index. -/
def UniqueMin (m : Mem Nat F32) (lo cnt : Nat) : Prop :=
  ∃! i, i ∈ Set.Ico lo (lo + cnt) ∧ ∀ j ∈ Set.Ico lo (lo + cnt), F32.le (m i) (m j) = true

/-- Sorted, the cells either are all equal or start with a strict step. -/
def DirectionClear (m : Mem Nat F32) (lo cnt : Nat) : Prop :=
  Constant m lo cnt ∨ UniqueMin m lo cnt

section
variable {M M' : Mem Nat F32} {lo cnt : Nat}

theorem directionClear_congr (h : ∀ i ∈ Set.Ico lo (lo + cnt), M' i = M i) :
    DirectionClear M' lo cnt ↔ DirectionClear M lo cnt := by
  refine or_congr (forall₂_congr fun i hi => forall₂_congr fun j hj => ?_)
    (existsUnique_congr fun i => and_congr_right fun hi => forall₂_congr fun j hj => ?_)
  · rw [h i hi, h j hj]
  · rw [h i hi, h j hj]

theorem directionClear_of_rearranges (h : Rearranges (Set.Ico lo (lo + cnt)) M M') :
    DirectionClear M' lo cnt ↔ DirectionClear M lo cnt := by
  refine or_congr ?_ ?_
  · have hj : ∀ x, (∀ j ∈ Set.Ico lo (lo + cnt), F32.eq x (M' j) = true) ↔
        ∀ j ∈ Set.Ico lo (lo + cnt), F32.eq x (M j) = true := fun x =>
      h.forall_iff (P := fun v => F32.eq x v = true)
    simp only [Constant, hj]
    exact h.forall_iff (P := fun v => ∀ j ∈ Set.Ico lo (lo + cnt), F32.eq v (M j) = true)
  · have hj : ∀ x, (∀ j ∈ Set.Ico lo (lo + cnt), F32.le x (M' j) = true) ↔
        ∀ j ∈ Set.Ico lo (lo + cnt), F32.le x (M j) = true := fun x =>
      h.forall_iff (P := fun v => F32.le x v = true)
    simp only [UniqueMin, hj]
    exact h.existsUnique_iff (P := fun v => ∀ j ∈ Set.Ico lo (lo + cnt), F32.le v (M j) = true)

/-- The order of the cells does not matter. -/
theorem SortedFrom.directionClear (h : SortedFrom M M' lo cnt) :
    DirectionClear M' lo cnt ↔ DirectionClear M lo cnt := by
  obtain ⟨⟨m, hr, hm⟩, -⟩ := h
  exact (directionClear_congr hm).trans (directionClear_of_rearranges hr)

theorem SortedFrom.congr (h : SortedFrom M M' lo cnt) {M'' : Mem Nat F32}
    (hM : ∀ i ∈ Set.Ico lo (lo + cnt), M'' i = M' i) : SortedFrom M M'' lo cnt := by
  obtain ⟨⟨m, hr, hm⟩, hs⟩ := h
  refine ⟨⟨m, hr, fun i hi => (hM i hi).trans (hm i hi)⟩, fun hnan i j hi hij hj => ?_⟩
  rw [hM i ⟨hi, by omega⟩, hM j ⟨by omega, hj⟩]
  exact hs hnan i j hi hij hj

theorem SortedFrom.nanFree (h : SortedFrom M M' lo cnt) (hM : NaNFree M lo cnt) :
    NaNFree M' lo cnt := by
  obtain ⟨⟨m, hr, hm⟩, -⟩ := h
  intro i hi
  rw [hm i hi]
  exact hr.forall hM i hi

end

/-! ## Reading a sorted half -/

section
variable {m : Mem Nat F32} {lo cnt : Nat}

theorem uniqueMin_iff (h2 : 2 ≤ cnt) (hm : NaNFree m lo cnt) (hs : AscList (slice m lo cnt)) :
    UniqueMin m lo cnt ↔ (m lo).key < (m (lo + 1)).key := by
  rw [ascList_slice] at hs
  have hle : ∀ i ∈ Set.Ico lo (lo + cnt), ∀ j ∈ Set.Ico lo (lo + cnt),
      (F32.le (m i) (m j) = true ↔ (m i).key ≤ (m j).key) := fun i hi j hj =>
    F32.le_iff (hm i hi) (hm j hj)
  have h0 : lo ∈ Set.Ico lo (lo + cnt) := ⟨Nat.le_refl _, by omega⟩
  have h1 : lo + 1 ∈ Set.Ico lo (lo + cnt) := ⟨by omega, by omega⟩
  have hmin : ∀ j ∈ Set.Ico lo (lo + cnt), (m lo).key ≤ (m j).key := fun j hj => by
    rcases Nat.eq_or_lt_of_le hj.1 with rfl | hlt
    · exact le_refl _
    · exact hs lo j (Nat.le_refl _) hlt hj.2
  constructor
  · rintro ⟨i, -, huniq⟩
    by_contra hc
    -- the first two elements are both a minimum
    have e0 := huniq lo ⟨h0, fun j hj => (hle _ h0 j hj).2 (hmin j hj)⟩
    have e1 := huniq (lo + 1) ⟨h1, fun j hj => (hle _ h1 j hj).2
      (le_trans (not_lt.1 hc) (hmin j hj))⟩
    omega
  · intro hlt
    refine ⟨lo, ⟨h0, fun j hj => (hle _ h0 j hj).2 (hmin j hj)⟩, fun i hi => ?_⟩
    by_contra hne
    have hlo := (hle i hi.1 lo h0).1 (hi.2 lo h0)
    rcases Nat.eq_or_lt_of_le (show lo + 1 ≤ i by have := hi.1.1; omega) with rfl | h
    · omega
    · have := hs (lo + 1) i (by omega) h hi.1.2
      omega

theorem constant_iff (hm : NaNFree m lo cnt) (hs : AscList (slice m lo cnt)) :
    Constant m lo cnt ↔ AscList (slice m lo cnt).reverse := by
  rw [AscList, List.pairwise_reverse, slice_pairwise]
  rw [ascList_slice] at hs
  have heq : ∀ i ∈ Set.Ico lo (lo + cnt), ∀ j ∈ Set.Ico lo (lo + cnt),
      (F32.eq (m i) (m j) = true ↔ (m i).key = (m j).key) := fun i hi j hj =>
    F32.eq_iff (hm i hi) (hm j hj)
  constructor
  · intro h i j hi hij hj
    have := (heq i ⟨hi, by omega⟩ j ⟨by omega, hj⟩).1 (h i ⟨hi, by omega⟩ j ⟨by omega, hj⟩)
    omega
  · intro h i hi j hj
    rw [heq i hi j hj]
    rcases Nat.lt_trichotomy i j with hij | rfl | hij
    · exact le_antisymm (hs i j hi.1 hij hj.2) (h i j hi.1 hij hj.2)
    · rfl
    · exact le_antisymm (h j i hj.1 hij hi.2) (hs j i hj.1 hij hi.2)

/-- **A sorted half is read in ascending order** exactly when its direction is clear. -/
theorem pairwise_towards_iff (h2 : 2 ≤ cnt) (hm : NaNFree m lo cnt)
    (hs : AscList (slice m lo cnt)) :
    AscList (towards (F32.lt (m lo) (m (lo + 1))) (slice m lo cnt)) ↔ DirectionClear m lo cnt := by
  have hlt : F32.lt (m lo) (m (lo + 1)) = true ↔ UniqueMin m lo cnt := by
    rw [uniqueMin_iff h2 hm hs]
    exact F32.lt_iff (hm lo ⟨Nat.le_refl _, by omega⟩) (hm (lo + 1) ⟨by omega, by omega⟩)
  by_cases h : F32.lt (m lo) (m (lo + 1)) = true
  · rw [towards, if_pos h]
    exact iff_of_true hs (.inr (hlt.1 h))
  · rw [towards, if_neg h, ← constant_iff hm hs, DirectionClear, or_iff_left (mt hlt.2 h)]

end

/-! ## The merge of two ascending halves -/

section
variable {M : Mem Cell F32} {h : Nat}

/-- `merge_s` on two ascending halves. -/
theorem mergeS_data (hpos : 1 ≤ h) (hM : NaNFree (Cell.data M) 0 h)
    (hs : AscList (slice (Cell.data M) 0 h)) :
    slice (Cell.data ((mergeS 0 (h - 1) (h + h - 1)).exec M)) 0 (h + h) =
      (towards (F32.lt (Cell.data M 0) (Cell.data M 1)) (slice (Cell.data M) 0 h)).merge
        (towards (F32.lt (Cell.data M h) (Cell.data M (h + 1))) (slice (Cell.data M) h h))
        F32.le := by
  have hmid : (h : Int) - 1 + 1 = (0 : Nat) + h := by omega
  have hright : (h : Int) + h - 1 + 1 = (0 : Nat) + h + h := by omega
  have hmerge := mergeS_merges M hpos hpos hmid hright
  simp only [Nat.zero_add] at hmerge
  refine hmerge fun _ _ => merge_append_bound _ [] fun x hx => ?_
  -- the element read twice is the largest of the left half
  obtain ⟨i, hi, rfl⟩ := mem_slice.1 (List.mem_reverse.1 hx)
  have hz : M (.host ((h : Int) - 1)) = Cell.data M (h - 1) := by
    rw [Cell.data]
    congr 2
    omega
  rw [hz, F32.le_iff (hM i hi) (hM (h - 1) ⟨by omega, by omega⟩)]
  rw [ascList_slice] at hs
  rcases Nat.eq_or_lt_of_le (show i ≤ h - 1 by have := hi.2; omega) with rfl | hlt
  · exact le_refl _
  · exact hs i (h - 1) hi.1 hlt (by omega)

end

/-! ## The host function -/

/-- `fpga_sort` on `2 * h` floats: the transfers, the kernel between them, and the merge. -/
def hostProgram (h : Nat) : Prog Cell F32 :=
  (Cell.hostToDevice (2 * h)).seq (((items h).map Cell.dev).seq
    ((Cell.deviceToHost (2 * h)).seq (mergeS 0 (h - 1) (h + h - 1))))

theorem mergeLoop_two (h : Nat) : mergeLoop (2 * h) 2 (List.range' 1 (2 - 1)) (↑(2 * h / 2) - 1) =
    mergeS 0 (h - 1) (h + h - 1) := by
  have hhalf : 2 * h / 2 = h := Nat.mul_div_cancel_left h (by decide)
  have hone : List.range' 1 (2 - 1) = [1] := rfl
  simp only [hone, mergeLoop, Nat.one_mul, hhalf, Prog.seq_done]

theorem fpgaSort_eq {fuel p : Nat} (hn : 2 * 2 ^ p < 2 ^ 30) (hf : 64 ≤ fuel) :
    fpgaSort fuel (2 * 2 ^ p) = some (hostProgram (2 ^ p)) := by
  simp only [fpgaSort, ndRangeKernel_eq hn hf, mergeLoop_two, Option.map_some, hostProgram]

theorem fpgaSort_unique {fuel fuel' n : Nat} {p p' : Prog Cell F32}
    (h : fpgaSort fuel n = some p) (h' : fpgaSort fuel' n = some p') : p = p' := by
  obtain ⟨kernel, hk, rfl⟩ := Option.map_eq_some_iff.1 h
  obtain ⟨kernel', hk', rfl⟩ := Option.map_eq_some_iff.1 h'
  rw [ndRangeKernel_unique hk hk']

theorem fpgaSort_overflow {p : Nat} (hn : 2 ^ 30 ≤ 2 * 2 ^ p) (fuel : Nat) :
    fpgaSort fuel (2 * 2 ^ p) = none := by
  rw [fpgaSort, ndRangeKernel_overflow hn fuel]
  rfl

theorem hostProgram_raceFree (p : Nat) : (hostProgram (2 ^ p)).RaceFree :=
  (Cell.hostToDevice_serial _).raceFree.seq (((items_raceFree p).map Cell.dev_injective).seq
    ((Cell.deviceToHost_serial _).raceFree.seq (mergeS_serial _ _ _).raceFree))

/-- **What `fpga_sort` leaves**: a permutation of the input, in order exactly when both halves had a
clear direction. -/
theorem hostProgram_data {p : Nat} (h1 : 1 ≤ p) {M : Mem Cell F32}
    (hM : NaNFree (Cell.data M) 0 (2 * 2 ^ p)) :
    (slice (Cell.data ((hostProgram (2 ^ p)).exec M)) 0 (2 * 2 ^ p)).Perm
        (slice (Cell.data M) 0 (2 * 2 ^ p)) ∧
      (Sorted (Cell.data ((hostProgram (2 ^ p)).exec M)) 0 (2 * 2 ^ p) ↔
        DirectionClear (Cell.data M) 0 (2 ^ p) ∧ DirectionClear (Cell.data M) (2 ^ p) (2 ^ p)) := by
  have hh : 2 ≤ 2 ^ p := Nat.pow_le_pow_right (n := 2) (by decide) h1
  simp only [hostProgram, Prog.exec_seq]
  have htrip : ∀ i < 2 * 2 ^ p, _ := fun i hi => Cell.roundTrip_data (M := M)
    (items (2 ^ p)) (items_within p) (fun _ h => h) hi
  generalize (Cell.deviceToHost (2 * 2 ^ p)).exec _ = M1 at htrip
  -- the two halves after the kernel
  have hhalf : ∀ w < 2, SortedFrom (Cell.data M) (Cell.data M1) (w * 2 ^ p) (2 ^ p) :=
    fun w hw => (items_sortedFrom p (Cell.data M) hw).congr fun i hi => htrip i (by
      have hle : w * 2 ^ p ≤ 1 * 2 ^ p := Nat.mul_le_mul_right _ (by omega)
      have := hi.2
      omega)
  have h0 := hhalf 0 (by decide)
  have h1' := hhalf 1 (by decide)
  have hM0 := kernel_halves_nanFree hM (w := 0) (by decide)
  have hM1 := kernel_halves_nanFree hM (w := 1) (by decide)
  rw [Nat.zero_mul] at h0 hM0
  rw [Nat.one_mul] at h1' hM1
  generalize 2 ^ p = h at *
  have hnan0 := h0.nanFree hM0
  have hnan1 := h1'.nanFree hM1
  have hs0 := (sorted_iff_ascList hnan0).1 (h0.2 hM0)
  have hs1 := (sorted_iff_ascList hnan1).1 (h1'.2 hM1)
  have hmerge := mergeS_data (M := M1) (by omega) hnan0 hs0
  rw [show 2 * h = h + h by omega] at *
  generalize (mergeS 0 (h - 1) (h + h - 1)).exec M1 = M2 at *
  have hperm : (slice (Cell.data M2) 0 (h + h)).Perm (slice (Cell.data M) 0 (h + h)) := by
    rw [hmerge, slice_append, Nat.zero_add]
    exact (List.merge_perm_append _).trans (((towards_perm _ _).append (towards_perm _ _)).trans
      (h0.perm.append h1'.perm))
  refine ⟨hperm, ?_⟩
  have hnan2 : NaNFree (Cell.data M2) 0 (h + h) := forall_of_slice_perm hperm hM
  rw [sorted_iff_ascList hnan2, hmerge, ← h0.directionClear, ← h1'.directionClear,
    ← pairwise_towards_iff hh hnan0 hs0, ← pairwise_towards_iff hh hnan1 hs1, zero_add]
  exact ascList_merge_iff (fun x hx => hnan0.mem_isNum x ((towards_perm _ _).mem_iff.1 hx))
    fun x hx => hnan1.mem_isNum x ((towards_perm _ _).mem_iff.1 hx)

/-! ## Which inputs are sorted -/

/-- `fpga_sort` on `n` floats ends in every interleaving of its work-items, and leaves in the array
something with `Q`. -/
def SortAlways (n : Nat) (Q : Mem Nat F32 → Prop) (M : Mem Cell F32) : Prop :=
  ∃ fuel p, fpgaSort fuel n = some p ∧ p.Always (fun M' => Q (Cell.data M')) M

section
variable {p : Nat} {Q : Mem Nat F32 → Prop} {M : Mem Cell F32}

theorem sortAlways_iff (hn : 2 * 2 ^ p < 2 ^ 30) :
    SortAlways (2 * 2 ^ p) Q M ↔ Q (Cell.data ((hostProgram (2 ^ p)).exec M)) := by
  have heq := fpgaSort_eq hn (Nat.le_refl 64)
  constructor
  · rintro ⟨fuel, prog, hp, hQ⟩
    obtain rfl := fpgaSort_unique hp heq
    exact hQ.exec
  · intro hQ
    exact ⟨64, _, heq, Prog.always_of_raceFree (hostProgram_raceFree p) hQ⟩

theorem not_sortAlways (hn : 2 ^ 30 ≤ 2 * 2 ^ p) : ¬SortAlways (2 * 2 ^ p) Q M := by
  rintro ⟨fuel, prog, hp, -⟩
  rw [fpgaSort_overflow hn fuel] at hp
  exact nomatch hp

end

/-- **The inputs `fpga_sort` sorts**: up to `2 ^ 29` floats the result is always a permutation, in
order exactly when the direction of both halves is clear. At `2 ^ 30`, the one larger power of two
an `int` holds, the kernel never ends. -/
theorem fpgaSort_ascending_iff (m : Nat) (h2 : 2 ≤ m) (hint : 2 ^ m < 2 ^ 31) (M : Mem Cell F32)
    (hM : NaNFree (Cell.data M) 0 (2 ^ m)) :
    SortAlways (2 ^ m) (fun d => (slice d 0 (2 ^ m)).Perm (slice (Cell.data M) 0 (2 ^ m)) ∧
      (Sorted d 0 (2 ^ m) ↔ DirectionClear (Cell.data M) 0 (2 ^ m / 2) ∧
        DirectionClear (Cell.data M) (2 ^ m / 2) (2 ^ m / 2))) M ↔ m < 30 := by
  obtain ⟨p, rfl, hp⟩ := exists_half (by omega : 1 ≤ m)
  have hoff : 2 * 2 ^ p / 2 = 2 ^ p := Nat.mul_div_cancel_left _ (by decide)
  rw [hp] at hM ⊢
  rcases Nat.lt_or_ge (p + 1) 30 with hlt | hge
  · have hn : 2 * 2 ^ p < 2 ^ 30 := hp ▸ Nat.pow_lt_pow_right (by decide) hlt
    rw [sortAlways_iff hn, hoff]
    exact iff_of_true (hostProgram_data (by omega) hM) hlt
  · have hn : 2 ^ 30 ≤ 2 * 2 ^ p := hp ▸ Nat.pow_le_pow_right (by decide) hge
    exact iff_of_false (not_sortAlways hn) (by omega)

theorem fpgaSort_ascending_four : SortAlways (2 ^ 2) (fun d =>
    (slice d 0 (2 ^ 2)).Perm (slice (Cell.data Cell.countdown) 0 (2 ^ 2)) ∧
      (Sorted d 0 (2 ^ 2) ↔ DirectionClear (Cell.data Cell.countdown) 0 (2 ^ 2 / 2) ∧
        DirectionClear (Cell.data Cell.countdown) (2 ^ 2 / 2) (2 ^ 2 / 2))) Cell.countdown ↔
    2 < 30 :=
  fpgaSort_ascending_iff 2 (by decide) (by decide) Cell.countdown Cell.countdown_nanFree

/-- The largest power of two an `int` holds is out of `fpga_sort`'s reach. -/
theorem not_fpgaSort_two_pow_thirty : ¬SortAlways (2 ^ 30) (fun d =>
    (slice d 0 (2 ^ 30)).Perm (slice (Cell.data fun _ => ⟨0⟩) 0 (2 ^ 30)) ∧
      (Sorted d 0 (2 ^ 30) ↔ DirectionClear (Cell.data fun _ => ⟨0⟩) 0 (2 ^ 30 / 2) ∧
        DirectionClear (Cell.data fun _ => ⟨0⟩) (2 ^ 30 / 2) (2 ^ 30 / 2))) (fun _ => ⟨0⟩) := by
  rw [show 2 ^ 30 = 2 * 2 ^ 29 from rfl]
  exact not_sortAlways (Nat.le_refl _)

/-- **When `fpga_sort` sorts**: exactly when the length leaves the kernel's counter in range and
each half either is constant or has its minimum at one index only. Its merge is `mergeS`, where
`temp` is a region of its own. -/
theorem fpgaSort_sorts_iff (m : Nat) (h2 : 2 ≤ m) (hint : 2 ^ m < 2 ^ 31) (M : Mem Cell F32)
    (hM : NaNFree (Cell.data M) 0 (2 ^ m)) :
    SortAlways (2 ^ m) (fun d => Sorted d 0 (2 ^ m) ∧
      (slice d 0 (2 ^ m)).Perm (slice (Cell.data M) 0 (2 ^ m))) M ↔
    m < 30 ∧ DirectionClear (Cell.data M) 0 (2 ^ m / 2) ∧
      DirectionClear (Cell.data M) (2 ^ m / 2) (2 ^ m / 2) := by
  obtain ⟨p, rfl, hp⟩ := exists_half (by omega : 1 ≤ m)
  have hoff : 2 * 2 ^ p / 2 = 2 ^ p := Nat.mul_div_cancel_left _ (by decide)
  rw [hp] at hM ⊢
  rcases Nat.lt_or_ge (p + 1) 30 with hlt | hge
  · have hn : 2 * 2 ^ p < 2 ^ 30 := hp ▸ Nat.pow_lt_pow_right (by decide) hlt
    obtain ⟨hperm, hsort⟩ := hostProgram_data (by omega) hM
    rw [sortAlways_iff hn, hoff, and_iff_left hperm, hsort, and_iff_right hlt]
  · have hn : 2 ^ 30 ≤ 2 * 2 ^ p := hp ▸ Nat.pow_le_pow_right (by decide) hge
    exact iff_of_false (not_sortAlways hn) fun h => absurd h.1 (by omega)

theorem fpgaSort_sorts_four : SortAlways (2 ^ 2) (fun d => Sorted d 0 (2 ^ 2) ∧
      (slice d 0 (2 ^ 2)).Perm (slice (Cell.data Cell.countdown) 0 (2 ^ 2))) Cell.countdown ↔
    2 < 30 ∧ DirectionClear (Cell.data Cell.countdown) 0 (2 ^ 2 / 2) ∧
      DirectionClear (Cell.data Cell.countdown) (2 ^ 2 / 2) (2 ^ 2 / 2) :=
  fpgaSort_sorts_iff 2 (by decide) (by decide) Cell.countdown Cell.countdown_nanFree

/-- `1, 1, 2, 3, 0, 0, 0, 0`: the least element of the first half is there twice. -/
def tiedHead : Mem Cell F32
  | .host 0 => ⟨0x3F800000⟩
  | .host 1 => ⟨0x3F800000⟩
  | .host 2 => ⟨0x40000000⟩
  | .host 3 => ⟨0x40400000⟩
  | _ => ⟨0⟩

theorem not_directionClear_tiedHead : ¬DirectionClear (Cell.data tiedHead) 0 4 := by
  rintro (h | ⟨i, -, huniq⟩)
  · exact absurd (h 0 (by decide) 2 (by decide)) (by decide)
  · have hmin : ∀ i < 2, i ∈ Set.Ico 0 (0 + 4) ∧ ∀ j ∈ Set.Ico 0 (0 + 4),
        F32.le (Cell.data tiedHead i) (Cell.data tiedHead j) = true := by
      refine fun i hi => ⟨⟨Nat.zero_le i, by omega⟩, fun j hj => ?_⟩
      have hall : ∀ i < 2, ∀ j < 4,
          F32.le (Cell.data tiedHead i) (Cell.data tiedHead j) = true := by decide
      exact hall i hi j (by have := hj.2; omega)
    exact absurd ((huniq 0 (hmin 0 (by decide))).trans (huniq 1 (hmin 1 (by decide))).symm)
      (by decide)

/-- An array that `fpga_sort` does not sort. -/
theorem not_fpgaSort_tiedHead : ¬SortAlways (2 ^ 3) (fun d => Sorted d 0 (2 ^ 3) ∧
    (slice d 0 (2 ^ 3)).Perm (slice (Cell.data tiedHead) 0 (2 ^ 3))) tiedHead := by
  have hM : NaNFree (Cell.data tiedHead) 0 (2 * 2 ^ 2) := by
    intro i hi
    have hall : ∀ i < 8, (Cell.data tiedHead i).isNaN = false := by decide
    exact hall i hi.2
  rw [show 2 ^ 3 = 2 * 2 ^ 2 from rfl, sortAlways_iff (by decide)]
  rintro ⟨hs, -⟩
  exact not_directionClear_tiedHead ((hostProgram_data (by decide) hM).2.1 hs).1

end Fpga
