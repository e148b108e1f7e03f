import ParSort.Conc.Proof.Race
import ParSort.Fpga.Proof.Stage
import ParSort.Machine.Proof.Order

/-!
# The kernel `fpgasort`

Work-item `w` runs the stages over its own half, at absolute indices. For `n = 2 * 2 ^ p` neither
item leaves its half: the only pass that pairs the halves, `j = 2 ^ p` of item 1's last stage, has
every partner below its index (`closed_item`). Item 0 ends ascending after stage `2 ^ p`; item 1 is
then descending, and its extra stage `2 ^ (p + 1)` merges it upwards (`item_sorted`). So the kernel
sorts both halves (`items_sortedFrom`) as long as the counters stay in range, and never ends from
`n = 2 ^ 30` on (`kernelSorts_iff`). The lengths whose halves the items keep to are `0` and the
powers of two from 2 on (`items_within_iff`).
-/

namespace Fpga

open Conc Machine Net

/-! ## One work-item -/

/-- The work-item of the indices `[low, high)`. -/
def item (low high : Nat) : Prog Nat F32 :=
  .forEach (stages (Nat.log 2 high)) (pass (List.range' low (high - low)))

theorem fpgasort_eq {fuel num globalSize index : Nat}
    (hn : index * (num / globalSize) + num / globalSize < 2 ^ 30) (hf : 64 ≤ fuel) :
    fpgasort fuel num globalSize index = some
      (item (index * (num / globalSize)) (index * (num / globalSize) + num / globalSize)) := by
  rw [fpgasort, loops_eq hn hf]
  rfl

theorem fpgasort_overflow {num globalSize index : Nat}
    (hn : 2 ^ 30 ≤ index * (num / globalSize) + num / globalSize) (fuel : Nat) :
    fpgasort fuel num globalSize index = none := by
  rw [fpgasort, loops_overflow hn fuel]
  rfl

theorem fpgasort_unique {fuel fuel' num globalSize index : Nat} {p p' : Prog Nat F32}
    (h : fpgasort fuel num globalSize index = some p)
    (h' : fpgasort fuel' num globalSize index = some p') : p = p' := by
  obtain ⟨kj, hkj, rfl⟩ := Option.map_eq_some_iff.1 h
  obtain ⟨kj', hkj', rfl⟩ := Option.map_eq_some_iff.1 h'
  rw [loops_unique hkj hkj']

theorem item_serial (low high : Nat) : (item low high).Serial :=
  Prog.serial_forEach fun kj _ => Prog.serial_forEach fun i _ => exchange_serial kj.2 kj.1 i

theorem exchange_within_iff {j k i : Nat} {S : Set Nat} :
    (exchange j k i).Within S ↔ (i < i ^^^ j → i ∈ S ∧ i ^^^ j ∈ S) := by
  by_cases h : i < i ^^^ j
  · rw [exchange_of_lt h]
    split <;> simp [h]
  · rw [exchange_of_not_lt h]
    simp [h, Prog.Within]

/-- A work-item keeps to `S` when each of its passes does. -/
theorem item_within_iff {low high : Nat} {S : Set Nat} : (item low high).Within S ↔
    ∀ p ∈ stages (Nat.log 2 high), ∀ i ∈ List.range' low (high - low),
      i < i ^^^ p.2 → i ∈ S ∧ i ^^^ p.2 ∈ S := by
  simp only [item, pass, Prog.within_forEach, exchange_within_iff]

/-! ## The halves of a power of two -/

theorem log_half (p : Nat) {w : Nat} (hw : w < 2) : Nat.log 2 (w * 2 ^ p + 2 ^ p) = p + w := by
  obtain rfl | rfl : w = 0 ∨ w = 1 := by omega
  · rw [Nat.zero_mul, Nat.zero_add, Nat.log_pow (by decide), Nat.add_zero]
  · rw [show 1 * 2 ^ p + 2 ^ p = 2 ^ (p + 1) by omega, Nat.log_pow (by decide)]

/-- Every pass of work-item `w` stays in the half `w`. -/
theorem closed_item (p : Nat) {w : Nat} (hw : w < 2) :
    Closed (List.range' (w * 2 ^ p) (2 ^ p)) (Set.Ico (w * 2 ^ p) (w * 2 ^ p + 2 ^ p)) (p + w) := by
  intro u hu x hx hlt
  rw [List.mem_range'_1] at hx
  rcases Nat.lt_or_ge u p with hup | hup
  · exact ⟨hx, xor_mem_block hup (Nat.dvd_mul_left _ _) hx.1 hx.2⟩
  · -- the pass between the halves: bit `p` of every index of item 1 is set
    obtain rfl : u = p := by omega
    obtain rfl : w = 1 := by omega
    have hq : x / 2 ^ u = 1 * 2 ^ u / 2 ^ u :=
      div_eq_of_mem_block (Nat.dvd_mul_left _ _) hx.1 hx.2
    rw [lt_xor_iff, hq, Nat.one_mul, Nat.div_self (Nat.two_pow_pos u)] at hlt
    exact absurd hlt (by decide)

theorem item_half (p w : Nat) (hw : w < 2) : item (w * 2 ^ p) (w * 2 ^ p + 2 ^ p) =
    .forEach (stages (p + w)) (pass (List.range' (w * 2 ^ p) (2 ^ p))) := by
  rw [item, log_half p hw, Nat.add_sub_cancel_left]

theorem item_within (p : Nat) {w : Nat} (hw : w < 2) :
    (item (w * 2 ^ p) (w * 2 ^ p + 2 ^ p)).Within
      (Set.Ico (w * 2 ^ p) (w * 2 ^ p + 2 ^ p)) := by
  rw [item_within_iff, log_half p hw, Nat.add_sub_cancel_left]
  rintro ⟨k, j⟩ hkj i hi hlt
  obtain ⟨s, t, hts, hs, rfl, rfl⟩ := mem_stages.1 hkj
  exact closed_item p hw t (by omega) i hi hlt

theorem item_rearranges (p : Nat) {w : Nat} (hw : w < 2) (m : Mem Nat F32) :
    Rearranges (Set.Ico (w * 2 ^ p) (w * 2 ^ p + 2 ^ p)) m
      ((item (w * 2 ^ p) (w * 2 ^ p + 2 ^ p)).exec m) := by
  rw [item_half p w hw]
  exact rearranges_stages (closed_item p hw) m

/-- Item 1 before its last stage is descending; the passes `j < 2 ^ p` of that stage, whose bit `k`
is clear in every index, merge it upwards. -/
theorem lastStage_ascending {p : Nat} {m : Mem Nat F32}
    (h : AscendingBlock (F32.dirKey false) m (2 ^ p) (2 ^ p))
    (hm : ∀ i ∈ Set.Ico (2 ^ p) (2 ^ p + 2 ^ p), (m i).IsNum) :
    AscendingBlock F32.key
      ((Prog.forEach (stage (p + 1)) (pass (List.range' (2 ^ p) (2 ^ p)))).exec m)
      (2 ^ p) (2 ^ p) := by
  -- the first pass, `j = 2 ^ p`, does nothing
  have hfirst : (pass (List.range' (2 ^ p) (2 ^ p)) (2 ^ (p + 1), 2 ^ p)).exec m = m := by
    refine Prog.exec_forEach_idle (fun i hi m' => ?_) m
    rw [List.mem_range'_1] at hi
    rw [exchange_of_not_lt]
    · rfl
    · rw [lt_xor_iff, div_eq_of_mem_block (Nat.dvd_refl _) hi.1 hi.2,
        Nat.div_self (Nat.two_pow_pos p)]
      decide
  rw [forEach_stage, List.range_succ, List.reverse_append, List.reverse_singleton,
    List.singleton_append, Prog.forEach_cons, Prog.exec_seq, hfirst]
  have hup : up (p + 1) (2 ^ p) = true := by
    rw [up, Nat.div_eq_of_lt (Nat.pow_lt_pow_right (by decide) p.lt_succ_self)]
    rfl
  have hmerge := merges_exchanges (l := List.range' (2 ^ p) (2 ^ p)) List.nodup_range'
    p.le_succ (Nat.dvd_refl _) (fun i hi => by rw [List.mem_range'_1]; omega) hm
  rw [hup] at hmerge
  refine hmerge.ascending
    (bitonic_of_valley (2 ^ p) (fun i j hij hj _ => ?_) fun i j hi hij hj => ?_)
  · have := h i j hij hj
    simp only [F32.dirKey, Bool.false_eq_true, if_false] at this
    exact neg_le_neg_iff.1 this
  · omega

/-- **Both work-items end ascending.** -/
theorem item_sorted (p : Nat) {w : Nat} (hw : w < 2) {m : Mem Nat F32}
    (hm : NaNFree m (w * 2 ^ p) (2 ^ p)) :
    AscendingBlock F32.key ((item (w * 2 ^ p) (w * 2 ^ p + 2 ^ p)).exec m)
      (w * 2 ^ p) (2 ^ p) := by
  have hpos := Nat.two_pow_pos p
  have hc := (closed_item p hw).mono (Nat.le_add_right p w)
  have hvis : ∀ x, w * 2 ^ p ≤ x → x < w * 2 ^ p + 2 ^ p →
      x ∈ List.range' (w * 2 ^ p) (2 ^ p) := fun x h1 h2 => List.mem_range'_1.2 ⟨h1, h2⟩
  have hs := stageSorted_stages List.nodup_range' hvis hc hm (w * 2 ^ p) (Nat.dvd_mul_left _ _)
    (Nat.le_refl _) (Nat.le_refl _)
  rw [up, Nat.mul_div_cancel _ hpos] at hs
  rw [item_half p w hw]
  obtain rfl | rfl : w = 0 ∨ w = 1 := by omega
  · exact hs
  · rw [stages_succ, Prog.forEach_append, Prog.exec_seq]
    simp only [Nat.one_mul] at hs hc hm ⊢
    exact lastStage_ascending hs ((rearranges_stages hc m).forall hm)

/-! ## The kernel -/

/-- The two work-items as the kernel runs them. -/
def items (h : Nat) : Prog Nat F32 :=
  .par (item (0 * h) (0 * h + h)) (.par (item (1 * h) (1 * h + h)) .done .done) .done

/-- The cells `[lo, lo + cnt)` of `M'` are those of `M` in another order, ascending if no NaN was
among them. -/
def SortedFrom (M M' : Mem Nat F32) (lo cnt : Nat) : Prop :=
  (∃ m, Rearranges (Set.Ico lo (lo + cnt)) M m ∧ ∀ i ∈ Set.Ico lo (lo + cnt), M' i = m i) ∧
    (NaNFree M lo cnt → Sorted M' lo cnt)

theorem SortedFrom.perm {M M' : Mem Nat F32} {lo cnt : Nat} (h : SortedFrom M M' lo cnt) :
    (slice M' lo cnt).Perm (slice M lo cnt) := by
  obtain ⟨⟨m, hr, hm⟩, -⟩ := h
  rw [slice_congr hm]
  exact hr.slice_perm rfl

theorem ndRangeKernel_eq {fuel p : Nat} (hn : 2 * 2 ^ p < 2 ^ 30) (hf : 64 ≤ fuel) :
    ndRangeKernel fuel (2 * 2 ^ p) 2 = some (items (2 ^ p)) := by
  have hoff : 2 * 2 ^ p / 2 = 2 ^ p := Nat.mul_div_cancel_left _ (by decide)
  have hitem : ∀ w < 2, fpgasort fuel (2 * 2 ^ p) 2 w = some
      (item (w * 2 ^ p) (w * 2 ^ p + 2 ^ p)) := fun w hw => by
    have hle : w * 2 ^ p ≤ 1 * 2 ^ p := Nat.mul_le_mul_right _ (by omega)
    rw [fpgasort_eq (by rw [hoff]; omega) hf, hoff]
  simp only [ndRangeKernel, List.range_succ, List.range_zero, List.nil_append,
    List.singleton_append, List.mapM_cons, List.mapM_nil, hitem 0 (by decide), hitem 1 (by decide)]
  rfl

/-- Below `2 ^ 30` the loops of both work-items end. -/
theorem ndRangeKernel_of_lt {fuel n : Nat} (hn : n < 2 ^ 30) (hf : 64 ≤ fuel) :
    ∃ kernel, ndRangeKernel fuel n 2 = some kernel := by
  have hitem : ∀ w < 2, ∃ p, fpgasort fuel n 2 w = some p := fun w hw => by
    have hle : w * (n / 2) ≤ 1 * (n / 2) := Nat.mul_le_mul_right _ (by omega)
    exact ⟨_, fpgasort_eq (by omega) hf⟩
  obtain ⟨p, hp⟩ := hitem 0 (by decide)
  obtain ⟨q, hq⟩ := hitem 1 (by decide)
  refine ⟨.parEach [p, q] id, ?_⟩
  simp only [ndRangeKernel, List.range_succ, List.range_zero, List.nil_append,
    List.singleton_append, List.mapM_cons, List.mapM_nil, hp, hq]
  rfl

theorem ndRangeKernel_items {fuel n : Nat} {kernel : Prog Nat F32}
    (h : ndRangeKernel fuel n 2 = some kernel) : ∃ p q, fpgasort fuel n 2 0 = some p ∧
      fpgasort fuel n 2 1 = some q ∧ kernel = .par p (.par q .done .done) .done := by
  simp only [ndRangeKernel, List.range_succ, List.range_zero, List.nil_append,
    List.singleton_append, List.mapM_cons, List.mapM_nil] at h
  cases h0 : fpgasort fuel n 2 0 with
  | none => simp [h0] at h
  | some p =>
    cases h1 : fpgasort fuel n 2 1 with
    | none => simp [h0, h1] at h
    | some q =>
      simp only [h0, h1, Option.pure_def, Option.bind_eq_bind, Option.bind_some,
        Option.map_some, Option.some.injEq] at h
      exact ⟨p, q, rfl, rfl, h.symm⟩

theorem ndRangeKernel_unique {fuel fuel' n : Nat} {kernel kernel' : Prog Nat F32}
    (h : ndRangeKernel fuel n 2 = some kernel) (h' : ndRangeKernel fuel' n 2 = some kernel') :
    kernel = kernel' := by
  obtain ⟨p, q, hp, hq, rfl⟩ := ndRangeKernel_items h
  obtain ⟨p', q', hp', hq', rfl⟩ := ndRangeKernel_items h'
  rw [fpgasort_unique hp hp', fpgasort_unique hq hq']

/-- From `n = 2 ^ 30` on work-item 1 never ends. -/
theorem ndRangeKernel_overflow {p : Nat} (hn : 2 ^ 30 ≤ 2 * 2 ^ p) (fuel : Nat) :
    ndRangeKernel fuel (2 * 2 ^ p) 2 = none := by
  have hoff : 2 * 2 ^ p / 2 = 2 ^ p := Nat.mul_div_cancel_left _ (by decide)
  have h1 : fpgasort fuel (2 * 2 ^ p) 2 1 = none := fpgasort_overflow (by omega) fuel
  rw [← Option.not_isSome_iff_eq_none, Option.isSome_iff_exists]
  rintro ⟨kernel, hk⟩
  obtain ⟨_, _, _, hq, _⟩ := ndRangeKernel_items hk
  rw [h1] at hq
  exact nomatch hq

theorem items_within (p : Nat) : (items (2 ^ p)).Within {a | a < 2 * 2 ^ p} := by
  refine ⟨(item_within p (w := 0) (by omega)).mono fun a ha => ?_,
    ⟨(item_within p (w := 1) (by omega)).mono fun a ha => ?_, trivial, trivial⟩, trivial⟩
  · have := ha.2
    rw [Set.mem_ofPred_eq]
    omega
  · have := ha.2
    rw [Set.mem_ofPred_eq]
    omega

theorem items_raceFree (p : Nat) : (items (2 ^ p)).RaceFree := by
  have h0 := item_within p (w := 0) (by omega)
  have h1 := item_within p (w := 1) (by omega)
  refine ⟨⟨_, _, ?_, h0, ⟨h1, trivial, trivial⟩⟩, (item_serial _ _).raceFree,
    ⟨⟨_, ∅, Set.disjoint_empty _, h1, trivial⟩, (item_serial _ _).raceFree, trivial, trivial⟩,
    trivial⟩
  rw [Set.disjoint_left]
  intro a ha hb
  have := ha.2
  have := hb.1
  omega

/-- **The kernel on a power of two** sorts each half. -/
theorem items_sortedFrom (p : Nat) (M : Mem Nat F32) {w : Nat} (hw : w < 2) :
    SortedFrom M ((items (2 ^ p)).exec M) (w * 2 ^ p) (2 ^ p) := by
  simp only [items, Prog.exec]
  generalize hM1 : (item (0 * 2 ^ p) (0 * 2 ^ p + 2 ^ p)).exec M = M1
  have hr0 := item_rearranges p (w := 0) (by omega) M
  rw [hM1] at hr0
  have hr1 := item_rearranges p (w := 1) (by omega) M1
  -- neither item touches the other half
  have hsame : ∀ i ∈ Set.Ico (1 * 2 ^ p) (1 * 2 ^ p + 2 ^ p), M1 i = M i := fun i hi =>
    hr0.frame fun h => by have := h.2; have := hi.1; omega
  have hsame' : ∀ i ∈ Set.Ico (0 * 2 ^ p) (0 * 2 ^ p + 2 ^ p),
      (item (1 * 2 ^ p) (1 * 2 ^ p + 2 ^ p)).exec M1 i = M1 i := fun i hi =>
    hr1.frame fun h => by have := h.1; have := hi.2; omega
  obtain rfl | rfl : w = 0 ∨ w = 1 := by omega
  · refine ⟨⟨M1, hr0, hsame'⟩, fun hM => ?_⟩
    have hok : NaNFree M1 (0 * 2 ^ p) (2 ^ p) := hr0.forall hM
    have hs := item_sorted p (w := 0) (by omega) hM
    rw [hM1] at hs
    intro i j hi hij hj
    rw [hsame' i ⟨hi, by omega⟩, hsame' j ⟨by omega, hj⟩]
    exact (sorted_iff_ascending hok).2 hs i j hi hij hj
  · refine ⟨hr1.transfer hsame, fun hM => ?_⟩
    have hok : NaNFree M1 (1 * 2 ^ p) (2 ^ p) := fun i hi => by
      rw [hsame i hi]
      exact hM i hi
    exact (sorted_iff_ascending (hr1.forall hok)).2 (item_sorted p (by omega) hok)

/-! ## Both halves, in every interleaving -/

/-- The kernel on `n` floats: it ends in every interleaving of its two work-items, and leaves each
half `[0, n / 2)`, `[n / 2, 2 * (n / 2))` ascending and a permutation of its contents in `M`. -/
def KernelSorts (n : Nat) (M : Mem Nat F32) : Prop :=
  ∃ fuel kernel, ndRangeKernel fuel n 2 = some kernel ∧ kernel.Always (fun M' => ∀ w < 2,
    (slice M' (w * (n / 2)) (n / 2)).Perm (slice M (w * (n / 2)) (n / 2)) ∧
      Sorted M' (w * (n / 2)) (n / 2)) M

/-- A power of two from 2 on that is an `int`, as twice a power of two. -/
theorem exists_half {m : Nat} (h1 : 1 ≤ m) : ∃ p, m = p + 1 ∧ 2 ^ m = 2 * 2 ^ p :=
  ⟨m - 1, by omega, by rw [← Nat.pow_succ']; congr 1; omega⟩

theorem kernel_halves_nanFree {p : Nat} {M : Mem Nat F32} (hM : NaNFree M 0 (2 * 2 ^ p)) {w : Nat}
    (hw : w < 2) : NaNFree M (w * 2 ^ p) (2 ^ p) := by
  refine hM.mono (Nat.zero_le _) ?_
  obtain rfl | rfl : w = 0 ∨ w = 1 := by omega
  · omega
  · omega

/-- **The kernel sorts both halves** of every NaN-free array of `2 ^ m` floats exactly when
`m < 30`: for `2 ^ 30`, the largest power of two an `int` holds, the counter `k` of work-item 1
wraps around and its loop never ends. -/
theorem kernelSorts_iff (m : Nat) (h1 : 1 ≤ m) (hint : 2 ^ m < 2 ^ 31) (M : Mem Nat F32)
    (hM : NaNFree M 0 (2 ^ m)) : KernelSorts (2 ^ m) M ↔ m < 30 := by
  obtain ⟨p, rfl, hp⟩ := exists_half h1
  have hoff : 2 * 2 ^ p / 2 = 2 ^ p := Nat.mul_div_cancel_left _ (by decide)
  rw [hp] at hM ⊢
  constructor
  · rintro ⟨fuel, kernel, hk, -⟩
    by_contra hc
    have hge : 2 ^ 30 ≤ 2 * 2 ^ p := by
      rw [← hp]
      exact Nat.pow_le_pow_right (by decide) (by omega)
    rw [ndRangeKernel_overflow hge fuel] at hk
    exact nomatch hk
  · intro hlt
    have hsmall : 2 * 2 ^ p < 2 ^ 30 := by
      rw [← hp]
      exact Nat.pow_lt_pow_right (by decide) hlt
    refine ⟨64, _, ndRangeKernel_eq hsmall (Nat.le_refl 64), ?_⟩
    rw [hoff]
    exact Prog.always_of_raceFree (items_raceFree p) fun w hw =>
      ⟨(items_sortedFrom p M hw).perm, (items_sortedFrom p M hw).2 (kernel_halves_nanFree hM hw)⟩

theorem kernelSorts_four : KernelSorts (2 ^ 2) (Cell.data Cell.countdown) ↔ 2 < 30 :=
  kernelSorts_iff 2 (by decide) (by decide) _ Cell.countdown_nanFree

/-- The largest power of two an `int` holds is out of the kernel's reach. -/
theorem not_kernelSorts_two_pow_thirty : ¬KernelSorts (2 ^ 30) (fun _ => ⟨0⟩) := by
  rintro ⟨fuel, kernel, hk, -⟩
  rw [show 2 ^ 30 = 2 * 2 ^ 29 from rfl, ndRangeKernel_overflow (by decide) fuel] at hk
  exact nomatch hk

/-! ## Which lengths the work-items fit -/

/-- Halves whose length is no power of two: work-item 0 leaves its own. -/
theorem not_fpgasort_within {n : Nat} (hn : n < 2 ^ 30) (hpos : 1 ≤ n / 2)
    (hhalf : ∀ m, n / 2 ≠ 2 ^ m) {fuel : Nat} {prog : Prog Nat F32}
    (hprog : fpgasort fuel n 2 0 = some prog) :
    ¬prog.Within (Set.Ico (0 * (n / 2)) ((0 + 1) * (n / 2))) := by
  intro hw
  obtain ⟨t, c, hnt, hc1⟩ := exists_odd_part hpos hhalf
  have hfuel : 0 * (n / 2) + n / 2 < 2 ^ 30 := by omega
  have hitem : fpgasort 64 n 2 0 = some _ := fpgasort_eq hfuel (Nat.le_refl 64)
  rw [fpgasort_unique hprog hitem, Nat.zero_mul, Nat.zero_add, Nat.one_mul, Nat.zero_add,
    item_within_iff] at hw
  have hlt : 2 ^ t * (2 * c) < n / 2 := by
    rw [hnt]
    exact Nat.mul_lt_mul_of_pos_left (by omega) (Nat.two_pow_pos t)
  obtain ⟨hi, he⟩ := last_block_partner (t := t) (c := c)
  have hout := (hw _ (mem_stages_log hnt hc1) _ (List.mem_range'_1.2 ⟨Nat.zero_le _, by omega⟩)
    hi).2.2
  rw [he, ← hnt] at hout
  exact absurd hout (lt_irrefl _)

/-- The two halves cover an even length. -/
theorem halves_cover {n : Nat} (h : n = 2 * (n / 2)) {a : Nat} (ha : a < n) :
    ∃ w < 2, a ∈ Set.Ico (w * (n / 2)) ((w + 1) * (n / 2)) := by
  rcases Nat.lt_or_ge a (n / 2) with hl | hl
  · exact ⟨0, by decide, by omega, by omega⟩
  · exact ⟨1, by decide, by omega, by omega⟩

/-- **The work-items fit a length** below `2 ^ 30`, each keeping to its own half and the halves
covering the array, exactly when it is zero or a power of two from 2 on. -/
theorem items_within_iff (n : Nat) (hn : n < 2 ^ 30) :
    ((∀ w < 2, ∃ fuel p, fpgasort fuel n 2 w = some p ∧
        p.Within (Set.Ico (w * (n / 2)) ((w + 1) * (n / 2)))) ∧
      ∀ a < n, ∃ w < 2, a ∈ Set.Ico (w * (n / 2)) ((w + 1) * (n / 2))) ↔
    n = 0 ∨ ∃ m, 1 ≤ m ∧ n = 2 ^ m := by
  constructor
  · rintro ⟨hin, hcov⟩
    rcases Nat.eq_zero_or_pos n with h0 | hpos
    · exact .inl h0
    · -- the last element is covered, so `n` is even
      have heven : n = 2 * (n / 2) := by
        obtain ⟨w, hw, ha⟩ := hcov (n - 1) (by omega)
        have h2 : (w + 1) * (n / 2) ≤ 2 * (n / 2) := Nat.mul_le_mul_right _ (by omega)
        have := ha.2
        omega
      refine .inr ?_
      by_contra hc
      push Not at hc
      have hhalf : ∀ m, n / 2 ≠ 2 ^ m := fun m hm =>
        hc (m + 1) (by omega) (by rw [heven, hm, Nat.pow_succ'])
      obtain ⟨fuel, prog, hprog, hw⟩ := hin 0 (by decide)
      exact not_fpgasort_within hn (by omega) hhalf hprog hw
  · rintro (rfl | ⟨m, h1, rfl⟩)
    · refine ⟨fun w _ => ⟨64, _, fpgasort_eq (by simp) (Nat.le_refl 64), ?_⟩, fun a ha => by omega⟩
      rw [item_within_iff]
      intro p _ i hi
      simp at hi
    · obtain ⟨p, rfl, hp⟩ := exists_half h1
      have hoff : 2 ^ (p + 1) / 2 = 2 ^ p := by omega
      refine ⟨fun w hw => ⟨64, _, fpgasort_eq ?_ (Nat.le_refl 64), ?_⟩, fun a ha =>
        halves_cover (by omega) ha⟩
      · rw [hoff]
        have : w * 2 ^ p ≤ 1 * 2 ^ p := Nat.mul_le_mul_right _ (by omega)
        omega
      · rw [hoff, Nat.succ_mul]
        exact item_within p hw

theorem items_within_six : ((∀ w < 2, ∃ fuel p, fpgasort fuel 6 2 w = some p ∧
        p.Within (Set.Ico (w * (6 / 2)) ((w + 1) * (6 / 2)))) ∧
      ∀ a < 6, ∃ w < 2, a ∈ Set.Ico (w * (6 / 2)) ((w + 1) * (6 / 2))) ↔
    6 = 0 ∨ ∃ m, 1 ≤ m ∧ 6 = 2 ^ m :=
  items_within_iff 6 (by decide)

end Fpga
