import ParSort.Simd.Proof.Cl

/-!
# The problem, its division among the devices, and the check

The shares of the devices are a partition of the elements (`nPerDevice_partition`), so the problem
and the result of `cl_run` are those of `scalar_run`, whatever the number of devices, and both pass
their check (`runs_agree`). The check reports the first element that is off by more than its
tolerance (`check_iff`); a NaN is never off (`check_nan`).
-/

namespace Simd

open Conc Machine

/-! ## The shares -/

section
variable (n : Nat → Nat)

@[simp] theorem before_zero : before n 0 = 0 := rfl

@[simp] theorem before_succ (i : Nat) : before n (i + 1) = before n i + n i := by
  rw [before, List.range_succ, List.map_append, List.sum_append, before]
  simp

theorem before_mono {i k : Nat} (h : i ≤ k) : before n i ≤ before n k := by
  induction h with
  | refl => exact Nat.le_refl _
  | step _ ih =>
    rw [before_succ]
    omega

theorem before_add_lt {i k : Nat} (h : i < k) {j : Nat} (hj : j < n i) :
    before n i + j < before n k := by
  have := before_mono n (Nat.succ_le_of_lt h)
  rw [Nat.succ_eq_add_one, before_succ] at this
  omega

theorem exists_of_lt_before {k t : Nat} (h : t < before n k) :
    ∃ i < k, ∃ j < n i, before n i + j = t := by
  induction k with
  | zero => exact absurd h (Nat.not_lt_zero t)
  | succ k ih =>
    rw [before_succ] at h
    by_cases hlt : t < before n k
    · obtain ⟨i, hi, hj⟩ := ih hlt
      exact ⟨i, Nat.lt_succ_of_lt hi, hj⟩
    · exact ⟨k, Nat.lt_succ_self k, t - before n k, by omega, by omega⟩

/-- An element is in the share of one device. -/
theorem before_add_inj {i i' j j' : Nat} (hj : j < n i) (hj' : j' < n i')
    (h : before n i + j = before n i' + j') : i = i' ∧ j = j' := by
  rcases Nat.lt_trichotomy i i' with hlt | rfl | hgt
  · have := before_add_lt n hlt hj
    omega
  · exact ⟨rfl, by omega⟩
  · have := before_add_lt n hgt hj'
    omega

/-- The shares, one after another, are the elements in order. -/
theorem flatMap_before {α : Type} (f : Nat → α) (k : Nat) :
    ((List.range k).flatMap fun i => (List.range (n i)).map fun j => f (before n i + j)) =
      (List.range (before n k)).map f := by
  induction k with
  | zero => rfl
  | succ k ih =>
    rw [List.range_succ, List.flatMap_append, ih, before_succ, List.range_add, List.map_append]
    simp

end

section
variable {N k : Nat}

theorem before_nPerDevice {i : Nat} (hi : i ≤ k) :
    before (nPerDevice N k) i = i * (N / k) + min i (N % k) := by
  induction i with
  | zero => simp
  | succ i ih =>
    rw [before_succ, ih (by omega), nPerDevice, Nat.succ_mul]
    split <;> omega

theorem before_nPerDevice_total (hk : 0 < k) : before (nPerDevice N k) k = N := by
  have hmod := Nat.mod_lt N hk
  rw [before_nPerDevice (Nat.le_refl k), Nat.min_eq_right (by omega)]
  exact Nat.div_add_mod N k

theorem nPerDevice_le (hk : 0 < k) {i : Nat} (hi : i < k) : nPerDevice N k i ≤ N := by
  have h := before_mono (nPerDevice N k) (Nat.succ_le_of_lt hi)
  rw [before_nPerDevice_total hk, Nat.succ_eq_add_one, before_succ] at h
  omega

/-- **The shares are a partition**: for every problem size and number of devices, no two shares
differ by more than one, and every element is in the share of one device at one index. -/
theorem nPerDevice_partition (N k : Nat) (hk : 0 < k) :
    (∀ i i', nPerDevice N k i ≤ nPerDevice N k i' + 1) ∧
    ∀ t, t < N ↔ ∃! p : Nat × Nat, p.1 < k ∧ p.2 < nPerDevice N k p.1 ∧
      before (nPerDevice N k) p.1 + p.2 = t := by
  refine ⟨fun i i' => ?_, fun t => ⟨fun ht => ?_, ?_⟩⟩
  · unfold nPerDevice
    split <;> split <;> omega
  · have ht' : t < before (nPerDevice N k) k := by rwa [before_nPerDevice_total hk]
    obtain ⟨i, hi, j, hj, h⟩ := exists_of_lt_before _ ht'
    refine ⟨(i, j), ⟨hi, hj, h⟩, ?_⟩
    rintro ⟨i', j'⟩ ⟨-, hj', h'⟩
    obtain ⟨rfl, rfl⟩ := before_add_inj _ hj' hj (h'.trans h.symm)
    rfl
  · rintro ⟨⟨i, j⟩, ⟨hi, hj, rfl⟩, -⟩
    have := before_add_lt (nPerDevice N k) hi hj
    rwa [before_nPerDevice_total hk] at this

theorem nPerDevice_partition_ten :
    (∀ i i', nPerDevice 10 3 i ≤ nPerDevice 10 3 i' + 1) ∧
    ∀ t, t < 10 ↔ ∃! p : Nat × Nat, p.1 < 3 ∧ p.2 < nPerDevice 10 3 p.1 ∧
      before (nPerDevice 10 3) p.1 + p.2 = t :=
  nPerDevice_partition 10 3 (by decide)

end

/-! ## The problem -/

section
variable {add : F32 → F32 → F32} {randFloat : Nat → F32} {k : Nat} {n : Nat → Nat}

/-- The body of the loops of `init_problem`. -/
def drawPair (add : F32 → F32 → F32) (randFloat : Nat → F32) (t i j : Nat) : Prog ClCell F32 :=
  .store (.host (.inputA i (wrap32 j))) (randFloat (2 * t)) <|
    .store (.host (.inputB i (wrap32 j))) (randFloat (2 * t + 1)) <|
      .load (.host (.inputA i (wrap32 j))) fun a => .load (.host (.inputB i (wrap32 j))) fun b =>
        .store (.refOutput i (wrap32 j)) (add a b) .done

theorem initProblem_ok (hk : 0 < k) : initProblem add randFloat k n =
    .ok (.forEach (List.range k) fun i => .forEach (List.range (n i)) fun j =>
      drawPair add randFloat (before n i + j) i j) := if_neg (by omega)

/-- The cells of element `j` of device `i`. -/
def Element (i : Nat) (j : Int) : Set ClCell :=
  {.host (.inputA i j), .host (.inputB i j), .refOutput i j}

theorem drawPair_within {t i j : Nat} (hj : j < 2 ^ 31) :
    (drawPair add randFloat t i j).Within (Element i j) := by
  rw [drawPair, wrap32_of_lt hj]
  exact ⟨.inl rfl, .inr (.inl rfl), .inl rfl, fun _ => ⟨.inr (.inl rfl), fun _ =>
    ⟨.inr (.inr rfl), trivial⟩⟩⟩

theorem pairwise_element (i n : Nat) :
    (List.range n).Pairwise fun j k : Nat => Disjoint (Element i j) (Element i k) := by
  refine List.nodup_range.imp fun {j k} hjk => ?_
  rw [Set.disjoint_left]
  rintro c (rfl | rfl | rfl) (h | h | h)
  all_goals first
    | cases h; done
    | exact hjk (by simpa using h)

/-- What `init_problem` leaves for an element. -/
def Drawn (add : F32 → F32 → F32) (randFloat : Nat → F32) (k : Nat) (n : Nat → Nat)
    (M : Mem ClCell F32) : Prop :=
  ∀ i < k, ∀ j : Nat, j < n i →
    M (.host (.inputA i j)) = randFloat (2 * (before n i + j)) ∧
    M (.host (.inputB i j)) = randFloat (2 * (before n i + j) + 1) ∧
    M (.refOutput i j) =
      add (randFloat (2 * (before n i + j))) (randFloat (2 * (before n i + j) + 1))

variable (add randFloat) in
theorem initProblem_drawn (hn : ∀ i < k, n i ≤ 2 ^ 31) (hk : 0 < k) : ∃ p,
    initProblem add randFloat k n = .ok p ∧
      ∀ M, p.Always (Drawn add randFloat k n) M := by
  refine ⟨_, initProblem_ok hk, fun M => Prog.always_of_raceFree ?_ fun i hi j hj => ?_⟩
  · exact Prog.raceFree_forEach fun i _ => Prog.raceFree_forEach fun j _ _ _ => trivial
  · have hin : ∀ i ∈ List.range k, ∀ j ∈ List.range (n i),
        (drawPair add randFloat (before n i + j) i j).Within (Element i j) := fun i hi j hj =>
      drawPair_within (Nat.lt_of_lt_of_le (List.mem_range.1 hj) (hn i (List.mem_range.1 hi)))
    have hout : ∀ i ∈ List.range k, (Prog.forEach (List.range (n i)) fun j =>
        drawPair add randFloat (before n i + j) i j).Within (OfDevice i) := fun i hi =>
      Prog.within_forEach.2 fun j hj => (hin i hi j hj).mono (by rintro c (rfl | rfl | rfl) <;> rfl)
    have hat : ∀ c ∈ Element i j, _ := fun c hc =>
      (Prog.exec_forEach_at (List.nodup_range.imp disjoint_ofDevice) hout (List.mem_range.2 hi)
        (a := c) (by obtain rfl | rfl | rfl := hc <;> rfl) M).trans
      (Prog.exec_forEach_at (pairwise_element i (n i)) (hin i (List.mem_range.2 hi))
        (List.mem_range.2 hj) hc M)
    rw [hat _ (.inl rfl), hat _ (.inr (.inl rfl)), hat _ (.inr (.inr rfl)), drawPair,
      wrap32_of_lt (Nat.lt_of_lt_of_le hj (hn i hi))]
    simp [Prog.exec]

variable (add randFloat) in
/-- `init_problem` leaves `output` as it is. -/
theorem initProblem_output (n : Nat → Nat) (hk : 0 < k) : ∃ p,
    initProblem add randFloat k n = .ok p ∧
      ∀ M, p.Always (fun M' => ∀ i j, M' (.host (.output i j)) = M (.host (.output i j))) M := by
  have hw : ∀ i ∈ List.range k, (Prog.forEach (List.range (n i)) fun j =>
      drawPair add randFloat (before n i + j) i j).Within {c | ∀ i j, c ≠ .host (.output i j)} :=
    fun i _ => Prog.within_forEach.2 fun j _ =>
      ⟨nofun, nofun, nofun, fun _ => ⟨nofun, fun _ => ⟨nofun, trivial⟩⟩⟩
  refine ⟨_, initProblem_ok hk, fun M => Prog.always_of_raceFree ?_ fun i j => ?_⟩
  · exact Prog.raceFree_forEach fun i _ => Prog.raceFree_forEach fun j _ _ _ => trivial
  · exact Prog.exec_frame (Prog.within_forEach.2 hw) (fun h => h i j rfl) M

end

/-! ## The check -/

section
variable {sub : F32 → F32 → F32} {M : Mem ClCell F32} {k : Nat} {n : Nat → Nat}

theorem checkDevice_eq_none_iff {i c j : Nat} : checkDevice sub M i c j = none ↔
    ∀ j', j ≤ j' → j' < c → mismatch sub M i j' = false := by
  fun_induction checkDevice sub M i c j with
  | case1 j hlt hm =>
    simp only [reduceCtorEq, false_iff]
    exact fun h => by simp [h j (Nat.le_refl j) hlt] at hm
  | case2 j hlt hm ih =>
    rw [ih]
    refine ⟨fun h j' hj hc => ?_, fun h j' hj hc => h j' (by omega) hc⟩
    rcases Nat.eq_or_lt_of_le hj with rfl | hj
    · simpa using hm
    · exact h j' hj hc
  | case3 j hge =>
    simp only [true_iff]
    exact fun j' hj hc => by omega

theorem checkDevice_eq_some_iff {i c j j' : Nat} : checkDevice sub M i c j = some j' ↔
    (j ≤ j' ∧ j' < c ∧ mismatch sub M i j' = true) ∧
      ∀ l, j ≤ l → l < j' → mismatch sub M i l = false := by
  fun_induction checkDevice sub M i c j with
  | case1 j hlt hm =>
    rw [Option.some.injEq]
    constructor
    · rintro rfl
      exact ⟨⟨Nat.le_refl j, hlt, hm⟩, fun l h1 h2 => by omega⟩
    · rintro ⟨⟨h1, -, -⟩, hl⟩
      by_contra hne
      simp [hl j (Nat.le_refl j) (by omega)] at hm
  | case2 j hlt hm ih =>
    rw [ih]
    constructor
    · rintro ⟨⟨h1, h2, h3⟩, hl⟩
      refine ⟨⟨by omega, h2, h3⟩, fun l h h' => ?_⟩
      rcases Nat.eq_or_lt_of_le h with rfl | h
      · simpa using hm
      · exact hl l h h'
    · rintro ⟨⟨h1, h2, h3⟩, hl⟩
      refine ⟨⟨?_, h2, h3⟩, fun l h h' => hl l (by omega) h'⟩
      rcases Nat.eq_or_lt_of_le h1 with rfl | h
      · exact absurd h3 hm
      · exact h
  | case3 j hge =>
    simp only [reduceCtorEq, false_iff]
    exact fun h => by omega

theorem check_eq_pass_iff {i : Nat} : check sub M k n i = .pass ↔
    ∀ i', i ≤ i' → i' < k → ∀ j < n i', mismatch sub M i' j = false := by
  fun_induction check sub M k n i with
  | case1 i hlt j hj =>
    simp only [reduceCtorEq, false_iff]
    obtain ⟨⟨-, h2, h3⟩, -⟩ := checkDevice_eq_some_iff.1 hj
    exact fun h => by simp [h i (Nat.le_refl i) hlt j h2] at h3
  | case2 i hlt hnone ih =>
    rw [ih]
    refine ⟨fun h i' hi hk => ?_, fun h i' hi hk => h i' (by omega) hk⟩
    rcases Nat.eq_or_lt_of_le hi with rfl | hi
    · exact fun j hj => checkDevice_eq_none_iff.1 hnone j (Nat.zero_le j) hj
    · exact h i' hi hk
  | case3 i hge =>
    simp only [true_iff]
    exact fun i' hi hk => by omega

theorem check_eq_failed_iff {i i' j' : Nat} : check sub M k n i = .failed i' j' ↔
    (i ≤ i' ∧ i' < k ∧ j' < n i' ∧ mismatch sub M i' j' = true) ∧
      (∀ j < j', mismatch sub M i' j = false) ∧
      ∀ l, i ≤ l → l < i' → ∀ j < n l, mismatch sub M l j = false := by
  fun_induction check sub M k n i with
  | case1 i hlt j hj =>
    obtain ⟨⟨-, h2, h3⟩, hl⟩ := checkDevice_eq_some_iff.1 hj
    rw [Verdict.failed.injEq]
    constructor
    · rintro ⟨rfl, rfl⟩
      exact ⟨⟨Nat.le_refl i, hlt, h2, h3⟩, fun l h => hl l (Nat.zero_le l) h,
        fun l h h' => by omega⟩
    · rintro ⟨⟨h1, -, h4, h5⟩, hbefore, hdevices⟩
      obtain rfl : i = i' := by
        by_contra hne
        simp [hdevices i (Nat.le_refl i) (by omega) j h2] at h3
      refine ⟨rfl, ?_⟩
      rcases Nat.lt_trichotomy j j' with h | h | h
      · simp [hbefore j h] at h3
      · exact h
      · simp [hl j' (Nat.zero_le j') h] at h5
  | case2 i hlt hnone ih =>
    rw [ih]
    constructor
    · rintro ⟨⟨h1, h2, h3, h4⟩, hbefore, hdevices⟩
      refine ⟨⟨by omega, h2, h3, h4⟩, hbefore, fun l h h' => ?_⟩
      rcases Nat.eq_or_lt_of_le h with rfl | h
      · exact fun j hj => checkDevice_eq_none_iff.1 hnone j (Nat.zero_le j) hj
      · exact hdevices l h h'
    · rintro ⟨⟨h1, h2, h3, h4⟩, hbefore, hdevices⟩
      refine ⟨⟨?_, h2, h3, h4⟩, hbefore, fun l h h' => hdevices l (by omega) h'⟩
      rcases Nat.eq_or_lt_of_le h1 with rfl | h
      · simp [checkDevice_eq_none_iff.1 hnone j' (Nat.zero_le j') h3] at h4
      · exact h
  | case3 i hge =>
    simp only [reduceCtorEq, false_iff]
    exact fun h => by omega

end

/-- **What the check reports**: the first element, device by device, that is off by more than the
tolerance, and `PASS` when there is none. -/
theorem check_iff (sub : F32 → F32 → F32) (M : Mem ClCell F32) (k : Nat) (n : Nat → Nat) :
    (check sub M k n 0 = .pass ↔ ∀ i < k, ∀ j < n i, mismatch sub M i j = false) ∧
    ∀ i j, check sub M k n 0 = .failed i j ↔ (i < k ∧ j < n i ∧ mismatch sub M i j = true) ∧
      ∀ i' j', i' < k → j' < n i' → i' < i ∨ i' = i ∧ j' < j → mismatch sub M i' j' = false := by
  refine ⟨?_, fun i j => ?_⟩
  · rw [check_eq_pass_iff]
    simp
  · rw [check_eq_failed_iff]
    constructor
    · rintro ⟨⟨-, h2, h3, h4⟩, hbefore, hdevices⟩
      refine ⟨⟨h2, h3, h4⟩, fun i' j' hi' hj' hlt => ?_⟩
      obtain hlt | ⟨rfl, hlt⟩ := hlt
      · exact hdevices i' (Nat.zero_le i') hlt j' hj'
      · exact hbefore j' hlt
    · rintro ⟨⟨h2, h3, h4⟩, h⟩
      exact ⟨⟨Nat.zero_le i, h2, h3, h4⟩, fun j' hj' => h i j' h2 (by omega) (.inr ⟨rfl, hj'⟩),
        fun l _ hl j' hj' => h l j' (by omega) hj' (.inl hl)⟩

/-! ## Elements that are never off -/

theorem fabsf_isNaN (x : F32) : (fabsf x).isNaN = x.isNaN := by
  have hmag : (fabsf x).magnitude = x.magnitude := by
    simp only [F32.magnitude, fabsf, BitVec.toNat_and]
    rw [show (0x7FFFFFFF : BitVec 32).toNat = 2 ^ 31 - 1 from rfl, Nat.and_two_pow_sub_one_eq_mod,
      Nat.mod_mod]
  rw [F32.isNaN, F32.isNaN, hmag]

theorem mismatch_of_not_isNum {sub : F32 → F32 → F32} {M : Mem ClCell F32} {i j : Nat}
    (h : ¬(sub (M (.host (.output i (wrap32 j)))) (M (.refOutput i (wrap32 j)))).IsNum) :
    mismatch sub M i j = false := by
  rw [F32.IsNum, ← fabsf_isNaN] at h
  simp [mismatch, F32.gt, F32.lt, h]

/-- **A NaN passes the check**: outputs that are all NaN are reported as correct, whatever the
reference. -/
theorem check_nan (sub : F32 → F32 → F32) (hsub : ∀ x y, ¬x.IsNum → ¬(sub x y).IsNum)
    (M : Mem ClCell F32) (k : Nat) (n : Nat → Nat)
    (hM : ∀ i < k, ∀ j < n i, ¬(M (.host (.output i (wrap32 j)))).IsNum) :
    check sub M k n 0 = .pass :=
  check_eq_pass_iff.2 fun i _ hi j hj => mismatch_of_not_isNum (hsub _ _ (hM i hi j hj))

example : check (fun _ _ => ⟨0x7FC00000⟩) (fun _ => ⟨0x7FC00000⟩) 1 (fun _ => 3) 0 = .pass :=
  check_nan (fun _ _ => ⟨0x7FC00000⟩) (fun _ _ _ => F32.not_isNum_nan) (fun _ => ⟨0x7FC00000⟩) 1
    (fun _ => 3) fun _ _ _ _ => F32.not_isNum_nan

/-- What `x - x` is documented to be: zero, or a NaN when `x` is infinite or a NaN. -/
def SubSelf (sub : F32 → F32 → F32) : Prop := ∀ x, fabsf (sub x x) = ⟨0⟩ ∨ ¬(sub x x).IsNum

theorem mismatch_of_eq {sub : F32 → F32 → F32} (hsub : SubSelf sub) {M : Mem ClCell F32} {i j : Nat}
    (h : M (.host (.output i (wrap32 j))) = M (.refOutput i (wrap32 j))) :
    mismatch sub M i j = false := by
  obtain h0 | hnan := hsub (M (.refOutput i (wrap32 j)))
  · rw [mismatch, h, h0]
    rfl
  · exact mismatch_of_not_isNum (by rwa [h])

/-! ## The runs -/

section
variable {add sub : F32 → F32 → F32} {randFloat : Nat → F32} {k : Nat} {n : Nat → Nat}

/-- The sums of the pairs that `rand_float` returns. -/
def drawnSums (add : F32 → F32 → F32) (randFloat : Nat → F32) (N : Nat) : List F32 :=
  (List.range N).map fun t => add (randFloat (2 * t)) (randFloat (2 * t + 1))

/-- Once `output` holds the sums of what `init_problem` drew, so does the list of all elements, and
the check passes. -/
theorem outputs_of_drawn (hsub : SubSelf sub) (hn : ∀ i < k, n i ≤ 2 ^ 31) {M : Mem ClCell F32}
    (hout : ∀ i < k, ∀ j : Nat, j < n i → M (.host (.output i j)) =
      add (randFloat (2 * (before n i + j))) (randFloat (2 * (before n i + j) + 1)))
    (href : ∀ i < k, ∀ j : Nat, j < n i → M (.refOutput i j) =
      add (randFloat (2 * (before n i + j))) (randFloat (2 * (before n i + j) + 1))) :
    outputs k n M = drawnSums add randFloat (before n k) ∧ check sub M k n 0 = .pass := by
  constructor
  · rw [drawnSums, ← flatMap_before, outputs]
    refine List.flatMap_congr fun i hi => List.map_congr_left fun j hj => ?_
    exact hout i (List.mem_range.1 hi) j (List.mem_range.1 hj)
  · refine check_eq_pass_iff.2 fun i _ hi j hj => mismatch_of_eq hsub ?_
    rw [wrap32_of_lt (Nat.lt_of_lt_of_le hj (hn i hi)), hout i hi j hj, href i hi j hj]

theorem clRun_drawn (hsub : SubSelf sub) (hn : ∀ i < k, n i ≤ 2 ^ 31) (inOrder : Bool)
    {M : Mem ClCell F32} (hM : Drawn add randFloat k n M) :
    Queue.Always inOrder (clRun add k n) (fun M' => outputs k n M' =
      drawnSums add randFloat (before n k) ∧ check sub M' k n 0 = .pass)
      (.init (clRun add k n) M) := by
  have hsums : Sums add k n M ((Queue.sequential (clRun add k n)).exec M) := sequential_sums hn M
  have hseq := Prog.always_of_raceFree (sequential_raceFree hn) hsums
  refine ((Queue.always_iff clRun_wellFormed clCalls_ordered).2 hseq).mono fun M' ⟨hsum, hrest⟩ =>
    outputs_of_drawn hsub hn (fun i hi j hj => ?_) fun i hi j hj => ?_
  · obtain ⟨ha, hb, -⟩ := hM i hi j hj
    rw [hsum i hi j hj, ha, hb]
  · rw [hrest _ (by simp) (by simp)]
    exact (hM i hi j hj).2.2

theorem host_injective : Function.Injective ClCell.host := fun _ _ h => by injection h

theorem scalarRun_drawn (hsub : SubSelf sub) {N : Nat} (hN : N ≤ 2 ^ 31) {M : Mem ClCell F32}
    (hM : Drawn add randFloat 1 (fun _ => N) M) :
    ((scalarRun add 1 N).map ClCell.host).Always (fun M' => outputs 1 (fun _ => N) M' =
      drawnSums add randFloat N ∧ check sub M' 1 (fun _ => N) 0 = .pass) M := by
  have hserial : (scalarRun add 1 N).Serial :=
    Prog.serial_forEach fun _ _ => Prog.serial_forEach fun _ _ _ _ => trivial
  refine Prog.always_of_raceFree (hserial.raceFree.map host_injective) ?_
  have hexec : ∀ c, ((scalarRun add 1 N).map ClCell.host).exec M (.host c) =
      withSums add N (fun c => M (.host c)) c := fun c => by
    rw [← scalarRun_exec hN]
    exact congrFun (Prog.exec_map host_injective (scalarRun add 1 N) M) c
  have hframe : ∀ j : Int, ((scalarRun add 1 N).map ClCell.host).exec M (.refOutput 0 j) =
      M (.refOutput 0 j) := fun j => by
    have hw : ((scalarRun add 1 N).map ClCell.host).Within (Set.range ClCell.host) :=
      (Prog.within_univ _).map fun c _ => Set.mem_range_self c
    exact Prog.exec_frame hw (by simp) M
  have hone : before (fun _ => N) 1 = N := by simp
  rw [← hone]
  refine outputs_of_drawn hsub (fun _ _ => hN) (fun i hi j hj => ?_) fun i hi j hj => ?_
  · obtain rfl : i = 0 := by omega
    obtain ⟨ha, hb, -⟩ := hM 0 hi j hj
    rw [hone, hexec, withSums, if_pos ⟨by omega, by omega⟩, ha, hb]
  · obtain rfl : i = 0 := by omega
    rw [hone, hframe]
    exact (hM 0 hi j hj).2.2

end

/-- **The runs agree**: for every problem size, every stream of `rand_float`, and every number of
devices, on queues that execute in order or not, every run of `cl_run` ends with the sums that
`scalar_run` computes, element by element, and both print `PASS`. -/
theorem runs_agree (add sub : F32 → F32 → F32) (hsub : SubSelf sub) (randFloat : Nat → F32)
    (N : Nat) (hN : N ≤ 2 ^ 31) (M : Mem ClCell F32) :
    (∃ p, initProblem add randFloat 1 (fun _ => N) = .ok p ∧ p.Always (fun M₁ =>
      ((scalarRun add 1 N).map ClCell.host).Always (fun M₂ => outputs 1 (fun _ => N) M₂ =
        drawnSums add randFloat N ∧ check sub M₂ 1 (fun _ => N) 0 = .pass) M₁) M) ∧
    ∀ k, 0 < k → ∀ inOrder, ∃ p, initProblem add randFloat k (nPerDevice N k) = .ok p ∧
      p.Always (fun M₁ => Queue.Always inOrder (clRun add k (nPerDevice N k)) (fun M₂ =>
        outputs k (nPerDevice N k) M₂ = drawnSums add randFloat N ∧
          check sub M₂ k (nPerDevice N k) 0 = .pass)
        (.init (clRun add k (nPerDevice N k)) M₁)) M := by
  constructor
  · have hn : ∀ i < 1, (fun _ => N) i ≤ 2 ^ 31 := fun _ _ => hN
    obtain ⟨p, hp, hdrawn⟩ := initProblem_drawn add randFloat hn Nat.zero_lt_one
    exact ⟨p, hp, (hdrawn M).mono fun M₁ h => scalarRun_drawn hsub hN h⟩
  · intro k hk inOrder
    have hn : ∀ i < k, nPerDevice N k i ≤ 2 ^ 31 := fun i hi => (nPerDevice_le hk hi).trans hN
    obtain ⟨p, hp, hdrawn⟩ := initProblem_drawn add randFloat hn hk
    refine ⟨p, hp, (hdrawn M).mono fun M₁ h => ?_⟩
    have hrun := clRun_drawn hsub hn inOrder h
    rwa [before_nPerDevice_total hk] at hrun

/-- The difference of equal floats. -/
def subSelf (x _ : F32) : F32 := if x.magnitude < 0x7F800000 then ⟨0⟩ else ⟨0x7FC00000⟩

theorem subSelf_spec : SubSelf subSelf := by
  intro x
  unfold subSelf
  split
  · exact .inl rfl
  · exact .inr F32.not_isNum_nan

/-- `1.0f + 1.0f`, three times. -/
theorem runs_agree_ones :
    (∃ p, initProblem (fun _ _ => ⟨0x40000000⟩) (fun _ => ⟨0x3F800000⟩) 1 (fun _ => 3) = .ok p ∧
      p.Always (fun M₁ => ((scalarRun (fun _ _ => ⟨0x40000000⟩) 1 3).map ClCell.host).Always
        (fun M₂ => outputs 1 (fun _ => 3) M₂ =
          drawnSums (fun _ _ => ⟨0x40000000⟩) (fun _ => ⟨0x3F800000⟩) 3 ∧
            check subSelf M₂ 1 (fun _ => 3) 0 = .pass) M₁) fun _ => ⟨0⟩) ∧
    ∀ k, 0 < k → ∀ inOrder, ∃ p, initProblem (fun _ _ => ⟨0x40000000⟩) (fun _ => ⟨0x3F800000⟩) k
        (nPerDevice 3 k) = .ok p ∧
      p.Always (fun M₁ => Queue.Always inOrder (clRun (fun _ _ => ⟨0x40000000⟩) k (nPerDevice 3 k))
        (fun M₂ => outputs k (nPerDevice 3 k) M₂ =
          drawnSums (fun _ _ => ⟨0x40000000⟩) (fun _ => ⟨0x3F800000⟩) 3 ∧
            check subSelf M₂ k (nPerDevice 3 k) 0 = .pass)
        (.init (clRun (fun _ _ => ⟨0x40000000⟩) k (nPerDevice 3 k)) M₁)) fun _ => ⟨0⟩ :=
  runs_agree (fun _ _ => ⟨0x40000000⟩) subSelf subSelf_spec (fun _ => ⟨0x3F800000⟩) 3 (by decide)
    fun _ => ⟨0⟩

end Simd
