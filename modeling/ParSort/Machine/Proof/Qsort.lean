import ParSort.Conc.Proof.Rearrange
import ParSort.Machine.Qsort

/-!
# The contract of `qsort` can be met

`exchangeSort`, a sort by exchanges, has `Qsort.Spec` and `Qsort.Sorts`. The inner loop leaves the
least of the cells from `i` on in cell `i` (`exchangeLoop_min`), and the later iterations only
rearrange the cells after it (`exchangeSort_upTo`).
-/

open Conc

/-- Exchange cell `i` with the cells `js` that come before it in the order of `cmp`. -/
def exchangeLoop (cmp : Comparator) (i : Nat) (js : List Nat) : Prog Nat F32 :=
  .forEach js fun j => .swapIf (fun x y => 0 < cmp x y) i j

/-- A sort of `cnt` cells by exchanges. -/
def exchangeSort : Qsort := fun cmp lo cnt =>
  .forEach (List.range' lo cnt) fun i =>
    exchangeLoop cmp i (List.range' (i + 1) (lo + cnt - (i + 1)))

variable {cmp : Comparator} {P : F32 → Prop} {lo cnt : Nat}

/-! ## Footprints -/

theorem exchangeLoop_within {i : Nat} {js : List Nat} {S : Set Nat} (hi : i ∈ S)
    (hjs : ∀ j ∈ js, j ∈ S) : (exchangeLoop cmp i js).Within S :=
  Prog.within_forEach.2 fun j hj => Prog.within_swapIf.2 ⟨hi, hjs j hj⟩

theorem exchangeLoop_rearranges (cmp : Comparator) {i : Nat} {js : List Nat} {S : Set Nat}
    (hi : i ∈ S) (hjs : ∀ j ∈ js, j ∈ S) (m : Mem Nat F32) :
    Rearranges S m ((exchangeLoop cmp i js).exec m) :=
  rearranges_forEach (fun j hj m => rearranges_swapIf hi (hjs j hj) _ m) m

/-- The cells of iteration `i`. -/
theorem mem_exchangeLoop {i j : Nat} (hi : i < lo + cnt)
    (hj : j ∈ List.range' (i + 1) (lo + cnt - (i + 1))) : j ∈ Set.Ico i (lo + cnt) := by
  rw [List.mem_range'_1] at hj
  exact ⟨by omega, by omega⟩

theorem exchangeSort_spec : Qsort.Spec exchangeSort where
  serial _ _ _ := Prog.serial_forEach fun _ _ => Prog.serial_forEach fun _ _ =>
    Prog.serial_swapIf _ _ _
  within cmp lo cnt := by
    refine Prog.within_forEach.2 fun i hi => ?_
    rw [List.mem_range'_1] at hi
    have hmem : i ∈ Set.Ico i (lo + cnt) := ⟨Nat.le_refl i, hi.2⟩
    exact (exchangeLoop_within hmem fun j hj => mem_exchangeLoop hi.2 hj).mono
      (Set.Ico_subset_Ico hi.1 (Nat.le_refl _))
  rearranges cmp lo cnt := by
    refine rearranges_forEach fun i hi m => ?_
    rw [List.mem_range'_1] at hi
    have hmem : i ∈ Set.Ico i (lo + cnt) := ⟨Nat.le_refl i, hi.2⟩
    exact (exchangeLoop_rearranges cmp hmem (fun j hj => mem_exchangeLoop hi.2 hj) m).mono
      (Set.Ico_subset_Ico hi.1 (Nat.le_refl _))

/-! ## Order -/

theorem Comparator.IsPreorder.le_of_pos (h : Comparator.IsPreorder cmp P) {x y : F32} (hx : P x)
    (hy : P y) (hxy : 0 < cmp x y) : cmp y x ≤ 0 :=
  (h.antisymm y x hy hx).2 hxy.le

theorem Comparator.IsPreorder.refl (h : Comparator.IsPreorder cmp P) {x : F32} (hx : P x) :
    cmp x x ≤ 0 := by
  have := h.antisymm x x hx hx
  omega

/-- An exchange of two cells: the first one gets smaller and ends up no greater than the second. -/
theorem exchange_le (h : Comparator.IsPreorder cmp P) {i j : Nat} {m : Mem Nat F32} (hi : P (m i))
    (hj : P (m j)) : ∃ m₁, (Prog.swapIf (fun x y => 0 < cmp x y) i j).exec m = m₁ ∧
      cmp (m₁ i) (m i) ≤ 0 ∧ cmp (m₁ i) (m₁ j) ≤ 0 ∧ (P (m₁ i) ∧ P (m₁ j)) ∧
        ∀ a, a ≠ i → a ≠ j → m₁ a = m a := by
  refine ⟨_, rfl, ?_⟩
  rw [Prog.exec_swapIf]
  split
  next hc =>
    have hle := h.le_of_pos hi hj (of_decide_eq_true hc)
    simp only [Function.comp_apply, Equiv.swap_apply_left, Equiv.swap_apply_right]
    exact ⟨hle, hle, ⟨hj, hi⟩, fun a hai haj =>
      congrArg m (Equiv.swap_apply_of_ne_of_ne hai haj)⟩
  next hc =>
    have hle : ¬0 < cmp (m i) (m j) := fun hp => hc (decide_eq_true hp)
    exact ⟨h.refl hi, not_lt.1 hle, ⟨hi, hj⟩, fun _ _ _ => rfl⟩

/-- The inner loop: cell `i` ends up no greater than it was, and no greater than any cell of the
loop. -/
theorem exchangeLoop_min (h : Comparator.IsPreorder cmp P) {i : Nat} {js : List Nat}
    (hi : i ∉ js) (hnd : js.Nodup) {m : Mem Nat F32} (hmi : P (m i)) (hmj : ∀ j ∈ js, P (m j)) :
    cmp ((exchangeLoop cmp i js).exec m i) (m i) ≤ 0 ∧
      ∀ j ∈ js, cmp ((exchangeLoop cmp i js).exec m i) ((exchangeLoop cmp i js).exec m j) ≤ 0 := by
  induction js generalizing m with
  | nil => exact ⟨h.refl hmi, fun j hj => absurd hj List.not_mem_nil⟩
  | cons j js ih =>
    have hij : i ≠ j := fun e => hi (e ▸ .head _)
    have hjs : j ∉ js := (List.nodup_cons.1 hnd).1
    have hstep : exchangeLoop cmp i (j :: js) =
        (Prog.swapIf (fun x y => 0 < cmp x y) i j).seq (exchangeLoop cmp i js) := rfl
    obtain ⟨m₁, hm₁, hle, hlt, hPi, hother⟩ := exchange_le h hmi (hmj j (.head _))
    rw [hstep, Prog.exec_seq, hm₁]
    have hmj' : ∀ a ∈ js, P (m₁ a) := fun a ha => by
      rw [hother a (fun e => hi (e ▸ .tail _ ha)) (fun e => hjs (e ▸ ha))]
      exact hmj a (.tail _ ha)
    obtain ⟨ih1, ih2⟩ := ih (fun hc => hi (.tail _ hc)) (List.nodup_cons.1 hnd).2 hPi.1 hmj'
    -- the rest of the loop leaves cell `j` alone
    have hr := exchangeLoop_rearranges cmp (S := insert i {a | a ∈ js}) (.inl rfl)
      (fun a ha => .inr ha) m₁
    have hkeep : (exchangeLoop cmp i js).exec m₁ j = m₁ j :=
      hr.frame (by rintro (rfl | hc); exacts [hij rfl, hjs hc])
    have hP : P ((exchangeLoop cmp i js).exec m₁ i) := by
      refine hr.forall (P := P) ?_ i (.inl rfl)
      rintro a (rfl | ha)
      exacts [hPi.1, hmj' a ha]
    refine ⟨h.trans _ _ _ hP hPi.1 hmi ih1 hle, fun a ha => ?_⟩
    cases ha with
    | head =>
      rw [hkeep]
      exact h.trans _ _ _ hP hPi.1 hPi.2 ih1 hlt
    | tail _ ha => exact ih2 a ha

/-- After `k` iterations the first `k` cells are in order, and before all others. -/
theorem exchangeSort_upTo (h : Comparator.IsPreorder cmp P) {k : Nat} (hk : k ≤ cnt)
    {m : Mem Nat F32} (hm : ∀ i ∈ Set.Ico lo (lo + cnt), P (m i)) :
    ∃ m', (Prog.forEach (List.range' lo k) fun i =>
        exchangeLoop cmp i (List.range' (i + 1) (lo + cnt - (i + 1)))).exec m = m' ∧
      (∀ i ∈ Set.Ico lo (lo + cnt), P (m' i)) ∧
      ∀ i j, lo ≤ i → i < lo + k → i < j → j < lo + cnt → cmp (m' i) (m' j) ≤ 0 := by
  induction k with
  | zero => exact ⟨m, rfl, hm, fun i j h1 h2 => by omega⟩
  | succ k ih =>
    obtain ⟨m₁, hm₁, hP, hord⟩ := ih (by omega)
    rw [List.range'_1_concat, Prog.forEach_append, Prog.exec_seq, hm₁, Prog.forEach_cons,
      Prog.forEach_nil, Prog.seq_done]
    generalize hjs : List.range' (lo + k + 1) (lo + cnt - (lo + k + 1)) = js
    have hmem : ∀ j ∈ js, j ∈ Set.Ico (lo + k) (lo + cnt) := fun j hj =>
      mem_exchangeLoop (by omega) (hjs ▸ hj)
    have hk' : lo + k ∈ Set.Ico (lo + k) (lo + cnt) := ⟨Nat.le_refl _, by omega⟩
    have hr := exchangeLoop_rearranges cmp hk' hmem m₁
    have hsub : Set.Ico (lo + k) (lo + cnt) ⊆ Set.Ico lo (lo + cnt) :=
      Set.Ico_subset_Ico (by omega) (Nat.le_refl _)
    refine ⟨_, rfl, (hr.mono hsub).forall hP, fun i j h1 h2 hij hj => ?_⟩
    rcases Nat.lt_or_ge i (lo + k) with hi | hi
    · -- an earlier cell: unchanged, and before whatever is at `j` now
      rw [hr.frame fun hc => by have := hc.1; omega]
      rcases Nat.lt_or_ge j (lo + k) with hj' | hj'
      · rw [hr.frame fun hc => by have := hc.1; omega]
        exact hord i j h1 hi hij hj
      · obtain ⟨b, hb, e⟩ := hr.exists_eq ⟨hj', hj⟩
        rw [e]
        exact hord i b h1 hi (by have := hb.1; omega) hb.2
    · obtain rfl : i = lo + k := by omega
      have hnot : lo + k ∉ js := fun hc => by
        rw [← hjs, List.mem_range'_1] at hc
        omega
      have hnd : js.Nodup := hjs ▸ List.nodup_range'
      refine (exchangeLoop_min h hnot hnd (hP _ (hsub hk')) fun a ha => hP a (hsub (hmem a ha))).2
        j ?_
      rw [← hjs, List.mem_range'_1]
      omega

theorem exchangeSort_sorts : Qsort.Sorts exchangeSort := by
  intro cmp lo cnt m h i j hi hij hj
  obtain ⟨m', hm', -, hord⟩ := exchangeSort_upTo h (Nat.le_refl cnt) fun i hi => ⟨i, hi, rfl⟩
  rw [exchangeSort, hm']
  exact hord i j hi (by omega) hij hj
