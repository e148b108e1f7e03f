import ParSort.Conc.Proof.Access
import ParSort.Simd.Def

/-!
# `vector_run` against `scalar_run`

The windows of `vector_run` overlap, so every sum but the first is stored twice, and the last window
reaches one element past the vectors: for up to `2 ^ 31` elements `vector_run` is `scalar_run` for
one element more (`vectorRun_exec`), which is what it accesses (`vectorRun_accesses`). It leaves the
same sums (`vectorRun_agrees`), and it stays in the vectors for no length
(`vectorRun_never_refines`).
-/

namespace Simd

open Conc Machine

variable {add : F32 → F32 → F32}

/-- The elements `0, …, n - 1` of the vectors of device 0. -/
def elements (n : Nat) : Set Cell := {c | ∃ j : Int, 0 ≤ j ∧ j < n ∧
  (c = .inputA 0 j ∨ c = .inputB 0 j ∨ c = .output 0 j)}

/-- `vector_run` on vectors of `N` elements, on one device, leaves the sums `scalar_run` leaves, and
both keep to the vectors. -/
def Refines (add : F32 → F32 → F32) (N : Nat) : Prop :=
  (∀ m, (vectorRun add 1 N).Always (fun m' => ∀ j : Int, 0 ≤ j → j < N →
    m' (.output 0 j) = (scalarRun add 1 N).exec m (.output 0 j)) m) ∧
  (vectorRun add 1 N).Within (elements N) ∧ (scalarRun add 1 N).Within (elements N)

/-- `m` with the sums of the elements `0, …, n - 1` in `output`. -/
def withSums (add : F32 → F32 → F32) (n : Nat) (m : Mem Cell F32) : Mem Cell F32
  | .output 0 j =>
    if 0 ≤ j ∧ j < n then add (m (.inputA 0 j)) (m (.inputB 0 j)) else m (.output 0 j)
  | c => m c

/-! ## The loops over one device -/

theorem wrap32_of_lt {j : Nat} (h : j < 2 ^ 31) : wrap32 j = j := by
  rw [wrap32, Int.bmod_eq_of_le] <;> omega

theorem withSums_zero (m : Mem Cell F32) : withSums add 0 m = m := by
  funext c
  unfold withSums
  split
  · rw [if_neg (by omega)]
  · rfl

/-- One more sum. -/
theorem withSums_succ (n : Nat) (m : Mem Cell F32) : withSums add (n + 1) m =
    Function.update (withSums add n m) (.output 0 n) (add (m (.inputA 0 n)) (m (.inputB 0 n))) := by
  funext c
  by_cases hc : c = .output 0 n
  · subst hc
    rw [Function.update_self, withSums, if_pos (by omega)]
  · rw [Function.update_of_ne hc]
    unfold withSums
    split
    · rename_i j
      have hj : j ≠ n := fun h => hc (h ▸ rfl)
      simp only [show 0 ≤ j ∧ j < (n + 1 : Nat) ↔ 0 ≤ j ∧ j < n by omega]
    · rfl

theorem scalarRun_exec {N : Nat} (hN : N ≤ 2 ^ 31) (m : Mem Cell F32) :
    (scalarRun add 1 N).exec m = withSums add N m := by
  rw [scalarRun, List.range_one, Prog.forEach_cons, Prog.forEach_nil, Prog.seq_done]
  induction N with
  | zero => exact (withSums_zero m).symm
  | succ n ih =>
    rw [List.range_succ, Prog.forEach_append, Prog.exec_seq, ih (by omega), withSums_succ,
      Prog.forEach_cons, Prog.forEach_nil, Prog.seq_done, wrap32_of_lt (by omega)]
    rfl

theorem vectorStep_exec (n : Nat) (m : Mem Cell F32) : (vectorStep add 0 n).exec m =
    Function.update
      (Function.update m (.output 0 n) (add (m (.inputA 0 n)) (m (.inputB 0 n))))
      (.output 0 (n + 1 : Nat)) (add (m (.inputA 0 (n + 1 : Nat))) (m (.inputB 0 (n + 1 : Nat)))) :=
  rfl

/-- After each window its own sum is in place, and the next one already. -/
theorem vectorRun_exec {N : Nat} (hN : N + 1 ≤ 2 ^ 31) (m : Mem Cell F32) :
    (vectorRun add 1 (N + 1)).exec m = withSums add (N + 2) m := by
  rw [vectorRun, List.range_one, Prog.forEach_cons, Prog.forEach_nil, Prog.seq_done]
  induction N with
  | zero =>
    rw [withSums_succ 1, withSums_succ 0, withSums_zero]
    exact vectorStep_exec 0 m
  | succ n ih =>
    rw [List.range_succ, Prog.forEach_append, Prog.exec_seq, ih (by omega),
      Prog.forEach_cons, Prog.forEach_nil, Prog.seq_done, wrap32_of_lt (by omega), vectorStep_exec,
      withSums_succ (n + 2), withSums_succ (n + 1)]
    -- the first lane stores the sum that the window before it has stored
    congr 1
    exact Function.update_idem _ _ _

/-! ## Footprints -/

theorem vectorStep_within {i : Nat} {j : Int} {S : Set Cell} :
    (vectorStep add i j).Within S ↔
      (.inputA i j ∈ S ∧ .inputA i (j + 1) ∈ S) ∧ (.inputB i j ∈ S ∧ .inputB i (j + 1) ∈ S) ∧
        .output i j ∈ S ∧ .output i (j + 1) ∈ S := by
  simp [vectorStep, vld1, vst1, Prog.Within, and_assoc]

/-- The addends of element `j` are loaded, its sum is stored. -/
def sumAt (j : Int) : Set (Access Cell) :=
  {.load (.inputA 0 j), .load (.inputB 0 j), .store (.output 0 j)}

/-- The sums of the elements `0, …, n - 1`. -/
def sumAccesses (n : Nat) : Set (Access Cell) := {x | ∃ j : Int, 0 ≤ j ∧ j < n ∧ x ∈ sumAt j}

theorem sumAccesses_zero : sumAccesses 0 = ∅ :=
  Set.eq_empty_of_forall_notMem fun _ ⟨_, h0, h1, _⟩ => by omega

theorem vectorStep_accesses (j : Int) (m : Mem Cell F32) :
    (vectorStep add 0 j).accesses m = sumAt j ∪ sumAt (j + 1) := by
  ext x
  simp only [vectorStep, vld1, vst1, sumAt, Prog.accesses_load, Prog.accesses_store,
    Prog.accesses_done, Set.mem_insert_iff, Set.mem_union, Set.mem_singleton_iff,
    Set.mem_empty_iff_false]
  tauto

theorem serial_vectorStep (i : Nat) (j : Int) : (vectorStep add i j).Serial :=
  fun _ _ _ _ => trivial

/-- The windows cover the vectors, and one element more. -/
theorem vectorRun_accesses {N : Nat} (hN : N + 1 ≤ 2 ^ 31) (m : Mem Cell F32) :
    (vectorRun add 1 (N + 1)).accesses m = sumAccesses (N + 2) := by
  have hstep : ∀ j ∈ List.range (N + 1), ∀ m, (vectorStep add 0 (wrap32 j)).accesses m =
      sumAt j ∪ sumAt (j + 1) := fun j hj m => by
    rw [wrap32_of_lt (by have := List.mem_range.1 hj; omega), vectorStep_accesses]
  rw [vectorRun, List.range_one, Prog.forEach_cons, Prog.forEach_nil, Prog.seq_done,
    Prog.accesses_forEach (fun _ _ => serial_vectorStep _ _) hstep]
  ext x
  constructor
  · rintro ⟨j, hj, hx | hx⟩ <;> rw [List.mem_range] at hj
    · exact ⟨j, by omega, by omega, hx⟩
    · exact ⟨j + 1, by omega, by omega, hx⟩
  · rintro ⟨j, h0, hlt, hx⟩
    obtain ⟨k, rfl⟩ := Int.eq_ofNat_of_zero_le h0
    rcases Nat.lt_or_ge k (N + 1) with hk | hk
    · exact ⟨k, List.mem_range.2 hk, .inl hx⟩
    · obtain rfl : k = N + 1 := by omega
      exact ⟨N, List.mem_range.2 (Nat.lt_succ_self N), .inr hx⟩

theorem scalarRun_accesses {N : Nat} (hN : N ≤ 2 ^ 31) (m : Mem Cell F32) :
    (scalarRun add 1 N).accesses m = sumAccesses N := by
  rw [scalarRun, List.range_one, Prog.forEach_cons, Prog.forEach_nil, Prog.seq_done,
    Prog.accesses_forEach (S := fun j : Nat => sumAt j)]
  · ext x
    constructor
    · rintro ⟨j, hj, hx⟩
      have hlt := List.mem_range.1 hj
      exact ⟨j, by omega, by omega, hx⟩
    · rintro ⟨j, h0, hlt, hx⟩
      obtain ⟨k, rfl⟩ := Int.eq_ofNat_of_zero_le h0
      exact ⟨k, List.mem_range.2 (by omega), hx⟩
  · exact fun _ _ _ _ => trivial
  · intro j hj m
    rw [wrap32_of_lt (by have := List.mem_range.1 hj; omega), Prog.accesses_load,
      Prog.accesses_load, Prog.accesses_store, Prog.accesses_done, insert_empty_eq]
    rfl

/-! ## The comparison -/

/-- **What holds**: up to `2 ^ 31` elements `vector_run` leaves the sums of `scalar_run`, which
makes the accesses of `N` sums; `vector_run` makes those of one sum more, if `N` is not 0. A lane of
the vector addition is the scalar `+`. -/
theorem vectorRun_agrees {N : Nat} (hN : N ≤ 2 ^ 31) :
    (∀ m, (vectorRun add 1 N).Always (fun m' => ∀ j : Int, 0 ≤ j → j < N →
      m' (.output 0 j) = (scalarRun add 1 N).exec m (.output 0 j)) m) ∧
    (∀ m, (scalarRun add 1 N).accesses m = sumAccesses N) ∧
    ∀ m, (vectorRun add 1 N).accesses m = sumAccesses (if N = 0 then 0 else N + 1) := by
  refine ⟨fun m => Prog.always_of_raceFree ?_ fun j h0 hj => ?_, scalarRun_accesses hN,
    fun m => ?_⟩
  · refine Prog.raceFree_forEach fun i _ => Prog.raceFree_forEach fun j _ => ?_
    exact (serial_vectorStep _ _).raceFree
  · obtain _ | n := N
    · omega
    · rw [vectorRun_exec hN, scalarRun_exec hN]
      simp only [withSums]
      rw [if_pos ⟨h0, by omega⟩, if_pos ⟨h0, by omega⟩]
  · obtain _ | n := N
    · exact Prog.accesses_done.trans sumAccesses_zero.symm
    · exact vectorRun_accesses hN m

theorem vectorRun_agrees_million :
    (∀ m, (vectorRun (fun x _ => x) 1 1000000).Always (fun m' => ∀ j : Int, 0 ≤ j →
      j < (1000000 : Nat) →
        m' (.output 0 j) = (scalarRun (fun x _ => x) 1 1000000).exec m (.output 0 j)) m) ∧
    (∀ m, (scalarRun (fun x _ => x) 1 1000000).accesses m = sumAccesses 1000000) ∧
    ∀ m, (vectorRun (fun x _ => x) 1 1000000).accesses m =
      sumAccesses (if 1000000 = 0 then 0 else 1000000 + 1) :=
  vectorRun_agrees (by decide)

/-- **`vector_run` leaves the vectors**, whatever their length: its last window reads and stores the
element `N`, and from `2 ^ 31` on its index becomes negative. -/
theorem vectorRun_never_refines (add : F32 → F32 → F32) (N : Nat) (h1 : 1 ≤ N) :
    ¬Refines add N := by
  rintro ⟨-, hw, -⟩
  have hstep : ∀ j < N, (vectorStep add 0 (wrap32 j)).Within (elements N) := fun j hj =>
    Prog.within_forEach.1 (Prog.within_forEach.1 hw 0 (List.mem_range.2 (by decide))) j
      (List.mem_range.2 hj)
  rcases Nat.lt_or_ge (2 ^ 31) N with hN | hN
  · obtain ⟨⟨⟨j, h0, -, hj⟩, -⟩, -⟩ := vectorStep_within.1 (hstep (2 ^ 31) hN)
    have hwrap : wrap32 (2 ^ 31 : Nat) = -2 ^ 31 := by decide
    rcases hj with hj | hj | hj <;> injection hj
    omega
  · obtain ⟨⟨-, j, -, hlt, hj⟩, -⟩ := vectorStep_within.1 (hstep (N - 1) (by omega))
    rw [wrap32_of_lt (by omega)] at hj
    rcases hj with hj | hj | hj <;> injection hj
    omega

theorem vectorRun_never_refines_million : ¬Refines (fun x _ => x) 1000000 :=
  vectorRun_never_refines (fun x _ => x) 1000000 (by decide)

/-- A vector of one element: the window is two elements wide. -/
theorem vectorRun_leaves_one : ¬∃ add, Refines add 1 := by
  rintro ⟨add, -, hw, -⟩
  have hstep := Prog.within_forEach.1 (Prog.within_forEach.1 hw 0 (by decide)) 0 (by decide)
  obtain ⟨⟨-, j, -, hlt, hj⟩, -⟩ := vectorStep_within.1 hstep
  have hwrap : wrap32 (0 : Nat) = 0 := by decide
  rcases hj with hj | hj | hj <;> injection hj
  omega

end Simd
