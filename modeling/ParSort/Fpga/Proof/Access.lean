import Mathlib.Data.Int.ConditionallyCompleteOrder
import ParSort.Conc.Proof.Access
import ParSort.Fpga.Proof.Merge

/-!
# What `merge_s` touches

The indices a loop runs through are an interval (`Cursor.range`), and each of them is loaded and
stored to the next place of `temp`. So the accesses of a branch are the same for every order of the
values (`mergeWhile_accesses`): one store more than `temp` has room for when the last loop runs down
to `middle`, which is when the second run does not start with an increase (`mergeS_inBounds_iff`).
-/

namespace Fpga

open Conc

/-! ## The indices of a loop -/

namespace Cursor

/-- The indices from `iter` on. -/
def range : Cursor → Int → Set Int
  | up last, iter => Set.Icc iter last
  | down last, iter => Set.Icc last iter

variable {c : Cursor} {iter : Int}

theorem range_of_live (h : c.Live iter) : c.range iter = insert iter (c.range (c.next iter)) := by
  ext i
  cases c <;> simp only [Live, range, next, Set.mem_insert_iff, Set.mem_Icc] at * <;> omega

theorem range_of_not_live (h : ¬c.Live iter) : c.range iter = ∅ := by
  ext i
  rw [Set.mem_empty_iff_false, iff_false]
  cases c <;> simp only [Live, range, Set.mem_Icc] at * <;> omega

end Cursor

/-- Loads of the elements `H` of the array, stores to the elements `T` of `temp`. -/
def Moves (H T : Set Int) : Set (Access Cell) :=
  (fun i => .load (.host i)) '' H ∪ (fun i => .store (.temp i)) '' T

theorem load_mem_moves {H T : Set Int} {i : Int} : .load (.host i) ∈ Moves H T ↔ i ∈ H := by
  simp [Moves]

theorem store_mem_moves {H T : Set Int} {i : Int} : .store (.temp i) ∈ Moves H T ↔ i ∈ T := by
  simp [Moves]

/-- One element moved, then `n` more. -/
theorem moves_insert (H : Set Int) (i t : Int) (n : Nat) :
    Moves (insert i H) (Set.Ico t (t + (n + 1 : Nat))) =
      {.load (.host i), .store (.temp t)} ∪ Moves H (Set.Ico (t + 1) (t + 1 + n)) := by
  have hT : Set.Ico t (t + (n + 1 : Nat)) = insert t (Set.Ico (t + 1) (t + 1 + n)) := by
    ext x
    simp only [Set.mem_Ico, Set.mem_insert_iff]
    omega
  rw [hT, Moves, Moves, Set.image_insert_eq, Set.image_insert_eq, Set.insert_union,
    Set.union_insert, Set.insert_union, Set.singleton_union]

/-- `n` elements moved, then `n'` more. -/
theorem moves_union (H H' : Set Int) (t : Int) (n n' : Nat) :
    Moves H (Set.Ico t (t + n)) ∪ Moves H' (Set.Ico (t + n) (t + n + n')) =
      Moves (H ∪ H') (Set.Ico t (t + (n + n' : Nat))) := by
  have hT : Set.Ico t (t + (n + n' : Nat)) = Set.Ico t (t + n) ∪ Set.Ico (t + n) (t + n + n') := by
    ext x
    simp only [Set.mem_Ico, Set.mem_union]
    omega
  rw [hT, Moves, Moves, Moves, Set.image_union, Set.image_union, Set.union_union_union_comm]

/-! ## The loops -/

section
variable (M : Mem Cell F32)

theorem accesses_copy_temp (p : Prog Cell F32) (iter t : Int) :
    ((Prog.copy (.host iter) (.temp t)).seq p).accesses M =
      {.load (.host iter), .store (.temp t)} ∪ p.accesses (putTemp M t [M (.host iter)]) := by
  rw [Prog.accesses_seq (Prog.serial_copy _ _), Prog.accesses_copy, Prog.exec_copy]
  rfl

/-- A loop over what is left of one run, before a program with the accesses `A`. -/
theorem drainWhile_accesses {c : Cursor} {iter t : Int} {rest : Int → Prog Cell F32}
    {A : Set (Access Cell)} (hrest : ∀ M, (rest (t + c.left iter)).accesses M = A) :
    (drainWhile c iter t rest).accesses M =
      Moves (c.range iter) (Set.Ico t (t + c.left iter)) ∪ A := by
  induction hn : c.left iter generalizing iter M t with
  | zero =>
    have hlive : ¬c.Live iter := fun h => Cursor.live_iff.1 h hn
    rw [hn] at hrest
    rw [drainWhile, dif_neg hlive, Cursor.range_of_not_live hlive, ← hrest M]
    simp [Moves]
  | succ n ih =>
    have hlive : c.Live iter := Cursor.live_iff.2 (by omega)
    have hleft := Cursor.left_next hlive
    obtain rfl : c.left (c.next iter) = n := by omega
    have hrest' : ∀ M, (rest (t + 1 + c.left (c.next iter))).accesses M = A := fun M => by
      rw [← hrest M, hleft]
      congr 2
      omega
    rw [drainWhile, dif_pos hlive, accesses_copy_temp, ih _ hrest' rfl, Cursor.range_of_live hlive,
      moves_insert, Set.union_assoc]

/-- **The accesses of a branch**: every index of both runs is loaded and its element stored, in
whatever order, and the last loop may run further than the first one. -/
theorem mergeWhile_accesses {c₁ c₂ d₂ : Cursor} (iter1 iter2 t : Int) {q : Prog Cell F32}
    {A : Set (Access Cell)} (hnext : d₂.next = c₂.next) (hlive : ∀ i, c₂.Live i → d₂.Live i)
    (hq : ∀ M, q.accesses M = A) :
    (mergeWhile c₁ c₂ iter1 iter2 t fun iter1 iter2 tempIter =>
        drainWhile c₁ iter1 tempIter fun tempIter =>
          drainWhile d₂ iter2 tempIter fun _ => q).accesses M =
      Moves (c₁.range iter1 ∪ d₂.range iter2)
        (Set.Ico t (t + (c₁.left iter1 + d₂.left iter2 : Nat))) ∪ A := by
  induction hn : c₁.left iter1 + d₂.left iter2 using Nat.strong_induction_on
    generalizing iter1 iter2 M t with
  | _ n ih =>
    subst hn
    by_cases h : c₁.Live iter1 ∧ c₂.Live iter2
    · obtain ⟨h1, h2⟩ := h
      have h2' := hlive iter2 h2
      have hl1 := Cursor.left_next h1
      have hl2 := Cursor.left_next h2'
      have hr1 : c₁.range iter1 ∪ d₂.range iter2 =
          insert iter1 (c₁.range (c₁.next iter1) ∪ d₂.range iter2) := by
        rw [Cursor.range_of_live h1, Set.insert_union]
      have hr2 : c₁.range iter1 ∪ d₂.range iter2 =
          insert iter2 (c₁.range iter1 ∪ d₂.range (d₂.next iter2)) := by
        rw [Cursor.range_of_live h2', Set.union_insert]
      -- both elements compared are among those that are moved
      have hmem1 : ∀ T, .load (.host iter1) ∈ Moves (c₁.range iter1 ∪ d₂.range iter2) T ∪ A :=
        fun T => .inl (load_mem_moves.2 (hr1 ▸ Set.mem_insert _ _))
      have hmem2 : ∀ T, .load (.host iter2) ∈ Moves (c₁.range iter1 ∪ d₂.range iter2) T ∪ A :=
        fun T => .inl (load_mem_moves.2 (hr2 ▸ Set.mem_insert _ _))
      rw [mergeWhile, dif_pos ⟨h1, h2⟩, Prog.accesses_load, Prog.accesses_load,
        ← Set.insert_eq_of_mem (hmem1 _), ← Set.insert_eq_of_mem (hmem2 _)]
      congr 2
      split
      next =>
        rw [accesses_copy_temp, ih _ (by omega) _ (c₁.next iter1) iter2 (t + 1) rfl, hr1, hl1,
          Nat.add_right_comm, moves_insert, Set.union_assoc]
      next =>
        rw [accesses_copy_temp, ih _ (by rw [← hnext]; omega) _ iter1 (c₂.next iter2) (t + 1) rfl,
          hr2, hl2, ← Nat.add_assoc, moves_insert, Set.union_assoc, hnext]
    · -- the first loop ends: its elements and those of the second run follow each other
      have hd2 : ∀ M, (drainWhile d₂ iter2 (t + c₁.left iter1) fun _ => q).accesses M =
          Moves (d₂.range iter2) (Set.Ico (t + c₁.left iter1)
            (t + c₁.left iter1 + d₂.left iter2)) ∪ A := fun M =>
        drainWhile_accesses M hq
      rw [mergeWhile, dif_neg h, drainWhile_accesses M hd2, ← Set.union_assoc, moves_union]

end

/-! ## The whole function -/

/-- The accesses of the copy back. -/
def copied (left right : Int) : Set (Access Cell) :=
  {x | ∃ d ∈ List.range (right - left + 1).toNat,
    x ∈ ({.load (.temp (left + d - left)), .store (.host (left + d))} : Set (Access Cell))}

theorem copyBack_accesses (left right : Int) (M : Mem Cell F32) :
    (copyBack left right).accesses M = copied left right :=
  Prog.accesses_forEach (fun _ _ => Prog.serial_copy _ _) fun _ _ _ => Prog.accesses_copy _ _

theorem load_host_not_mem_copied {left right i : Int} : .load (.host i) ∉ copied left right := by
  rintro ⟨d, -, h⟩
  simp at h

theorem store_temp_not_mem_copied {left right i : Int} : .store (.temp i) ∉ copied left right := by
  rintro ⟨d, -, h⟩
  simp at h

section
variable (M : Mem Cell F32) {left middle right : Int}

theorem mergeBranch_accesses {c₁ c₂ d₂ : Cursor} {iter1 iter2 n : Int}
    (hnext : d₂.next = c₂.next) (hlive : ∀ i, c₂.Live i → d₂.Live i)
    (hrange : c₁.range iter1 ∪ d₂.range iter2 = Set.Icc left right)
    (hn : (c₁.left iter1 + d₂.left iter2 : Nat) = n) :
    (mergeBranch left right c₁ c₂ c₁ d₂ iter1 iter2).accesses M =
      Moves (Set.Icc left right) (Set.Ico 0 n) ∪ copied left right := by
  rw [mergeBranch, mergeWhile_accesses M iter1 iter2 0 hnext hlive (copyBack_accesses left right),
    hrange, hn, zero_add]

/-- One more store than `temp` has elements, unless the second run starts with an increase. -/
def stores (M : Mem Cell F32) (left middle right : Int) : Int :=
  right - left + 1 + if F32.lt (M (.host (middle + 1))) (M (.host (middle + 1 + 1))) then 0 else 1

/-- **The accesses of `merge_s`** on any array: every cell of `[left, right]` is read, and its value
or that of `middle` once more stored. -/
theorem mergeS_accesses (hl : left < middle) (hr : middle + 1 < right) :
    (mergeS left middle right).accesses M =
      Moves (Set.Icc left right) (Set.Ico 0 (stores M left middle right)) ∪ copied left right := by
  have hu : Set.Icc left middle ∪ Set.Icc (middle + 1) right = Set.Icc left right := by
    ext x
    simp only [Set.mem_union, Set.mem_Icc]
    omega
  have hd : Set.Icc left middle ∪ Set.Icc middle right = Set.Icc left right :=
    Set.Icc_union_Icc_eq_Icc hl.le (by omega)
  have hlive : ∀ i, (Cursor.down (middle + 1)).Live i → (Cursor.down middle).Live i := fun i h => by
    simp only [Cursor.Live] at *
    omega
  have hprobe : ∀ i, left ≤ i → i ≤ right → ∀ T, .load (.host i) ∈
      Moves (Set.Icc left right) T ∪ copied left right := fun i h1 h2 T =>
    .inl (load_mem_moves.2 ⟨h1, h2⟩)
  rw [mergeS_eq, Prog.accesses_load, Prog.accesses_load, Prog.accesses_load, Prog.accesses_load,
    ← Set.insert_eq_of_mem (hprobe left (by omega) (by omega) _),
    ← Set.insert_eq_of_mem (hprobe (left + 1) (by omega) (by omega) _),
    ← Set.insert_eq_of_mem (hprobe (middle + 1) (by omega) (by omega) _),
    ← Set.insert_eq_of_mem (hprobe (middle + 1 + 1) (by omega) (by omega) _), stores]
  congr 4
  cases F32.lt (M (.host left)) (M (.host (left + 1))) <;>
    cases F32.lt (M (.host (middle + 1))) (M (.host (middle + 1 + 1))) <;>
    simp only [branch, if_true, Bool.false_eq_true, if_false]
  · exact mergeBranch_accesses M rfl (fun _ h => h) hd (by simp only [Cursor.left]; omega)
  · exact mergeBranch_accesses M rfl (fun _ h => h) hu (by simp only [Cursor.left]; omega)
  · exact mergeBranch_accesses M rfl hlive hd (by simp only [Cursor.left]; omega)
  · exact mergeBranch_accesses M rfl (fun _ h => h) hu (by simp only [Cursor.left]; omega)

end

/-! ## The bounds -/

/-- The stores to `temp` are to the elements allocated, the loads from the array are from
`[left, right]`. -/
def InBounds (left right : Int) (S : Set (Access Cell)) : Prop :=
  (∀ i, .store (.temp i) ∈ S → 0 ≤ i ∧ i ≤ right - left) ∧
    ∀ i, .load (.host i) ∈ S → left ≤ i ∧ i ≤ right

/-- **`merge_s` keeps to what it allocated** exactly when its second run starts with an increase:
in the two other branches the loop over what is left of that run goes down to `middle`. -/
theorem mergeS_inBounds_iff (left middle right : Int) (hl : left < middle) (hr : middle + 1 < right)
    (M : Mem Cell F32) : InBounds left right ((mergeS left middle right).accesses M) ↔
      F32.lt (M (.host (middle + 1))) (M (.host (middle + 1 + 1))) = true := by
  rw [mergeS_accesses M hl hr]
  have hstore : ∀ i T, .store (.temp i) ∈ Moves (Set.Icc left right) T ∪ copied left right ↔
      i ∈ T := fun i T =>
    (or_iff_left store_temp_not_mem_copied).trans store_mem_moves
  have hload : ∀ i T, .load (.host i) ∈ Moves (Set.Icc left right) T ∪ copied left right ↔
      i ∈ Set.Icc left right := fun i T =>
    (or_iff_left load_host_not_mem_copied).trans load_mem_moves
  simp only [InBounds, hstore, hload, stores, Set.mem_Ico]
  constructor
  · rintro ⟨h, -⟩
    by_contra hlt
    -- the element past the end
    have := h (right - left + 1) (by rw [if_neg hlt]; omega)
    omega
  · intro hlt
    rw [if_pos hlt]
    exact ⟨fun i hi => by omega, fun i hi => hi⟩

theorem mergeS_inBounds_ascending :
    InBounds 0 3 ((mergeS 0 1 3).accesses fun
      | .host i => ⟨BitVec.ofInt 32 i⟩
      | _ => ⟨0⟩) ↔ F32.lt ⟨BitVec.ofInt 32 2⟩ ⟨BitVec.ofInt 32 3⟩ = true :=
  mergeS_inBounds_iff 0 1 3 (by decide) (by decide) _

/-- On `0, 0, 0, 0` a fifth element is stored. -/
theorem not_inBounds_zeros : ¬InBounds 0 3 ((mergeS 0 1 3).accesses fun _ => ⟨0⟩) := by
  rintro ⟨h, -⟩
  have hmem : .store (.temp 4) ∈ (mergeS 0 1 3).accesses fun _ => ⟨0⟩ := by
    rw [mergeS_accesses _ (by decide) (by decide)]
    exact .inl (store_mem_moves.2 ⟨by decide, by decide⟩)
  exact absurd (h 4 hmem).2 (by decide)

end Fpga
