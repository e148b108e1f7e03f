import ParSort.Conc.Proof.Race
import ParSort.Fpga.Proof.Merge
import ParSort.Machine.Proof.Order

/-!
# `merge_s` on monotone runs

The first two elements of a strictly monotone run tell its direction (`StrictRun.direction`), so
`merge_s` reads both runs in ascending order. One branch fails: with both runs descending its loop
over both goes down to `middle`, so it compares the last element of the left run with itself when
the right run is used up first. That element is then copied twice and the largest one is lost
(`mergeS_drops`). Hence the exact condition, `mergeS_merges_iff`.
-/

namespace Fpga

open Conc Net

/-- The cells `lo, …, hi` are in strictly ascending or in strictly descending order. -/
def StrictRun (m : Mem Nat F32) (lo hi : Nat) : Prop :=
  (∀ i j, lo ≤ i → i < j → j ≤ hi → F32.lt (m i) (m j) = true) ∨
    ∀ i j, lo ≤ i → i < j → j ≤ hi → F32.lt (m j) (m i) = true

/-- From `M` to `M'`: the cells `left, …, right` are sorted, all others are as they were. -/
def Merged (M M' : Mem Cell F32) (left right : Nat) : Prop :=
  Sorted (Cell.data M') left (right + 1 - left) ∧
    (slice (Cell.data M') left (right + 1 - left)).Perm
      (slice (Cell.data M) left (right + 1 - left)) ∧
    ∀ i : Int, i < left ∨ right < i → M' (.host i) = M (.host i)

/-! ## Runs -/

section
variable {m : Mem Nat F32} {lo hi cnt : Nat}

/-- A run of at least two numbers: its first two elements are in the order of all of them. -/
theorem StrictRun.direction (h : StrictRun m lo hi) (hc : hi + 1 = lo + cnt) (h2 : 2 ≤ cnt)
    (hm : NaNFree m lo cnt) :
    F32.lt (m lo) (m (lo + 1)) = true ∧ (slice m lo cnt).Pairwise (fun x y => x.key < y.key) ∨
      F32.lt (m lo) (m (lo + 1)) = false ∧ (slice m lo cnt).Pairwise fun x y => y.key < x.key := by
  have hlt : ∀ i j, lo ≤ i → i < lo + cnt → lo ≤ j → j < lo + cnt →
      (F32.lt (m i) (m j) = true ↔ (m i).key < (m j).key) := fun i j h1 h2 h3 h4 =>
    F32.lt_iff (hm i ⟨h1, h2⟩) (hm j ⟨h3, h4⟩)
  cases h with
  | inl h =>
    refine .inl ⟨h lo (lo + 1) (Nat.le_refl _) (by omega) (by omega), slice_pairwise.2 ?_⟩
    intro i j hi hij hj
    exact (hlt i j hi (by omega) (by omega) hj).1 (h i j hi hij (by omega))
  | inr h =>
    refine .inr ⟨?_, slice_pairwise.2 fun i j hi hij hj => ?_⟩
    · have hdown := h lo (lo + 1) (Nat.le_refl _) (by omega) (by omega)
      rw [hlt (lo + 1) lo (by omega) (by omega) (Nat.le_refl _) (by omega)] at hdown
      rw [Bool.eq_false_iff, ne_eq,
        hlt lo (lo + 1) (Nat.le_refl _) (by omega) (by omega) (by omega)]
      omega
    · exact (hlt j i (by omega) hj hi (by omega)).1 (h i j hi hij (by omega))

/-- Read in that direction a run ascends. -/
theorem StrictRun.towards (h : StrictRun m lo hi) (hc : hi + 1 = lo + cnt) (h2 : 2 ≤ cnt)
    (hm : NaNFree m lo cnt) :
    AscList (towards (F32.lt (m lo) (m (lo + 1))) (slice m lo cnt)) := by
  rcases h.direction hc h2 hm with ⟨hb, hp⟩ | ⟨hb, hp⟩
  · rw [hb]
    exact hp.imp le_of_lt
  · rw [hb]
    exact (List.pairwise_reverse.2 hp).imp le_of_lt

theorem slice_cons (m : Mem Nat F32) (lo cnt : Nat) :
    slice m lo (cnt + 1) = m lo :: slice m (lo + 1) cnt := by
  rw [slice, List.range'_succ, List.map_cons]
  rfl

theorem slice_reverse_cons (m : Mem Nat F32) (lo cnt : Nat) :
    (slice m lo (cnt + 1)).reverse = (slice m (lo + 1) cnt).reverse ++ [m lo] := by
  rw [slice_cons, List.reverse_cons]

/-- The first element of a descending run is its largest. -/
theorem key_le_head (h : (slice m lo (cnt + 1)).Pairwise fun x y => y.key < x.key) :
    ∀ x ∈ slice m lo (cnt + 1), x.key ≤ (m lo).key := by
  rw [slice_cons, List.pairwise_cons] at h
  rw [slice_cons]
  intro x hx
  cases hx with
  | head => exact le_refl _
  | tail _ hx => exact (h.1 x hx).le

end

/-! ## The merge -/

section
variable {M : Mem Cell F32} {left a b : Nat} {middle right : Int}
  (hmid : middle + 1 = left + (a + 1 : Nat))
  (hright : right + 1 = left + (a + 1 : Nat) + (b + 1 : Nat))
  (hu : NaNFree (Cell.data M) left (a + 1)) (hv : NaNFree (Cell.data M) (left + (a + 1)) (b + 1))
include hmid hright hu hv

/-- With both runs descending and the right one starting below the left one, the largest element is
lost. -/
theorem mergeS_drops (ha : 1 ≤ a)
    (hb1 : F32.lt (Cell.data M left) (Cell.data M (left + 1)) = false)
    (hb2 : F32.lt (Cell.data M (left + (a + 1))) (Cell.data M (left + (a + 1) + 1)) = false)
    (hdu : (slice (Cell.data M) left (a + 1)).Pairwise fun x y => y.key < x.key)
    (hdv : (slice (Cell.data M) (left + (a + 1)) (b + 1)).Pairwise fun x y => y.key < x.key)
    (hlt : (Cell.data M (left + (a + 1))).key < (Cell.data M left).key) :
    ¬(slice (Cell.data ((mergeS left middle right).exec M)) left (a + 1 + (b + 1))).Perm
      (slice (Cell.data M) left (a + 1 + (b + 1))) := by
  have hout := mergeS_slice M (Nat.le_add_left 1 a) (Nat.le_add_left 1 b) hmid hright
  have hz : M (.host middle) = Cell.data M (left + a) := by
    rw [Cell.data]
    congr 2
    omega
  rw [hb1, hb2, hz] at hout
  have hnum : (Cell.data M left).IsNum := hu left ⟨Nat.le_refl _, by omega⟩
  have htail : ∀ x ∈ slice (Cell.data M) (left + 1) a, x.key < (Cell.data M left).key := by
    rw [slice_cons, List.pairwise_cons] at hdu
    exact hdu.1
  -- nothing in the second list reaches the largest element
  have hsmall : ∀ y ∈ (slice (Cell.data M) (left + (a + 1)) (b + 1)).reverse ++
      [Cell.data M (left + a)], F32.le (Cell.data M left) y = false := by
    intro y hy
    have hkey : y.IsNum ∧ y.key < (Cell.data M left).key := by
      rcases List.mem_append.1 hy with hy | hy
      · rw [List.mem_reverse] at hy
        exact ⟨hv.mem_isNum y hy, lt_of_le_of_lt (key_le_head hdv y hy) hlt⟩
      · obtain rfl := List.mem_singleton.1 hy
        refine ⟨hu _ ⟨by omega, by omega⟩, htail _ (mem_slice.2 ⟨left + a, ?_, rfl⟩)⟩
        constructor <;> omega
    rw [Bool.eq_false_iff, ne_eq, F32.le_iff hnum hkey.1]
    omega
  rw [mergeOut, slice_reverse_cons, concat_merge_bound _ hsmall, List.take_append_of_le_length
    (by simp; omega), List.take_of_length_le (by simp; omega)] at hout
  intro hperm
  have hmem : Cell.data M left ∈ slice (Cell.data M) left (a + 1 + (b + 1)) :=
    mem_slice.2 ⟨left, ⟨Nat.le_refl _, by omega⟩, rfl⟩
  rw [← hperm.mem_iff, hout, List.mem_merge, List.mem_reverse] at hmem
  rcases hmem with hmem | hmem
  · exact absurd (htail _ hmem) (lt_irrefl _)
  · have := hsmall _ hmem
    rw [Bool.eq_false_iff, ne_eq, F32.le_iff hnum hnum] at this
    exact this (le_refl _)

/-- In every other case both runs come out merged. -/
theorem mergeS_sorts_runs
    (hau : AscList (towards (F32.lt (Cell.data M left) (Cell.data M (left + 1)))
      (slice (Cell.data M) left (a + 1))))
    (hav : AscList (towards
      (F32.lt (Cell.data M (left + (a + 1))) (Cell.data M (left + (a + 1) + 1)))
      (slice (Cell.data M) (left + (a + 1)) (b + 1))))
    (hz : F32.lt (Cell.data M left) (Cell.data M (left + 1)) = false →
      F32.lt (Cell.data M (left + (a + 1))) (Cell.data M (left + (a + 1) + 1)) = false →
      ∀ x ∈ slice (Cell.data M) left (a + 1),
        F32.le x (Cell.data M (left + (a + 1))) = true) :
    Sorted (Cell.data ((mergeS left middle right).exec M)) left (a + 1 + (b + 1)) ∧
      (slice (Cell.data ((mergeS left middle right).exec M)) left (a + 1 + (b + 1))).Perm
        (slice (Cell.data M) left (a + 1 + (b + 1))) := by
  have hmerge := mergeS_merges M (Nat.le_add_left 1 a) (Nat.le_add_left 1 b) hmid hright
    fun h1 h2 => by
      -- the left run is used up before the last element of the right one
      have hbound := fun x hx => hz h1 h2 x (List.mem_reverse.1 hx)
      rw [slice_reverse_cons _ (left + (a + 1)), List.append_assoc, List.singleton_append,
        merge_append_bound _ _ hbound, merge_append_bound _ [] hbound, List.append_assoc]
      rfl
  have hperm : (slice (Cell.data ((mergeS left middle right).exec M)) left (a + 1 + (b + 1))).Perm
      (slice (Cell.data M) left (a + 1 + (b + 1))) := by
    have happ : slice (Cell.data M) left (a + 1 + (b + 1)) = slice (Cell.data M) left (a + 1) ++
        slice (Cell.data M) (left + (a + 1)) (b + 1) := slice_append
    rw [hmerge, happ]
    exact (List.merge_perm_append _).trans ((towards_perm _ _).append (towards_perm _ _))
  have hnan : NaNFree (Cell.data M) left (a + 1 + (b + 1)) := fun i hi => by
    rcases Nat.lt_or_ge i (left + (a + 1)) with h | h
    · exact hu i ⟨hi.1, h⟩
    · exact hv i ⟨h, by have := hi.2; omega⟩
  refine ⟨?_, hperm⟩
  rw [sorted_iff_ascList (forall_of_slice_perm hperm hnan), hmerge]
  exact (ascList_merge_iff (fun x hx => hu.mem_isNum x ((towards_perm _ _).mem_iff.1 hx))
    fun x hx => hv.mem_isNum x ((towards_perm _ _).mem_iff.1 hx)).2 ⟨hau, hav⟩

end

/-- **When `merge_s` merges two strictly monotone runs**: unless both descend and the right one
starts below the left one. What it stores past the end of `temp` does not count: `temp` is a region
of its own. -/
theorem mergeS_merges_iff (left middle right : Nat) (hl : left < middle) (hr : middle + 1 < right)
    (M : Mem Cell F32) (hM : NaNFree (Cell.data M) left (right + 1 - left))
    (hu : StrictRun (Cell.data M) left middle) (hv : StrictRun (Cell.data M) (middle + 1) right) :
    (mergeS left middle right).Always (fun M' => Merged M M' left right) M ↔
      F32.lt (Cell.data M left) (Cell.data M (left + 1)) = true ∨
        F32.lt (Cell.data M (middle + 1)) (Cell.data M (middle + 1 + 1)) = true ∨
        F32.le (Cell.data M left) (Cell.data M (middle + 1)) = true := by
  obtain ⟨a, rfl⟩ : ∃ a, middle = left + a := ⟨middle - left, by omega⟩
  obtain ⟨b, rfl⟩ : ∃ b, right = left + (a + 1) + b := ⟨right - (left + a + 1), by omega⟩
  have hcount : left + (a + 1) + b + 1 - left = a + 1 + (b + 1) := by omega
  rw [Prog.always_iff (mergeS_serial _ _ _).raceFree, Merged]
  simp only [hcount, Nat.add_assoc left a 1] at hM hv ⊢
  have hMu : NaNFree (Cell.data M) left (a + 1) := hM.mono (Nat.le_refl _) (by omega)
  have hMv : NaNFree (Cell.data M) (left + (a + 1)) (b + 1) := hM.mono (by omega) (by omega)
  have hmid : ((left + a : Nat) : Int) + 1 = left + (a + 1 : Nat) := by omega
  have hright : ((left + (a + 1) + b : Nat) : Int) + 1 = left + (a + 1 : Nat) + (b + 1 : Nat) := by
    omega
  have hframe : ∀ i : Int, i < left ∨ (left + (a + 1) + b : Nat) < i →
      (mergeS left (left + a : Nat) (left + (a + 1) + b : Nat)).exec M (.host i) = M (.host i) :=
    fun i hi => mergeS_frame M (by omega) hi
  have hdu := hu.direction (by omega) (by omega) hMu
  have hdv := hv.direction (by omega) (by omega) hMv
  have hle : F32.le (Cell.data M left) (Cell.data M (left + (a + 1))) = true ↔
      (Cell.data M left).key ≤ (Cell.data M (left + (a + 1))).key :=
    F32.le_iff (hMu left ⟨Nat.le_refl _, by omega⟩) (hMv _ ⟨Nat.le_refl _, by omega⟩)
  constructor
  · rintro ⟨-, hperm, -⟩
    by_contra hc
    simp only [not_or, Bool.not_eq_true] at hc
    obtain ⟨hb1, hb2, hgt⟩ := hc
    rw [Bool.eq_false_iff, ne_eq, hle] at hgt
    have hu' := (hdu.resolve_left fun h => by simp [hb1] at h).2
    have hv' := (hdv.resolve_left fun h => by simp [hb2] at h).2
    exact mergeS_drops hmid hright hMu hMv (by omega) hb1 hb2 hu' hv' (by omega) hperm
  · intro hc
    have hz : F32.lt (Cell.data M left) (Cell.data M (left + 1)) = false →
        F32.lt (Cell.data M (left + (a + 1))) (Cell.data M (left + (a + 1) + 1)) = false →
        ∀ x ∈ slice (Cell.data M) left (a + 1),
          F32.le x (Cell.data M (left + (a + 1))) = true := fun hb1 hb2 x hx => by
      have hu' := (hdu.resolve_left fun h => by simp [hb1] at h).2
      rw [hb1, hb2] at hc
      have hhead := hle.1 ((hc.resolve_left (by decide)).resolve_left (by decide))
      rw [F32.le_iff (hMu.mem_isNum x hx) (hMv _ ⟨Nat.le_refl _, by omega⟩)]
      exact le_trans (key_le_head hu' x hx) hhead
    have hsorts := mergeS_sorts_runs hmid hright hMu hMv
      (hu.towards (by omega) (by omega) hMu) (hv.towards (by omega) (by omega) hMv) hz
    exact ⟨hsorts.1, hsorts.2, hframe⟩

/-- The array `l`. -/
def ofList (l : List (BitVec 32)) : Mem Cell F32
  | .host i => ⟨l.getD i.toNat 0⟩
  | _ => ⟨0⟩

theorem strictRun_of_two {m : Mem Nat F32} {lo : Nat} (h : F32.lt (m (lo + 1)) (m lo) = true) :
    StrictRun m lo (lo + 1) := by
  refine .inr fun i j hi hij hj => ?_
  obtain ⟨rfl, rfl⟩ : i = lo ∧ j = lo + 1 := by omega
  exact h

theorem mergeS_merges_descending :
    (mergeS (0 : Nat) (1 : Nat) (3 : Nat)).Always
        (fun M' => Merged (ofList [2, 1, 4, 3]) M' 0 3) (ofList [2, 1, 4, 3]) ↔
      F32.lt (Cell.data (ofList [2, 1, 4, 3]) 0) (Cell.data (ofList [2, 1, 4, 3]) (0 + 1)) = true ∨
        F32.lt (Cell.data (ofList [2, 1, 4, 3]) (1 + 1))
          (Cell.data (ofList [2, 1, 4, 3]) (1 + 1 + 1)) = true ∨
        F32.le (Cell.data (ofList [2, 1, 4, 3]) 0)
          (Cell.data (ofList [2, 1, 4, 3]) (1 + 1)) = true := by
  have hnum : ∀ i < 4, (Cell.data (ofList [2, 1, 4, 3]) i).isNaN = false := by decide
  exact mergeS_merges_iff 0 1 3 (by decide) (by decide) _
    (fun i hi => hnum i (by simpa using hi.2)) (strictRun_of_two (by decide))
    (strictRun_of_two (by decide))

/-- On the runs `5, 1` and `4, 3` the array becomes `1, 3, 4, 1`. -/
theorem not_mergeS_merges_crossed :
    StrictRun (Cell.data (ofList [5, 1, 4, 3])) 0 1 ∧
      StrictRun (Cell.data (ofList [5, 1, 4, 3])) 2 3 ∧
      ¬(mergeS (0 : Nat) (1 : Nat) (3 : Nat)).Always
        (fun M' => Merged (ofList [5, 1, 4, 3]) M' 0 3) (ofList [5, 1, 4, 3]) := by
  refine ⟨strictRun_of_two (by decide), strictRun_of_two (by decide), fun h => ?_⟩
  have hnum : ∀ i < 4, (Cell.data (ofList [5, 1, 4, 3]) i).isNaN = false := by decide
  exact mergeS_drops (a := 1) (b := 1) (by decide) (by decide)
    (fun i hi => hnum i (by have := hi.2; omega)) (fun i hi => hnum i (by have := hi.2; omega))
    (by decide) (by decide) (by decide) (by decide) (by decide) (by decide) h.exec.2.1

end Fpga
