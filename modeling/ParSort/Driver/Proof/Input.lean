import ParSort.Driver.Input
import ParSort.Driver.Proof.Main

/-!
# `mysort` on its input

From the command line to the verdict: the number of elements is sound below `2 ^ 29`
(`allocated_iff`), and then `mysort` passes the bytes of the file, continued by what the heap held
(`mysort_pass_iff`). As nobody compares what `fread` returns with `numElements`, the verdict is that
of the file only when the file is long enough (`mysort_always_pass_iff`, `mysort_some_pass_iff`). It
may be one byte short (`fread_append`): two missing bytes can make a NaN of any float.
-/

namespace Driver

open Conc Machine

theorem allocated_iff {n : Int} : Allocated n ↔ 0 ≤ n ∧ n < 2 ^ 29 := by
  refine and_congr_right fun h0 => ?_
  rw [memSize, wrap32, Int.bmod_def]
  split <;> omega

section
variable {file : List UInt8} {n i : Nat} {heap : Mem Nat F32}

theorem fread_of_lt (hi : i < n) :
    fread file n heap i = F32.overlay (file.drop (4 * i)) (heap i) := if_pos hi

/-- The elements that are in the file. -/
theorem fread_of_mem (hi : i < n) (h : i < (F32.ofFile file).length) :
    fread file n heap i = (F32.ofFile file)[i] := by
  rw [fread_of_lt hi, F32.overlay_eq_ofFile h]

/-- What is read of the file is NaN-free. -/
theorem nanFree_take_iff : (∀ x ∈ (F32.ofFile file).take n, x.IsNum) ↔
    ∀ i < n, i < (F32.ofFile file).length → (fread file n heap i).IsNum := by
  constructor
  · intro h i hi hlen
    rw [fread_of_mem hi hlen]
    exact h _ (List.mem_take_iff_getElem.2 ⟨i, by omega, rfl⟩)
  · intro h x hx
    obtain ⟨i, hi, rfl⟩ := List.mem_take_iff_getElem.1 hx
    have h := h i (by omega) (by omega)
    rwa [fread_of_mem (by omega) (by omega)] at h

/-- Elements behind the file are no NaN when the heap was zero. -/
theorem isNum_fread_zero (hi : i < n) (h : (F32.ofFile file).length ≤ i) :
    (fread file n (fun _ => ⟨0⟩) i).IsNum := by
  rw [F32.length_ofFile] at h
  rw [fread_of_lt hi]
  exact F32.isNum_overlay_zero (by rw [List.length_drop]; omega)

section
variable {b : UInt8} (hlen : 4 * n ≤ file.length + 1)
include hlen

theorem le_length_append : n ≤ (F32.ofFile (file ++ [b])).length := by
  rw [F32.length_ofFile, List.length_append, List.length_singleton]
  omega

variable (hb : (heap (n - 1)).byte 3 = b)
include hb

/-- A file without its last byte is read as one that ends in the byte of the heap. -/
theorem fread_append (hi : i < n) :
    fread file n heap i = (F32.ofFile (file ++ [b])).getD i ⟨0⟩ := by
  have hmem : i < (F32.ofFile (file ++ [b])).length := Nat.lt_of_lt_of_le hi (le_length_append hlen)
  rw [fread_of_lt hi, List.getD_eq_getElem _ _ hmem, ← F32.overlay_eq_ofFile hmem (heap i),
    List.drop_append_of_le_length (by omega), F32.overlay_append]
  · rw [List.length_drop]
    omega
  · intro h3
    rw [List.length_drop] at h3
    obtain rfl : i = n - 1 := by omega
    exact hb

theorem nanFree_append_iff : NaNFree (fread file n heap) 0 n ↔
    ∀ x ∈ (F32.ofFile (file ++ [b])).take n, x.IsNum := by
  have hmem : n ≤ (F32.ofFile (file ++ [b])).length := le_length_append hlen
  constructor
  · intro h x hx
    obtain ⟨i, hi, rfl⟩ := List.mem_take_iff_getElem.1 hx
    have hnum := h i ⟨Nat.zero_le i, by omega⟩
    rwa [fread_append hlen hb (by omega), List.getD_eq_getElem _ _ (by omega)] at hnum
  · intro h i ⟨_, hi⟩
    rw [fread_append hlen hb (by omega), List.getD_eq_getElem _ _ (by omega)]
    exact h _ (List.mem_take_iff_getElem.2 ⟨i, by omega, rfl⟩)

theorem inOrder_append_iff {qsort : Qsort} (hq : Qsort.Spec qsort) {mode : Int} :
    InOrder qsort mode n (fread file n heap) ↔
      InOrder qsort mode n fun i => (F32.ofFile (file ++ [b])).getD i ⟨0⟩ := by
  constructor
  · exact inOrder_congr hq fun i ⟨_, hi⟩ => fread_append hlen hb (by omega)
  · exact inOrder_congr hq fun i ⟨_, hi⟩ => (fread_append hlen hb (by omega)).symm

end

end

section
variable {qsort : Qsort} (hq : Qsort.Spec qsort) (hs : Qsort.Sorts qsort)
  {argv : List (List UInt8)} {fopen : List UInt8 → Option (List UInt8)} {heap : Mem Nat F32}
  {M : Mem Cell F32}
include hq hs

theorem mysort_pass_iff
    (hgpu : ∀ path n, arguments argv = some (path, n, 3) → ∃ m, Cuda.Fits m n.toNat) :
    mysort qsort 64 argv fopen heap M (· = .verdict .pass) ↔
      ∃ path n mode file, arguments argv = some (path, n, mode) ∧ fopen path = some file ∧
        (0 ≤ n ∧ n < 2 ^ 29) ∧ NaNFree (fread file n.toNat heap) 0 n.toNat ∧
          InOrder qsort mode n.toNat (fread file n.toNat heap) := by
  unfold mysort
  cases hargs : arguments argv with
  | none => simp
  | some args =>
    obtain ⟨path, n, mode⟩ := args
    dsimp only
    cases hfile : fopen path with
    | none =>
      refine iff_of_false (by simp) ?_
      rintro ⟨path', n', mode', file, hargs', hfile', -⟩
      cases hargs'
      rw [hfile] at hfile'
      cases hfile'
    | some file =>
      have hmain : 0 ≤ n ∧ n < 2 ^ 29 → (main qsort 64 mode n.toNat (fread file n.toNat heap) M
          (fun v => Outcome.verdict v = .verdict .pass) ↔ NaNFree (fread file n.toNat heap) 0
            n.toNat ∧ InOrder qsort mode n.toNat (fread file n.toNat heap)) := fun hn => by
        simp only [Outcome.verdict.injEq]
        refine main_pass_iff qsort hq hs mode n.toNat (fun h3 => ⟨by omega, ?_⟩) _ M
        exact hgpu path n (by rw [hargs, h3])
      dsimp only
      split
      case isTrue h =>
        have hn := allocated_iff.1 h
        rw [hmain hn]
        constructor
        · exact fun hpass => ⟨path, n, mode, file, rfl, hfile, hn, hpass⟩
        · rintro ⟨path', n', mode', file', hargs', hfile', -, hpass⟩
          cases hargs'
          cases hfile.symm.trans hfile'
          exact hpass
      case isFalse h =>
        refine iff_of_false (by simp) ?_
        rintro ⟨path', n', mode', file', hargs', -, hn, -⟩
        cases hargs'
        exact h (allocated_iff.2 hn)

end

/-- **The verdict on a file**: `mysort` passes whatever the heap held exactly when the arguments
are there, the file opens and holds `numElements` floats, which fit an `int`'s worth of bytes, none
is a NaN, and the back end of the mode leaves them in order. The file may lack the very last byte if
that is so for every byte there. -/
theorem mysort_always_pass_iff (qsort : Qsort) (hq : Qsort.Spec qsort) (hs : Qsort.Sorts qsort)
    (argv : List (List UInt8)) (fopen : List UInt8 → Option (List UInt8)) (M : Mem Cell F32)
    (hgpu : ∀ path n, arguments argv = some (path, n, 3) → ∃ m, Cuda.Fits m n.toNat) :
    (∀ heap, mysort qsort 64 argv fopen heap M (· = .verdict .pass)) ↔
      ∃ path n mode file, arguments argv = some (path, n, mode) ∧ fopen path = some file ∧
        (0 ≤ n ∧ n < 2 ^ 29) ∧ 4 * n ≤ file.length + 1 ∧ ∀ b : UInt8,
          (∀ x ∈ (F32.ofFile (file ++ [b])).take n.toNat, x.IsNum) ∧
            InOrder qsort mode n.toNat fun i => (F32.ofFile (file ++ [b])).getD i ⟨0⟩ := by
  constructor
  · intro h
    obtain ⟨path, n, mode, file, hargs, hfile, hn, hnan, -⟩ :=
      (mysort_pass_iff hq hs hgpu).1 (h fun _ => ⟨0x7FC00000⟩)
    -- the upper half of the last element, if the file does not reach it, is the heap's
    have hlen : 4 * n ≤ file.length + 1 := by
      by_contra hlt
      have hnum := hnan (n.toNat - 1) ⟨Nat.zero_le _, by omega⟩
      rw [fread_of_lt (by omega)] at hnum
      exact F32.not_isNum_overlay (by rw [List.length_drop]; omega) hnum
    refine ⟨path, n, mode, file, hargs, hfile, hn, hlen, fun b => ?_⟩
    obtain ⟨path', n', mode', file', hargs', hfile', -, hnan', horder'⟩ :=
      (mysort_pass_iff hq hs hgpu).1 (h fun _ => F32.ofBytes 0 0 0 b)
    cases hargs.symm.trans hargs'
    cases hfile.symm.trans hfile'
    have hb := F32.byte_three_ofBytes 0 0 0 b
    exact ⟨(nanFree_append_iff (by omega) hb).1 hnan',
      (inOrder_append_iff (by omega) hb hq).1 horder'⟩
  · rintro ⟨path, n, mode, file, hargs, hfile, hn, hlen, hall⟩ heap
    obtain ⟨hnan, horder⟩ := hall ((heap (n.toNat - 1)).byte 3)
    exact (mysort_pass_iff hq hs hgpu).2 ⟨path, n, mode, file, hargs, hfile, hn,
      (nanFree_append_iff (by omega) rfl).2 hnan, (inOrder_append_iff (by omega) rfl hq).2 horder⟩

/-- `mysort m f 2` on a file of `1.0f` and the first three bytes of `0.0f`: no byte makes a NaN of
these. -/
theorem mysort_always_pass_iff_seven : arguments [[109], [102], [50]] = some ([102], 2, 0) ∧
    ∀ heap, mysort exchangeSort 64 [[109], [102], [50]]
      (fun _ => some ([⟨0x3F800000⟩].flatMap F32.toBytes ++ [0, 0, 0])) heap (fun _ => ⟨0⟩)
        (· = .verdict .pass) := by
  have hargs : arguments [[109], [102], [50]] = some ([102], 2, 0) := by decide
  refine ⟨hargs, (mysort_always_pass_iff exchangeSort exchangeSort_spec exchangeSort_sorts _ _ _
    fun path n h => ?_).2 ⟨_, _, _, _, hargs, rfl, by decide, by decide, fun b => ⟨?_, ?_⟩⟩⟩
  · rw [hargs] at h
    cases h
  · rw [List.append_assoc, F32.ofFile_toBytes]
    intro x hx
    change x ∈ [⟨0x3F800000⟩, F32.ofBytes 0 0 0 b] at hx
    simp only [List.mem_cons, List.not_mem_nil, or_false] at hx
    rcases hx with rfl | rfl
    · rfl
    · have hb := b.toNat_lt
      refine decide_eq_false ?_
      rw [F32.magnitude_ofBytes]
      change ¬0x7F800000 < 0 + 2 ^ 8 * 0 + 2 ^ 16 * 0 + 2 ^ 24 * (b.toNat % 2 ^ 7)
      omega
  · rw [InOrder, if_neg (by decide), if_neg (by decide)]
    trivial

/-- **The verdict without a file**: where the back end is `qsort`, some contents of the heap let
`mysort` pass as soon as what there is of the file has no NaN, however short
it is. -/
theorem mysort_some_pass_iff (qsort : Qsort) (hq : Qsort.Spec qsort) (hs : Qsort.Sorts qsort)
    (argv : List (List UInt8)) (fopen : List UInt8 → Option (List UInt8)) (M : Mem Cell F32)
    (hmode : ∀ path n mode, arguments argv = some (path, n, mode) → mode ≠ 1 ∧ mode ≠ 3) :
    (∃ heap, mysort qsort 64 argv fopen heap M (· = .verdict .pass)) ↔
      ∃ path n mode file, arguments argv = some (path, n, mode) ∧ fopen path = some file ∧
        (0 ≤ n ∧ n < 2 ^ 29) ∧ ∀ x ∈ (F32.ofFile file).take n.toNat, x.IsNum := by
  have hgpu : ∀ path n, arguments argv = some (path, n, 3) → ∃ m, Cuda.Fits m n.toNat :=
    fun path n h => absurd rfl (hmode path n 3 h).2
  constructor
  · rintro ⟨heap, h⟩
    obtain ⟨path, n, mode, file, hargs, hfile, hn, hnan, -⟩ := (mysort_pass_iff hq hs hgpu).1 h
    exact ⟨path, n, mode, file, hargs, hfile, hn,
      nanFree_take_iff.2 fun i hi _ => hnan i ⟨Nat.zero_le i, by omega⟩⟩
  · rintro ⟨path, n, mode, file, hargs, hfile, hn, hnan⟩
    refine ⟨fun _ => ⟨0⟩, (mysort_pass_iff hq hs hgpu).2
      ⟨path, n, mode, file, hargs, hfile, hn, fun i hi => ?_, ?_⟩⟩
    · by_cases h : i < (F32.ofFile file).length
      · exact nanFree_take_iff.1 hnan i (by have := hi.2; omega) h
      · exact isNum_fread_zero (by have := hi.2; omega) (Nat.not_lt.1 h)
    · obtain ⟨h1, h3⟩ := hmode path n mode hargs
      rw [InOrder, if_neg h1, if_neg h3]
      trivial

/-- `mysort m f 2` on an empty file. -/
theorem mysort_some_pass_iff_empty : ∃ heap, mysort exchangeSort 64 [[109], [102], [50]]
    (fun _ => some []) heap (fun _ => ⟨0⟩) (· = .verdict .pass) := by
  have hargs : arguments [[109], [102], [50]] = some ([102], 2, 0) := by decide
  refine (mysort_some_pass_iff exchangeSort exchangeSort_spec exchangeSort_sorts _ _ _
    fun path n mode h => ?_).2 ⟨_, _, _, _, hargs, rfl, by decide, by simp [F32.ofFile]⟩
  rw [hargs] at h
  cases h
  exact ⟨by decide, by decide⟩

end Driver
