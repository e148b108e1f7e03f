import ParSort.Cuda.Proof.Stages
import ParSort.Fpga.Proof.Kernel

/-!
# The network of the GPU and the network of the FPGA

Up to stage `k = n / 2` no pass pairs the two halves of the array, so the launches of `cuda_sort`
run on each half what a work-item of `fpgasort` runs on it (`launches_half`). The halves the two
devices leave are the same, bit for bit, but for the last stage of work-item 1 (`kernels_agree`).
-/

namespace Cuda

open Conc Machine Net Fpga

theorem pass_halves (h : Nat) (kj : Nat × Nat) : pass (List.range (2 * h)) kj =
    (pass (List.range' (0 * h) h) kj).seq (pass (List.range' (1 * h) h) kj) := by
  rw [Fpga.pass, Fpga.pass, Fpga.pass, ← Prog.forEach_append, List.range_eq_range', Nat.zero_mul,
    Nat.one_mul, Nat.two_mul, ← List.range'_append_1, Nat.zero_add]

/-- The passes of the stages up to `2 ^ p` over a half stay in it. -/
theorem pass_within (p : Nat) {w : Nat} (hw : w < 2) : ∀ kj ∈ stages p,
    (pass (List.range' (w * 2 ^ p) (2 ^ p)) kj).Within
      (Set.Ico (w * 2 ^ p) (w * 2 ^ p + 2 ^ p)) := by
  rintro ⟨k, j⟩ hkj
  obtain ⟨s, t, hts, hs, rfl, rfl⟩ := mem_stages.1 hkj
  rw [Fpga.pass, Prog.within_forEach]
  exact fun i hi => exchange_within_iff.2 fun hlt => closed_item p hw t (by omega) i hi hlt

/-- The launches up to stage `2 ^ p` on `2 * 2 ^ p` elements, seen from the half `w`. -/
theorem launches_half (p : Nat) {w : Nat} (hw : w < 2) (M : Mem Nat F32) :
    ∀ a ∈ Set.Ico (w * 2 ^ p) (w * 2 ^ p + 2 ^ p),
      (launches (2 * 2 ^ p) (stages p)).exec M a =
        (Prog.forEach (stages p) (pass (List.range' (w * 2 ^ p) (2 ^ p)))).exec M a := by
  have hd : Disjoint (Set.Ico (0 * 2 ^ p) (0 * 2 ^ p + 2 ^ p))
      (Set.Ico (1 * 2 ^ p) (1 * 2 ^ p + 2 ^ p)) := by
    rw [Set.disjoint_left]
    intro a h0 h1
    have := h0.2
    have := h1.1
    omega
  have hids : threadIds (2 * 2 ^ p) = List.range (2 * 2 ^ p) := by
    rw [← Nat.pow_succ', threadIds_two_pow]
  intro a ha
  rw [launches_exec, hids, show pass (List.range (2 * 2 ^ p)) = _ from funext (pass_halves _)]
  have h0 := pass_within p (w := 0) (by decide)
  have h1 := pass_within p (w := 1) (by decide)
  obtain rfl | rfl : w = 0 ∨ w = 1 := by omega
  · exact (Prog.exec_forEach_restrict hd h0 h1 (fun _ _ => rfl) a ha).1
  · exact (Prog.exec_forEach_restrict hd.symm h1 h0 (fun _ _ => rfl) a ha).2

/-- **The devices agree, bit for bit**, whatever the values (NaNs too) and the interleavings of
both: the work-items of `fpgasort` on `2 * 2 ^ p` elements leave the lower half as the launches of
`cuda_sort` up to stage `k = 2 ^ p` leave it, and the upper half as they leave it but for the
work-item's own last stage. -/
theorem kernels_agree (p : Nat) (hp : 2 * 2 ^ p < 2 ^ 30) (M : Mem Nat F32) :
    ∃ kernel kj, ndRangeKernel 64 (2 * 2 ^ p) 2 = some kernel ∧
      loopsUpTo 31 p (2 * 2 ^ p) = some kj ∧
      kernel.Always (fun M₁ => (launches (2 * 2 ^ p) kj).Always (fun M₂ =>
        (∀ a < 2 ^ p, M₁ a = M₂ a) ∧ ∀ a, 2 ^ p ≤ a → a < 2 * 2 ^ p →
          M₁ a = (Prog.forEach (stage (p + 1)) (pass (List.range' (2 ^ p) (2 ^ p)))).exec M₂ a)
        M) M := by
  have hloops : loopsUpTo 31 p (2 * 2 ^ p) = some (stages p) := by
    have hp30 : p < 30 := (Nat.pow_lt_pow_iff_right (by decide)).1 (by omega : 2 ^ p < 2 ^ 30)
    exact loopsUpTo_eq (by omega) (by omega) (Nat.le_refl 31)
  refine ⟨_, _, ndRangeKernel_eq hp (Nat.le_refl 64), hloops,
    Prog.always_of_raceFree (items_raceFree p)
      (Prog.always_of_raceFree (launches_raceFree _ _) ?_)⟩
  have hlow := launches_half p (w := 0) (by decide) M
  have hhigh := launches_half p (w := 1) (by decide) M
  simp only [items, Prog.exec]
  constructor
  · intro a ha
    rw [hlow a ⟨by omega, by omega⟩, Prog.exec_frame (item_within p (w := 1) (by decide))
      (fun h => by have := h.1; omega), item_half p 0 (by decide)]
    rfl
  · intro a ha ha'
    rw [item_half p 1 (by decide), stages_succ, Prog.forEach_append, Prog.exec_seq]
    have hw : (Prog.forEach (stage (p + 1)) (pass (List.range' (1 * 2 ^ p) (2 ^ p)))).Within
        (Set.Ico (1 * 2 ^ p) (1 * 2 ^ p + 2 ^ p)) := by
      have h := item_within p (w := 1) (by decide)
      rw [item_half p 1 (by decide), stages_succ, Prog.forEach_append, Prog.within_seq] at h
      exact h.2
    have hprefix : (Prog.forEach (stages p) (pass (List.range' (1 * 2 ^ p) (2 ^ p)))).Within
        (Set.Ico (1 * 2 ^ p) (1 * 2 ^ p + 2 ^ p)) :=
      Prog.within_forEach.2 (pass_within p (by decide))
    rw [Nat.one_mul] at hw hhigh hprefix ⊢
    refine Prog.exec_congr hw (fun b hb => ?_) a ⟨ha, by omega⟩
    rw [hhigh b hb]
    refine Prog.exec_congr hprefix (fun c hc => ?_) b hb
    exact Prog.exec_frame (item_within p (w := 0) (by decide))
      (fun h => by have := h.2; have := hc.1; omega) M

/-- The array `7, 6, …, 0`. -/
def descending : Mem Nat F32 := fun i => ⟨BitVec.ofNat 32 (7 - i)⟩

theorem kernels_agree_eight : ∃ kernel kj, ndRangeKernel 64 (2 * 2 ^ 2) 2 = some kernel ∧
    loopsUpTo 31 2 (2 * 2 ^ 2) = some kj ∧
      kernel.Always (fun M₁ => (launches (2 * 2 ^ 2) kj).Always (fun M₂ =>
        (∀ a < 2 ^ 2, M₁ a = M₂ a) ∧ ∀ a, 2 ^ 2 ≤ a → a < 2 * 2 ^ 2 →
          M₁ a = (Prog.forEach (stage (2 + 1)) (pass (List.range' (2 ^ 2) (2 ^ 2)))).exec M₂ a)
        descending) descending :=
  kernels_agree 2 (by decide) descending

end Cuda
