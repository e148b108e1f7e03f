import ParSort.Fpga.Proof.Exchange
import ParSort.Machine.Proof.Order

/-!
# The stages of both kernels

Invariant of the outer loop, `StageSorted`: after stage `k = 2 ^ s` every aligned block of `2 ^ s`
cells is sorted, ascending when its number is even and descending when it is odd.
`StageSorted.stage` is the step lemma, `stageSorted_stages` the run lemma; `rearranges_stages` (for
any contents, NaN included) says that no value is lost.
-/

namespace Fpga

open Conc Machine Net

/-- One pass of a kernel over the indices `l`. -/
def pass (l : List Nat) (kj : Nat × Nat) : Prog Nat F32 := .forEach l (exchange kj.2 kj.1)

/-- Passes with `j < 2 ^ t` over the indices `l` exchange cells of `S` only. -/
def Closed (l : List Nat) (S : Set Nat) (t : Nat) : Prop :=
  ∀ u < t, ∀ x ∈ l, x < x ^^^ 2 ^ u → x ∈ S ∧ x ^^^ 2 ^ u ∈ S

/-- After stage `2 ^ s`: every aligned block of `2 ^ s` cells of `[low, high)` is sorted in its
direction. -/
def StageSorted (low high s : Nat) (m : Mem Nat F32) : Prop :=
  ∀ b, 2 ^ s ∣ b → low ≤ b → b + 2 ^ s ≤ high →
    AscendingBlock (F32.dirKey (up s b)) m b (2 ^ s)

/-- Two neighbouring blocks sorted in opposite directions are a bitonic block, either way up. -/
theorem StageSorted.bitonic {low high s b : Nat} {m : Mem Nat F32} (h : StageSorted low high s m)
    (hb : 2 ^ (s + 1) ∣ b) (h1 : low ≤ b) (h2 : b + 2 ^ (s + 1) ≤ high) (d : Bool) :
    BitonicBlock (F32.dirKey d) m b (2 ^ (s + 1)) := by
  have hp : 2 ^ (s + 1) = 2 ^ s + 2 ^ s := by omega
  have hpos := Nat.two_pow_pos s
  obtain ⟨c, rfl⟩ := hb
  have e1 : up s (2 ^ (s + 1) * c) = true := by
    rw [up, pow_succ, Nat.mul_assoc, Nat.mul_div_cancel_left _ hpos]
    exact decide_eq_true (by omega)
  have e2 : up s (2 ^ (s + 1) * c + 2 ^ s) = false := by
    rw [up, pow_succ, Nat.mul_assoc, ← Nat.mul_succ, Nat.mul_div_cancel_left _ hpos]
    exact decide_eq_false (by omega)
  have hl := h (2 ^ (s + 1) * c) ⟨2 * c, by rw [pow_succ, Nat.mul_assoc]⟩ h1 (by omega)
  have hh := h (2 ^ (s + 1) * c + 2 ^ s) ⟨2 * c + 1, by rw [pow_succ, Nat.mul_assoc, Nat.mul_succ]⟩
    (by omega) (by omega)
  rw [e1] at hl
  rw [e2] at hh
  have hb := bitonicBlock_of_halves hl hh d
  rwa [← hp] at hb

theorem forEach_stage (s : Nat) (body : Nat × Nat → Prog Nat F32) :
    Prog.forEach (stage s) body =
      Prog.forEach (List.range s).reverse fun u => body (2 ^ s, 2 ^ u) :=
  Prog.forEach_map _ _ _

/-! ## No value is lost -/

section
variable {l : List Nat} {S : Set Nat} {t : Nat}

theorem Closed.mono {t' : Nat} (h : Closed l S t) (ht : t' ≤ t) : Closed l S t' :=
  fun u hu => h u (by omega)

theorem Closed.rearranges_passes (h : Closed l S t) (s : Nat) (m : Mem Nat F32) :
    Rearranges S m ((Prog.forEach (List.range t).reverse fun u =>
      pass l (2 ^ s, 2 ^ u)).exec m) := by
  refine rearranges_forEach (fun u hu m => rearranges_forEach (fun x hx m => ?_) m) m
  have hu : u < t := by simpa using hu
  exact exchange_rearranges (h u hu x hx) m

/-- The stages up to `2 ^ t` rearrange the cells they may touch, whatever these hold. -/
theorem rearranges_stages (h : Closed l S t) (m : Mem Nat F32) :
    Rearranges S m ((Prog.forEach (stages t) (pass l)).exec m) := by
  induction t with
  | zero => exact .refl S m
  | succ t ih =>
    rw [stages_succ, Prog.forEach_append, Prog.exec_seq, forEach_stage]
    exact (ih (h.mono t.le_succ)).trans (h.rearranges_passes (t + 1) _)

end

/-- An exchange with `j = 2 ^ t` keeps the values of every aligned block of more than `2 ^ t` cells:
both cells of its pair are in the block or neither is. -/
theorem exchange_slice_perm {s t b : Nat} (hts : t < s) (hb : 2 ^ s ∣ b) (k x : Nat)
    (m : Mem Nat F32) : (slice ((exchange (2 ^ t) k x).exec m) b (2 ^ s)).Perm
      (slice m b (2 ^ s)) := by
  by_cases hx : b ≤ x ∧ x < b + 2 ^ s
  · have hr : Rearranges (Set.Ico b (b + 2 ^ s)) m ((exchange (2 ^ t) k x).exec m) :=
      exchange_rearranges (fun _ => ⟨hx, xor_mem_block hts hb hx.1 hx.2⟩) m
    exact hr.slice_perm rfl
  · rw [slice_congr fun a ha => Prog.exec_frame (exchange_within (2 ^ t) k x) (fun hp => ?_) m]
    obtain ⟨-, rfl | rfl⟩ := hp
    · exact hx ha
    · have := xor_mem_block hts hb ha.1 ha.2
      rw [Nat.xor_xor_cancel_right] at this
      exact hx this

/-- The stages up to `2 ^ s` keep the values of every aligned block of `2 ^ s` cells. -/
theorem stages_slice_perm {s b : Nat} (hb : 2 ^ s ∣ b) (l : List Nat) (m : Mem Nat F32) :
    (slice ((Prog.forEach (stages s) (pass l)).exec m) b (2 ^ s)).Perm (slice m b (2 ^ s)) := by
  refine Prog.exec_forEach_induction (I := fun m' => (slice m' b (2 ^ s)).Perm (slice m b (2 ^ s)))
    (fun kj hkj m' hm' => ?_) (List.Perm.refl _)
  obtain ⟨u, t, htu, hus, -, hj⟩ := mem_stages.1 (show (kj.1, kj.2) ∈ stages s from hkj)
  refine Prog.exec_forEach_induction (I := fun m' => (slice m' b (2 ^ s)).Perm (slice m b (2 ^ s)))
    (fun x _ m' hm' => ?_) hm'
  rw [hj]
  exact (exchange_slice_perm (by omega) hb kj.1 x m').trans hm'

/-! ## Every stage sorts -/

section
variable {l : List Nat} {low high : Nat}

theorem stageSorted_zero (m : Mem Nat F32) : StageSorted low high 0 m := by
  intro b _ _ _ i j hij hj
  rw [show i = j by simp at hj; omega]

variable (hl : l.Nodup) (hvis : ∀ x, low ≤ x → x < high → x ∈ l)
include hl hvis

/-- One stage doubles the sorted blocks. -/
theorem StageSorted.stage {s : Nat} {m : Mem Nat F32} (h : StageSorted low high s m)
    (hm : ∀ i ∈ Set.Ico low high, F32.IsNum (m i)) :
    StageSorted low high (s + 1) ((Prog.forEach (stage (s + 1)) (pass l)).exec m) := by
  intro b hb h1 h2
  rw [forEach_stage]
  have hmerge := merges_exchanges hl (Nat.le_refl (s + 1)) hb
    (fun i hi => hvis (b + i) (by omega) (by omega)) (m := m)
    fun i hi => hm i ⟨by have := hi.1; omega, by have := hi.2; omega⟩
  exact hmerge.ascending (h.bitonic hb h1 h2 _)

/-- **After the stages up to `2 ^ t`** every aligned block of `2 ^ t` cells is sorted in its
direction. -/
theorem stageSorted_stages {t : Nat} (hc : Closed l (Set.Ico low high) t) {m : Mem Nat F32}
    (hm : ∀ i ∈ Set.Ico low high, F32.IsNum (m i)) :
    StageSorted low high t ((Prog.forEach (stages t) (pass l)).exec m) := by
  induction t with
  | zero => exact stageSorted_zero m
  | succ t ih =>
    have hc' := hc.mono t.le_succ
    rw [stages_succ, Prog.forEach_append, Prog.exec_seq]
    exact (ih hc').stage hl hvis ((rearranges_stages hc' m).forall hm)

end

end Fpga
