import ParSort.Aocl.Proof.Host
import ParSort.Fpga.Def

/-!
# The OpenCL objects of `fpga_sort`

`fpga_sort` calls `init_opencl` and releases nothing: `cleanup` only runs when a call of
`init_opencl` fails.
-/

namespace Fpga

open Aocl Resource Ledger

/-- The objects that `fpga_sort` creates. -/
def Made (env : Env) : Object → Prop
  | .context => True
  | .program => True
  | .slot kind i => i < env.devices ∧ kind ∈ kinds
  | .event i e => (i = 0 ∧ e = 2) ∧ env.status (.enqueueKernel i) = 0
  | .buffer b => b < 2 ∧ env.status (.createBuffer b) = 0

variable {env : Env} {w : World}

/-- In the order of their creation. -/
theorem made_iff {o : Object} : Made env o ↔
    (((o = .context ∨ o = .program ∨ ∃ p ∈ slots kinds env.devices, o = .slot p.2 p.1) ∨
      o = .buffer 0 ∧ env.status (.createBuffer 0) = 0) ∨
        o = .buffer 1 ∧ env.status (.createBuffer 1) = 0) ∨
          o = .event 0 2 ∧ env.status (.enqueueKernel 0) = 0 := by
  cases o with
  | context => simp [Made]
  | program => simp [Made]
  | slot kind i => simp [Made, mem_slots]
  | event i e =>
    simp only [Made, reduceCtorEq, false_and, and_false, exists_false, or_false, false_or,
      Object.event.injEq]
    exact and_congr_right fun ⟨hi, _⟩ => by rw [hi]
  | buffer b =>
    simp only [Made, reduceCtorEq, false_and, and_false, exists_false, or_false, false_or,
      Object.buffer.injEq]
    constructor
    · rintro ⟨hb, hstatus⟩
      obtain rfl | rfl : b = 0 ∨ b = 1 := by omega
      · exact .inl ⟨rfl, hstatus⟩
      · exact .inr ⟨rfl, hstatus⟩
    · rintro (⟨rfl, hstatus⟩ | ⟨rfl, hstatus⟩)
      · exact ⟨by decide, hstatus⟩
      · exact ⟨by decide, hstatus⟩

theorem mem_kinds_iff {kind : Kind} : kind ∈ kinds ↔ kind ∈ order := by cases kind <;> decide

theorem first_ok {kind : Kind} {array : Nat → Handle} {Q : Handle → World → Prop}
    {X : Stop → World → Prop} (ha : w.arrays kind = some array) (h0 : array 0 ≠ .uninitialised)
    (hQ : Q (array 0) w) : Meets (first kind) w Q X := by
  refine meets_bind (meets_get ?_)
  rw [ha]
  dsimp only
  rw [if_neg h0]
  exact meets_pure hQ

/-- A call of which nobody reads the status. -/
theorem meets_ignored {c : Call} {o : Object} {P : Object → Prop} {α : Type} {k : Host α}
    {Q : α → World → Prop} {X : Stop → World → Prop} (hlog : Holds w.log P) (hP : ¬P o)
    (hk : ∀ log, Holds log (fun x => P x ∨ x = o ∧ env.status c = 0) →
      Meets k { w with log := log } Q X) :
    Meets (newObject env c o >>= fun _ => k) w Q X := by
  refine meets_bind (meets_newObject (fun h => ?_) fun h => ?_)
  · exact hk _ ((hlog.acquire hP).congr fun x => by simp [h])
  · exact hk _ (hlog.congr fun x => by simp [h])

theorem meets_fpgaSortObjects (env : Env) : Meets (fpgaSortObjects env) World.init
    (fun r w => r = 0 ∧ Found env ∧ firstFailure env (initCalls kinds env) = none ∧
      Holds w.log (Made env))
    (fun e w => Fails env (initCalls kinds env) (Midway kinds env.devices) InitLeak e w ∨
      ¬Found env ∧ firstFailure env (initCalls kinds env) = none ∧ e = .undefined ∧
        ∃ P, Holds w.log P) := by
  unfold fpgaSortObjects initOpencl
  refine meets_bind ((meets_initOpencl (by decide) (by decide) fun _ => mem_kinds_iff).mono ?_ ?_)
  · rintro r w ⟨hinit, rfl, hfalse, htrue⟩
    by_cases hfound : Found env
    · obtain ⟨hw, hn⟩ := htrue (decide_eq_true hfound)
      have hst := fun o => hw.stored_iff (fun _ => mem_kinds_iff) hn (o := o)
      have hslot : ∀ kind ∈ kinds, ∃ array, w.arrays kind = some array ∧
          array 0 ≠ .uninitialised := fun kind hkind => by
        have h0 := hw.done (0, kind) (mem_slots.2 ⟨Nat.pos_of_ne_zero hfound.2, hkind⟩)
        cases ha : w.arrays kind with
        | none => simp [World.slot, ha] at h0
        | some array =>
          refine ⟨array, rfl, ?_⟩
          simp only [World.slot, ha] at h0
          rw [h0]
          exact Handle.noConfusion
      obtain ⟨queues, hqueue, hqueue0⟩ := hslot .queue (by decide)
      obtain ⟨kernels, hkernel, hkernel0⟩ := hslot .kernel (by decide)
      have hlog := hw.inv.log.congr fun o => by rw [false_or, hst]
      refine meets_ignored hlog (by simp) fun log₀ h₀ => ?_
      refine meets_ignored h₀ (by simp) fun log₁ h₁ => ?_
      refine meets_bind (first_ok hqueue hqueue0 (meets_bind (first_ok hkernel hkernel0 ?_)))
      refine meets_ignored h₁ (by simp) fun log₂ h₂ => ?_
      exact meets_pure ⟨rfl, hfound, hinit, h₂.congr fun o => made_iff.symm⟩
    · obtain ⟨-, ha, hlog⟩ := hfalse (decide_eq_false hfound)
      refine meets_ignored (P := fun _ => False) (hlog ▸ holds_nil) id fun log₀ h₀ => ?_
      refine meets_ignored h₀ (by simp) fun log₁ h₁ => ?_
      refine meets_bind (meets_bind (meets_get ?_))
      rw [ha]
      exact meets_throw (.inr ⟨hfound, hinit, rfl, _, h₁⟩)
  · rintro e w (hX | ⟨⟨-, hn, hopen⟩, rfl, hlog⟩)
    · exact .inl hX
    · have hno : ¬Found env := fun h => h.2 hn
      refine .inr ⟨hno, ?_, rfl, _, hlog⟩
      rw [initCalls, if_neg hno, List.append_nil, hopen]

/-- **The ledger of `fpga_sort`**, whatever the runtime answers. It returns, with 0, exactly when
there is a device and every call of `init_opencl` succeeds, although calls of its own may have
failed, and all it created is still held. Else it exits as `init_opencl` does, or reads what is not
there: `queue[0]` of a null array when `init_opencl` has returned false. -/
theorem fpgaSortObjects_ledger (env : Env) :
    ((∃ r w, fpgaSortObjects env World.init = .ok r w) ↔
      Found env ∧ firstFailure env (initCalls kinds env) = none) ∧
    Meets (fpgaSortObjects env) World.init (fun r w => r = 0 ∧ Holds w.log (Made env))
      (fun e w => Fails env (initCalls kinds env) (Midway kinds env.devices) InitLeak e w ∨
        ¬Found env ∧ e = .undefined ∧ ∃ P, Holds w.log P) := by
  have hrun := meets_fpgaSortObjects env
  refine ⟨⟨?_, ?_⟩, hrun.mono (fun r w h => ⟨h.1, h.2.2.2⟩) fun e w h => h.imp_right
    fun h => ⟨h.1, h.2.2⟩⟩
  · rintro ⟨r, w, hw⟩
    obtain ⟨-, hfound, hinit, -⟩ := hrun.ok hw
    exact ⟨hfound, hinit⟩
  · rintro ⟨hfound, hinit⟩
    cases hw : fpgaSortObjects env World.init with
    | ok r w => exact ⟨r, w, rfl⟩
    | error e w =>
      obtain ⟨c, hc, -⟩ | ⟨hno, -⟩ := hrun.error hw
      · rw [hinit] at hc
        cases hc
      · exact absurd hfound hno

end Fpga
