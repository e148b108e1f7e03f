import Mathlib.Data.List.Nodup
import Mathlib.Logic.Function.Basic

/-!
# Ledgers

What a program acquires and releases, in order. A ledger is legal when nothing is acquired while it
is held and nothing is released that is not (`run`); then each resource that is not held at the end
was released as often as acquired (`Holds.count`).
-/

namespace Ledger

inductive Event (ι : Type) where
  | acquire (x : ι)
  | release (x : ι)
  deriving DecidableEq, Repr

variable {ι : Type} [DecidableEq ι]

/-- What is held after a ledger; `none` when it is not legal. -/
def run (held : ι → Bool) : List (Event ι) → Option (ι → Bool)
  | [] => some held
  | .acquire x :: log => if held x then none else run (Function.update held x true) log
  | .release x :: log => if held x then run (Function.update held x false) log else none

/-- Nothing is held. -/
def empty : ι → Bool := fun _ => false

variable {held held' : ι → Bool} {log log' : List (Event ι)}

theorem run_append : run held (log ++ log') = (run held log).bind fun h => run h log' := by
  fun_induction run held log with
  | case1 held => rfl
  | case2 held x log h => simp [run, h]
  | case3 held x log h ih => simpa [run, h] using ih
  | case4 held x log h ih => simpa [run, h] using ih
  | case5 held x log h => simp [run, h]

/-- The ledger is legal, and at its end the resources with `P` are held. -/
def Holds (log : List (Event ι)) (P : ι → Prop) : Prop :=
  ∃ held, run empty log = some held ∧ ∀ x, held x = true ↔ P x

variable {P P' : ι → Prop} {x : ι}

theorem holds_nil : Holds ([] : List (Event ι)) fun _ => False := ⟨empty, rfl, by simp [empty]⟩

theorem Holds.congr (h : Holds log P) (hP : ∀ x, P x ↔ P' x) : Holds log P' := by
  obtain ⟨held, hrun, hheld⟩ := h
  exact ⟨held, hrun, fun x => (hheld x).trans (hP x)⟩

theorem Holds.acquire (h : Holds log P) (hx : ¬P x) :
    Holds (log ++ [.acquire x]) fun y => P y ∨ y = x := by
  obtain ⟨held, hrun, hheld⟩ := h
  refine ⟨Function.update held x true, ?_, fun y => ?_⟩
  · rw [run_append, hrun, Option.bind_some, run, if_neg (fun hc => hx ((hheld x).1 hc)), run]
  · by_cases e : y = x
    · simp [e]
    · simp [e, hheld]

theorem Holds.release (h : Holds log P) (hx : P x) :
    Holds (log ++ [.release x]) fun y => P y ∧ y ≠ x := by
  obtain ⟨held, hrun, hheld⟩ := h
  refine ⟨Function.update held x false, ?_, fun y => ?_⟩
  · rw [run_append, hrun, Option.bind_some, run, if_pos ((hheld x).2 hx), run]
  · by_cases e : y = x
    · simp [e]
    · simp [e, hheld]

/-- A resource has been acquired as often as released, and once more while it is held. -/
theorem count_of_run (h : run held log = some held') (x : ι) :
    (held x).toNat + log.count (.acquire x) = (held' x).toNat + log.count (.release x) := by
  fun_induction run held log with
  | case1 held =>
    obtain rfl : held = held' := Option.some.inj h
    rfl
  | case2 held y log hy => cases h
  | case3 held y log hy ih =>
    have ih := ih h
    by_cases e : y = x
    · subst e
      simp_all
      omega
    · rw [Function.update_of_ne (Ne.symm e)] at ih
      simpa [e] using ih
  | case4 held y log hy ih =>
    have ih := ih h
    by_cases e : y = x
    · subst e
      simp_all
      omega
    · rw [Function.update_of_ne (Ne.symm e)] at ih
      simpa [e] using ih
  | case5 held y log hy => cases h

/-- In a legal ledger nothing is released more often than it was acquired; what is not held at its
end was released as often. -/
theorem Holds.count (h : Holds log P) (x : ι) :
    log.count (.release x) ≤ log.count (.acquire x) ∧
      (¬P x → log.count (.acquire x) = log.count (.release x)) := by
  obtain ⟨held, hrun, hheld⟩ := h
  have hcount := count_of_run hrun x
  rw [empty, Bool.toNat_false, Nat.zero_add] at hcount
  refine ⟨by omega, fun hx => ?_⟩
  rw [(Bool.eq_false_iff.2 fun hc => hx ((hheld x).1 hc) : held x = false), Bool.toNat_false,
    Nat.zero_add] at hcount
  exact hcount

end Ledger
