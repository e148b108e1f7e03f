import ParSort.Conc.Proof.Rearrange
import ParSort.Machine.Cell

/-!
# Transfers between the host and the device

What the two copies leave in the cells they write, and that they leave all others alone. A device
program between them acts on the caller's array as on the device buffer (`roundTrip_data`).
-/

namespace Cell

open Conc

variable {n : Nat} {M : Mem Cell F32}

/-- The cells of element `i`. -/
def Pair (i : Nat) : Set Cell := {host i, dev i}

theorem pairwise_transfer {l : List Nat} (hl : l.Nodup) :
    l.Pairwise fun i j => Disjoint (Pair i) (Pair j) := by
  refine hl.imp fun {i j} hij => ?_
  rw [Set.disjoint_left]
  rintro c (rfl | rfl) (h | h)
  · exact hij (by simpa using h)
  · exact nomatch h
  · exact nomatch h
  · exact hij (by simpa using h)

theorem hostToDevice_serial (n : Nat) : (hostToDevice n).Serial :=
  Prog.serial_forEach fun _ _ => Prog.serial_copy _ _

theorem deviceToHost_serial (n : Nat) : (deviceToHost n).Serial :=
  Prog.serial_forEach fun _ _ => Prog.serial_copy _ _

theorem hostToDevice_dev {i : Nat} (hi : i < n) :
    (hostToDevice n).exec M (dev i) = M (host i) := by
  have hw : ∀ x ∈ List.range n, (Prog.copy (host x) (dev x) : Prog Cell F32).Within (Pair x) :=
    fun _ _ => Prog.within_copy.2 ⟨.inl rfl, .inr rfl⟩
  rw [hostToDevice, Prog.exec_forEach_at (pairwise_transfer List.nodup_range) hw
    (List.mem_range.2 hi) (.inr rfl), Prog.exec_copy, Function.update_self]

theorem deviceToHost_host {i : Nat} (hi : i < n) :
    (deviceToHost n).exec M (host i) = M (dev i) := by
  have hw : ∀ x ∈ List.range n, (Prog.copy (dev x) (host x) : Prog Cell F32).Within (Pair x) :=
    fun _ _ => Prog.within_copy.2 ⟨.inr rfl, .inl rfl⟩
  rw [deviceToHost, Prog.exec_forEach_at (pairwise_transfer List.nodup_range) hw
    (List.mem_range.2 hi) (.inl rfl), Prog.exec_copy, Function.update_self]

/-- To the device and back, with nothing done there: the caller's array is as before. -/
theorem transfers_host (i : Int) :
    (deviceToHost n).exec ((hostToDevice n).exec M) (host i) = M (host i) := by
  have hup : (hostToDevice n).exec M (host i) = M (host i) := by
    refine Prog.exec_forEach_induction (I := fun m => m (host i) = M (host i)) ?_ rfl
    intro x _ m hm
    rwa [Prog.exec_copy, Function.update_of_ne (by simp)]
  refine (Prog.exec_forEach_induction (I := fun m => m (host i) = M (host i) ∧
    ∀ x < n, m (dev x) = M (host x)) ?_ ⟨hup, fun x hx => hostToDevice_dev hx⟩).1
  rintro x hx m ⟨hm, hdev⟩
  refine ⟨?_, fun y hy => ?_⟩
  · rw [Prog.exec_copy]
    by_cases e : i = x
    · subst e
      rw [Function.update_self, hdev x (List.mem_range.1 hx)]
    · rwa [Function.update_of_ne (by simpa using e)]
  · rw [Prog.exec_copy, Function.update_of_ne (by simp), hdev y hy]

/-- A device program leaves the caller's array alone. -/
theorem device_host (p : Prog Nat F32) (i : Int) : (p.map dev).exec M (host i) = M (host i) := by
  have hw : (p.map dev).Within (Set.range dev) :=
    (Prog.within_univ p).map fun a _ => Set.mem_range_self a
  exact Prog.exec_frame hw (by simp) M

/-- **Round trip**: copy `n` cells to the device, run `p` there, copy them back. -/
theorem roundTrip_data (p : Prog Nat F32) {S : Set Nat} (hp : p.Within S) (hS : ∀ a ∈ S, a < n)
    {i : Nat} (hi : i < n) :
    data ((deviceToHost n).exec ((p.map dev).exec ((hostToDevice n).exec M))) i =
      p.exec (data M) i := by
  have hdev : ∀ m : Mem Cell F32, (p.map dev).exec m (dev i) = p.exec (m ∘ dev) i := fun m =>
    congrFun (Prog.exec_map dev_injective p m) i
  rw [data, deviceToHost_host hi, hdev]
  have hw : p.Within {a | a < n} := hp.mono hS
  exact Prog.exec_congr hw (fun a ha => hostToDevice_dev ha) i hi

end Cell
