import Mathlib.Data.Set.Insert
import ParSort.Conc.Proof.Race

/-!
# The accesses of a run

`Prog.Within` bounds what a program touches whatever its loads return. `accesses p m` is what the
runs of `p` from `m` do touch: the loads and stores that are next to happen at some point of some
interleaving. For a program without forks they are those of its parts, each from the memory it
starts in (`accesses_seq`).
-/

namespace Conc

/-- One access. -/
inductive Access (A : Type) where
  | load (a : A)
  | store (a : A)
  deriving DecidableEq, Repr

namespace Prog

variable {A V ι : Type}

/-- The accesses that the next step may make. -/
def next : Prog A V → Set (Access A)
  | done => ∅
  | load a _ => {.load a}
  | store a _ _ => {.store a}
  | par l r _ => l.next ∪ r.next

variable [DecidableEq A]

/-- The accesses of all runs of `p` from `m`. -/
def accesses (p : Prog A V) (m : Mem A V) : Set (Access A) :=
  {x | ∃ p' m', Steps p m p' m' ∧ x ∈ p'.next}

variable {m : Mem A V}

@[simp] theorem accesses_done : (done : Prog A V).accesses m = ∅ := by
  refine Set.eq_empty_of_forall_notMem fun x hx => ?_
  obtain ⟨p', m', hs, hx⟩ := hx
  cases hs with
  | refl => exact hx
  | head h _ => cases h

@[simp] theorem accesses_load (a : A) (k : V → Prog A V) :
    (load a k).accesses m = insert (.load a) ((k (m a)).accesses m) := by
  ext x
  constructor
  · rintro ⟨p', m', hs, hx⟩
    cases hs with
    | refl => exact .inl hx
    | head h hs =>
      cases h
      exact .inr ⟨p', m', hs, hx⟩
  · rintro (rfl | ⟨p', m', hs, hx⟩)
    · exact ⟨_, _, .refl, rfl⟩
    · exact ⟨p', m', .head .load hs, hx⟩

@[simp] theorem accesses_store (a : A) (v : V) (k : Prog A V) :
    (store a v k).accesses m = insert (.store a) (k.accesses (Function.update m a v)) := by
  ext x
  constructor
  · rintro ⟨p', m', hs, hx⟩
    cases hs with
    | refl => exact .inl hx
    | head h hs =>
      cases h
      exact .inr ⟨p', m', hs, hx⟩
  · rintro (rfl | ⟨p', m', hs, hx⟩)
    · exact ⟨_, _, .refl, rfl⟩
    · exact ⟨p', m', .head .store hs, hx⟩

theorem accesses_seq {p : Prog A V} (hp : p.Serial) (q : Prog A V) :
    (p.seq q).accesses m = p.accesses m ∪ q.accesses (p.exec m) := by
  induction p generalizing m with
  | done => simp [seq]
  | load a k ih => simp only [seq, accesses_load, ih _ (hp _), exec, Set.insert_union]
  | store a v k ih => simp only [seq, accesses_store, ih hp, exec, Set.insert_union]
  | par l r k _ _ _ => exact hp.elim

@[simp] theorem accesses_copy (a b : A) :
    (copy a b : Prog A V).accesses m = {.load a, .store b} := by
  rw [copy, accesses_load, accesses_store, accesses_done, insert_empty_eq]

/-- A loop whose iterations make the same accesses in every memory. -/
theorem accesses_forEach {l : List ι} {body : ι → Prog A V} {S : ι → Set (Access A)}
    (hs : ∀ x ∈ l, (body x).Serial) (h : ∀ x ∈ l, ∀ m, (body x).accesses m = S x) :
    (forEach l body).accesses m = {a | ∃ x ∈ l, a ∈ S x} := by
  induction l generalizing m with
  | nil => simp
  | cons x l ih =>
    rw [forEach_cons, accesses_seq (hs x (.head _)), h x (.head _),
      ih (fun y hy => hs y (.tail _ hy)) fun y hy => h y (.tail _ hy)]
    ext a
    simp

/-- A run stays in the footprint of its program. -/
theorem Within.accesses {S : Set A} {p : Prog A V} (h : p.Within S) :
    ∀ x ∈ p.accesses m, ∃ a ∈ S, x = .load a ∨ x = .store a := by
  rintro x ⟨p', m', hs, hx⟩
  have hw : p'.Within S := by
    clear hx
    induction hs with
    | refl => exact h
    | head hstep _ ih => exact ih (hstep.within h)
  clear hs
  induction p' with
  | done => exact hx.elim
  | load a k _ => exact ⟨a, hw.1, .inl hx⟩
  | store a v k _ => exact ⟨a, hw.1, .inr hx⟩
  | par l r k ihl ihr _ =>
    cases hx with
    | inl hx => exact ihl hx hw.1
    | inr hx => exact ihr hx hw.2.1

end Prog

end Conc
