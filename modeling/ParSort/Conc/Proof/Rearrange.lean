import ParSort.Conc.Proof.Basic
import Mathlib.Data.List.Nodup
import Mathlib.Order.Interval.Set.Basic

/-!
# Rearranged memories

`Rearranges S m m'` composes and widens, an exchange of two cells of `S` is one, and on an interval
of `Nat` addresses it is a permutation of the slice (`Rearranges.slice_perm`).
-/

namespace Conc

section
variable {A V ι : Type} {S T : Set A} {m m' m'' : Mem A V}

theorem Rearranges.refl (S : Set A) (m : Mem A V) : Rearranges S m m :=
  ⟨Equiv.refl A, fun _ _ => rfl, rfl⟩

theorem Rearranges.trans (h : Rearranges S m m') (h' : Rearranges S m' m'') :
    Rearranges S m m'' := by
  obtain ⟨σ, hσ, rfl⟩ := h
  obtain ⟨τ, hτ, rfl⟩ := h'
  refine ⟨τ.trans σ, fun a ha => ?_, rfl⟩
  rw [Equiv.trans_apply, hτ a ha, hσ a ha]

theorem Rearranges.mono (h : Rearranges S m m') (hST : S ⊆ T) : Rearranges T m m' := by
  obtain ⟨σ, hσ, rfl⟩ := h
  exact ⟨σ, fun a ha => hσ a fun h => ha (hST h), rfl⟩

theorem Rearranges.swap [DecidableEq A] {a b : A} (ha : a ∈ S) (hb : b ∈ S) (m : Mem A V) :
    Rearranges S m (m ∘ Equiv.swap a b) :=
  ⟨Equiv.swap a b, fun _ hx => Equiv.swap_apply_of_ne_of_ne (fun e => hx (e ▸ ha))
    (fun e => hx (e ▸ hb)), rfl⟩

theorem Rearranges.frame (h : Rearranges S m m') {a : A} (ha : a ∉ S) : m' a = m a := by
  obtain ⟨σ, hσ, rfl⟩ := h
  exact congrArg m (hσ a ha)

theorem perm_mem_of_fixes {σ : Equiv.Perm A} (hσ : ∀ a, a ∉ S → σ a = a) {a : A} :
    σ a ∈ S ↔ a ∈ S := by
  constructor
  · intro h
    by_contra ha
    exact ha (hσ a ha ▸ h)
  · intro h
    by_contra ha
    exact ha ((σ.injective (hσ _ ha)).symm ▸ h)

/-- Every value in the rearranged cells was in one of them before. -/
theorem Rearranges.exists_eq (h : Rearranges S m m') {a : A} (ha : a ∈ S) :
    ∃ b ∈ S, m' a = m b := by
  obtain ⟨σ, hσ, rfl⟩ := h
  exact ⟨σ a, (perm_mem_of_fixes hσ).2 ha, rfl⟩

theorem Rearranges.forall {P : V → Prop} (h : Rearranges S m m') (hm : ∀ a ∈ S, P (m a)) :
    ∀ a ∈ S, P (m' a) := by
  intro a ha
  obtain ⟨b, hb, e⟩ := h.exists_eq ha
  exact e ▸ hm b hb

/-- Only the rearranged cells count for what is in them. -/
theorem Rearranges.transfer (h : Rearranges S m' m'') (hm : ∀ a ∈ S, m' a = m a) :
    ∃ l, Rearranges S m l ∧ ∀ a ∈ S, m'' a = l a := by
  obtain ⟨σ, hσ, rfl⟩ := h
  exact ⟨m ∘ σ, ⟨σ, hσ, rfl⟩, fun a ha => hm _ ((perm_mem_of_fixes hσ).2 ha)⟩

/-- A property that one of the rearranged cells has holds for one cell afterwards, too. -/
theorem Rearranges.existsUnique_iff {P : V → Prop} (h : Rearranges S m m') :
    (∃! a, a ∈ S ∧ P (m' a)) ↔ ∃! a, a ∈ S ∧ P (m a) := by
  obtain ⟨σ, hσ, rfl⟩ := h
  have hσS : ∀ a, a ∈ S ∧ P ((m ∘ σ) a) ↔ σ a ∈ S ∧ P (m (σ a)) := fun a => by
    rw [perm_mem_of_fixes hσ, Function.comp_apply]
  simp only [hσS]
  exact (σ.bijective.existsUnique_iff (p := fun a => a ∈ S ∧ P (m a))).symm

theorem Rearranges.forall_iff {P : V → Prop} (h : Rearranges S m m') :
    (∀ a ∈ S, P (m' a)) ↔ ∀ a ∈ S, P (m a) := by
  obtain ⟨σ, hσ, rfl⟩ := h
  have hσS : ∀ a, (a ∈ S → P ((m ∘ σ) a)) ↔ (σ a ∈ S → P (m (σ a))) := fun a => by
    rw [perm_mem_of_fixes hσ, Function.comp_apply]
  simp only [hσS]
  exact (σ.surjective.forall (p := fun a => a ∈ S → P (m a))).symm

theorem rearranges_swapIf [DecidableEq A] {a b : A} (ha : a ∈ S) (hb : b ∈ S)
    (c : V → V → Bool) (m : Mem A V) : Rearranges S m ((Prog.swapIf c a b).exec m) := by
  rw [Prog.exec_swapIf]
  split
  · exact .swap ha hb m
  · exact .refl S m

/-- A loop of rearrangements is one. -/
theorem rearranges_forEach [DecidableEq A] {l : List ι} {body : ι → Prog A V}
    (h : ∀ x ∈ l, ∀ m, Rearranges S m ((body x).exec m)) (m : Mem A V) :
    Rearranges S m ((Prog.forEach l body).exec m) := by
  induction l generalizing m with
  | nil => exact .refl S m
  | cons x l ih =>
    rw [Prog.forEach_cons, Prog.exec_seq]
    exact (h x (.head _) m).trans (ih (fun y hy => h y (.tail _ hy)) _)

end

/-! ## Slices -/

variable {V : Type} {m m' : Mem Nat V} {lo cnt : Nat}

@[simp] theorem slice_length : (slice m lo cnt).length = cnt := by simp [slice]

theorem mem_slice {v : V} : v ∈ slice m lo cnt ↔ ∃ i ∈ Set.Ico lo (lo + cnt), m i = v := by
  simp [slice, List.mem_range'_1, and_assoc]

/-- What holds of all values of a slice holds of them in any order. -/
theorem forall_of_slice_perm {P : V → Prop} (h : (slice m' lo cnt).Perm (slice m lo cnt))
    (hm : ∀ i ∈ Set.Ico lo (lo + cnt), P (m i)) : ∀ i ∈ Set.Ico lo (lo + cnt), P (m' i) := by
  intro i hi
  obtain ⟨j, hj, e⟩ := mem_slice.1 (h.mem_iff.1 (mem_slice.2 ⟨i, hi, rfl⟩))
  exact e ▸ hm j hj

theorem slice_append {cnt' : Nat} :
    slice m lo (cnt + cnt') = slice m lo cnt ++ slice m (lo + cnt) cnt' := by
  rw [slice, slice, slice, ← List.map_append, List.range'_append_1]

theorem slice_congr (h : ∀ i ∈ Set.Ico lo (lo + cnt), m i = m' i) :
    slice m lo cnt = slice m' lo cnt :=
  List.map_congr_left fun i hi => h i (by simpa [List.mem_range'_1] using hi)

theorem slice_getElem {i : Nat} (hi : i < (slice m lo cnt).length) :
    (slice m lo cnt)[i] = m (lo + i) := by
  simp [slice]

theorem slice_pairwise {R : V → V → Prop} : (slice m lo cnt).Pairwise R ↔
    ∀ i j, lo ≤ i → i < j → j < lo + cnt → R (m i) (m j) := by
  rw [List.pairwise_iff_getElem]
  simp only [slice_length, slice_getElem]
  constructor
  · intro h i j hi hij hj
    have := h (i - lo) (j - lo) (by omega) (by omega) (by omega)
    rwa [show lo + (i - lo) = i by omega, show lo + (j - lo) = j by omega] at this
  · intro h i j hi hj hij
    exact h _ _ (by omega) (by omega) (by omega)

theorem Rearranges.slice_perm {hi : Nat} (h : Rearranges (Set.Ico lo hi) m m')
    (hhi : hi = lo + cnt) : (slice m' lo cnt).Perm (slice m lo cnt) := by
  subst hhi
  obtain ⟨σ, hσ, rfl⟩ := h
  rw [slice, slice, ← List.map_map]
  have hmem : ∀ x, x ∈ List.range' lo cnt ↔ x ∈ Set.Ico lo (lo + cnt) := fun x => by
    simp [List.mem_range'_1]
  refine List.Perm.map m ((List.perm_ext_iff_of_nodup ?_ List.nodup_range').2 fun x => ?_)
  · exact (List.nodup_map_iff σ.injective).2 List.nodup_range'
  · rw [List.mem_map, hmem]
    constructor
    · rintro ⟨y, hy, rfl⟩
      exact (perm_mem_of_fixes hσ).2 ((hmem y).1 hy)
    · intro hx
      refine ⟨σ.symm x, (hmem _).2 ((perm_mem_of_fixes hσ).1 ?_), σ.apply_symm_apply x⟩
      rwa [σ.apply_symm_apply]

end Conc
