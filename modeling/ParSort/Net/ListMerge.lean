import Mathlib.Data.List.Basic
import Mathlib.Order.Lattice

/-!
# Merging two lists

Facts about `List.merge` that do not ask for sorted inputs: it keeps both lists as sublists, so its
output is sorted exactly when both are (`pairwise_merge_iff`); an element that bounds the other list
comes out after all of it (`merge_append_bound`, `concat_merge_bound`).
-/

namespace Net

variable {α κ : Type}

theorem merge_congr {le le' : α → α → Bool} {xs ys : List α}
    (h : ∀ x ∈ xs, ∀ y ∈ ys, le x y = le' x y) : xs.merge ys le = xs.merge ys le' := by
  induction xs generalizing ys with
  | nil => simp
  | cons x xs ihx =>
    induction ys with
    | nil => simp
    | cons y ys ihy =>
      rw [List.cons_merge_cons, List.cons_merge_cons, h x (.head _) y (.head _),
        ihx fun a ha => h a (.tail _ ha), ihy fun a ha b hb => h a ha b (.tail _ hb)]

theorem sublist_merge_left (le : α → α → Bool) (xs ys : List α) : xs.Sublist (xs.merge ys le) := by
  induction xs generalizing ys with
  | nil => exact List.nil_sublist _
  | cons x xs ihx =>
    induction ys with
    | nil => simp
    | cons y ys ihy =>
      rw [List.cons_merge_cons]
      split
      · exact (ihx _).cons_cons x
      · exact ihy.cons y

theorem sublist_merge_right (le : α → α → Bool) (xs ys : List α) :
    ys.Sublist (xs.merge ys le) := by
  induction xs generalizing ys with
  | nil => simp
  | cons x xs ihx =>
    induction ys with
    | nil => exact List.nil_sublist _
    | cons y ys ihy =>
      rw [List.cons_merge_cons]
      split
      · exact (ihx _).cons x
      · exact ihy.cons_cons y

/-- An element of the second list that no element of the first one exceeds comes out after all of
these, and what follows it comes out as it is. -/
theorem merge_append_bound {le : α → α → Bool} {xs : List α} {z : α} (ys zs : List α)
    (h : ∀ x ∈ xs, le x z = true) : xs.merge (ys ++ z :: zs) le = xs.merge ys le ++ z :: zs := by
  induction xs generalizing ys with
  | nil => simp
  | cons x xs ihx =>
    have ih := fun ys => ihx ys fun a ha => h a (.tail _ ha)
    induction ys with
    | nil =>
      have := ih []
      rw [List.nil_append, List.merge_right] at this
      rw [List.nil_append, List.cons_merge_cons_pos _ _ _ (h x (.head _)), this, List.merge_right]
      rfl
    | cons y ys ihy =>
      rw [List.cons_append, List.cons_merge_cons, List.cons_merge_cons]
      split
      · rw [← List.cons_append, ih (y :: ys)]
        rfl
      · rw [ihy]
        rfl

/-- A last element of the first list that every element of the second one falls short of comes out
last. -/
theorem concat_merge_bound {le : α → α → Bool} {ys : List α} {w : α} (xs : List α)
    (h : ∀ y ∈ ys, le w y = false) : (xs ++ [w]).merge ys le = xs.merge ys le ++ [w] := by
  induction ys generalizing xs with
  | nil => simp
  | cons y ys ihy =>
    have ih := fun xs => ihy xs fun a ha => h a (.tail _ ha)
    have hy : ¬le w y = true := by rw [h y (.head _)]; decide
    induction xs with
    | nil =>
      have := ih []
      rw [List.nil_append, List.nil_merge] at this
      rw [List.nil_append, List.cons_merge_cons_neg _ _ _ hy, this, List.nil_merge]
      rfl
    | cons x xs ihx =>
      rw [List.cons_append, List.cons_merge_cons, List.cons_merge_cons]
      split
      · rw [ihx]
        rfl
      · rw [← List.cons_append, ih (x :: xs)]
        rfl

/-- **A merge is sorted exactly when both lists are.** -/
theorem pairwise_merge_iff [LinearOrder κ] {key : α → κ} {le : α → α → Bool} {xs ys : List α}
    (hle : ∀ x ∈ xs, ∀ y ∈ ys, le x y = decide (key x ≤ key y)) :
    (xs.merge ys le).Pairwise (fun x y => key x ≤ key y) ↔
      xs.Pairwise (fun x y => key x ≤ key y) ∧ ys.Pairwise (fun x y => key x ≤ key y) := by
  constructor
  · intro h
    exact ⟨h.sublist (sublist_merge_left le xs ys), h.sublist (sublist_merge_right le xs ys)⟩
  · rintro ⟨hx, hy⟩
    rw [merge_congr hle]
    have hp : ∀ {l : List α}, l.Pairwise (fun x y => key x ≤ key y) ↔
        l.Pairwise fun x y => decide (key x ≤ key y) = true := fun {l} => by
      simp only [decide_eq_true_eq]
    rw [hp] at hx hy ⊢
    refine List.pairwise_merge (fun a b c hab hbc => ?_) (fun a b => ?_) _ _ hx hy
    · exact decide_eq_true (le_trans (of_decide_eq_true hab) (of_decide_eq_true hbc))
    · simpa using le_total (key a) (key b)

end Net
