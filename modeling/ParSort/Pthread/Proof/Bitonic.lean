import ParSort.Conc.Proof.Race
import ParSort.Pthread.Proof.Merge

/-!
# `merge` and `BM` as procedures of their own

`BM` ends in the array `merge` ends in, whatever its layer (`BM_leaves_merge`). On `2 ^ t` NaN-free
cells some rotation of which ascends and then descends, both sort in their direction
(`bitonicMerge_sorts`): the values below any bound fill a cyclic interval of positions, and these
keep their cyclic order under a rotation.
-/

namespace Pthread

open Conc Net

/-- **`BM` is `merge`**, on any array, for any length, direction and layer. -/
theorem BM_leaves_merge (lo cnt : Nat) (dir layer : Int) (m : Mem Nat F32) :
    ∃ m', (merge lo cnt dir).Always (fun m₁ => m₁ = m') m ∧
      (BM { lo, cnt, dir, layer }).Always (fun m₁ => m₁ = m') m := by
  have hmerge : (merge lo cnt dir).Always (fun m₁ => m₁ = (merge lo cnt dir).exec m) m :=
    Prog.always_of_raceFree (merge_serial lo cnt dir).raceFree rfl
  refine ⟨(merge lo cnt dir).exec m, hmerge, ?_⟩
  rw [BM_eq_merge]
  exact hmerge

/-- Some rotation of the slice ascends up to a position `p` and descends from there on. -/
def CyclicBitonic (m : Mem Nat F32) (lo cnt : Nat) : Prop :=
  ∃ r p, (∀ x y, x < y → y < p → y < cnt →
      F32.le (m (lo + (r + x) % cnt)) (m (lo + (r + y) % cnt)) = true) ∧
    ∀ x y, p ≤ x → x < y → y < cnt →
      F32.le (m (lo + (r + y) % cnt)) (m (lo + (r + x) % cnt)) = true

/-- Every run of `p` leaves the slice sorted in a direction and every other cell alone. -/
def SortsSlice (ascending : Bool) (p : Prog Nat F32) (lo cnt : Nat) (m : Mem Nat F32) : Prop :=
  p.Always (fun m' => SortedIn ascending m' lo cnt ∧ (slice m' lo cnt).Perm (slice m lo cnt) ∧
    ∀ i, i ∉ Set.Ico lo (lo + cnt) → m' i = m i) m

theorem CyclicBitonic.bitonicBlock {m : Mem Nat F32} {lo cnt : Nat} (hb : CyclicBitonic m lo cnt)
    (hm : NaNFree m lo cnt) (d : Bool) : BitonicBlock (F32.dirKey d) m lo cnt := by
  obtain ⟨r, p, hup, hdown⟩ := hb
  have hnum : ∀ x < cnt, (m (lo + (r + x) % cnt)).IsNum := fun x hx => by
    have := Nat.mod_lt (r + x) (show 0 < cnt by omega)
    exact hm _ ⟨by omega, by omega⟩
  have hkey : Bitonic cnt fun x => (m (lo + x)).key := by
    refine Bitonic.of_rotate r (bitonic_of_peak p ?_ ?_)
    · intro x y hxy hyp hy
      rcases Nat.eq_or_lt_of_le hxy with rfl | hlt
      · exact le_refl _
      · exact (F32.le_iff (hnum x (by omega)) (hnum y hy)).1 (hup x y hlt hyp hy)
    · intro x y hpx hxy hy
      rcases Nat.eq_or_lt_of_le hxy with rfl | hlt
      · exact le_refl _
      · exact (F32.le_iff (hnum y hy) (hnum x (by omega))).1 (hdown x y hpx hlt hy)
  cases d with
  | true => exact hkey
  | false => exact hkey.neg

theorem merge_sortsSlice {m : Mem Nat F32} {lo t : Nat} (hm : NaNFree m lo (2 ^ t))
    (hb : CyclicBitonic m lo (2 ^ t)) (d : Bool) :
    SortsSlice d (merge lo (2 ^ t) (dirOf d)) lo (2 ^ t) m := by
  refine Prog.always_of_raceFree (merge_serial _ _ _).raceFree ?_
  have hr : Rearranges (Set.Ico lo (lo + 2 ^ t)) m ((merge lo (2 ^ t) (dirOf d)).exec m) :=
    (merge_rearranges lo (2 ^ t) (dirOf d) m).mono
      (Set.Ico_subset_Ico (Nat.le_refl lo) (by omega))
  refine ⟨?_, hr.slice_perm rfl, fun i hi => hr.frame hi⟩
  rw [sortedIn_iff_ascending (hr.forall hm)]
  exact (merge_merges d hm).ascending (hb.bitonicBlock hm d)

/-- **`BM` and `merge` sort a cyclically bitonic slice** of `2 ^ t` NaN-free cells in their
direction and leave the rest of the array alone. -/
theorem bitonicMerge_sorts (t lo : Nat) (ascending : Bool) (layer : Int) (m : Mem Nat F32)
    (hm : NaNFree m lo (2 ^ t)) (hb : CyclicBitonic m lo (2 ^ t)) :
    SortsSlice ascending (BM ⟨lo, 2 ^ t, dirOf ascending, layer⟩) lo (2 ^ t) m ∧
      SortsSlice ascending (merge lo (2 ^ t) (dirOf ascending)) lo (2 ^ t) m := by
  rw [BM_eq_merge]
  exact ⟨merge_sortsSlice hm hb ascending, merge_sortsSlice hm hb ascending⟩

/-- The slice `3, 1, 2, 4`: rotated by one it ascends to `4` and then descends. -/
def rotatedSlice : Mem Nat F32 := fun i => ⟨[3, 1, 2, 4].getD i 0⟩

theorem bitonicMerge_sorts_rotated :
    SortsSlice false (BM ⟨0, 2 ^ 2, dirOf false, 1⟩) 0 (2 ^ 2) rotatedSlice ∧
      SortsSlice false (merge 0 (2 ^ 2) (dirOf false)) 0 (2 ^ 2) rotatedSlice := by
  have hnum : ∀ i < 4, (rotatedSlice i).isNaN = false := by decide
  have hup : ∀ y < 4, ∀ x < y, y < 3 → F32.le (rotatedSlice (0 + (1 + x) % 4))
      (rotatedSlice (0 + (1 + y) % 4)) = true := by decide
  have hdown : ∀ y < 4, ∀ x < y, 3 ≤ x → F32.le (rotatedSlice (0 + (1 + y) % 4))
      (rotatedSlice (0 + (1 + x) % 4)) = true := by decide
  exact bitonicMerge_sorts 2 0 false 1 rotatedSlice (fun i hi => hnum i (by simpa using hi.2))
    ⟨1, 3, fun x y hxy hy3 hy => hup y hy x hxy hy3, fun x y hx hxy hy => hdown y hy x hxy hx⟩

end Pthread
