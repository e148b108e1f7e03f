import ParSort.Conc.Proof.Rearrange
import ParSort.Fpga.Def
import ParSort.Net.ListMerge

/-!
# `merge_s`

Each loop of `merge_s` appends the elements it reads to `temp`, so a branch leaves there the merge
of the two lists its indices run through, and copies it back up to `right`: `mergeS_host` gives the
array after `merge_s` as a list function of the two runs before it, `mergeOut`. That is the merge of
the runs, each in the direction its first two elements tell, if the one element that may be read
twice comes out last (`mergeS_merges`).
-/

namespace Fpga

open Conc

/-! ## What an index reads -/

namespace Cursor

/-- The index `d` iterations after `iter`. -/
def index : Cursor → Int → Nat → Int
  | up _, iter, d => iter + d
  | down _, iter, d => iter - d

/-- The elements a loop over `c` reads from `iter` on. -/
def reads (M : Mem Cell F32) (c : Cursor) (iter : Int) : List F32 :=
  (List.range (c.left iter)).map fun d => M (.host (c.index iter d))

variable {M M' : Mem Cell F32} {c : Cursor} {iter : Int}

theorem live_iff : c.Live iter ↔ c.left iter ≠ 0 := by
  cases c <;> simp only [Live, left] <;> omega

theorem left_of_not_live (h : ¬c.Live iter) : c.left iter = 0 := not_not.1 (mt live_iff.2 h)

theorem reads_of_live (h : c.Live iter) :
    c.reads M iter = M (.host iter) :: c.reads M (c.next iter) := by
  rw [reads, left_next h, List.range_succ_eq_map, List.map_cons, List.map_map, reads]
  congr 1
  · cases c <;> simp [index]
  · refine List.map_congr_left fun d _ => ?_
    cases c <;> simp only [index, next, Function.comp_apply, Nat.cast_succ] <;> congr 2 <;> omega

theorem reads_of_not_live (h : ¬c.Live iter) : c.reads M iter = [] := by
  rw [reads, left_of_not_live h]
  rfl

theorem reads_congr (h : ∀ i, M (.host i) = M' (.host i)) (c : Cursor) (iter : Int) :
    c.reads M iter = c.reads M' iter :=
  List.map_congr_left fun _ _ => h _

@[simp] theorem reads_length (M : Mem Cell F32) (c : Cursor) (iter : Int) :
    (c.reads M iter).length = c.left iter := by simp [reads]

theorem reads_down (M : Mem Cell F32) (first last : Int) :
    (down first).reads M last = ((up last).reads M first).reverse := by
  refine List.ext_getElem (by simp only [reads_length, List.length_reverse, left]) fun d h1 h2 => ?_
  simp only [reads_length, left] at h1
  simp only [reads, index, left, List.getElem_map, List.getElem_range, List.getElem_reverse,
    List.length_map, List.length_range]
  congr 2
  omega

/-- An index that runs down one step further. -/
theorem reads_down_extra (M : Mem Cell F32) {first last : Int} (h : first ≤ last) :
    (down first).reads M last = (down (first + 1)).reads M last ++ [M (.host first)] := by
  have hl : (down first).left last = (down (first + 1)).left last + 1 := by
    simp only [left]
    omega
  rw [reads, hl, List.range_succ, List.map_append, List.map_singleton, reads]
  congr 4
  simp only [index, left]
  omega

end Cursor

/-! ## The temporary array -/

/-- The memory after the elements of a list went to `temp`, from index `t` on. -/
def putTemp (M : Mem Cell F32) (t : Int) : List F32 → Mem Cell F32
  | [] => M
  | x :: l => putTemp (Function.update M (.temp t) x) (t + 1) l

theorem putTemp_append (M : Mem Cell F32) (t : Int) (l l' : List F32) :
    putTemp M t (l ++ l') = putTemp (putTemp M t l) (t + l.length) l' := by
  induction l generalizing M t with
  | nil => simp [putTemp]
  | cons x l ih =>
    rw [List.cons_append, putTemp, ih, putTemp, List.length_cons, Nat.cast_succ]
    congr 1
    omega

@[simp] theorem putTemp_host (M : Mem Cell F32) (t : Int) (l : List F32) (i : Int) :
    putTemp M t l (.host i) = M (.host i) := by
  induction l generalizing M t with
  | nil => rfl
  | cons x l ih => rw [putTemp, ih, Function.update_of_ne (by simp)]

theorem putTemp_temp_of_lt (M : Mem Cell F32) (t : Int) (l : List F32) {i : Int} (hi : i < t) :
    putTemp M t l (.temp i) = M (.temp i) := by
  induction l generalizing M t with
  | nil => rfl
  | cons x l ih =>
    rw [putTemp, ih _ _ (by omega), Function.update_of_ne]
    simp only [ne_eq, Cell.temp.injEq]
    omega

theorem putTemp_temp (M : Mem Cell F32) (t : Int) (l : List F32) {d : Nat} (hd : d < l.length) :
    putTemp M t l (.temp (t + d)) = l[d] := by
  induction l generalizing M t d with
  | nil => exact absurd hd (by simp)
  | cons x l ih =>
    rw [putTemp]
    cases d with
    | zero =>
      rw [putTemp_temp_of_lt _ _ _ (by simp)]
      simp
    | succ d =>
      have := ih (Function.update M (.temp t) x) (t + 1) (d := d) (by simpa using hd)
      rw [show t + (d + 1 : Nat) = t + 1 + d by omega, this]
      rfl

/-! ## The loops -/

section
variable (M : Mem Cell F32) (t : Int)

theorem exec_copy_temp (p : Prog Cell F32) (iter : Int) :
    ((Prog.copy (.host iter) (.temp t)).seq p).exec M = p.exec (putTemp M t [M (.host iter)]) := by
  rw [Prog.exec_seq, Prog.exec_copy]
  rfl

theorem drainWhile_exec (c : Cursor) (iter : Int) (rest : Int → Prog Cell F32) :
    (drainWhile c iter t rest).exec M =
      (rest (t + (c.reads M iter).length)).exec (putTemp M t (c.reads M iter)) := by
  induction hn : c.left iter generalizing iter M t with
  | zero =>
    have hlive : ¬c.Live iter := fun h => Cursor.live_iff.1 h hn
    rw [drainWhile, dif_neg hlive, Cursor.reads_of_not_live hlive]
    simp [putTemp]
  | succ n ih =>
    have hlive : c.Live iter := Cursor.live_iff.2 (by omega)
    rw [drainWhile, dif_pos hlive, exec_copy_temp,
      ih _ _ (c.next iter) (by have := Cursor.left_next hlive; omega),
      Cursor.reads_congr (putTemp_host M t _), Cursor.reads_of_live hlive]
    rw [List.length_cons, Nat.cast_succ, putTemp, putTemp, putTemp]
    congr 2
    omega

/-- **The loop over both runs and what is left of either**: `temp` receives their merge. The last
loop may run `extra` elements past the second run. -/
theorem mergeWhile_exec {c₁ c₂ d₂ : Cursor} (iter1 iter2 : Int) (q : Prog Cell F32)
    {extra : List F32} (hnext : d₂.next = c₂.next)
    (hextra : d₂.reads M iter2 = c₂.reads M iter2 ++ extra) :
    (mergeWhile c₁ c₂ iter1 iter2 t fun iter1 iter2 tempIter =>
        drainWhile c₁ iter1 tempIter fun tempIter =>
          drainWhile d₂ iter2 tempIter fun _ => q).exec M =
      q.exec (putTemp M t ((c₁.reads M iter1).merge (c₂.reads M iter2) F32.le ++ extra)) := by
  induction hn : c₁.left iter1 + c₂.left iter2 using Nat.strong_induction_on
    generalizing iter1 iter2 M t with
  | _ n ih =>
    subst hn
    by_cases hlive : c₁.Live iter1 ∧ c₂.Live iter2
    · obtain ⟨h1, h2⟩ := hlive
      have hl1 := Cursor.left_next h1
      have hl2 := Cursor.left_next h2
      have hr1 := Cursor.reads_of_live (M := M) h1
      have hr2 := Cursor.reads_of_live (M := M) h2
      rw [mergeWhile, dif_pos ⟨h1, h2⟩]
      simp only [Prog.exec]
      rw [hr1, hr2]
      have hcongr : ∀ x (c : Cursor) iter,
          c.reads (putTemp M t [x]) iter = c.reads M iter :=
        fun x c iter => Cursor.reads_congr (putTemp_host M t [x]) c iter
      split
      next hle =>
        rw [exec_copy_temp, ih _ (by omega) _ _ (c₁.next iter1) iter2
          (by rw [hcongr, hcongr, hextra]) rfl, List.cons_merge_cons_pos _ _ _ hle, hcongr, hcongr,
          hr2]
        rfl
      next hle =>
        -- the second run moves: its tail carries the same `extra`
        have hd2 : d₂.Live iter2 := by
          by_contra hd
          rw [Cursor.reads_of_not_live hd, hr2] at hextra
          cases hextra
        rw [Cursor.reads_of_live hd2, hr2, hnext] at hextra
        rw [exec_copy_temp, ih _ (by omega) _ _ iter1 (c₂.next iter2)
          (by rw [hcongr, hcongr]; exact (List.cons.inj hextra).2) rfl,
          List.cons_merge_cons_neg _ _ _ hle, hcongr, hcongr, hr1]
        rfl
    · rw [mergeWhile, dif_neg hlive, drainWhile_exec, drainWhile_exec,
        Cursor.reads_congr (putTemp_host M t _), ← putTemp_append, hextra]
      congr 2
      -- one of the runs is used up
      by_cases h1 : c₁.Live iter1
      · have h2 : ¬c₂.Live iter2 := fun h2 => hlive ⟨h1, h2⟩
        rw [Cursor.reads_of_not_live h2]
        simp
      · rw [Cursor.reads_of_not_live h1]
        simp

theorem mergeBranch_exec {c₁ c₂ d₂ : Cursor} {left right iter1 iter2 : Int} {extra : List F32}
    (hnext : d₂.next = c₂.next) (hextra : d₂.reads M iter2 = c₂.reads M iter2 ++ extra) :
    (mergeBranch left right c₁ c₂ c₁ d₂ iter1 iter2).exec M = (copyBack left right).exec
      (putTemp M 0 ((c₁.reads M iter1).merge (c₂.reads M iter2) F32.le ++ extra)) :=
  mergeWhile_exec M 0 iter1 iter2 _ hnext hextra

end

/-! ## The four branches -/

/-- The branch of `merge_s` for the directions of its runs. -/
def branch (left middle right : Int) : Bool → Bool → Prog Cell F32
  | true, true =>
    mergeBranch left right (.up middle) (.up right) (.up middle) (.up right) left (middle + 1)
  | true, false =>
    mergeBranch left right (.up middle) (.down (middle + 1)) (.up middle) (.down middle) left right
  | false, true =>
    mergeBranch left right (.down left) (.up right) (.down left) (.up right) middle (middle + 1)
  | false, false =>
    mergeBranch left right (.down left) (.down middle) (.down left) (.down middle) middle right

theorem mergeS_eq (left middle right : Int) : mergeS left middle right =
    .load (.host left) fun x₁ => .load (.host (left + 1)) fun y₁ =>
      .load (.host (middle + 1)) fun x₂ => .load (.host (middle + 1 + 1)) fun y₂ =>
        branch left middle right (F32.lt x₁ y₁) (F32.lt x₂ y₂) := by
  unfold mergeS
  congr 1; funext x₁
  congr 1; funext y₁
  congr 1; funext x₂
  congr 1; funext y₂
  cases F32.lt x₁ y₁ <;> cases F32.lt x₂ y₂ <;> rfl

/-! ## No fork -/

theorem drainWhile_serial (c : Cursor) (iter tempIter : Int) {rest : Int → Prog Cell F32}
    (h : ∀ t, (rest t).Serial) : (drainWhile c iter tempIter rest).Serial := by
  fun_induction drainWhile c iter tempIter rest with
  | case1 iter t _ ih => exact (Prog.serial_copy _ _).seq ih
  | case2 iter t => exact h t

theorem mergeWhile_serial (c₁ c₂ : Cursor) (iter1 iter2 tempIter : Int)
    {rest : Int → Int → Int → Prog Cell F32} (h : ∀ i j t, (rest i j t).Serial) :
    (mergeWhile c₁ c₂ iter1 iter2 tempIter rest).Serial := by
  induction hn : c₁.left iter1 + c₂.left iter2 using Nat.strong_induction_on
    generalizing iter1 iter2 tempIter with
  | _ n ih =>
    rw [mergeWhile]
    split
    next hlive =>
      have h1 := Cursor.left_next hlive.1
      have h2 := Cursor.left_next hlive.2
      intro x y
      dsimp only
      split
      · exact (Prog.serial_copy _ _).seq (ih _ (by omega) _ _ _ rfl)
      · exact (Prog.serial_copy _ _).seq (ih _ (by omega) _ _ _ rfl)
    next => exact h _ _ _

theorem mergeBranch_serial (left right : Int) (c₁ c₂ d₁ d₂ : Cursor) (iter1 iter2 : Int) :
    (mergeBranch left right c₁ c₂ d₁ d₂ iter1 iter2).Serial :=
  mergeWhile_serial _ _ _ _ _ fun _ _ _ => drainWhile_serial _ _ _ fun _ =>
    drainWhile_serial _ _ _ fun _ => Prog.serial_forEach fun _ _ => Prog.serial_copy _ _

theorem branch_serial (left middle right : Int) (i j : Bool) :
    (branch left middle right i j).Serial := by
  cases i <;> cases j <;> exact mergeBranch_serial _ _ _ _ _ _ _ _

theorem mergeS_serial (left middle right : Int) : (mergeS left middle right).Serial := by
  rw [mergeS_eq]
  exact fun _ _ _ _ => branch_serial _ _ _ _ _

/-! ## The copy back -/

section
variable {M : Mem Cell F32} {left right : Int}

theorem copyBack_within (left right : Int) : ∀ d ∈ List.range (right - left + 1).toNat,
    (Prog.copy (.temp (left + d - left)) (.host (left + d)) : Prog Cell F32).Within
      {.temp (left + d - left), .host (left + d)} :=
  fun _ _ => Prog.within_copy.2 ⟨.inl rfl, .inr rfl⟩

theorem copyBack_host {d : Nat} (hd : left + d ≤ right) :
    (copyBack left right).exec M (.host (left + d)) = M (.temp d) := by
  have hdisj : (List.range (right - left + 1).toNat).Pairwise fun i j : Nat =>
      Disjoint ({.temp (left + i - left), .host (left + i)} : Set Cell)
        {.temp (left + j - left), .host (left + j)} := by
    refine List.nodup_range.imp fun {i j} hij => ?_
    rw [Set.disjoint_left]
    rintro c (rfl | rfl) (h | h)
    · simp only [Cell.temp.injEq] at h
      omega
    · exact nomatch h
    · exact nomatch h
    · simp only [Set.mem_singleton_iff, Cell.host.injEq] at h
      omega
  rw [copyBack, Prog.exec_forEach_at hdisj (copyBack_within left right)
    (List.mem_range.2 (by omega)) (.inr rfl), Prog.exec_copy, Function.update_self]
  congr 2
  omega

theorem copyBack_frame {i : Int} (hi : i < left ∨ right < i) :
    (copyBack left right).exec M (.host i) = M (.host i) := by
  refine Prog.exec_forEach_frame (copyBack_within left right) (fun d hd h => ?_) M
  rw [List.mem_range] at hd
  rcases h with h | h
  · exact nomatch h
  · simp only [Set.mem_singleton_iff, Cell.host.injEq] at h
    omega

end

/-! ## The whole function -/

/-- A run in the order its index moves. -/
def towards (increment : Bool) (run : List F32) : List F32 :=
  if increment then run else run.reverse

/-- What `merge_s` leaves in `temp`, of the runs `u` and `v` and the last element `z` of `u`: the
two branches whose last loop runs down to `middle` read `z` once more, the last one already in its
first loop. -/
def mergeOut (u v : List F32) (z : F32) : Bool → Bool → List F32
  | false, false => u.reverse.merge (v.reverse ++ [z]) F32.le
  | true, false => u.merge v.reverse F32.le ++ [z]
  | false, true => u.reverse.merge v F32.le
  | true, true => u.merge v F32.le

section
variable (M : Mem Cell F32) {left middle right : Int}

theorem mergeS_exec (hr : middle < right) : (mergeS left middle right).exec M =
    (copyBack left right).exec (putTemp M 0 (mergeOut
      ((Cursor.up middle).reads M left) ((Cursor.up right).reads M (middle + 1)) (M (.host middle))
      (F32.lt (M (.host left)) (M (.host (left + 1))))
      (F32.lt (M (.host (middle + 1))) (M (.host (middle + 1 + 1)))))) := by
  have hdown : (Cursor.down middle).reads M right =
      ((Cursor.up right).reads M (middle + 1)).reverse ++ [M (.host middle)] := by
    rw [Cursor.reads_down_extra M hr.le, Cursor.reads_down]
  have hnil : ∀ c iter, Cursor.reads M c iter = c.reads M iter ++ [] := fun c iter =>
    (List.append_nil _).symm
  simp only [mergeS_eq, Prog.exec]
  cases F32.lt (M (.host left)) (M (.host (left + 1))) <;>
    cases F32.lt (M (.host (middle + 1))) (M (.host (middle + 1 + 1))) <;>
    simp only [branch, mergeOut]
  · rw [mergeBranch_exec M rfl (hnil _ _), List.append_nil, Cursor.reads_down, hdown]
  · rw [mergeBranch_exec M rfl (hnil _ _), List.append_nil, Cursor.reads_down]
  · have hnext : (Cursor.down middle).next = (Cursor.down (middle + 1)).next := rfl
    rw [mergeBranch_exec M hnext (Cursor.reads_down_extra M hr.le), Cursor.reads_down]
  · rw [mergeBranch_exec M rfl (hnil _ _), List.append_nil]

theorem mergeOut_length (u v : List F32) (z : F32) (i j : Bool) :
    u.length + v.length ≤ (mergeOut u v z i j).length := by
  cases i <;> cases j <;> simp [mergeOut]

/-- **`merge_s` on any array**: the cells `left, …, right` receive the first elements of
`mergeOut`. -/
theorem mergeS_host (hl : left ≤ middle) (hr : middle < right) :
    (Cursor.up right).reads ((mergeS left middle right).exec M) left = (mergeOut
      ((Cursor.up middle).reads M left) ((Cursor.up right).reads M (middle + 1)) (M (.host middle))
      (F32.lt (M (.host left)) (M (.host (left + 1))))
      (F32.lt (M (.host (middle + 1))) (M (.host (middle + 1 + 1))))).take
        (right + 1 - left).toNat := by
  rw [mergeS_exec M hr]
  generalize hout : mergeOut _ _ _ _ _ = out
  have hlen : (right + 1 - left).toNat ≤ out.length := by
    rw [← hout]
    refine Nat.le_trans ?_ (mergeOut_length _ _ _ _ _)
    simp only [Cursor.reads_length, Cursor.left]
    omega
  refine List.ext_getElem (by simp [Cursor.left, hlen]) fun d h1 h2 => ?_
  rw [Cursor.reads_length, Cursor.left] at h1
  simp only [Cursor.reads, Cursor.index, List.getElem_map, List.getElem_range, List.getElem_take]
  rw [copyBack_host (by omega), ← putTemp_temp M 0 out (by omega), zero_add]

theorem mergeS_frame (hr : middle < right) {i : Int} (hi : i < left ∨ right < i) :
    (mergeS left middle right).exec M (.host i) = M (.host i) := by
  rw [mergeS_exec M hr, copyBack_frame hi, putTemp_host]

end

/-! ## In terms of slices -/

theorem towards_perm (increment : Bool) (l : List F32) : (towards increment l).Perm l := by
  cases increment
  · exact List.reverse_perm l
  · exact .refl l

/-- The second reading of the left run's last element falls behind `right` when it comes out last,
which is in question only if both runs are read backwards. -/
theorem take_mergeOut {u v : List F32} {z : F32} {i j : Bool}
    (hz : i = false → j = false → u.reverse.merge (v.reverse ++ [z]) F32.le =
      u.reverse.merge v.reverse F32.le ++ [z]) :
    (mergeOut u v z i j).take (u.length + v.length) =
      (towards i u).merge (towards j v) F32.le := by
  have hlen : ((towards i u).merge (towards j v) F32.le).length = u.length + v.length := by
    rw [List.length_merge, (towards_perm i u).length_eq, (towards_perm j v).length_eq]
  have hmerge : mergeOut u v z i j = (towards i u).merge (towards j v) F32.le ∨
      mergeOut u v z i j = (towards i u).merge (towards j v) F32.le ++ [z] := by
    cases i <;> cases j
    · exact .inr (hz rfl rfl)
    · exact .inl rfl
    · exact .inr rfl
    · exact .inl rfl
  rcases hmerge with h | h
  · rw [h, ← hlen, List.take_length]
  · rw [h, ← hlen, List.take_left]

theorem reads_up_data {M : Mem Cell F32} {right : Int} (lo cnt : Nat) (hr : right + 1 = lo + cnt) :
    (Cursor.up right).reads M lo = slice (Cell.data M) lo cnt := by
  have hleft : (Cursor.up right).left lo = cnt := by
    simp only [Cursor.left]
    omega
  rw [Cursor.reads, hleft, slice, List.range'_eq_map_range, List.map_map]
  rfl

/-- `merge_s` on the runs of `c₁` and `c₂` elements from `left` on. -/
theorem mergeS_slice (M : Mem Cell F32) {left c₁ c₂ : Nat} {middle right : Int} (h1 : 1 ≤ c₁)
    (h2 : 1 ≤ c₂) (hm : middle + 1 = left + c₁) (hr : right + 1 = left + c₁ + c₂) :
    slice (Cell.data ((mergeS left middle right).exec M)) left (c₁ + c₂) =
      (mergeOut (slice (Cell.data M) left c₁) (slice (Cell.data M) (left + c₁) c₂)
        (M (.host middle)) (F32.lt (Cell.data M left) (Cell.data M (left + 1)))
        (F32.lt (Cell.data M (left + c₁)) (Cell.data M (left + c₁ + 1)))).take (c₁ + c₂) := by
  have hout := mergeS_host M (show (left : Int) ≤ middle by omega) (show middle < right by omega)
  have hcount : (right + 1 - left).toNat = c₁ + c₂ := by omega
  rw [hcount, reads_up_data left (c₁ + c₂) (by omega), reads_up_data left c₁ hm, hm] at hout
  have hv : (Cursor.up right).reads M (left + c₁ : Int) = slice (Cell.data M) (left + c₁) c₂ :=
    reads_up_data (left + c₁) c₂ (by omega)
  rw [hv] at hout
  exact hout

/-- **`merge_s` merges its runs**, each read in the direction its first two elements tell, if the
element that is read twice comes out last. -/
theorem mergeS_merges (M : Mem Cell F32) {left c₁ c₂ : Nat} {middle right : Int} (h1 : 1 ≤ c₁)
    (h2 : 1 ≤ c₂) (hm : middle + 1 = left + c₁) (hr : right + 1 = left + c₁ + c₂)
    (hz : F32.lt (Cell.data M left) (Cell.data M (left + 1)) = false →
      F32.lt (Cell.data M (left + c₁)) (Cell.data M (left + c₁ + 1)) = false →
      (slice (Cell.data M) left c₁).reverse.merge
          ((slice (Cell.data M) (left + c₁) c₂).reverse ++ [M (.host middle)]) F32.le =
        (slice (Cell.data M) left c₁).reverse.merge
          (slice (Cell.data M) (left + c₁) c₂).reverse F32.le ++ [M (.host middle)]) :
    slice (Cell.data ((mergeS left middle right).exec M)) left (c₁ + c₂) =
      (towards (F32.lt (Cell.data M left) (Cell.data M (left + 1)))
        (slice (Cell.data M) left c₁)).merge
        (towards (F32.lt (Cell.data M (left + c₁)) (Cell.data M (left + c₁ + 1)))
          (slice (Cell.data M) (left + c₁) c₂)) F32.le := by
  rw [mergeS_slice M h1 h2 hm hr, ← take_mergeOut hz, slice_length, slice_length]

end Fpga
