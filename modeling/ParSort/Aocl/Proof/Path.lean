import Mathlib.Data.List.Basic
import Mathlib.Data.List.GetD
import ParSort.Aocl.Path

/-!
# When `setCwdToExeDir` finds the directory
-/

namespace Aocl

variable {path stack : Nat → UInt8} {n : Nat}

theorem strlen_eq_some_iff :
    strlen path = some n ↔ n < pathSize ∧ path n = 0 ∧ ∀ i < n, path i ≠ 0 := by
  rw [strlen, List.find?_range_eq_some, List.mem_range, and_left_comm]
  simp

/-- The loop stops at the last separator. -/
theorem lastSeparator_eq_iff {d : Nat} (hd : d ≤ n) (hsep : IsSeparator (path d)) :
    lastSeparator path n = d ↔ ∀ i, d < i → i ≤ n → ¬IsSeparator (path i) := by
  induction n with
  | zero =>
    obtain rfl : d = 0 := Nat.le_zero.1 hd
    exact iff_of_true rfl fun i hi hi' => absurd hi' (Nat.not_le.2 hi)
  | succ n ih =>
    rw [lastSeparator]
    split
    case isTrue h =>
      constructor
      · rintro rfl i hi hi'
        exact absurd hi' (Nat.not_le.2 hi)
      · intro hlast
        by_contra hne
        exact hlast (n + 1) (Nat.lt_of_le_of_ne hd (Ne.symm hne)) (Nat.le_refl _) h
    case isFalse h =>
      have hne : d ≠ n + 1 := by
        rintro rfl
        exact h hsep
      rw [ih (Nat.lt_succ_iff.1 (Nat.lt_of_le_of_ne hd hne))]
      constructor
      · intro hlast i hi hi'
        obtain hi' | rfl := Nat.le_succ_iff.1 hi'
        · exact hlast i hi hi'
        · exact h
      · exact fun hlast i hi hi' => hlast i hi (Nat.le_succ_of_le hi')

section
variable {link : List UInt8}

theorem readlink_of_lt (hn : n < link.length) (hn' : n < pathSize) :
    readlink link stack n = link[n] := by
  rw [readlink, if_pos hn', List.getD_eq_getElem _ _ hn]

theorem readlink_of_le (hn : link.length ≤ n) : readlink link stack n = stack n := by
  unfold readlink
  split
  · exact List.getD_eq_default _ _ hn
  · rfl

end

section
variable {dir name : List UInt8}

theorem length_path : (dir ++ slash :: name).length = dir.length + 1 + name.length := by
  rw [List.length_append, List.length_cons, Nat.add_right_comm, Nat.add_assoc]

theorem readlink_slash (h : dir.length < pathSize) :
    readlink (dir ++ slash :: name) stack dir.length = slash := by
  have hlen : dir.length < (dir ++ slash :: name).length := by
    rw [length_path]
    omega
  rw [readlink_of_lt hlen h, List.getElem_append_right (Nat.le_refl _)]
  simp

theorem readlink_name {k : Nat} (hk : k < name.length) (h : dir.length + 1 + k < pathSize) :
    readlink (dir ++ slash :: name) stack (dir.length + 1 + k) = name[k] := by
  have hlen : dir.length + 1 + k < (dir ++ slash :: name).length := by
    rw [length_path]
    omega
  rw [readlink_of_lt hlen h, List.getElem_append_right (by omega)]
  simp [Nat.add_assoc, Nat.add_comm 1]

/-- The string in the array ends where the bytes behind the path do. -/
theorem strlen_readlink_iff (stack : Nat → UInt8) (hdir : 0 ∉ dir) (hname : 0 ∉ name) :
    strlen (readlink (dir ++ slash :: name) stack) = some n ↔
      n < pathSize ∧ (dir ++ slash :: name).length ≤ n ∧ stack n = 0 ∧
        ∀ i < n, (dir ++ slash :: name).length ≤ i → stack i ≠ 0 := by
  have hpath : ∀ i < pathSize, i < (dir ++ slash :: name).length →
      readlink (dir ++ slash :: name) stack i ≠ 0 := by
    intro i hi hlt h0
    rw [readlink_of_lt hlt hi] at h0
    have hmem : (0 : UInt8) ∈ dir ++ slash :: name := h0 ▸ List.getElem_mem hlt
    rcases List.mem_append.1 hmem with h | h
    · exact hdir h
    · rcases List.mem_cons.1 h with h | h
      · exact absurd h (by decide)
      · exact hname h
  rw [strlen_eq_some_iff]
  refine and_congr_right fun hn => ?_
  constructor
  · intro ⟨h0, hbefore⟩
    have hge : (dir ++ slash :: name).length ≤ n := by
      by_contra hlt
      exact hpath n hn (Nat.not_le.1 hlt) h0
    refine ⟨hge, by rwa [readlink_of_le hge] at h0, fun i hi hle => ?_⟩
    have h := hbefore i hi
    rwa [readlink_of_le hle] at h
  · intro ⟨hge, h0, hafter⟩
    refine ⟨by rwa [readlink_of_le hge], fun i hi => ?_⟩
    by_cases hlt : i < (dir ++ slash :: name).length
    · exact hpath i (Nat.lt_trans hi hn) hlt
    · rw [readlink_of_le (Nat.not_lt.1 hlt)]
      exact hafter i hi (Nat.not_lt.1 hlt)

/-- The loop ends at the slash before the name unless it meets another separator on the way. -/
theorem lastSeparator_readlink_iff (stack : Nat → UInt8) (hslash : slash ∉ name)
    (hn : n < pathSize) (hge : (dir ++ slash :: name).length ≤ n + 1) :
    lastSeparator (readlink (dir ++ slash :: name) stack) n = dir.length ↔
      backslash ∉ name ∧
        ∀ i ≤ n, (dir ++ slash :: name).length ≤ i → ¬IsSeparator (stack i) := by
  rw [length_path] at hge
  rw [lastSeparator_eq_iff (by omega) (.inl (readlink_slash (by omega)))]
  constructor
  · intro hlast
    refine ⟨fun hb => ?_, fun i hi hle => ?_⟩
    · obtain ⟨k, hk, hk'⟩ := List.getElem_of_mem hb
      refine hlast (dir.length + 1 + k) (by omega) (by omega) ?_
      rw [readlink_name hk (by omega), hk']
      exact .inr rfl
    · have h := hlast i (by rw [length_path] at hle; omega) hi
      rwa [readlink_of_le hle] at h
  · intro ⟨hb, hafter⟩ i hi hin hsep
    by_cases hlt : i < (dir ++ slash :: name).length
    · rw [length_path] at hlt
      obtain ⟨k, rfl⟩ : ∃ k, i = dir.length + 1 + k := ⟨i - (dir.length + 1), by omega⟩
      have hk : k < name.length := by omega
      rw [readlink_name hk (by omega)] at hsep
      obtain h | h := hsep
      · exact hslash (h ▸ List.getElem_mem hk)
      · exact hb (h ▸ List.getElem_mem hk)
    · rw [readlink_of_le (Nat.not_lt.1 hlt)] at hsep
      exact hafter i hin (Nat.not_lt.1 hlt) hsep

theorem map_readlink (h : dir.length ≤ pathSize) :
    (List.range dir.length).map (readlink (dir ++ slash :: name) stack) = dir := by
  refine List.ext_getElem (by simp) fun i hi hi' => ?_
  have hlen : i < (dir ++ slash :: name).length := by
    rw [length_path]
    omega
  rw [List.getElem_map, List.getElem_range, readlink_of_lt hlen (by omega),
    List.getElem_append_left hi']

end

/-- **`setCwdToExeDir` finds the directory** of `dir/name` exactly when the path fits the array, the
executable's name has no backslash, and the bytes that the stack left behind the path are a string
without separator. -/
theorem setCwdToExeDir_iff (stack : Nat → UInt8) (dir name : List UInt8) (hdir : 0 ∉ dir)
    (hname : 0 ∉ name) (hslash : slash ∉ name) :
    setCwdToExeDir stack (some (dir ++ slash :: name)) = some (true, some dir) ↔
      backslash ∉ name ∧ ∃ n < pathSize, (dir ++ slash :: name).length ≤ n ∧ stack n = 0 ∧
        ∀ i < n, (dir ++ slash :: name).length ≤ i → stack i ≠ 0 ∧ ¬IsSeparator (stack i) := by
  constructor
  · intro h
    unfold setCwdToExeDir at h
    dsimp only at h
    split at h
    case h_1 => cases h
    case h_2 => cases h
    case h_3 n hstr =>
      obtain ⟨hn, hge, h0, hafter⟩ := (strlen_readlink_iff stack hdir hname).1 hstr
      have hlast : lastSeparator (readlink (dir ++ slash :: name) stack) n = dir.length := by
        simpa using congrArg List.length (Option.some.inj (Prod.mk.inj (Option.some.inj h)).2)
      obtain ⟨hb, hsep⟩ :=
        (lastSeparator_readlink_iff stack hslash (Nat.lt_of_succ_lt hn) hge).1 hlast
      exact ⟨hb, n + 1, hn, hge, h0, fun i hi hle =>
        ⟨hafter i hi hle, hsep i (Nat.le_of_lt_succ hi) hle⟩⟩
  · intro ⟨hb, n, hn, hge, h0, hafter⟩
    have hlen := hge
    rw [length_path] at hlen
    obtain ⟨m, rfl⟩ : ∃ m, n = m + 1 := ⟨n - 1, by omega⟩
    have hstr := (strlen_readlink_iff stack hdir hname).2
      ⟨hn, hge, h0, fun i hi hle => (hafter i hi hle).1⟩
    have hlast := (lastSeparator_readlink_iff stack hslash (Nat.lt_of_succ_lt hn) hge).2
      ⟨hb, fun i hi hle => (hafter i (Nat.lt_succ_of_le hi) hle).2⟩
    unfold setCwdToExeDir
    dsimp only
    rw [hstr]
    dsimp only
    rw [hlast, map_readlink (by omega)]

theorem setCwdToExeDir_iff_zeros :
    setCwdToExeDir (fun _ => 0) (some ([47, 98] ++ slash :: [118])) = some (true, some [47, 98]) :=
  (setCwdToExeDir_iff (fun _ => 0) [47, 98] [118] (by decide) (by decide) (by decide)).2
    ⟨by decide, 4, by decide, by decide, rfl, fun i hi hi' => absurd hi (Nat.not_lt.2 hi')⟩

end Aocl
