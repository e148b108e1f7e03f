import Mathlib.Data.List.Infix
import ParSort.Aocl.Names

/-!
# What the searches find

`find` finds the first occurrence (`find_eq_some_iff`), so `findPlatform` finds the first platform
that has the text in its name, in whatever case (`findPlatform_eq_some_iff`), and a program is
loaded exactly when one of its two files is there and is not empty (`loadStatus_eq_zero_iff`).
-/

namespace Aocl

/-! ## Names -/

section
variable {s t : List UInt8} {i : Nat}

theorem find_eq_some_iff :
    find s t = some i ↔ i ≤ s.length ∧ t <+: s.drop i ∧ ∀ j < i, ¬t <+: s.drop j := by
  rw [find, List.find?_range_eq_some, List.mem_range, Nat.lt_succ_iff, and_left_comm]
  simp only [Bool.not_eq_true', ← Bool.not_eq_true, List.isPrefixOf_iff_prefix]

theorem find_eq_none_iff : find s t = none ↔ ¬t <:+: s := by
  rw [find, List.find?_eq_none]
  constructor
  · rintro h ⟨a, b, rfl⟩
    refine h a.length ?_ ?_
    · rw [List.mem_range]
      simp only [List.length_append]
      omega
    · rw [List.isPrefixOf_iff_prefix, List.append_assoc, List.drop_left]
      exact List.prefix_append t b
  · intro h j _ hj
    rw [List.isPrefixOf_iff_prefix] at hj
    exact h (hj.isInfix.trans (List.drop_suffix j s).isInfix)

end

/-- The name has `search` in it, in whatever case. -/
def Platform.Matches (search : List UInt8) (p : Platform) : Prop :=
  search.map tolower <:+: p.name.map tolower

/-- The first platform that matches. -/
def Platform.First (platforms : List Platform) (search : List UInt8) (p : Platform) : Prop :=
  p.Matches search ∧ ∃ before after, platforms = before ++ p :: after ∧
    ∀ q ∈ before, ¬q.Matches search

section
variable {platforms : List Platform} {search : List UInt8} {p : Platform}

theorem find_isSome_iff_matches :
    (find (p.name.map tolower) (search.map tolower)).isSome = true ↔ p.Matches search := by
  rw [← not_iff_not, Bool.not_eq_true, Option.isSome_eq_false_iff, Option.isNone_iff_eq_none,
    find_eq_none_iff]
  rfl

theorem findPlatform_eq_some_iff :
    findPlatform platforms search = some p ↔ Platform.First platforms search p := by
  rw [findPlatform, List.find?_eq_some_iff_append, find_isSome_iff_matches, Platform.First]
  simp only [Bool.not_eq_true', ← Bool.not_eq_true, find_isSome_iff_matches]

theorem findPlatform_eq_none_iff :
    findPlatform platforms search = none ↔ ∀ p ∈ platforms, ¬p.Matches search := by
  simp only [findPlatform, List.find?_eq_none, find_isSome_iff_matches]

end

/-! ## Files -/

/-- The board's name: what comes before the first blank and colon. -/
def Board (deviceName board : List UInt8) : Prop :=
  (∃ rest, deviceName = board ++ boardEnd ++ rest) ∧
    ∀ j < board.length, ¬boardEnd <+: deviceName.drop j

/-- `stem.aocx` is there and is not empty, or only the board's file is. -/
def Loadable (files : List UInt8 → Option (List UInt8)) (stem deviceName : List UInt8) : Prop :=
  (∃ bytes ≠ [], files (stem ++ aocx) = some bytes) ∨
    files (stem ++ aocx) = none ∧ ∃ board, Board deviceName board ∧
      ∃ bytes ≠ [], files (boardFile stem board) = some bytes

section
variable {files : List UInt8 → Option (List UInt8)} {stem deviceName : List UInt8}

theorem loadBinaryFile_isSome_iff {content : Option (List UInt8)} :
    (loadBinaryFile content).isSome = true ↔ ∃ bytes ≠ [], content = some bytes := by
  match content with
  | none => simp [loadBinaryFile]
  | some [] => simp [loadBinaryFile]
  | some (b :: bytes) => simp [loadBinaryFile]

/-- The search finds the end of the board's name. -/
theorem board_iff {board : List UInt8} : Board deviceName board ↔
    find deviceName boardEnd = some board.length ∧ deviceName.take board.length = board := by
  rw [find_eq_some_iff]
  constructor
  · rintro ⟨⟨rest, rfl⟩, hfirst⟩
    rw [List.append_assoc] at hfirst ⊢
    refine ⟨⟨?_, ?_, hfirst⟩, List.take_left⟩
    · rw [List.length_append]
      omega
    · rw [List.drop_left]
      exact List.prefix_append boardEnd rest
  · rintro ⟨⟨-, ⟨rest, hrest⟩, hfirst⟩, htake⟩
    refine ⟨⟨rest, ?_⟩, hfirst⟩
    have hsplit := List.take_append_drop board.length deviceName
    rw [htake, ← hrest] at hsplit
    rw [List.append_assoc, hsplit]

theorem loadStatus_eq_zero_iff : loadStatus files stem deviceName = 0 ↔
    Loadable files stem deviceName := by
  have hstatus : loadStatus files stem deviceName = 0 ↔ ∃ bytes ≠ [],
      files (getBoardBinaryFile (fun name => (files name).isSome) stem deviceName) =
        some bytes := by
    rw [← loadBinaryFile_isSome_iff, loadStatus]
    split
    case isTrue h => exact iff_of_true rfl h
    case isFalse h => exact iff_of_false (by decide) h
  rw [hstatus, getBoardBinaryFile, Loadable]
  cases hfile : files (stem ++ aocx) with
  | some bytes => simp [hfile]
  | none =>
    simp only [Option.isSome_none, Bool.false_eq_true, if_false, reduceCtorEq, and_false,
      exists_false, false_or, true_and]
    cases hfind : find deviceName boardEnd with
    | none =>
      refine iff_of_false ?_ ?_
      · simp [hfile]
      · rintro ⟨board, hboard, -⟩
        rw [board_iff, hfind] at hboard
        cases hboard.1
    | some e =>
      have hlen : (deviceName.take e).length = e := by
        rw [List.length_take, Nat.min_eq_left (find_eq_some_iff.1 hfind).1]
      have hboard : ∀ board, Board deviceName board ↔ board = deviceName.take e := by
        intro board
        rw [board_iff, hfind, Option.some.injEq]
        constructor
        · rintro ⟨rfl, htake⟩
          exact htake.symm
        · rintro rfl
          rw [hlen]
          exact ⟨rfl, rfl⟩
      simp only [hboard, exists_eq_left]
      split
      case isTrue h => rfl
      case isFalse h =>
        refine iff_of_false ?_ ?_
        · simp [hfile]
        · rintro ⟨bytes, -, hbytes⟩
          exact h (by simp [hbytes])

theorem loadStatus_of_not_loadable (h : ¬Loadable files stem deviceName) :
    loadStatus files stem deviceName = invalidProgram := by
  rw [← loadStatus_eq_zero_iff] at h
  rw [loadStatus] at h ⊢
  split at h
  case isTrue => exact absurd rfl h
  case isFalse hload => exact if_neg hload

end

/-! ## The machine -/

/-- What `init_opencl` meets, with the executable in `dir`. -/
theorem env_spec {s : System} {dir : List UInt8} (stem : List UInt8)
    (hexe : setCwdToExeDir s.stack s.exe = some (true, some dir)) (hdir : s.isDir dir = true) :
    ∃ env, s.env stem = some env ∧ env.cwd = true ∧
      (∀ c, c ≠ .loadBinary → env.status c = s.status c) ∧
      (findPlatform s.platforms altera = none → env.platform = false) ∧
      ∀ p, findPlatform s.platforms altera = some p → env.platform = true ∧
        env.devices = p.devices.length ∧
          env.status .loadBinary = loadStatus (s.files dir) stem (p.devices.headD []) := by
  rw [System.env, hexe, Option.map_some]
  refine ⟨_, rfl, rfl, fun c hc => if_neg hc, fun h => by rw [h]; rfl, fun p h => ?_⟩
  dsimp only
  rw [h, System.dir, if_pos hdir, if_pos rfl]
  exact ⟨rfl, rfl, rfl⟩

end Aocl
