import ParSort.Aocl.Proof.Names
import ParSort.Simd.Proof.Host

/-!
# The start of `main.cpp` on a machine

Where every call of the runtime succeeds, what the default mode does is a matter of names and files:
`clMain_startup` says which platforms, devices and files it needs.
-/

namespace Simd

open Aocl Resource

/-- `vectorAdd` -/
def stem : List UInt8 := [118, 101, 99, 116, 111, 114, 65, 100, 100]

section
variable {env : Env} (hok : ∀ c, c ≠ .loadBinary → env.status c = 0)
include hok

/-- Only the load can fail. -/
theorem firstFailure_mainCalls : firstFailure env (mainCalls env) =
    if Found env ∧ env.status .loadBinary ≠ 0 then some .loadBinary else none := by
  split
  case isTrue h =>
    have hmem : Call.loadBinary ∈ mainCalls env := by
      refine List.mem_append_left _ (List.mem_append_left _ (List.mem_append_right _ ?_))
      rw [if_pos h.1]
      exact .head _
    cases hfirst : firstFailure env (mainCalls env) with
    | none => exact absurd (firstFailure_eq_none_iff.1 hfirst _ hmem) h.2
    | some c =>
      by_contra hne
      have hc : c ≠ .loadBinary := fun hc => hne (by rw [hc])
      have hfail := List.find?_some hfirst
      simp [hok c hc] at hfail
  case isFalse h =>
    refine firstFailure_eq_none_iff.2 fun c hc => ?_
    by_cases hload : c = .loadBinary
    · by_contra hne
      refine h ⟨?_, hload ▸ hne⟩
      by_contra hno
      rw [mainCalls, launchCalls, initCalls, if_neg hno, if_neg hno, if_neg hno, List.append_nil,
        List.append_nil, List.append_nil] at hc
      have hopen := mem_openCalls hc
      simp [hload] at hopen
    · exact hok c hload

/-- What the default mode does: it asks for the platform, its devices and the binary, in this
order. -/
theorem clMain_eq : ∃ w, clMain env World.init =
    if (env.cwd && env.platform) = false then .ok (-1) w
    else if env.devices = 0 then .error .undefined w
    else if env.status .loadBinary = 0 then .ok 0 w
    else .error (.exit (env.status .loadBinary)) w := by
  have hrun := meets_clMain env
  cases hw : clMain env World.init with
  | ok r w =>
    obtain ⟨rfl, hdev, hnone, -⟩ := hrun.ok hw
    refine ⟨w, ?_⟩
    by_cases hfound : Found env
    · have hload : env.status .loadBinary = 0 := by
        by_contra hne
        rw [firstFailure_mainCalls hok, if_pos ⟨hfound, hne⟩] at hnone
        cases hnone
      simp [hfound, hfound.1, hfound.2, hload]
    · have hno : (env.cwd && env.platform) = false := by
        by_contra htrue
        rw [Bool.not_eq_false] at htrue
        have h0 : env.devices = 0 := by
          by_contra hne
          exact hfound ⟨htrue, hne⟩
        refine hdev ⟨htrue, h0, firstFailure_eq_none_iff.2 fun c hc => hok c ?_⟩
        rintro rfl
        have hopen := mem_openCalls hc
        simp at hopen
      rw [if_neg hfound, if_pos hno]
  | error e w =>
    refine ⟨w, ?_⟩
    rcases hrun.error hw with ⟨⟨c, hc, hstop⟩, -⟩ | ⟨⟨htrue, h0, -⟩ | ⟨-, -, i, -, hread⟩, rfl, -⟩
    · rw [firstFailure_mainCalls hok] at hc
      split at hc
      case isFalse => cases hc
      case isTrue h =>
        obtain rfl := Option.some.inj hc
        rcases hstop with ⟨rfl, -⟩ | ⟨-, hbad, -⟩
        · simp [h.1.1, h.1.2, h.2]
        · exact absurd hbad (not_midway fun _ _ => by simp)
    · simp [htrue, h0]
    · exact absurd (hok (.enqueueRead i) (by simp)) hread

end

/-- **The start on a machine** whose OpenCL calls all succeed, with the executable in `dir`: the run
goes through exactly when the first platform with `altera` in its name has a device and `dir` has
`vectorAdd.aocx`, or without it the file for the board of the first device, and that file is not
empty; it exits with `CL_INVALID_PROGRAM` exactly when the file is missing or empty; and it returns
-1 exactly when no platform has that name. -/
theorem clMain_startup (s : System) (dir : List UInt8)
    (hexe : setCwdToExeDir s.stack s.exe = some (true, some dir)) (hdir : s.isDir dir = true)
    (hok : ∀ c, s.status c = 0) : ∃ env, s.env stem = some env ∧
      ((∃ w, clMain env World.init = .ok 0 w) ↔ ∃ p device devices,
        Platform.First s.platforms altera p ∧ p.devices = device :: devices ∧
          Loadable (s.files dir) stem device) ∧
      ((∃ w, clMain env World.init = .error (.exit invalidProgram) w) ↔ ∃ p device devices,
        Platform.First s.platforms altera p ∧ p.devices = device :: devices ∧
          ¬Loadable (s.files dir) stem device) ∧
      ((∃ w, clMain env World.init = .ok (-1) w) ↔ ∀ p ∈ s.platforms, ¬p.Matches altera) := by
  obtain ⟨env, henv, hcwd, hstatus, hnone, hsome⟩ := env_spec stem hexe hdir
  obtain ⟨w, hw⟩ := clMain_eq fun c hc => (hstatus c hc).trans (hok c)
  refine ⟨env, henv, ?_⟩
  rw [hw, hcwd, Bool.true_and]
  cases hfind : findPlatform s.platforms altera with
  | none =>
    have hfirst : ∀ p, ¬Platform.First s.platforms altera p := fun p h => by
      rw [← findPlatform_eq_some_iff, hfind] at h
      cases h
    rw [if_pos (hnone hfind)]
    exact ⟨by simp [hfirst], by simp [hfirst],
      iff_of_true ⟨w, rfl⟩ (findPlatform_eq_none_iff.1 hfind)⟩
  | some p =>
    obtain ⟨hplat, hdevices, hload⟩ := hsome p hfind
    have hfirst : ∀ q, Platform.First s.platforms altera q ↔ q = p := fun q => by
      rw [← findPlatform_eq_some_iff, hfind, Option.some.injEq, eq_comm]
    have hmatch : ¬∀ q ∈ s.platforms, ¬q.Matches altera := fun h => by
      rw [← findPlatform_eq_none_iff, hfind] at h
      cases h
    simp only [hfirst, exists_and_left, exists_eq_left, hmatch, iff_false]
    rw [hplat, if_neg (by decide), hdevices, hload]
    cases p.devices with
    | nil => simp
    | cons device devices =>
      rw [List.headD_cons, if_neg (by simp)]
      by_cases hfile : Loadable (s.files dir) stem device
      · rw [if_pos (loadStatus_eq_zero_iff.2 hfile)]
        simp [hfile]
      · rw [loadStatus_of_not_loadable hfile, if_neg (by decide)]
        simp [hfile]

/-- `/b/v` on a machine with one device, of the board `b`, and only that board's file. -/
def boardSystem : System where
  exe := some [47, 98, 47, 118]
  stack _ := 0
  isDir path := path = [47, 98]
  cwd := [47]
  files dir name := if dir = [47, 98] ∧ name = boardFile stem [98] then some [1] else none
  platforms := [⟨altera, [[98, 32, 58]]⟩]
  status _ := 0

theorem clMain_startup_board : ∃ env, boardSystem.env stem = some env ∧
    ∃ w, clMain env World.init = .ok 0 w := by
  obtain ⟨env, henv, hrun, -⟩ := clMain_startup boardSystem [47, 98] rfl rfl fun _ => rfl
  have hboard : Board [98, 32, 58] [98] := by
    refine ⟨⟨[], rfl⟩, fun j hj => ?_⟩
    obtain rfl : j = 0 := Nat.lt_one_iff.1 hj
    decide
  have hload : Loadable (boardSystem.files [47, 98]) stem [98, 32, 58] :=
    .inr ⟨rfl, [98], hboard, [1], by decide, rfl⟩
  exact ⟨env, henv, hrun.2 ⟨_, _, _, ⟨⟨[], [], rfl⟩, [], [], rfl, by simp⟩, rfl, hload⟩⟩

end Simd
