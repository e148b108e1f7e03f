import ParSort.Aocl.Proof.Host
import ParSort.Simd.Host

/-!
# The OpenCL run of `main.cpp`

The calls that a run checks, in order (`mainCalls`), and what it has created when one of them fails
(`Leak`). Between the devices `cl_run` holds the events of the commands before `i` (`Enqueued`),
which carries its loops; with `meets_initOpencl` before and `meets_cleanup` behind it they make up
`main`. Two statuses are dropped: that of a read shows when `clWaitForEvents` gets its event
(`ReadFailed`), that of `clWaitForEvents` in no object.
-/

namespace Simd

open Aocl Resource Ledger

/-! ## The calls of a run -/

/-- The calls that `cl_run` checks for device `i` as it enqueues its commands. -/
def enqueueCalls (i : Nat) : List Call :=
  .enqueueWrite i 0 :: .enqueueWrite i 1 :: ((List.range 3).map (.setArg i) ++ [.enqueueKernel i])

def profileCalls (n : Nat) : List Call :=
  ((List.range n).product (List.range 2)).map fun p => .profile p.1 p.2

/-- The calls that `main` checks up to `clWaitForEvents`, in order. -/
def launchCalls (env : Env) : List Call :=
  initCalls kinds env ++ if Found env then (List.range env.devices).flatMap enqueueCalls else []

/-- The calls that `main` checks while none of them fails, in order. -/
def mainCalls (env : Env) : List Call :=
  launchCalls env ++ if Found env then profileCalls env.devices else []

/-- `clWaitForEvents` gets the event of a read that was not enqueued. -/
def ReadFailed (env : Env) : Prop :=
  Found env ∧ firstFailure env (launchCalls env) = none ∧
    ∃ i < env.devices, env.status (.enqueueRead i) ≠ 0

/-- The events of the commands of the devices before `i`. -/
def Enqueued (env : Env) (i : Nat) (o : Object) : Prop :=
  ∃ j < i, o = .event j 2 ∨ o = .event j 3 ∧ env.status (.enqueueRead j) = 0

/-- The objects that a run leaves behind when it exits because of a call. -/
def Leak (env : Env) : Call → Object → Prop
  | .enqueueWrite i w, o => Enqueued env i o ∨ ∃ w' < w, o = .event i w'
  | .setArg i _, o => Enqueued env i o ∨ ∃ w' < 2, o = .event i w'
  | .enqueueKernel i, o => Enqueued env i o ∨ ∃ w' < 2, o = .event i w'
  | .profile _ _, o => Enqueued env env.devices o
  | c, o => InitLeak c o

variable {env : Env} {n : Nat} {w : World} {α : Type} {Q : α → World → Prop}

theorem not_enqueued {i e : Nat} : ¬Enqueued env i (.event i e) := by
  rintro ⟨j, hj, h | ⟨h, -⟩⟩
  · injection h
    omega
  · injection h
    omega

theorem enqueued_succ {i : Nat} {o : Object} : Enqueued env (i + 1) o ↔
    Enqueued env i o ∨ o = .event i 2 ∨ o = .event i 3 ∧ env.status (.enqueueRead i) = 0 :=
  Nat.exists_lt_succ_right

/-- The two events of the writes are released, those of the kernel and of the read are kept. -/
theorem enqueued_released {i : Nat} {P : Prop} {o : Object}
    (hP : P ↔ ((Enqueued env i o ∨ o = .event i 0) ∨ o = .event i 1) ∨ o = .event i 2 ∨
      o = .event i 3 ∧ env.status (.enqueueRead i) = 0) :
    (P ∧ o ≠ .event i 0) ∧ o ≠ .event i 1 ↔ Enqueued env (i + 1) o := by
  rw [enqueued_succ, hP]
  constructor
  · rintro ⟨⟨((h | h) | h) | h, h0⟩, h1⟩
    · exact .inl h
    · exact absurd h h0
    · exact absurd h h1
    · exact .inr h
  · rintro (h | h)
    · exact ⟨⟨.inl (.inl (.inl h)), fun e => not_enqueued (e ▸ h)⟩, fun e => not_enqueued (e ▸ h)⟩
    · refine ⟨⟨.inr h, ?_⟩, ?_⟩ <;> obtain rfl | ⟨rfl, -⟩ := h <;> simp

/-- Both events of the writes. -/
theorem enqueued_writes {i : Nat} {o : Object} :
    (Enqueued env i o ∨ o = .event i 0) ∨ o = .event i 1 ↔
      Enqueued env i o ∨ ∃ w < 2, o = .event i w := by
  rw [or_assoc]
  refine or_congr_right ⟨?_, ?_⟩
  · rintro (rfl | rfl)
    · exact ⟨0, by decide, rfl⟩
    · exact ⟨1, by decide, rfl⟩
  · rintro ⟨w, hw, rfl⟩
    obtain rfl | rfl : w = 0 ∨ w = 1 := by omega
    · exact .inl rfl
    · exact .inr rfl

/-! ## `cl_run` -/

section
variable {calls : List Call} {i : Nat} {k : Host α}

/-- A call that `cl_run` checks. -/
theorem meets_check_enqueued {c : Call} {E : Object → Prop} (hr : Ready order w)
    (hw : Inv order E w) (hc : ∀ kind i, c ≠ .create kind i) (hleak : ∀ o, E o ↔ Leak env c o)
    (hk : env.status c = 0 → Meets k w Q (Fails env calls (Midway kinds n) (Leak env))) :
    Meets (checkError order (env.status c) >>= fun _ => k) w Q
      (Fails env (c :: calls) (Midway kinds n) (Leak env)) :=
  meets_check hw (by decide) (iff_of_false (not_midway hc) (not_not_intro hr)) hleak hk

/-- What an iteration of `cl_run` leaves. -/
def Launched (env : Env) (n i : Nat) (w : World) : Prop :=
  Inv order (Enqueued env i) w ∧ Ready order w ∧ w.numDevices = n

theorem meets_enqueue (hw : Launched env n i w) : Meets (enqueue env i) w
    (fun _ w' => Launched env n (i + 1) w' ∧ ∀ c ∈ enqueueCalls i, env.status c = 0)
    (Fails env (enqueueCalls i) (Midway kinds n) (Leak env)) := by
  have ho : order.Nodup := by decide
  obtain ⟨hw, hr, hn⟩ := hw
  unfold enqueue enqueueCalls
  refine meets_bind (meets_newObject (fun h0 => meets_check_of_ok h0 ?_) fun h0 => ?_)
  · have hw0 := hw.acquire_event not_enqueued (e := 0)
    refine meets_bind (meets_newObject (fun h1 => meets_check_of_ok h1 ?_) fun h1 => ?_)
    · have hw1 := hw0.acquire_event (i := i) (e := 1) (by simp [not_enqueued])
      refine meets_checks hw1 ho (fun a _ => iff_of_false (not_midway nofun)
        (not_not_intro hr)) (fun a _ o => enqueued_writes) fun harg => ?_
      refine meets_bind (meets_newObject (fun h2 => meets_check_of_ok h2 ?_) fun h2 => ?_)
      · have hw2 := hw1.acquire_event (i := i) (e := 2) (by simp [not_enqueued])
        have hok : ∀ c ∈ enqueueCalls i, env.status c = 0 := by
          simp only [enqueueCalls, List.mem_cons, List.mem_append, List.mem_map, List.mem_range]
          rintro c (rfl | rfl | ⟨a, ha, rfl⟩ | rfl | hc)
          · exact h0
          · exact h1
          · exact harg a (List.mem_range.2 ha)
          · exact h2
          · cases hc
        refine meets_bind (meets_newObject (fun h3 => ?_) fun h3 => ?_)
        · have hw3 := hw2.acquire_event (i := i) (e := 3) (by simp [not_enqueued])
          refine meets_bind (meets_modify (meets_modify ⟨⟨?_, hr, hn⟩, hok⟩))
          refine ((hw3.release_event (e := 0) (by simp)).release_event (e := 1) (by simp)).congr
            fun o => enqueued_released ?_
          simp only [h3, and_true, or_assoc]
        · refine meets_bind (meets_modify (meets_modify ⟨⟨?_, hr, hn⟩, hok⟩))
          refine ((hw2.release_event (e := 0) (by simp)).release_event (e := 1) (by simp)).congr
            fun o => enqueued_released ?_
          simp only [h3, and_false, or_false]
      · exact meets_check_enqueued hr hw1 nofun (fun o => enqueued_writes) fun h => absurd h h2
    · refine meets_check_enqueued hr hw0 nofun (fun o => ?_) fun h => absurd h h1
      simp [Leak]
  · refine meets_check_enqueued hr hw nofun (fun o => ?_) fun h => absurd h h0
    simp [Leak]

theorem meets_enqueues (m : Nat) (hw : Launched env n i w) :
    Meets ((List.range' i m).forM (enqueue env)) w
      (fun _ w' => Launched env n (i + m) w' ∧
        ∀ c ∈ (List.range' i m).flatMap enqueueCalls, env.status c = 0)
      (Fails env ((List.range' i m).flatMap enqueueCalls) (Midway kinds n) (Leak env)) := by
  induction m generalizing i w with
  | zero => exact ⟨hw, by simp⟩
  | succ m ih =>
    rw [List.range'_succ, List.flatMap_cons]
    refine meets_bind ((meets_enqueue hw).mono ?_ fun e w' hX =>
      hX.mono (fun _ _ => Iff.rfl) (fun _ _ _ => Iff.rfl) _)
    rintro _ w₁ ⟨hw₁, hok₁⟩
    refine (ih hw₁).mono ?_ fun e w' hX => hX.append_of_ok (firstFailure_eq_none_iff.2 hok₁)
    rintro _ w₂ ⟨hw₂, hok₂⟩
    refine ⟨?_, fun c hc => ?_⟩
    · rwa [Nat.add_comm m 1, ← Nat.add_assoc]
    · rcases List.mem_append.1 hc with hc | hc
      · exact hok₁ c hc
      · exact hok₂ c hc

/-- `clWaitForEvents` reads an uninitialised event when a read was not enqueued. -/
theorem meets_waitForEvents (l : List Nat) :
    Meets (waitForEvents env (l.map (finishHandle env))) w
      (fun _ w' => w' = w ∧ ∀ i ∈ l, env.status (.enqueueRead i) = 0)
      (fun e w' => e = .undefined ∧ w' = w ∧ ∃ i ∈ l, env.status (.enqueueRead i) ≠ 0) := by
  have hread : Meets ((l.map (finishHandle env)).forM readEvent) w
      (fun _ w' => w' = w ∧ ∀ i ∈ l, env.status (.enqueueRead i) = 0)
      (fun e w' => e = .undefined ∧ w' = w ∧ ∃ i ∈ l, env.status (.enqueueRead i) ≠ 0) := by
    induction l with
    | nil => exact ⟨rfl, by simp⟩
    | cons i l ih =>
      by_cases h : env.status (.enqueueRead i) = 0
      · rw [List.map_cons, finishHandle, if_pos h]
        refine meets_bind (meets_pure (ih.mono (fun _ w' hw' => ?_) fun e w' hw' => ?_))
        · exact ⟨hw'.1, List.forall_mem_cons.2 ⟨h, hw'.2⟩⟩
        · obtain ⟨he, hw', j, hj, hne⟩ := hw'
          exact ⟨he, hw', j, .tail _ hj, hne⟩
      · rw [List.map_cons, finishHandle, if_neg h]
        exact meets_bind (meets_throw ⟨rfl, rfl, i, .head _, h⟩)
  exact meets_bind (hread.mono (fun _ _ h => meets_pure h) fun _ _ h => h)

end

/-- Both events of every device are released. -/
theorem meets_release_events {X : Stop → World → Prop} {l : List Nat} (hl : l.Nodup)
    (hread : ∀ i ∈ l, env.status (.enqueueRead i) = 0)
    (hw : Inv order (fun o => ∃ j ∈ l, o = .event j 2 ∨ o = .event j 3) w) (hr : Ready order w) :
    Meets (l.forM fun i => do
      release (kernelHandle i)
      release (finishHandle env i)) w
      (fun _ w' => Inv order (fun _ => False) w' ∧ Ready order w') X := by
  refine (meets_forM (I := fun _ R w => Inv order
    (fun o => ∃ j ∈ R, o = .event j 2 ∨ o = .event j 3) w ∧ Ready order w) ?_ ⟨hw, hr⟩).mono ?_
      fun _ _ hX => hX
  · rintro L i R rfl w ⟨hw, hr⟩
    have hi : i ∉ R := (List.nodup_cons.1 (List.nodup_append.1 hl).2.1).1
    rw [finishHandle, if_pos (hread i (by simp))]
    refine meets_bind (meets_modify (meets_modify ⟨?_, hr⟩))
    refine ((hw.release_event (i := i) (e := 2) ⟨i, .head _, .inl rfl⟩).release_event (i := i)
      (e := 3) ⟨⟨i, .head _, .inr rfl⟩, by simp⟩).congr fun o => ?_
    constructor
    · rintro ⟨⟨⟨j, hj, ho⟩, h2⟩, h3⟩
      rcases List.mem_cons.1 hj with rfl | hj
      · exact (ho.elim h2 h3).elim
      · exact ⟨j, hj, ho⟩
    · rintro ⟨j, hj, ho⟩
      have hne : j ≠ i := fun e => hi (e ▸ hj)
      refine ⟨⟨⟨j, .tail _ hj, ho⟩, ?_⟩, ?_⟩ <;> obtain rfl | rfl := ho <;> simp [hne]
  · exact fun _ w' ⟨hw', hr'⟩ => ⟨hw'.congr (by simp), hr'⟩

/-- `cl_run` on the objects of `n` devices. -/
theorem meets_runEvents (hw : Launched env env.devices 0 w) : Meets (runEvents env) w
    (fun _ w' => (Inv order (fun _ => False) w' ∧ Ready order w') ∧
      (∀ c ∈ (List.range env.devices).flatMap enqueueCalls ++ profileCalls env.devices,
        env.status c = 0) ∧ ∀ i < env.devices, env.status (.enqueueRead i) = 0)
    (fun e w' => Fails env ((List.range env.devices).flatMap enqueueCalls ++
        profileCalls env.devices) (Midway kinds env.devices) (Leak env) e w' ∧
        (firstFailure env ((List.range env.devices).flatMap enqueueCalls) = none →
          ∀ i < env.devices, env.status (.enqueueRead i) = 0) ∨
      firstFailure env ((List.range env.devices).flatMap enqueueCalls) = none ∧
        (∃ i < env.devices, env.status (.enqueueRead i) ≠ 0) ∧ e = .undefined ∧
          ∃ P, Holds w'.log P) := by
  have ho : order.Nodup := by decide
  unfold runEvents
  refine meets_bind (meets_get ?_)
  rw [hw.2.2, List.range_eq_range']
  refine meets_bind ((meets_enqueues env.devices hw).mono ?_ fun e w' hX => .inl ⟨?_, ?_⟩)
  rotate_left
  · exact hX.mono (fun _ _ => Iff.rfl) (fun _ _ _ => Iff.rfl) _
  · obtain ⟨c, hc, -⟩ := hX
    rw [hc]
    exact nofun
  rintro _ w₁ ⟨⟨hw₁, hr₁, -⟩, hok⟩
  have hnone := firstFailure_eq_none_iff.2 hok
  refine meets_bind ((meets_waitForEvents _).mono ?_ ?_)
  rotate_left
  · rintro e w₂ ⟨rfl, rfl, i, hi, hread⟩
    have hlt := (List.mem_range'_1.1 hi).2
    exact .inr ⟨hnone, ⟨i, by omega, hread⟩, rfl, _, hw₁.log⟩
  rintro _ w₂ ⟨rfl, hread⟩
  have hread' : ∀ i < env.devices, env.status (.enqueueRead i) = 0 := fun i hi =>
    hread i (List.mem_range'_1.2 ⟨Nat.zero_le i, by omega⟩)
  have hprofile : (List.range' 0 env.devices).forM (getStartEndTime env) =
      ((List.range env.devices).product (List.range 2)).forM fun p =>
        checkError order (env.status (.profile p.1 p.2)) := by
    rw [List.product, forM_flatMap, List.range_eq_range']
    congr 1
  rw [hprofile]
  refine Meets.mono (X := Fails env (profileCalls env.devices ++ []) (Midway kinds env.devices)
    (Leak env)) ?_ (fun _ _ h => h) fun e w' hX => .inl ⟨?_, fun _ => hread'⟩
  rotate_left
  · rw [List.append_nil] at hX
    exact hX.append_of_ok hnone
  refine meets_checks hw₁ ho (fun p _ => iff_of_false (not_midway nofun)
    (not_not_intro hr₁)) (fun p _ o => by rw [Nat.zero_add]; rfl) fun hprof => ?_
  refine (meets_release_events List.nodup_range' hread ?_ hr₁).mono ?_ fun _ _ hX => hX
  · refine hw₁.congr fun o => ?_
    constructor
    · rintro ⟨j, hj, h⟩
      exact ⟨j, List.mem_range'_1.2 ⟨Nat.zero_le j, hj⟩, h.imp_right fun h => h.1⟩
    · rintro ⟨j, hj, h⟩
      have hj' := List.mem_range'_1.1 hj
      exact ⟨j, hj'.2, h.imp_right fun h => ⟨h, hread j hj⟩⟩
  · rintro _ w₃ hw₃
    refine ⟨hw₃, fun c hc => ?_, hread'⟩
    rcases List.mem_append.1 hc with hc | hc
    · exact hok c hc
    · obtain ⟨p, hp, rfl⟩ := List.mem_map.1 hc
      exact hprof p hp

/-! ## The run -/

theorem initLeak_iff {c : Call} (hc : c ∈ initCalls kinds env) (o : Object) :
    InitLeak c o ↔ Leak env c o := by
  have hcases : (∃ kind i, c = .create kind i) ∨ (∃ i, c = .binaryStatus i) ∨
      c ∈ [Call.findPlatform, .getDevices, .getNames, .createContext, .loadBinary, .createProgram,
        .buildProgram] := by
    rcases List.mem_append.1 hc with hc | hc
    · exact .inr (.inr (List.mem_append_left [Call.loadBinary, .createProgram, .buildProgram]
        (mem_openCalls hc)))
    · split at hc
      case isFalse => cases hc
      case isTrue =>
        simp only [objectCalls, createCalls, List.mem_cons, List.mem_append, List.mem_map] at hc
        rcases hc with rfl | rfl | ⟨i, -, rfl⟩ | rfl | ⟨p, -, rfl⟩
        · exact .inr (.inr (by simp))
        · exact .inr (.inr (by simp))
        · exact .inr (.inl ⟨_, rfl⟩)
        · exact .inr (.inr (by simp))
        · exact .inl ⟨_, _, rfl⟩
  rcases hcases with ⟨kind, i, rfl⟩ | ⟨i, rfl⟩ | hc
  · exact Iff.rfl
  · exact Iff.rfl
  · simp only [List.mem_cons, List.not_mem_nil, or_false] at hc
    rcases hc with rfl | rfl | rfl | rfl | rfl | rfl | rfl
    all_goals exact Iff.rfl

theorem not_readFailed_of_fails {c : Call} (h : firstFailure env (launchCalls env) = some c) :
    ¬ReadFailed env := by
  rintro ⟨-, hnone, -⟩
  rw [h] at hnone
  cases hnone

theorem meets_clMain (env : Env) : Meets (clMain env) World.init
    (fun r w => r = (if Found env then 0 else -1) ∧ ¬NoDevice env ∧
      firstFailure env (mainCalls env) = none ∧
        (Found env → ∀ i < env.devices, env.status (.enqueueRead i) = 0) ∧
          Holds w.log fun _ => False)
    (fun e w => Fails env (mainCalls env) (Midway kinds env.devices) (Leak env) e w ∧
        ¬ReadFailed env ∨
      (NoDevice env ∨ ReadFailed env) ∧ e = .undefined ∧ ∃ P, Holds w.log P) := by
  have ho : order.Nodup := by decide
  have hperm : ∀ kind, kind ∈ kinds ↔ kind ∈ order := fun kind => by cases kind <;> decide
  unfold clMain initOpencl
  refine meets_bind ((meets_initOpencl (by decide) ho hperm).mono ?_ fun e w hX => ?_)
  rotate_left
  · rcases hX with hX | ⟨hno, he, hlog⟩
    · obtain ⟨c, hc, -⟩ := id hX
      refine .inl ⟨?_, not_readFailed_of_fails (c := c) ?_⟩
      · rw [mainCalls, launchCalls, List.append_assoc]
        exact hX.mono (fun _ _ => Iff.rfl) (fun c hc => initLeak_iff hc) _
      · rw [launchCalls, firstFailure, List.find?_append, ← firstFailure, hc, Option.some_or]
    · exact .inr ⟨.inl hno, he, _, hlog⟩
  rintro r w ⟨hinit, rfl, hfalse, htrue⟩
  by_cases hfound : Found env
  · obtain ⟨hw, hn⟩ := htrue (decide_eq_true hfound)
    have hr : Ready order w := fun i hi kind hkind => by
      rw [hw.done (i, kind) (mem_slots.2 ⟨hn ▸ hi, (hperm kind).2 hkind⟩)]
      exact Handle.noConfusion
    have hnone : ∀ o, False ↔ Enqueued env 0 o := fun o => by simp [Enqueued]
    have hlaunch : firstFailure env (launchCalls env) =
        firstFailure env ((List.range env.devices).flatMap enqueueCalls) := by
      rw [launchCalls, if_pos hfound, firstFailure_append_of_ok (firstFailure_eq_none_iff.1 hinit)]
    have hmain : mainCalls env = initCalls kinds env ++
        ((List.range env.devices).flatMap enqueueCalls ++ profileCalls env.devices) := by
      rw [mainCalls, launchCalls, if_pos hfound, if_pos hfound, List.append_assoc]
    simp only [hfound, decide_true, Bool.not_true, Bool.false_eq_true, if_true, if_false]
    -- `init_problem` finds its devices: `init_opencl` has read the first one
    refine meets_bind (meets_get ?_)
    rw [if_neg (hn ▸ hfound.2)]
    refine meets_bind ((meets_runEvents ⟨hw.inv.congr hnone, hr, hn⟩).mono ?_ ?_)
    · rintro _ w₁ ⟨⟨hw₁, hr₁⟩, hok, hread⟩
      refine meets_bind ((meets_cleanup hw₁ ho).mono ?_ ?_)
      · rintro _ w₂ ⟨-, hlog⟩
        refine meets_pure ⟨rfl, fun h => hfound.2 h.2.1, ?_, fun _ => hread, hlog⟩
        rw [hmain, firstFailure_append_of_ok (firstFailure_eq_none_iff.1 hinit)]
        exact firstFailure_eq_none_iff.2 hok
      · rintro e w₂ ⟨-, hnr, -⟩
        exact absurd hr₁ hnr
    · rintro e w₁ (⟨hX, hread⟩ | ⟨hok, hread, he⟩)
      · refine .inl ⟨hmain ▸ hX.append_of_ok hinit, ?_⟩
        rintro ⟨-, h, i, hi, hne⟩
        exact hne (hread (hlaunch ▸ h) i hi)
      · exact .inr ⟨.inr ⟨hfound, hlaunch ▸ hok, hread⟩, he⟩
  · obtain ⟨hno, -, hlog⟩ := hfalse (decide_eq_false hfound)
    simp only [hfound, decide_false, Bool.not_false, if_true, if_false]
    refine meets_pure ⟨rfl, fun h => Bool.false_ne_true (hno.symm.trans h.1), ?_,
      fun h => h.elim, ?_⟩
    · rw [mainCalls, launchCalls, if_neg hfound, if_neg hfound, List.append_nil, List.append_nil]
      exact hinit
    · rw [hlog]
      exact holds_nil

end Simd
