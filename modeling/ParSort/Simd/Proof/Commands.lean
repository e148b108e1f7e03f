import ParSort.Aocl.Proof.Quiet
import ParSort.Simd.Proof.Host
import ParSort.Simd.Proof.Problem

/-!
# From the objects of `cl_run` to its commands

`Simd/Host.lean` says which events the default mode creates, `Simd/Cl.lean` what the commands of
these events compute. When a run returns, the events it has created are those of the calls of
`cl_run` and in their order (`hostCalls_eq`). So its check finds the sums, however the devices have
proceeded, if `clWaitForEvents` has succeeded (`clMain_sums`); if it has failed, nothing holds the
check back until they are there (`clMain_unwaited`).
-/

namespace Simd

open Aocl Conc Machine Resource

section
variable (add : F32 → F32 → F32) (n : Nat → Nat)

/-- The call of `cl_run` that creates an event. -/
def command : Ledger.Event Object → Option (Queue.Call ClCell F32)
  | .acquire (.event i e) => (launchDevice add i (n i))[e]?
  | _ => none

/-- The calls of a run, by the events it has created. -/
def commands (w : World) : List (Queue.Call ClCell F32) := w.log.filterMap (command add n)

/-- The events whose commands are complete when a run comes to its check: those of the reads, or
if `clWaitForEvents` has failed those of the kernels, which have a profile only then. -/
def awaited (env : Env) : List Nat :=
  (List.range env.devices).map (if env.status .waitForEvents = 0 then finishEvent else kernelEvent)

/-- The calls of a run up to its check, as the queues see them. -/
def hostCalls (env : Env) (w : World) : List (Queue.Call ClCell F32) :=
  commands add n w ++ [.waitForEvents (awaited env)]

end

section
variable {env : Env} {w : World}

/-- A call that creates its object. -/
theorem meets_created {α : Type} {c : Call} {o : Object} {k : Handle → Host α}
    {Q : α → World → Prop} {X : Stop → World → Prop} (h : env.status c = 0)
    (hk : Meets (k (.object o)) { w with log := w.log ++ [.acquire o] } Q X) :
    Meets (newObject env c o >>= k) w Q X :=
  meets_bind (meets_newObject (fun _ => hk) fun hne => absurd h hne)

theorem meets_checked {α : Type} {c : Call} {k : Host α} {Q : α → World → Prop}
    {X : Stop → World → Prop} (h : env.status c = 0) (hk : Meets k w Q X) :
    Meets (checkError order (env.status c) >>= fun _ => k) w Q X :=
  meets_bind (meets_checkError_of_ok h hk)

theorem quiet_waitForEvents (events : List Handle) : Quiet (waitForEvents env events) := by
  refine quiet_bind (quiet_forM fun event => ?_) fun _ => quiet_pure _
  cases event with
  | uninitialised => exact quiet_throw _
  | null => exact quiet_pure _
  | object o => exact quiet_pure _

section
variable {add : F32 → F32 → F32} {n : Nat → Nat}

theorem commands_release {o : Object} :
    commands add n { w with log := w.log ++ [.release o] } = commands add n w := by
  rw [commands, List.filterMap_append]
  exact List.append_nil _

theorem commands_acquire {i e : Nat} {call : Queue.Call ClCell F32}
    (h : (launchDevice add i (n i))[e]? = some call) :
    commands add n { w with log := w.log ++ [.acquire (.event i e)] } =
      commands add n w ++ [call] := by
  have hone : [Ledger.Event.acquire (Object.event i e)].filterMap (command add n) = [call] :=
    List.filterMap_cons_some h
  rw [commands, List.filterMap_append, hone, commands]

end

variable (add : F32 → F32 → F32) (n : Nat → Nat)

theorem meets_quiet {α : Type} {x : Host α} (hx : Quiet x) : Meets x w
    (fun _ w' => commands add n w' = commands add n w) fun _ _ => True := by
  refine (hx w).mono ?_ fun _ _ h => h
  rintro _ w' ⟨log, hlog, hno⟩
  have hnone : log.filterMap (command add n) = [] := by
    refine List.filterMap_eq_nil_iff.2 fun event hevent => ?_
    match event with
    | .acquire (.event i e) => exact absurd hevent (hno i e)
    | .acquire .context => rfl
    | .acquire .program => rfl
    | .acquire (.slot _ _) => rfl
    | .acquire (.buffer _) => rfl
    | .release _ => rfl
  rw [commands, hlog, List.filterMap_append, hnone, List.append_nil, commands]

/-- An iteration of `cl_run` makes the four calls for its device. -/
theorem meets_enqueue_commands {i : Nat} (hok : ∀ c ∈ enqueueCalls i, env.status c = 0)
    (hread : env.status (.enqueueRead i) = 0) : Meets (enqueue env i) w
      (fun _ w' => commands add n w' = commands add n w ++ launchDevice add i (n i))
      fun _ _ => True := by
  have hwrite : ∀ e < 2, env.status (.enqueueWrite i e) = 0 := fun e he => by
    obtain rfl | rfl : e = 0 ∨ e = 1 := by omega
    · exact hok _ (.head _)
    · exact hok _ (.tail _ (.head _))
  have hkernel : env.status (.enqueueKernel i) = 0 := hok _ (by simp [enqueueCalls])
  unfold enqueue
  refine meets_created (hwrite 0 (by decide)) (meets_checked (hwrite 0 (by decide)) ?_)
  refine meets_created (hwrite 1 (by decide)) (meets_checked (hwrite 1 (by decide)) ?_)
  refine meets_bind ((meets_quiet add n (quiet_forM fun _ => quiet_checkError _)).mono ?_
    fun _ _ h => h)
  rintro _ w' hw'
  refine meets_created hkernel (meets_checked hkernel (meets_created hread ?_))
  refine meets_bind (meets_modify (meets_modify ?_))
  rw [commands_release, commands_release, commands_acquire (e := 3) rfl,
    commands_acquire (e := 2) rfl, hw', commands_acquire (e := 1) rfl,
    commands_acquire (e := 0) rfl]
  simp [launchDevice]

/-- What `cl_run` enqueues for the devices of `l`. -/
theorem meets_enqueues_commands {l : List Nat}
    (hok : ∀ c ∈ l.flatMap enqueueCalls, env.status c = 0)
    (hread : ∀ i ∈ l, env.status (.enqueueRead i) = 0) :
    Meets (l.forM (enqueue env)) w (fun _ w' => commands add n w' =
      commands add n w ++ l.flatMap fun i => launchDevice add i (n i)) fun _ _ => True := by
  refine meets_forM (I := fun done _ w' => commands add n w' = commands add n w ++
    done.flatMap fun i => launchDevice add i (n i)) ?_ (by simp)
  rintro done i todo rfl w₁ hw₁
  refine (meets_enqueue_commands add n (fun c hc => hok c ?_) (hread i ?_)).mono ?_
    fun _ _ h => h
  · simp [hc]
  · simp
  · rintro _ w₂ hw₂
    rw [hw₂, hw₁, List.flatMap_append, List.flatMap_singleton, List.append_assoc]

theorem meets_runEvents_commands (hn : w.numDevices = env.devices)
    (hok : ∀ c ∈ (List.range env.devices).flatMap enqueueCalls, env.status c = 0)
    (hread : ∀ i < env.devices, env.status (.enqueueRead i) = 0) :
    Meets (runEvents env) w (fun _ w' => commands add n w' = commands add n w ++
      (List.range env.devices).flatMap fun i => launchDevice add i (n i)) fun _ _ => True := by
  unfold runEvents
  refine meets_bind (meets_get ?_)
  rw [hn]
  refine meets_bind ((meets_enqueues_commands add n hok fun i hi =>
    hread i (List.mem_range.1 hi)).mono ?_ fun _ _ h => h)
  rintro _ w₁ hw₁
  rw [← hw₁]
  refine meets_quiet add n (quiet_bind (quiet_waitForEvents _) fun _ => quiet_bind ?_ fun _ => ?_)
  · exact quiet_forM fun i => quiet_forM fun _ => quiet_checkError _
  · exact quiet_forM fun i => quiet_bind (quiet_release _) fun _ => quiet_release _

theorem meets_clMain_commands (hfound : Found env) (hok : ∀ c ∈ mainCalls env, env.status c = 0)
    (hread : ∀ i < env.devices, env.status (.enqueueRead i) = 0) :
    Meets (clMain env) World.init (fun _ w => commands add n w =
      (List.range env.devices).flatMap fun i => launchDevice add i (n i)) fun _ _ => True := by
  have hperm : ∀ kind, kind ∈ kinds ↔ kind ∈ order := fun kind => by cases kind <;> decide
  rw [mainCalls, launchCalls, if_pos hfound] at hok
  unfold clMain Simd.initOpencl
  refine meets_bind (((meets_initOpencl (by decide) (by decide) hperm).and
    (meets_quiet add n quiet_initOpencl)).mono ?_ fun _ _ _ => trivial)
  rintro r w ⟨⟨-, rfl, -, htrue⟩, hinit⟩
  obtain ⟨-, hn⟩ := htrue (decide_eq_true hfound)
  simp only [hfound, decide_true, Bool.not_true, Bool.false_eq_true, if_false]
  refine meets_bind (meets_get ?_)
  rw [if_neg (hn ▸ hfound.2)]
  refine meets_bind ((meets_runEvents_commands add n hn (fun c hc => hok c ?_) hread).mono ?_
    fun _ _ h => h)
  · exact List.mem_append_left _ (List.mem_append_right _ hc)
  · rintro _ w₁ hw₁
    refine (meets_quiet add n (quiet_bind quiet_cleanup fun _ => quiet_pure _)).mono ?_
      fun _ _ h => h
    rintro _ w₂ hw₂
    rw [hw₂, hw₁, hinit]
    rfl

/-- **The calls of a run that goes through** are those of `cl_run`. -/
theorem hostCalls_eq (hrun : clMain env World.init = .ok 0 w) :
    0 < env.devices ∧ hostCalls add n env w = clCalls add env.devices n (awaited env) := by
  obtain ⟨hr, -, hnone, hread, -⟩ := (meets_clMain env).ok hrun
  have hfound : Found env := by
    by_contra hno
    rw [if_neg hno] at hr
    cases hr
  refine ⟨Nat.pos_of_ne_zero hfound.2, ?_⟩
  rw [hostCalls, (meets_clMain_commands add n hfound (firstFailure_eq_none_iff.1 hnone)
    (hread hfound)).ok hrun, clCalls]

end

/-! ## What the check finds -/

/-- `output` holds the sums of the `N` pairs that `init_problem` has drawn, and the check passes. -/
def Passed (add sub : F32 → F32 → F32) (randFloat : Nat → F32) (N k : Nat)
    (M : Mem ClCell F32) : Prop :=
  outputs k (nPerDevice N k) M = drawnSums add randFloat N ∧
    check sub M k (nPerDevice N k) 0 = .pass

/-- **End to end**: when the default mode returns 0 and `clWaitForEvents`, whose status it drops,
has succeeded, every run of the calls it has made, on what `init_problem` has drawn and on queues
that execute in order or not, is finite, never gets stuck and ends with the sums in `output`; they
are there, and the check passes, as soon as the host is through its calls. -/
theorem clMain_sums (env : Env) (w : World) (hrun : clMain env World.init = .ok 0 w)
    (hwait : env.status .waitForEvents = 0) (add sub : F32 → F32 → F32) (hsub : SubSelf sub)
    (randFloat : Nat → F32) (N : Nat) (hN : N ≤ 2 ^ 31) (inOrder : Bool) (M : Mem ClCell F32) :
    ∃ p host, initProblem add randFloat env.devices (nPerDevice N env.devices) = .ok p ∧
      host = hostCalls add (nPerDevice N env.devices) env w ∧ p.Always (fun M₁ =>
        Queue.Always inOrder host (Passed add sub randFloat N env.devices) (.init host M₁) ∧
          ∀ s, Queue.Reaches inOrder host (.init host M₁) s → s.pc = host.length →
            Passed add sub randFloat N env.devices s.mem) M := by
  obtain ⟨hk, hcalls⟩ := hostCalls_eq add (nPerDevice N env.devices) hrun
  rw [awaited, if_pos hwait] at hcalls
  have hn : ∀ i < env.devices, nPerDevice N env.devices i ≤ 2 ^ 31 := fun i hi =>
    (nPerDevice_le hk hi).trans hN
  obtain ⟨p, hp, hdrawn⟩ := initProblem_drawn add randFloat hn hk
  refine ⟨p, _, hp, hcalls.symm, (hdrawn M).mono fun M₁ h => ?_⟩
  have hend : Queue.Always inOrder (clRun add env.devices (nPerDevice N env.devices))
      (Passed add sub randFloat N env.devices)
        (.init (clRun add env.devices (nPerDevice N env.devices)) M₁) := by
    have hend := clRun_drawn hsub hn inOrder h
    rwa [before_nPerDevice_total hk] at hend
  refine ⟨hend, fun s hs hpc => ?_⟩
  rw [clCalls_length] at hpc
  obtain ⟨hall, -⟩ := clRun_waited hn hs (by omega)
  exact (hend.of_reaches hs).of_final ⟨by rw [hpc]; exact clCalls_length.symm, hall⟩

/-- `1.0f + 1.0f`, three times on two devices. -/
theorem clMain_sums_two : ∃ w, clMain ⟨true, true, 2, fun _ => 0⟩ World.init = .ok 0 w ∧
    ∃ p host, initProblem (fun _ _ => ⟨0x40000000⟩) (fun _ => ⟨0x3F800000⟩) 2 (nPerDevice 3 2) =
        .ok p ∧
      host = hostCalls (fun _ _ => ⟨0x40000000⟩) (nPerDevice 3 2) ⟨true, true, 2, fun _ => 0⟩ w ∧
      p.Always (fun M₁ => Queue.Always false host
          (Passed (fun _ _ => ⟨0x40000000⟩) subSelf (fun _ => ⟨0x3F800000⟩) 3 2) (.init host M₁) ∧
        ∀ s, Queue.Reaches false host (.init host M₁) s → s.pc = host.length →
          Passed (fun _ _ => ⟨0x40000000⟩) subSelf (fun _ => ⟨0x3F800000⟩) 3 2 s.mem)
        fun _ => ⟨0⟩ :=
  ⟨_, rfl, clMain_sums ⟨true, true, 2, fun _ => 0⟩ _ rfl rfl (fun _ _ => ⟨0x40000000⟩) subSelf
    subSelf_spec (fun _ => ⟨0x3F800000⟩) 3 (by decide) false fun _ => ⟨0⟩⟩

section
variable {add : F32 → F32 → F32} {n : Nat → Nat} {k : Nat}

/-- Nothing waits for a read but `clWaitForEvents`. -/
theorem unawaited_reads {inOrder : Bool} :
    Queue.Unawaited inOrder (clCalls add k n ((List.range k).map kernelEvent))
      fun j => j % 4 == 3 := by
  rintro c j hj
  have hj3 : j % 4 = 3 := eq_of_beq hj
  by_cases hc : c < 4 * k
  · obtain ⟨i, hi, r, hr, rfl⟩ := exists_place hc
    obtain ⟨cmd, hcmd, hqueue, hwaits⟩ := exists_command add i (n i) hr
    refine ⟨fun hwait => ?_, ?_⟩
    · rw [Queue.HostWaits, clCalls_getElem? hi hr, hcmd] at hwait
      exact hwait
    · rintro ⟨cmd', hcmd', hwait | ⟨-, hlt, cmd'', hcmd'', hqueue'⟩⟩
      all_goals
        obtain rfl := Option.some.inj ((command?_clCalls hi hr hcmd).symm.trans hcmd')
      · exact absurd hj3 (hwaits j hwait)
      · -- the read is the last command of its queue
        obtain ⟨i', hi', r', hr', rfl⟩ := exists_device (Option.isSome_of_eq_some hcmd'')
        obtain ⟨cmd₃, hcmd₃, hqueue₃, -⟩ := exists_command add i' (n i') hr'
        obtain rfl := Option.some.inj ((command?_clCalls hi' hr' hcmd₃).symm.trans hcmd'')
        omega
  · have hnone : Queue.command? (clCalls add k n ((List.range k).map kernelEvent)) c = none := by
      by_contra hne
      obtain ⟨i, hi, r, hr, rfl⟩ := exists_device (Option.isSome_iff_ne_none.2 hne)
      omega
    refine ⟨fun hwait => ?_, ?_⟩
    · rcases Nat.eq_or_lt_of_le (Nat.not_lt.1 hc) with rfl | hlt
      · rw [Queue.HostWaits, clCalls_last] at hwait
        obtain ⟨i, -, rfl⟩ := List.mem_map.1 hwait
        rw [kernelEvent] at hj3
        omega
      · rw [Queue.HostWaits, List.getElem?_eq_none (by rw [clCalls_length]; omega)] at hwait
        exact hwait
    · rintro ⟨cmd, hcmd, -⟩
      rw [hnone] at hcmd
      cases hcmd

/-- All calls but the reads store to the devices alone. -/
theorem progAt_frame (hn : ∀ i < k, n i ≤ 2 ^ 31) {j : Nat} (hj : j < 4 * k + 1)
    (hread : j % 4 ≠ 3) (m : Mem ClCell F32) {c : ClCell} (hc : ∀ b, c ≠ .buffer b) :
    (Queue.progAt (clCalls add k n ((List.range k).map kernelEvent)) j).exec m c = m c := by
  by_cases hj : j < 4 * k
  · obtain ⟨i, hi, r, hr, rfl⟩ := exists_place hj
    rw [Queue.progAt, clCalls_getElem? hi hr]
    obtain rfl | rfl | rfl : r = 0 ∨ r = 1 ∨ r = 2 := by omega
    · exact writeBuffer_frame m fun _ _ => hc _
    · exact writeBuffer_frame m fun _ _ => hc _
    · exact ndRange_frame (hn i hi) m fun _ _ => hc _
  · obtain rfl : j = 4 * k := by omega
    rw [Queue.progAt, clCalls_last]
    rfl

/-- A run in which the host gets to the check before any read has started. -/
theorem reaches_unread (add : F32 → F32 → F32) (hn : ∀ i < k, n i ≤ 2 ^ 31) (inOrder : Bool)
    (M : Mem ClCell F32) :
    ∃ s, Queue.Reaches inOrder (clCalls add k n ((List.range k).map kernelEvent))
        (.init (clCalls add k n ((List.range k).map kernelEvent)) M) s ∧
      s.pc = 4 * k + 1 ∧
      (∀ i < k, s.status (kernelEvent i) = .complete ∧ s.status (finishEvent i) = .queued) ∧
        ∀ c, (∀ b, c ≠ .buffer b) → s.mem c = M c := by
  have hw : Queue.WellFormed inOrder (clCalls add k n ((List.range k).map kernelEvent)) := by
    refine clCalls_wellFormed fun j hj => ?_
    obtain ⟨i, hi, rfl⟩ := List.mem_map.1 hj
    have := List.mem_range.1 hi
    rw [kernelEvent]
    omega
  have hkernel : ∀ i < k, kernelEvent i < (clCalls add k n ((List.range k).map
      kernelEvent)).length ∧ (kernelEvent i % 4 == 3) = false := fun i hi => by
    refine ⟨?_, beq_eq_false_iff_ne.2 ?_⟩
    · rw [clCalls_length, kernelEvent]
      omega
    · rw [kernelEvent]
      omega
  have hfinish : ∀ i < k, (finishEvent i % 4 == 3) = true ∧
      Queue.command? (clCalls add k n ((List.range k).map kernelEvent)) (finishEvent i) ≠ none :=
    fun i hi => by
      refine ⟨beq_iff_eq.2 ?_, ?_⟩
      · rw [finishEvent]
        omega
      · rw [finishEvent, command?_clCalls hi (r := 3) (by decide) rfl]
        exact Option.some_ne_none _
  refine ⟨_, Queue.reaches_upTo hw unawaited_reads (Nat.le_refl _) (Prog.steps_exec _ M),
    clCalls_length, fun i hi => ⟨if_pos (.inl (hkernel i hi)), if_neg ?_⟩, fun c hc => ?_⟩
  · obtain ⟨hlate, hsome⟩ := hfinish i hi
    exact not_or.2 ⟨fun h => Bool.noConfusion (hlate.symm.trans h.2), hsome⟩
  · refine Prog.exec_forEach_induction (I := fun m => m c = M c) (fun j hj m hm => ?_) rfl
    obtain ⟨hlt, hread⟩ := List.mem_filter.1 hj
    rw [List.mem_range, clCalls_length] at hlt
    exact (progAt_frame hn hlt (by simpa using hread) m hc).trans hm

end

/-- **Without the wait**: when the default mode returns 0 although `clWaitForEvents`, whose status
it drops, has failed, its calls have a run in which every kernel is complete, so that its profile
is there, but no read has started when the host comes to its check: what that compares with the
reference is what `output` held before the program. -/
theorem clMain_unwaited (env : Env) (w : World) (hrun : clMain env World.init = .ok 0 w)
    (hwait : env.status .waitForEvents ≠ 0) (add : F32 → F32 → F32) (randFloat : Nat → F32)
    (N : Nat) (hN : N ≤ 2 ^ 31) (inOrder : Bool) (M : Mem ClCell F32) :
    ∃ p host, initProblem add randFloat env.devices (nPerDevice N env.devices) = .ok p ∧
      host = hostCalls add (nPerDevice N env.devices) env w ∧ p.Always (fun M₁ =>
        ∃ s, Queue.Reaches inOrder host (.init host M₁) s ∧ s.pc = host.length ∧
          (∀ i < env.devices, s.status (kernelEvent i) = .complete ∧
            s.status (finishEvent i) = .queued) ∧
          (∀ c, (∀ b, c ≠ .buffer b) → s.mem c = M₁ c) ∧
            outputs env.devices (nPerDevice N env.devices) s.mem =
              outputs env.devices (nPerDevice N env.devices) M) M := by
  obtain ⟨hk, hcalls⟩ := hostCalls_eq add (nPerDevice N env.devices) hrun
  rw [awaited, if_neg hwait] at hcalls
  have hn : ∀ i < env.devices, nPerDevice N env.devices i ≤ 2 ^ 31 := fun i hi =>
    (nPerDevice_le hk hi).trans hN
  obtain ⟨p, hp, hsame⟩ := initProblem_output add randFloat (nPerDevice N env.devices) hk
  refine ⟨p, _, hp, hcalls.symm, (hsame M).mono fun M₁ h => ?_⟩
  obtain ⟨s, hs, hpc, hstatus, hmem⟩ := reaches_unread add hn inOrder M₁
  refine ⟨s, hs, hpc.trans clCalls_length.symm, hstatus, hmem, ?_⟩
  refine List.flatMap_congr fun i _ => List.map_congr_left fun j _ => ?_
  rw [hmem _ (by simp), h]

/-- `clWaitForEvents` returns `CL_INVALID_EVENT`. -/
theorem clMain_unwaited_one :
    ∃ w, clMain ⟨true, true, 1, fun c => if c = .waitForEvents then -58 else 0⟩ World.init =
        .ok 0 w ∧
      ∃ p host, initProblem (fun x _ => x) (fun _ => ⟨0x3F800000⟩) 1 (nPerDevice 3 1) = .ok p ∧
        host = hostCalls (fun x _ => x) (nPerDevice 3 1)
          ⟨true, true, 1, fun c => if c = .waitForEvents then -58 else 0⟩ w ∧
        p.Always (fun M₁ => ∃ s, Queue.Reaches true host (.init host M₁) s ∧ s.pc = host.length ∧
          (∀ i < 1, s.status (kernelEvent i) = .complete ∧ s.status (finishEvent i) = .queued) ∧
          (∀ c, (∀ b, c ≠ .buffer b) → s.mem c = M₁ c) ∧
            outputs 1 (nPerDevice 3 1) s.mem = outputs 1 (nPerDevice 3 1) fun _ => ⟨0⟩)
          fun _ => ⟨0⟩ :=
  ⟨_, rfl, clMain_unwaited ⟨true, true, 1, fun c => if c = .waitForEvents then -58 else 0⟩ _ rfl
    (by decide) (fun x _ => x) (fun _ => ⟨0x3F800000⟩) 3 (by decide) true fun _ => ⟨0⟩⟩

end Simd
