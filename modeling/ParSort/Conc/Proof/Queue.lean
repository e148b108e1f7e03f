import Mathlib.Algebra.Order.BigOperators.Group.Finset
import ParSort.Conc.Proof.Commute

/-!
# Command queues against their sequential program

* `Inv`: what every configuration that a run reaches keeps. `Inv.before`: a command that has started
  finds every command ordered before it complete.
* `Step.refines`: what is left to execute in a configuration, taken in the order of the host
  program, ends only where it could end before the step. The step of a running command is moved
  behind the commands that the host has enqueued earlier: those ordered before it are complete, the
  others are apart from it.
* `always_iff`: when the commands that no run orders are apart, **every run** of the queues ends
  with `Q` exactly when every interleaving of `sequential` does.
-/

namespace Conc.Queue

open Prog (Steps forEach parEach)

variable {A V : Type} {inOrder : Bool} {host : List (Call A V)} {s s' : Config A V}

/-! ## The order of the commands -/

theorem command?_eq_none {k : Nat} (hk : host.length ≤ k) : command? host k = none := by
  rw [command?, List.getElem?_eq_none hk]

theorem progAt_of_eq_none {k : Nat} (h : command? host k = none) : progAt host k = .done := by
  unfold command? at h
  unfold progAt
  cases hk : host[k]? with
  | none => rfl
  | some call =>
    rw [hk] at h
    cases call with
    | enqueue c => cases h
    | waitForEvents events => rfl
    | finish q => rfl

theorem CommandWaits.isSome {k j : Nat} (h : CommandWaits inOrder host k j) :
    (command? host k).isSome := by
  obtain ⟨c, hc, -⟩ := h
  rw [hc]
  rfl

theorem Before.isSome {j k : Nat} (h : Before inOrder host j k) : (command? host k).isSome := by
  induction h with
  | command h => exact h.isSome
  | host _ _ h => exact h
  | trans _ _ _ ih => exact ih

/-! ## The invariant -/

/-- What a run keeps. -/
structure Inv (inOrder : Bool) (host : List (Call A V)) (s : Config A V) : Prop where
  pc_le : s.pc ≤ host.length
  /-- A call that enqueues nothing counts as complete. -/
  idle : ∀ k, command? host k = none → s.status k = .complete
  /-- The host has got past a call only with its events complete. -/
  waited : ∀ h j, h < s.pc → HostWaits host h j → s.status j = .complete
  /-- A command has started only after its call, -/
  called : ∀ k, (command? host k).isSome → s.status k ≠ .queued → k < s.pc
  /-- and only with its events complete. -/
  started : ∀ k j, s.status k ≠ .queued → CommandWaits inOrder host k j → s.status j = .complete
  within : ∀ k p, s.status k = .running p → ∀ S, (progAt host k).Within S → p.Within S

theorem Inv.init (m : Mem A V) : Inv inOrder host (.init host m) where
  pc_le := Nat.zero_le _
  idle k hk := by simp [Config.init, hk]
  waited h j hh := absurd hh (Nat.not_lt_zero _)
  called k hk hs := by simp [Config.init, hk] at hs
  started k j hs hw := by simp [Config.init, hw.isSome] at hs
  within k p h := by
    simp only [Config.init] at h
    split at h <;> cases h

theorem update_of_status_ne {t : Nat → Status A V} {j k : Nat} {u : Status A V}
    (h : t j ≠ t k) : Function.update t k u j = t j :=
  Function.update_of_ne (fun e => h (congrArg t e)) _ _

/-- **A command that has started** finds every command ordered before it complete. -/
theorem Inv.before (hs : Inv inOrder host s) {j k : Nat} (h : Before inOrder host j k)
    (hk : s.status k ≠ .queued) : s.status j = .complete := by
  induction h with
  | command h => exact hs.started _ _ hk h
  | host hw hlt hsome => exact hs.waited _ _ (Nat.lt_trans hlt (hs.called _ hsome hk)) hw
  | trans _ _ ih₁ ih₂ =>
    refine ih₁ ?_
    rw [ih₂ hk]
    exact fun h => by cases h

/-! ## What is left to execute -/

/-- What is left of command `k`. -/
def residual (host : List (Call A V)) (s : Config A V) (k : Nat) : Prog A V :=
  match s.status k with
  | .queued => progAt host k
  | .running p => p
  | .complete => .done

/-- What is left of all commands, in the order of their calls. -/
def rest (host : List (Call A V)) (s : Config A V) : Prog A V :=
  forEach (List.range host.length) (residual host s)

theorem forEach_progAt (host : List (Call A V)) :
    forEach (List.range host.length) (progAt host) = sequential host := by
  induction host using List.reverseRecOn with
  | nil => rfl
  | append_singleton l c ih =>
    rw [List.length_append, List.length_singleton, List.range_succ, Prog.forEach_append, sequential,
      Prog.forEach_append, ← sequential, ← ih]
    congr 1
    · refine Prog.forEach_congr fun k hk => ?_
      rw [progAt, progAt, List.getElem?_append_left (List.mem_range.1 hk)]
    · simp [progAt]

theorem rest_init (m : Mem A V) : rest host (.init host m) = sequential host := by
  have h : residual host (.init host m) = progAt host := by
    funext k
    cases hk : command? host k with
    | none => simp [residual, Config.init, hk, progAt_of_eq_none hk]
    | some c => simp [residual, Config.init, hk]
  rw [rest, h, forEach_progAt]

theorem residual_start {k : Nat} (hk : s.status k = .queued) :
    residual host { s with status := Function.update s.status k (.running (progAt host k)) } =
      residual host s := by
  funext j
  by_cases e : j = k
  · simp [residual, e, hk]
  · simp [residual, Function.update_of_ne e]

theorem residual_complete {k : Nat} (hk : s.status k = .running .done) :
    residual host { s with status := Function.update s.status k .complete } = residual host s := by
  funext j
  by_cases e : j = k
  · simp [residual, e, hk]
  · simp [residual, Function.update_of_ne e]

theorem residual_run {k : Nat} {p' : Prog A V} {m' : Mem A V} :
    residual host { s with status := Function.update s.status k (.running p'), mem := m' } =
      Function.update (residual host s) k p' := by
  funext j
  by_cases e : j = k
  · simp [residual, e]
  · simp [residual, Function.update_of_ne e]

theorem rest_of_complete (h : ∀ k, s.status k = .complete) : rest host s = .done :=
  Prog.forEach_eq_done fun k _ => by simp [residual, h k]

theorem Inv.lt_length (hs : Inv inOrder host s) {k : Nat} {p : Prog A V}
    (hk : s.status k = .running p) : k < host.length := by
  by_contra hge
  rw [hs.idle k (command?_eq_none (Nat.not_lt.1 hge))] at hk
  cases hk

theorem Inv.isSome (hs : Inv inOrder host s) {k : Nat} {p : Prog A V}
    (hk : s.status k = .running p) : (command? host k).isSome := by
  by_contra hnone
  rw [hs.idle k (by simpa using hnone)] at hk
  cases hk

/-- What is left of the commands enqueued before a running one is apart from it. -/
theorem Inv.apart (hs : Inv inOrder host s) (ho : Ordered inOrder host) {j k : Nat}
    {p : Prog A V} (hk : s.status k = .running p) (hj : j < k) :
    Apart (residual host s j) p := by
  have hsome := hs.isSome hk
  obtain hb | ⟨S, T, hd, hS, hT⟩ := ho k j hj hsome
  · have hdone : s.status j = .complete := hs.before hb fun e => by
      rw [hk] at e
      cases e
    rw [residual, hdone]
    exact .done p
  · refine ⟨S, T, hd, ?_, hs.within k p hk T hT⟩
    unfold residual
    split
    · exact hS
    · rename_i q hq
      exact hs.within j q hq S hS
    · trivial

/-! ## What a run uses up -/

/-- How many times the status of a command can still change. -/
def Status.weight : Status A V → Nat
  | queued => 2
  | running _ => 1
  | complete => 0

/-- How many calls the host has left and how many changes of status the commands. -/
def weight (host : List (Call A V)) (s : Config A V) : Nat :=
  (host.length - s.pc) + ∑ k ∈ Finset.range host.length, (s.status k).weight

theorem weight_update {k : Nat} (hk : k < host.length) {t : Status A V}
    (ht : t.weight < (s.status k).weight) :
    weight host { s with status := Function.update s.status k t } < weight host s := by
  refine Nat.add_lt_add_left (Finset.sum_lt_sum (fun j _ => ?_) ⟨k, Finset.mem_range.2 hk, ?_⟩) _
  · by_cases e : j = k
    · subst e
      simpa only [Function.update_self] using Nat.le_of_lt ht
    · simp only [Function.update_of_ne e, le_refl]
  · simpa only [Function.update_self] using ht

/-- The commands as threads that nothing orders: a step of one of them is a step of this program. -/
def threads (host : List (Call A V)) (s : Config A V) : Prog A V :=
  parEach (List.range host.length) (residual host s)

/-! ## Hosts that keep one order -/

/-- The events a call names. -/
def Call.events : Call A V → List Nat
  | enqueue c => c.waitList
  | waitForEvents events => events
  | finish _ => []

/-- The calls at `k`, `k + 1`, … name earlier events only. -/
def EventsBefore : Nat → List (Call A V) → Prop
  | _, [] => True
  | k, call :: calls => (∀ j ∈ call.events, j < k) ∧ EventsBefore (k + 1) calls

theorem eventsBefore_append {k : Nat} {l l' : List (Call A V)} :
    EventsBefore k (l ++ l') ↔ EventsBefore k l ∧ EventsBefore (k + l.length) l' := by
  induction l generalizing k with
  | nil => simp [EventsBefore]
  | cons call l ih =>
    rw [List.cons_append, EventsBefore, EventsBefore, ih, List.length_cons, and_assoc,
      show k + 1 + l.length = k + (l.length + 1) by omega]

theorem eventsBefore_of_eq_nil {k : Nat} {l : List (Call A V)} (h : ∀ call ∈ l, call.events = []) :
    EventsBefore k l := by
  induction l generalizing k with
  | nil => trivial
  | cons call l ih =>
    refine ⟨fun j hj => ?_, ih fun c hc => h c (.tail _ hc)⟩
    rw [h call (.head _)] at hj
    cases hj

theorem EventsBefore.of_getElem? {k i : Nat} {l : List (Call A V)} {call : Call A V}
    (h : EventsBefore k l) (hi : l[i]? = some call) : ∀ j ∈ call.events, j < k + i := by
  induction l generalizing k i with
  | nil => cases hi
  | cons c l ih =>
    obtain ⟨hc, hl⟩ := h
    cases i with
    | zero =>
      obtain rfl : c = call := Option.some.inj hi
      exact hc
    | succ i =>
      intro j hj
      have := ih hl hi j hj
      omega

theorem wellFormed_of_eventsBefore (h : EventsBefore 0 host) : WellFormed inOrder host := by
  have hlt : ∀ k (call : Call A V), host[k]? = some call → ∀ j ∈ call.events, j < k :=
    fun k call hk j hj => by simpa using h.of_getElem? hk j hj
  rintro k j (⟨c, hc, hj⟩ | hj)
  · unfold command? at hc
    split at hc
    · rename_i c' hc'
      obtain rfl : c' = c := Option.some.inj hc
      rcases hj with hj | ⟨-, hj, -⟩
      · exact hlt k _ hc' j hj
      · exact hj
    · cases hc
  · unfold HostWaits at hj
    split at hj
    · exact hlt k (.waitForEvents _) ‹_› j hj
    · exact hj.1
    · exact hj.elim

theorem mem_of_command? {k : Nat} {c : Command A V} (h : command? host k = some c) :
    .enqueue c ∈ host := by
  unfold command? at h
  split at h
  · rename_i c' hc'
    obtain rfl : c' = c := Option.some.inj h
    exact List.mem_of_getElem? hc'
  · cases h

/-- Commands on one queue that executes in order need no events. -/
theorem ordered_of_queue {q : Nat} (h : ∀ c, .enqueue c ∈ host → c.queue = q) :
    Ordered true host := by
  intro k j hj hk
  cases hc : command? host j with
  | none =>
    rw [progAt_of_eq_none hc]
    exact .inr (.done _)
  | some d =>
    obtain ⟨c, hck⟩ := Option.isSome_iff_exists.1 hk
    have hq : d.queue = c.queue := (h d (mem_of_command? hc)).trans (h c (mem_of_command? hck)).symm
    exact .inl (.command ⟨c, hck, .inr ⟨rfl, hj, d, hc, hq⟩⟩)

/-- Each command is ordered after the one enqueued last before it. -/
theorem ordered_of_chain (h : ∀ k, (command? host k).isSome → (∀ j < k, command? host j = none) ∨
    ∃ i < k, Before inOrder host i k ∧ (command? host i).isSome ∧
      ∀ j, i < j → j < k → command? host j = none) : Ordered inOrder host := by
  have hall : ∀ k, (command? host k).isSome → ∀ j < k, command? host j = none ∨
      Before inOrder host j k := by
    intro k
    induction k using Nat.strong_induction_on with
    | _ k ih =>
      intro hk j hj
      obtain hnone | ⟨i, hik, hb, hi, hnone⟩ := h k hk
      · exact .inl (hnone j hj)
      · rcases Nat.lt_trichotomy j i with hlt | rfl | hgt
        · exact (ih i hik hi j hlt).imp_right fun hji => hji.trans hb
        · exact .inr hb
        · exact .inl (hnone j hgt hj)
  intro k j hj hk
  rcases hall k hk j hj with hnone | hb
  · rw [progAt_of_eq_none hnone]
    exact .inr (.done _)
  · exact .inl hb

/-! ## Steps -/

section
variable [DecidableEq A]

/-- A complete command stays complete. -/
theorem Step.complete_mono (h : Step inOrder host s s') {j : Nat} (hj : s.status j = .complete) :
    s'.status j = .complete := by
  cases h with
  | call => exact hj
  | start _ hk => exact (update_of_status_ne (by simp [hj, hk])).trans hj
  | run hk => exact (update_of_status_ne (by simp [hj, hk])).trans hj
  | complete hk => exact (update_of_status_ne (by simp [hj, hk])).trans hj

/-- A command started by a step had its call made and its events complete. -/
theorem Step.started (h : Step inOrder host s s') {k : Nat} (hk : s.status k = .queued)
    (hk' : s'.status k ≠ .queued) :
    k < s'.pc ∧ ∀ j, CommandWaits inOrder host k j → s.status j = .complete := by
  cases h with
  | call => exact absurd hk hk'
  | @start l hl _ hw =>
    by_cases e : k = l
    · subst e
      exact ⟨hl, hw⟩
    · simp only [Function.update_of_ne e] at hk'
      exact absurd hk hk'
  | run hl => exact absurd ((update_of_status_ne (by simp [hk, hl])).trans hk) hk'
  | complete hl => exact absurd ((update_of_status_ne (by simp [hk, hl])).trans hk) hk'

theorem Step.pc_le (h : Step inOrder host s s') : s.pc ≤ s'.pc := by
  cases h with
  | call => exact Nat.le_succ _
  | start => exact Nat.le_refl _
  | run => exact Nat.le_refl _
  | complete => exact Nat.le_refl _

/-- What is left of a running command keeps to its footprint. -/
theorem Inv.within_step (hs : Inv inOrder host s) (h : Step inOrder host s s') (k : Nat)
    (p : Prog A V) (hk : s'.status k = .running p) (S : Set A) (hS : (progAt host k).Within S) :
    p.Within S := by
  cases h with
  | call => exact hs.within k p hk S hS
  | @start l =>
    by_cases e : k = l
    · subst e
      simp only [Function.update_self, Status.running.injEq] at hk
      exact hk ▸ hS
    · simp only [Function.update_of_ne e] at hk
      exact hs.within k p hk S hS
  | @run l q q' m' hl hq =>
    by_cases e : k = l
    · subst e
      simp only [Function.update_self, Status.running.injEq] at hk
      exact hk ▸ hq.within (hs.within k q hl S hS)
    · simp only [Function.update_of_ne e] at hk
      exact hs.within k p hk S hS
  | @complete l =>
    by_cases e : k = l
    · subst e
      simp only [Function.update_self] at hk
      cases hk
    · simp only [Function.update_of_ne e] at hk
      exact hs.within k p hk S hS

theorem Inv.step (hs : Inv inOrder host s) (h : Step inOrder host s s') :
    Inv inOrder host s' where
  pc_le := by
    cases h with
    | call hpc => exact hpc
    | start => exact hs.pc_le
    | run => exact hs.pc_le
    | complete => exact hs.pc_le
  idle k hk := h.complete_mono (hs.idle k hk)
  waited i j hi hw := by
    by_cases hlt : i < s.pc
    · exact h.complete_mono (hs.waited i j hlt hw)
    · -- the step is the host's, past the call `i`
      cases h with
      | call _ hpass =>
        obtain rfl : i = s.pc := Nat.le_antisymm (Nat.lt_succ_iff.1 hi) (Nat.not_lt.1 hlt)
        exact hpass j hw
      | start => exact absurd hi hlt
      | run => exact absurd hi hlt
      | complete => exact absurd hi hlt
  called k hk hk' := by
    by_cases hq : s.status k = .queued
    · exact (h.started hq hk').1
    · exact Nat.lt_of_lt_of_le (hs.called k hk hq) h.pc_le
  started k j hk' hw := by
    by_cases hq : s.status k = .queued
    · exact h.complete_mono ((h.started hq hk').2 j hw)
    · exact h.complete_mono (hs.started k j hq hw)
  within := hs.within_step h

theorem Reaches.inv (h : Reaches inOrder host s s') (hs : Inv inOrder host s) :
    Inv inOrder host s' := by
  induction h with
  | refl => exact hs
  | tail _ h ih => exact ih.step h

/-! ## Refinement -/

/-- **One step**: where the rest may end after the step, it may have ended before it. -/
theorem Step.refines (ho : Ordered inOrder host) (hs : Inv inOrder host s)
    (h : Step inOrder host s s') {m : Mem A V} (hrun : Steps (rest host s') s'.mem .done m) :
    Steps (rest host s) s.mem .done m := by
  cases h with
  | call => exact hrun
  | start _ hk => rwa [rest, residual_start hk] at hrun
  | complete hk => rwa [rest, residual_complete hk] at hrun
  | @run k p p' m' hk hstep =>
    rw [rest, residual_run] at hrun
    rw [rest]
    obtain ⟨l, l', hl⟩ := List.append_of_mem (List.mem_range.2 (hs.lt_length hk))
    have hlt := List.pairwise_lt_range (n := host.length)
    rw [hl] at hrun hlt ⊢
    rw [List.pairwise_append, List.pairwise_cons] at hlt
    obtain ⟨-, ⟨hright, -⟩, hleft⟩ := hlt
    have hsame : ∀ l₀ : List Nat, k ∉ l₀ →
        forEach l₀ (Function.update (residual host s) k p') = forEach l₀ (residual host s) := by
      intro l₀ hk₀
      refine Prog.forEach_congr fun j hj => Function.update_of_ne (fun e => hk₀ ?_) _ _
      exact e ▸ hj
    rw [Prog.forEach_append, Prog.forEach_cons, Function.update_self,
      hsame l fun hk' => Nat.lt_irrefl k (hleft k hk' k (.head _)),
      hsame l' fun hk' => Nat.lt_irrefl k (hright k hk')] at hrun
    rw [Prog.forEach_append, Prog.forEach_cons]
    have hres : residual host s k = p := by rw [residual, hk]
    rw [hres]
    obtain ⟨m₁, hbefore, hafter⟩ := hrun.of_seq
    obtain ⟨n, hbefore, hlast⟩ := steps_forEach_swap
      (fun j hj => hs.apart ho hk (hleft j hj k (.head _))) hstep hbefore
    exact hbefore.seq (.head (hlast.seq _) hafter)

/-- Where a run has come, what is left ends only where `sequential` ends. -/
theorem Reaches.refines (ho : Ordered inOrder host) {m₀ m : Mem A V}
    (h : Reaches inOrder host (.init host m₀) s) (hrun : Steps (rest host s) s.mem .done m) :
    Steps (sequential host) m₀ .done m := by
  induction h with
  | refl => rwa [rest_init] at hrun
  | tail hr h ih => exact ih (h.refines ho (hr.inv (.init m₀)) hrun)

/-- Once every command is complete, the memory is one that `sequential` leaves. -/
theorem Reaches.steps_sequential (ho : Ordered inOrder host) {m₀ : Mem A V}
    (h : Reaches inOrder host (.init host m₀) s) (hc : ∀ k, s.status k = .complete) :
    Steps (sequential host) m₀ .done s.mem := by
  refine h.refines ho ?_
  rw [rest_of_complete hc]
  exact .refl

/-! ## Progress and termination -/

/-- A run can go on until the host and every command are through. -/
theorem Inv.progress (hw : WellFormed inOrder host) (hs : Inv inOrder host s)
    (hf : ¬s.Final host) : ∃ s', Step inOrder host s s' := by
  by_cases hrun : ∃ k p, s.status k = .running p
  · obtain ⟨k, p, hk⟩ := hrun
    by_cases hp : p = .done
    · subst hp
      exact ⟨_, .complete hk⟩
    · obtain ⟨p', m', h⟩ := Prog.exists_step p hp s.mem
      exact ⟨_, .run hk h⟩
  have hnot : ∀ k, s.status k ≠ .queued → s.status k = .complete := fun k hk => by
    cases h : s.status k with
    | queued => exact absurd h hk
    | running p => exact absurd ⟨k, p, h⟩ hrun
    | complete => rfl
  by_cases hq : ∃ k, k < s.pc ∧ s.status k = .queued
  · -- the first of the commands that are waiting can start
    classical
    have hmin : ∀ j < Nat.find hq, s.status j = .complete := fun j hj =>
      hnot j fun hj' => Nat.find_min hq hj ⟨Nat.lt_trans hj (Nat.find_spec hq).1, hj'⟩
    obtain ⟨hk, hk'⟩ := Nat.find_spec hq
    exact ⟨_, .start hk hk' fun j hj => hmin j (hw _ j (.inl hj))⟩
  · have hdone : ∀ j < s.pc, s.status j = .complete := fun j hj =>
      hnot j fun hj' => hq ⟨j, hj, hj'⟩
    rcases Nat.lt_or_ge s.pc host.length with hpc | hpc
    · exact ⟨_, .call hpc fun j hj => hdone j (hw _ j (.inr hj))⟩
    · refine absurd ⟨Nat.le_antisymm hs.pc_le hpc, fun k => ?_⟩ hf
      by_cases hk : k < s.pc
      · exact hdone k hk
      · exact hs.idle k (command?_eq_none (by omega))

theorem residual_parEach {ι : Type} [DecidableEq ι] {l : List ι} {q : ι → Prog A V} {k : ι}
    {p' : Prog A V} {m m' : Mem A V} (hl : l.Nodup) (hk : k ∈ l)
    (h : Prog.Step (q k) m p' m') :
    Prog.Residual (parEach l (Function.update q k p')) (parEach l q) := by
  refine ⟨m, m', ?_⟩
  induction l with
  | nil => exact absurd hk List.not_mem_nil
  | cons x l ih =>
    rw [List.nodup_cons] at hl
    rw [Prog.parEach_cons, Prog.parEach_cons]
    by_cases e : x = k
    · subst e
      have hsame : parEach l (Function.update q x p') = parEach l q := by
        refine Prog.parEach_congr fun y hy => Function.update_of_ne (fun e => hl.1 ?_) _ _
        exact e ▸ hy
      rw [hsame, Function.update_self]
      exact .left h
    · rw [Function.update_of_ne e]
      exact .right (ih hl.2 ((List.mem_cons.1 hk).resolve_left fun e' => e e'.symm))

/-- A step shortens a command, or leaves the commands as they are and the weight smaller. -/
theorem Inv.decreases (hs : Inv inOrder host s) (h : Step inOrder host s s') :
    Prog.Residual (threads host s') (threads host s) ∨
      threads host s' = threads host s ∧ weight host s' < weight host s := by
  cases h with
  | call hpc =>
    refine .inr ⟨rfl, Nat.add_lt_add_right ?_ _⟩
    simp only
    omega
  | @start k hk hq =>
    refine .inr ⟨by rw [threads, residual_start hq, threads], weight_update ?_ ?_⟩
    · exact Nat.lt_of_lt_of_le hk hs.pc_le
    · rw [hq]
      exact Nat.lt_succ_self 1
  | complete hk =>
    refine .inr ⟨by rw [threads, residual_complete hk, threads], weight_update (hs.lt_length hk) ?_⟩
    rw [hk]
    exact Nat.zero_lt_one
  | @run k p p' m' hk hstep =>
    have hres : Prog.Step (residual host s k) s.mem p' m' := by rwa [residual, hk]
    refine .inl ?_
    rw [threads, residual_run]
    exact residual_parEach List.nodup_range (List.mem_range.2 (hs.lt_length hk)) hres

/-- Every run goes on to its end, and there `Q` holds if it holds wherever the rest may end. -/
theorem Inv.always (hw : WellFormed inOrder host) (ho : Ordered inOrder host)
    (hs : Inv inOrder host s) {Q : Mem A V → Prop}
    (hQ : ∀ m, Steps (rest host s) s.mem .done m → Q m) : Always inOrder host Q s := by
  generalize hp : threads host s = p
  induction Prog.wf_residual.apply p generalizing s with
  | intro p _ ih =>
    generalize hn : weight host s = n
    induction n using Nat.strong_induction_on generalizing s with
    | _ n ihn =>
      subst hn
      by_cases hf : s.Final host
      · refine .final hf (hQ _ ?_)
        rw [rest_of_complete hf.2]
        exact .refl
      · refine .step (hs.progress hw hf) fun s' h => ?_
        have hQ' : ∀ m, Steps (rest host s') s'.mem .done m → Q m :=
          fun m hm => hQ m (h.refines ho hs hm)
        rcases hs.decreases h with hlt | ⟨heq, hlt⟩
        · exact ih _ (hp ▸ hlt) (hs.step h) hQ' rfl
        · exact ihn _ hlt (hs.step h) hQ' (heq.trans hp) rfl

/-! ## The sequential program is one of the runs -/

theorem Reaches.trans {s'' : Config A V} (h : Reaches inOrder host s s')
    (h' : Reaches inOrder host s' s'') : Reaches inOrder host s s'' := by
  induction h' with
  | refl => exact h
  | tail _ hs ih => exact .tail ih hs

theorem Always.mono {Q R : Mem A V → Prop} (h : Always inOrder host Q s) (hQR : ∀ m, Q m → R m) :
    Always inOrder host R s := by
  induction h with
  | final hf hq => exact .final hf (hQR _ hq)
  | step hex _ ih => exact .step hex ih

theorem Always.of_reaches {Q : Mem A V → Prop} (h : Always inOrder host Q s)
    (hr : Reaches inOrder host s s') : Always inOrder host Q s' := by
  induction hr with
  | refl => exact h
  | tail _ hs ih =>
    cases ih with
    | final hf _ =>
      -- a final configuration takes no step
      obtain ⟨hpc, hc⟩ := hf
      cases hs with
      | call hlt => omega
      | start _ hk => rw [hc] at hk; cases hk
      | run hk => rw [hc] at hk; cases hk
      | complete hk => rw [hc] at hk; cases hk
    | step _ hall => exact hall _ hs

theorem Always.of_final {Q : Mem A V → Prop} (h : Always inOrder host Q s) (hf : s.Final host) :
    Q s.mem := by
  cases h with
  | final _ hq => exact hq
  | step hex hall =>
    obtain ⟨s', hs⟩ := hex
    obtain ⟨hpc, hc⟩ := hf
    cases hs with
    | call hlt => omega
    | start _ hk => rw [hc] at hk; cases hk
    | run hk => rw [hc] at hk; cases hk
    | complete hk => rw [hc] at hk; cases hk

/-- A running command executes. -/
theorem reaches_run {k : Nat} {p p' : Prog A V} {m m' : Mem A V} (h : Steps p m p' m') {pc : Nat}
    {t : Nat → Status A V} :
    Reaches inOrder host ⟨pc, Function.update t k (.running p), m⟩
      ⟨pc, Function.update t k (.running p'), m'⟩ := by
  induction h with
  | refl => exact .refl
  | @head p m p₁ m₁ p₂ m₂ h _ ih =>
    refine Reaches.trans (.tail .refl (.run (k := k) (p := p) ?_ h)) ?_
    · exact Function.update_self _ _ _
    · simpa only [Function.update_idem] using ih

/-- The host makes a call that does not block. -/
theorem Reaches.call {pc : Nat} {t : Nat → Status A V} {m : Mem A V}
    (h : Reaches inOrder host s ⟨pc, t, m⟩) (hpc : pc < host.length)
    (hw : ∀ j, HostWaits host pc j → t j = .complete) :
    Reaches inOrder host s ⟨pc + 1, t, m⟩ := .tail h (.call hpc hw)

/-- A command that nothing holds back any more starts, executes and is complete. -/
theorem Reaches.command {pc : Nat} {t : Nat → Status A V} {m : Mem A V}
    (h : Reaches inOrder host s ⟨pc, t, m⟩) {k : Nat} (hpc : k < pc) (hk : t k = .queued)
    (hw : ∀ j, CommandWaits inOrder host k j → t j = .complete) {m' : Mem A V}
    (hs : Steps (progAt host k) m .done m') :
    Reaches inOrder host s ⟨pc, Function.update t k .complete, m'⟩ := by
  refine .trans (.tail h (.start hpc hk hw)) (.trans (reaches_run hs) (.tail .refl ?_))
  have hstep : Step inOrder host ⟨pc, Function.update t k (.running .done), m'⟩
      ⟨pc, Function.update (Function.update t k (.running .done)) k .complete, m'⟩ :=
    .complete (Function.update_self k _ _)
  simpa only [Function.update_idem] using hstep

/-- The first `k` calls are made and their commands complete, but for those that are late. -/
def upTo (host : List (Call A V)) (late : Nat → Bool) (k : Nat) (m : Mem A V) : Config A V where
  pc := k
  status j := if j < k ∧ late j = false ∨ command? host j = none then .complete else .queued
  mem := m

/-- Nothing waits for a late command, but late ones. -/
def Unawaited (inOrder : Bool) (host : List (Call A V)) (late : Nat → Bool) : Prop :=
  ∀ k j, late j = true → ¬HostWaits host k j ∧ (CommandWaits inOrder host k j → late k = true)

theorem reaches_upTo (hw : WellFormed inOrder host) {late : Nat → Bool}
    (hl : Unawaited inOrder host late) {k : Nat} (hk : k ≤ host.length) {m₀ m : Mem A V}
    (h : Steps (forEach ((List.range k).filter fun j => !late j) (progAt host)) m₀ .done m) :
    Reaches inOrder host (.init host m₀) (upTo host late k m) := by
  induction k generalizing m with
  | zero =>
    obtain ⟨-, rfl⟩ := h.of_done
    have heq : upTo host late 0 m = .init host m := by
      simp only [upTo, Config.init, Nat.not_lt_zero, false_and, false_or]
      congr 1
      funext j
      cases command? host j <;> simp
    rw [heq]
    exact .refl
  | succ k ih =>
    have hpunctual : ∀ {j}, ¬late j = true → late j = false := fun h => Bool.not_eq_true _ ▸ h
    have hcall : ∀ {m₁}, Steps (forEach ((List.range k).filter fun j => !late j) (progAt host)) m₀
        .done m₁ → Reaches inOrder host (.init host m₀)
          { upTo host late k m₁ with pc := k + 1 } := fun hbefore =>
      (ih (Nat.le_of_succ_le hk) hbefore).call hk fun j hj =>
        if_pos (.inl ⟨hw k j (.inr hj), hpunctual fun h => (hl k j h).1 hj⟩)
    rw [List.range_succ, List.filter_append] at h
    -- a call that enqueues nothing, or a command that stays queued
    have hskip : ∀ {m₁}, (late k = true ∨ command? host k = none) →
        upTo host late (k + 1) m₁ = { upTo host late k m₁ with pc := k + 1 } := fun hor => by
      simp only [upTo]
      congr 1
      funext j
      by_cases e : j = k
      · rcases hor with hor | hor <;> simp [e, hor]
      · simp only [show j < k + 1 ↔ j < k by omega]
    cases hlate : late k with
    | true =>
      rw [List.filter_singleton, hlate, Bool.not_true, cond_false, List.append_nil] at h
      rw [hskip (.inl hlate)]
      exact hcall h
    | false =>
      rw [List.filter_singleton, hlate, Bool.not_false, cond_true, Prog.forEach_append,
        Prog.forEach_cons, Prog.forEach_nil, Prog.seq_done] at h
      obtain ⟨m₁, hbefore, hlast⟩ := h.of_seq
      cases hc : command? host k with
      | none =>
        rw [progAt_of_eq_none hc] at hlast
        obtain ⟨-, rfl⟩ := hlast.of_done
        rw [hskip (.inr hc)]
        exact hcall hbefore
      | some c =>
        have heq : upTo host late (k + 1) m =
            ⟨k + 1, Function.update (upTo host late k m₁).status k .complete, m⟩ := by
          simp only [upTo]
          congr 1
          funext j
          by_cases e : j = k
          · simp [e, hlate]
          · simp only [Function.update_of_ne e, show j < k + 1 ↔ j < k by omega]
        rw [heq]
        refine (hcall hbefore).command (Nat.lt_succ_self k) (by simp [upTo, hc])
          (fun j hj => if_pos (.inl ⟨hw k j (.inl hj), hpunctual fun h => ?_⟩)) hlast
        rw [(hl k j h).2 hj] at hlate
        cases hlate

/-- The memory that `sequential` leaves is left by a run. -/
theorem reaches_sequential (hw : WellFormed inOrder host) {m₀ m : Mem A V}
    (h : Steps (sequential host) m₀ .done m) :
    ∃ s, Reaches inOrder host (.init host m₀) s ∧ s.Final host ∧ s.mem = m := by
  have hl : Unawaited inOrder host fun _ => false := fun _ _ h => by cases h
  have hall : ((List.range host.length).filter fun _ => !false) = List.range host.length :=
    List.filter_eq_self.2 fun _ _ => rfl
  rw [← forEach_progAt, ← hall] at h
  refine ⟨_, reaches_upTo hw hl (Nat.le_refl _) h, ⟨rfl, fun k => if_pos ?_⟩, rfl⟩
  by_cases hk : k < host.length
  · exact .inl ⟨hk, rfl⟩
  · exact .inr (command?_eq_none (Nat.not_lt.1 hk))

/-! ## The equivalence -/

/-- **Every run** of the queues ends with `Q` exactly when every interleaving of the commands,
executed one after another, does. -/
theorem always_iff (hw : WellFormed inOrder host) (ho : Ordered inOrder host) {m : Mem A V}
    {Q : Mem A V → Prop} :
    Always inOrder host Q (.init host m) ↔ Prog.Always Q (sequential host) m := by
  constructor
  · intro h
    refine Prog.always_of_steps fun m' hs => ?_
    obtain ⟨s, hr, hf, rfl⟩ := reaches_sequential hw hs
    exact (h.of_reaches hr).of_final hf
  · intro h
    refine (Inv.init m).always hw ho fun m' hs => ?_
    rw [rest_init] at hs
    exact h.of_steps hs

end

end Conc.Queue
