import Mathlib.Data.Set.Lattice
import ParSort.Conc.Prog

/-!
# Command queues

A host program hands commands to the queues of its devices and goes on without waiting for them. A
command is named by its event: the position in the host program of the call that enqueued it.
`Step` lets every command that may run take its loads and stores in any order with those of the
others. What holds a command back is its wait list and, where the queues execute in order, the
commands before it on its queue. What holds the host back are its blocking calls.

`sequential` is the program that executes each command when it is enqueued; `Before` is the order
that every run keeps. `Proof/Queue.lean` relates the two.
-/

namespace Conc.Queue

/-- A command: the queue it is put on, the events it waits for, and what it does. -/
structure Command (A V : Type) where
  queue : Nat
  waitList : List Nat
  prog : Prog A V

/-- A call of the host program. -/
inductive Call (A V : Type) where
  | enqueue (c : Command A V)
  /-- Block until the commands of these events are complete. -/
  | waitForEvents (events : List Nat)
  /-- Block until every command put on the queue so far is complete. -/
  | finish (queue : Nat)

/-- The execution status of a command. -/
inductive Status (A V : Type) where
  | queued
  /-- Started, with `p` left to execute. -/
  | running (p : Prog A V)
  | complete

/-- The host has made its first `pc` calls. -/
structure Config (A V : Type) where
  pc : Nat
  status : Nat → Status A V
  mem : Mem A V

variable {A V : Type}

/-- The command that call `k` enqueues. -/
def command? (host : List (Call A V)) (k : Nat) : Option (Command A V) :=
  match host[k]? with
  | some (.enqueue c) => some c
  | _ => none

/-- What the command of a call does. -/
def Call.prog : Call A V → Prog A V
  | enqueue c => c.prog
  | _ => .done

/-- What the command of call `k` does. -/
def progAt (host : List (Call A V)) (k : Nat) : Prog A V :=
  match host[k]? with
  | some call => call.prog
  | none => .done

/-- Nothing is enqueued yet. A call that enqueues nothing counts as complete. -/
def Config.init (host : List (Call A V)) (m : Mem A V) : Config A V where
  pc := 0
  status k := if (command? host k).isSome then .queued else .complete
  mem := m

/-- The host is through and so is every command. -/
def Config.Final (host : List (Call A V)) (s : Config A V) : Prop :=
  s.pc = host.length ∧ ∀ k, s.status k = .complete

/-! ## What waits for what -/

/-- Call `j` puts a command on the queue `q`. -/
def OnQueue (host : List (Call A V)) (q j : Nat) : Prop :=
  ∃ c, command? host j = some c ∧ c.queue = q

/-- Command `k` does not start before command `j` is complete. -/
def CommandWaits (inOrder : Bool) (host : List (Call A V)) (k j : Nat) : Prop :=
  ∃ c, command? host k = some c ∧
    (j ∈ c.waitList ∨ inOrder = true ∧ j < k ∧ OnQueue host c.queue j)

/-- The host does not get past call `k` before command `j` is complete. -/
def HostWaits (host : List (Call A V)) (k j : Nat) : Prop :=
  match host[k]? with
  | some (.waitForEvents events) => j ∈ events
  | some (.finish q) => j < k ∧ OnQueue host q j
  | _ => False

/-- In every run command `j` is complete before command `k` starts. -/
inductive Before (inOrder : Bool) (host : List (Call A V)) : Nat → Nat → Prop
  | command {j k} : CommandWaits inOrder host k j → Before inOrder host j k
  | host {j h k} : HostWaits host h j → h < k → (command? host k).isSome → Before inOrder host j k
  | trans {i j k} : Before inOrder host i j → Before inOrder host j k → Before inOrder host i k

/-- The host waits only for commands it has enqueued, and so does every command. -/
def WellFormed (inOrder : Bool) (host : List (Call A V)) : Prop :=
  ∀ k j, CommandWaits inOrder host k j ∨ HostWaits host k j → j < k

/-- The two programs have disjoint footprints. -/
def Apart (p q : Prog A V) : Prop := ∃ S T, Disjoint S T ∧ p.Within S ∧ q.Within T

/-- Commands that no run orders have disjoint footprints. -/
def Ordered (inOrder : Bool) (host : List (Call A V)) : Prop :=
  ∀ k j, j < k → (command? host k).isSome → Before inOrder host j k ∨
    Apart (progAt host j) (progAt host k)

/-- Each command is executed when it is enqueued. -/
def sequential (host : List (Call A V)) : Prog A V := .forEach host Call.prog

/-! ## Runs -/

section
variable [DecidableEq A] (inOrder : Bool) (host : List (Call A V))

/-- One step of the host or of a command. -/
inductive Step : Config A V → Config A V → Prop
  /-- The host makes its next call, or gets past it. -/
  | call {s} : s.pc < host.length → (∀ j, HostWaits host s.pc j → s.status j = .complete) →
      Step s { s with pc := s.pc + 1 }
  | start {s k} : k < s.pc → s.status k = .queued →
      (∀ j, CommandWaits inOrder host k j → s.status j = .complete) →
      Step s { s with status := Function.update s.status k (.running (progAt host k)) }
  /-- A running command takes one of its steps. -/
  | run {s k p p' m'} : s.status k = .running p → Prog.Step p s.mem p' m' →
      Step s { s with status := Function.update s.status k (.running p'), mem := m' }
  | complete {s k} : s.status k = .running .done →
      Step s { s with status := Function.update s.status k .complete }

/-- The configurations that a run reaches from `s`. -/
inductive Reaches (s : Config A V) : Config A V → Prop
  | refl : Reaches s s
  | tail {s' s''} : Reaches s s' → Step inOrder host s' s'' → Reaches s s''

/-- **Every run** from a configuration is finite, never gets stuck, and ends, the host and every
command through, in a memory with `Q`. -/
inductive Always (Q : Mem A V → Prop) : Config A V → Prop
  | final {s} : s.Final host → Q s.mem → Always Q s
  | step {s} : (∃ s', Step inOrder host s s') → (∀ s', Step inOrder host s s' → Always Q s') →
      Always Q s

end

end Conc.Queue
