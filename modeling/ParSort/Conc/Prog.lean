import Mathlib.Data.Set.Disjoint
import Mathlib.Order.CompletePartialOrder
import Mathlib.Logic.Function.Basic

/-!
# Shared-memory fork-join programs

`Conc.Prog A V`: a program that loads and stores values of type `V` at addresses of type `A`, one
access at a time, and forks two threads and joins them. `Step` is its small-step semantics: the
threads of a fork take their loads and stores in any order. `Always Q p m` says what every
interleaving does: each one is finite and ends in a memory with `Q`. `exec` runs a program with the
threads of every fork one after the other; `Proof/Race.lean` proves that a race-free program always
ends where `exec` ends.
-/

namespace Conc

/-- A memory: every address holds a value. -/
abbrev Mem (A V : Type) := A → V

/-- A program. The continuation of a load receives the value loaded. -/
inductive Prog (A V : Type) where
  | done
  | load (a : A) (k : V → Prog A V)
  | store (a : A) (v : V) (k : Prog A V)
  /-- Fork `l` and `r`, join them, go on with `k`. -/
  | par (l r k : Prog A V)

namespace Prog

variable {A B V ι : Type}

/-! ## Building programs -/

/-- `p`, then `q`. -/
def seq : Prog A V → Prog A V → Prog A V
  | done, q => q
  | load a k, q => load a fun v => (k v).seq q
  | store a v k, q => store a v (k.seq q)
  | par l r k, q => par l r (k.seq q)

/-- `body x` for the elements `x` of a list, in order. -/
def forEach (l : List ι) (body : ι → Prog A V) : Prog A V :=
  l.foldr (fun x p => (body x).seq p) done

/-- One thread `body x` for each element `x` of a list, all at once. -/
def parEach (l : List ι) (body : ι → Prog A V) : Prog A V :=
  l.foldr (fun x p => par (body x) p done) done

/-- The program `p` with every address `a` replaced by `f a`. -/
def map (f : A → B) : Prog A V → Prog B V
  | done => done
  | load a k => load (f a) fun v => (k v).map f
  | store a v k => store (f a) v (k.map f)
  | par l r k => par (l.map f) (r.map f) (k.map f)

/-- Copy the cell `a` to the cell `b`. -/
def copy (a b : A) : Prog A V := load a fun v => store b v done

/-- Exchange two cells through a temporary: `t = a; a = b; b = t`. -/
def swap (a b : A) : Prog A V := load a fun t => load b fun v => store a v (store b t done)

/-- Exchange two cells if their values satisfy `c`. -/
def swapIf (c : V → V → Bool) (a b : A) : Prog A V :=
  load a fun x => load b fun y => if c x y then swap a b else done

/-! ## Footprints -/

/-- Every address `p` loads or stores is in `S`, whatever values its loads return. -/
def Within (S : Set A) : Prog A V → Prop
  | done => True
  | load a k => a ∈ S ∧ ∀ v, (k v).Within S
  | store a _ k => a ∈ S ∧ k.Within S
  | par l r k => l.Within S ∧ r.Within S ∧ k.Within S

/-- No fork occurs in `p`. -/
def Serial : Prog A V → Prop
  | done => True
  | load _ k => ∀ v, (k v).Serial
  | store _ _ k => k.Serial
  | par _ _ _ => False

/-- The two threads of every fork have disjoint footprints. -/
def RaceFree : Prog A V → Prop
  | done => True
  | load _ k => ∀ v, (k v).RaceFree
  | store _ _ k => k.RaceFree
  | par l r k => (∃ S T, Disjoint S T ∧ l.Within S ∧ r.Within T) ∧
      l.RaceFree ∧ r.RaceFree ∧ k.RaceFree

/-! ## Semantics -/

section
variable [DecidableEq A]

/-- The memory `p` leaves when the left thread of every fork runs before the right one. -/
def exec : Prog A V → Mem A V → Mem A V
  | done, m => m
  | load a k, m => (k (m a)).exec m
  | store a v k, m => k.exec (Function.update m a v)
  | par l r k, m => k.exec (r.exec (l.exec m))

/-- One load, store or join. In a fork either thread may take the step. -/
inductive Step : Prog A V → Mem A V → Prog A V → Mem A V → Prop
  | load {a k m} : Step (load a k) m (k (m a)) m
  | store {a v k m} : Step (store a v k) m k (Function.update m a v)
  | left {l r k m l' m'} : Step l m l' m' → Step (par l r k) m (par l' r k) m'
  | right {l r k m r' m'} : Step r m r' m' → Step (par l r k) m (par l r' k) m'
  | join {k m} : Step (par done done k) m k m

/-- Any number of steps. -/
inductive Steps : Prog A V → Mem A V → Prog A V → Mem A V → Prop
  | refl {p m} : Steps p m p m
  | head {p m p' m' p'' m''} : Step p m p' m' → Steps p' m' p'' m'' → Steps p m p'' m''

/-- **Every interleaving** of `p` from `m` is finite and ends, finished, in a memory with `Q`. -/
inductive Always (Q : Mem A V → Prop) : Prog A V → Mem A V → Prop
  | done {m} : Q m → Always Q done m
  | step {p m} : p ≠ Prog.done → (∀ p' m', Step p m p' m' → Always Q p' m') → Always Q p m

end

end Prog

/-! ## Rearrangements -/

/-- `m'` holds the values of `m` in another order: the cells of `S` are permuted, every other cell
is as in `m`. -/
def Rearranges {A V : Type} (S : Set A) (m m' : Mem A V) : Prop :=
  ∃ σ : Equiv.Perm A, (∀ a, a ∉ S → σ a = a) ∧ m' = m ∘ σ

/-- The cells `lo, …, lo + cnt - 1` of a memory with `Nat` addresses, as a list. -/
def slice {V : Type} (m : Mem Nat V) (lo cnt : Nat) : List V := (List.range' lo cnt).map m

end Conc
