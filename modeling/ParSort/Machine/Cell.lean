import ParSort.Machine.F32

/-!
# The memories of a host program with a device

One address space for the cells a back end touches: the caller's array, the buffer on the device
and the temporary array of the host's merge.
-/

open Conc

/-- A cell. Indices of host arrays are `int`s: a stray negative one is a cell too. -/
inductive Cell where
  | host (i : Int)
  | dev (i : Nat)
  | temp (i : Int)
  deriving DecidableEq, Repr

namespace Cell

theorem dev_injective : Function.Injective dev := fun _ _ h => by injection h

/-- The caller's array. -/
def data (M : Mem Cell F32) : Mem Nat F32 := fun i => M (host i)

/-- `n` floats from the caller's array to the device: `cudaMemcpy(…, cudaMemcpyHostToDevice)`,
`clEnqueueWriteBuffer`. -/
def hostToDevice (n : Nat) : Prog Cell F32 :=
  .forEach (List.range n) fun i => .copy (host i) (dev i)

/-- `n` floats from the device to the caller's array: `cudaMemcpy(…, cudaMemcpyDeviceToHost)`,
`clEnqueueReadBuffer`. -/
def deviceToHost (n : Nat) : Prog Cell F32 :=
  .forEach (List.range n) fun i => .copy (dev i) (host i)

/-- The array `4, 3, 2, 1`: the bits of small numbers are floats in the same order. -/
def countdown : Mem Cell F32
  | .host i => ⟨BitVec.ofInt 32 (4 - i)⟩
  | _ => ⟨0⟩

theorem countdown_nanFree : NaNFree (data countdown) 0 4 := by
  have hnum : ∀ i < 4, (data countdown i).isNaN = false := by decide
  exact fun i hi => hnum i (by simpa using hi.2)

end Cell
