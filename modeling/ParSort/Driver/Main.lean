import ParSort.Cuda.Def
import ParSort.Driver.Def
import ParSort.Pthread.Def

/-!
# `main` of `mysort.cpp`

A run copies the input, sorts the copy with the back end of its mode and verifies it. The copy is
the host array of the memory the back ends work in.
-/

namespace Driver

open Conc

/-- Index `i` of the caller's array. -/
def onHost (i : Nat) : Cell := .host i

/-- `memcpy(output_data, input_data, mem_size)` -/
def memcpy (numElements : Nat) (inputData : Mem Nat F32) (M : Mem Cell F32) : Mem Cell F32
  | .host i => if 0 ≤ i ∧ i < numElements then inputData i.toNat else M (.host i)
  | c => M c

section
variable (qsort : Qsort) (fuel : Nat) (mode : Int) (numElements : Nat)

/-- `switch(mode)`; `none` when the fuel ends before the loops of `cuda_sort` do. -/
def backEnd : Option (Prog Cell F32) :=
  if mode = 1 then some ((Pthread.pthreadSort qsort numElements).map onHost)
  else if mode = 3 then Cuda.cudaSort fuel numElements
  -- the default, and mode 2, whose case is commented out
  else some ((qsort compareFunction 0 numElements).map onHost)

/-- Every run of `main` on `input_data` prints a verdict with `Q`. -/
def main (inputData : Mem Nat F32) (M : Mem Cell F32) (Q : Verdict → Prop) : Prop :=
  ∃ p, backEnd qsort fuel mode numElements = some p ∧
    p.Always (fun M' => Q (verify qsort numElements inputData (Cell.data M')))
      (memcpy numElements inputData M)

end

end Driver
