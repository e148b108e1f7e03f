import ParSort.Machine.Qsort

/-!
# `mysort.cpp`

The driver's single-core sort and its check of what a back end left: `input_data` and `output_data`
are two memories. `qsort` is a parameter: see `Machine/Qsort.lean`.
-/

namespace Driver

/-- `compare_function` -/
def compareFunction : Comparator := fun a b =>
  if F32.lt a b then -1 else if F32.gt a b then 1 else 0

open Conc

/-- What the driver prints: `Failed at i` or `Pass`. -/
inductive Verdict where
  | failedAt (i : Nat)
  | pass
  deriving DecidableEq, Repr

/-- `for (; i < numElements; i++) if (output_data[i] != input_data[i]) break;`: the last `i`. -/
def compareLoop (inputData outputData : Mem Nat F32) (numElements i : Nat) : Nat :=
  if i < numElements then
    if F32.ne (outputData i) (inputData i) then i
    else compareLoop inputData outputData numElements (i + 1)
  else i
termination_by numElements - i

/-- The verification at the end of `main`: sort the input, compare. -/
def verify (qsort : Qsort) (numElements : Nat) (inputData outputData : Mem Nat F32) : Verdict :=
  let inputData := (qsort compareFunction 0 numElements).exec inputData
  let i := compareLoop inputData outputData numElements 0
  if i ≠ numElements then .failedAt i else .pass

end Driver
