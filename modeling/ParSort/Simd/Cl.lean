import ParSort.Conc.Queue
import ParSort.Simd.Def

/-!
# `SIMD/host/src/main.cpp` and `SIMD/device/vectorAdd.cl`: the OpenCL run

How `init_opencl` divides the elements, `init_problem`, the kernel `vectorAdd`, the calls of
`cl_run` and the check at the end of each run. The addition and the subtraction of floats are
parameters, and so is the stream of `rand_float`; the queues are those of `Conc/Queue.lean`.
-/

namespace Simd

open Conc Machine

/-- A cell of the vectors on the host, of `ref_output`, or of the buffers of a device. -/
inductive ClCell where
  | host (c : Cell)
  | refOutput (i : Nat) (j : Int)
  | buffer (c : Cell)
  deriving DecidableEq, Repr

/-! ## The problem -/

/-- `n_per_device[i]`: the first `N % num_devices` devices take one element more. -/
def nPerDevice (N numDevices i : Nat) : Nat :=
  if i < N % numDevices then N / numDevices + 1 else N / numDevices

/-- How many elements the devices before device `i` have. -/
def before (n : Nat → Nat) (i : Nat) : Nat := ((List.range i).map n).sum

section
variable (add : F32 → F32 → F32)

/-- `init_problem()`; `randFloat t` is what call `t` of `rand_float()` returns. Without a device it
exits with -1. -/
def initProblem (randFloat : Nat → F32) (numDevices : Nat) (n : Nat → Nat) :
    Except Int (Prog ClCell F32) :=
  if numDevices = 0 then .error (-1)
  else .ok <| .forEach (List.range numDevices) fun i => .forEach (List.range (n i)) fun j =>
    .store (.host (.inputA i (wrap32 j))) (randFloat (2 * (before n i + j))) <|
      .store (.host (.inputB i (wrap32 j))) (randFloat (2 * (before n i + j) + 1)) <|
        .load (.host (.inputA i (wrap32 j))) fun a => .load (.host (.inputB i (wrap32 j))) fun b =>
          .store (.refOutput i (wrap32 j)) (add a b) .done

/-! ## The devices -/

/-- `vectorAdd(x, y, z)` on the buffers of device `i`, the work-item `get_global_id(0)`. -/
def vectorAdd (i globalId : Nat) : Prog ClCell F32 :=
  let index := wrap32 globalId
  .load (.buffer (.inputA i index)) fun x => .load (.buffer (.inputB i index)) fun y =>
    .store (.buffer (.output i index)) (add x y) .done

/-- `clEnqueueNDRangeKernel` with a global size of `n`: all work-items at once. -/
def ndRange (i n : Nat) : Prog ClCell F32 := .parEach (List.range n) (vectorAdd add i)

/-- `clEnqueueWriteBuffer` of `n` floats. -/
def writeBuffer (v : Int → Cell) (n : Nat) : Prog ClCell F32 :=
  .forEach (List.range n) fun j => .copy (.host (v j)) (.buffer (v j))

/-- `clEnqueueReadBuffer` of `n` floats. -/
def readBuffer (v : Int → Cell) (n : Nat) : Prog ClCell F32 :=
  .forEach (List.range n) fun j => .copy (.buffer (v j)) (.host (v j))

/-! ## The host -/

/-- `write_event[w]` in the iteration for device `i`: `cl_run` makes four calls for each device. -/
def writeEvent (i w : Nat) : Nat := 4 * i + w

/-- `kernel_event[i]` -/
def kernelEvent (i : Nat) : Nat := 4 * i + 2

/-- `finish_event[i]` -/
def finishEvent (i : Nat) : Nat := 4 * i + 3

/-- The calls for device `i`, all of them non-blocking. -/
def launchDevice (i n : Nat) : List (Queue.Call ClCell F32) :=
  [.enqueue ⟨i, [], writeBuffer (.inputA i) n⟩,
    .enqueue ⟨i, [], writeBuffer (.inputB i) n⟩,
    .enqueue ⟨i, [writeEvent i 0, writeEvent i 1], ndRange add i n⟩,
    .enqueue ⟨i, [kernelEvent i], readBuffer (.output i) n⟩]

/-- `cl_run()` up to its `clWaitForEvents`. -/
def clRun (numDevices : Nat) (n : Nat → Nat) : List (Queue.Call ClCell F32) :=
  ((List.range numDevices).flatMap fun i => launchDevice add i (n i)) ++
    [.waitForEvents ((List.range numDevices).map finishEvent)]

end

/-! ## The check -/

/-- `output`, device after device. -/
def outputs (numDevices : Nat) (n : Nat → Nat) (M : Mem ClCell F32) : List F32 :=
  (List.range numDevices).flatMap fun i =>
    (List.range (n i)).map fun j : Nat => M (.host (.output i j))

/-- What a run prints: `Failed verification @ device i, index j` and `FAIL`, or `PASS`. -/
inductive Verdict where
  | failed (i j : Nat)
  | pass
  deriving DecidableEq, Repr

def fabsf (x : F32) : F32 := ⟨x.bits &&& 0x7FFFFFFF⟩

/-- `1.0e-5f` -/
def tolerance : F32 := ⟨0x3727C5AC⟩

section
variable (sub : F32 → F32 → F32) (M : Mem ClCell F32)

/-- `fabsf(output[i][j] - ref_output[i][j]) > 1.0e-5f` -/
def mismatch (i j : Nat) : Bool :=
  F32.gt (fabsf (sub (M (.host (.output i (wrap32 j)))) (M (.refOutput i (wrap32 j))))) tolerance

/-- The inner loop of the check, from element `j` of device `i` on: where it clears `pass`. -/
def checkDevice (i n j : Nat) : Option Nat :=
  if j < n then
    if mismatch sub M i j then some j else checkDevice i n (j + 1)
  else none
termination_by n - j

/-- The check, from device `i` on. -/
def check (numDevices : Nat) (n : Nat → Nat) (i : Nat) : Verdict :=
  if i < numDevices then
    match checkDevice sub M i (n i) 0 with
    | some j => .failed i j
    | none => check numDevices n (i + 1)
  else .pass
termination_by numDevices - i

end

end Simd
