import ParSort.Machine.F32
import ParSort.Machine.Loop

/-!
# `SIMD/host/src/main.cpp`

`scalar_run` and `vector_run`, without their clocks and their checks of the result. The addition of
floats is a parameter: a lane of `vadd_f32` is the same function as the scalar `+`.
-/

namespace Simd

open Conc Machine

/-- A cell of the vectors of device `i`. The index is an `int`: `scoped_aligned_ptr` converts it. -/
inductive Cell where
  | inputA (i : Nat) (j : Int)
  | inputB (i : Nat) (j : Int)
  | output (i : Nat) (j : Int)
  deriving DecidableEq, Repr

variable (add : F32 → F32 → F32)

/-- `scalar_run()`: `j` is `unsigned`, the index an `int`. -/
def scalarRun (numDevices N : Nat) : Prog Cell F32 :=
  .forEach (List.range numDevices) fun i => .forEach (List.range N) fun j =>
    .load (.inputA i (wrap32 j)) fun a => .load (.inputB i (wrap32 j)) fun b =>
      .store (.output i (wrap32 j)) (add a b) .done

/-! ## Two lanes -/

/-- `vld1_f32(&v[j])` -/
def vld1 (v : Int → Cell) (j : Int) (k : F32 × F32 → Prog Cell F32) : Prog Cell F32 :=
  .load (v j) fun x => .load (v (j + 1)) fun y => k (x, y)

/-- `vadd_f32(a, b)` -/
def vadd (a b : F32 × F32) : F32 × F32 := (add a.1 b.1, add a.2 b.2)

/-- `vst1_f32(&v[j], x)` -/
def vst1 (v : Int → Cell) (j : Int) (x : F32 × F32) : Prog Cell F32 :=
  .store (v j) x.1 (.store (v (j + 1)) x.2 .done)

/-- The body of the inner loop of `vector_run`. -/
def vectorStep (i : Nat) (j : Int) : Prog Cell F32 :=
  vld1 (.inputA i) j fun a => vld1 (.inputB i) j fun b => vst1 (.output i) j (vadd add a b)

/-- `vector_run()`: `j` is an `int`, compared with the `unsigned` `N` as an `unsigned`. -/
def vectorRun (numDevices N : Nat) : Prog Cell F32 :=
  .forEach (List.range numDevices) fun i => .forEach (List.range N) fun j =>
    vectorStep add i (wrap32 j)

end Simd
