import ParSort.Conc.Queue
import ParSort.Machine.Cell
import ParSort.Machine.Loop

/-!
# `cudasort.cu`

The kernel `bitonic_sort` as the program of one thread, its launch over the grid, and the host
function `cuda_sort`.
-/

namespace Cuda

open Conc Machine

/-- `bitonic_sort<<<…>>>(values, j, k)`, the thread with
`i = threadIdx.x + blockDim.x * blockIdx.x`. -/
def bitonicSort (j k i : Nat) : Prog Nat F32 :=
  let ij := i ^^^ j
  .seq
    -- ascending
    (if ij > i ∧ i &&& k = 0 then .swapIf F32.gt i ij else .done)
    -- descending
    (if ij > i ∧ i &&& k ≠ 0 then .swapIf F32.lt i ij else .done)

/-- `threads_` -/
def threads (numberOfElements : Nat) : Nat :=
  if numberOfElements > 512 then 512 else numberOfElements

/-- `blocks_` -/
def blocks (numberOfElements : Nat) : Nat := numberOfElements / threads numberOfElements

/-- The thread ids `threadIdx.x + blockDim.x * blockIdx.x` of a launch `<<<blocks, threads>>>`. -/
def grid (blocks threads : Nat) : List Nat :=
  (List.range blocks).flatMap fun blockIdx =>
    (List.range threads).map fun threadIdx => threadIdx + threads * blockIdx

/-- The ids of the threads of every launch of `cuda_sort`. -/
def threadIds (numberOfElements : Nat) : List Nat :=
  grid (blocks numberOfElements) (threads numberOfElements)

/-- `bitonic_sort<<<blocks_, threads_>>>(values, j, k)` -/
def launch (numberOfElements j k : Nat) : Prog Nat F32 :=
  .parEach (threadIds numberOfElements) (bitonicSort j k)

/-- `cuda_sort(number_of_elements, a)`; `none` when the fuel ends before the loops do. Launches run
one after another. -/
def cudaSort (fuel numberOfElements : Nat) : Option (Prog Cell F32) :=
  (loops fuel numberOfElements).map fun kj =>
    (Cell.hostToDevice numberOfElements).seq
      (((Prog.forEach kj fun p => launch numberOfElements p.2 p.1).map Cell.dev).seq
        (Cell.deviceToHost numberOfElements))

/-- The calls of `cuda_sort`, all on the default stream: the copies block the host, the launches do
not. `none` as above. -/
def cudaSortCalls (fuel numberOfElements : Nat) : Option (List (Queue.Call Cell F32)) :=
  (loops fuel numberOfElements).map fun kj =>
    [.enqueue ⟨0, [], Cell.hostToDevice numberOfElements⟩, .waitForEvents [0]] ++
      kj.map (fun p => .enqueue ⟨0, [], (launch numberOfElements p.2 p.1).map Cell.dev⟩) ++
      [.enqueue ⟨0, [], Cell.deviceToHost numberOfElements⟩, .waitForEvents [kj.length + 2]]

end Cuda
