import ParSort.Aocl.Host
import ParSort.Conc.Queue
import ParSort.Machine.Cell
import ParSort.Machine.Loop

/-!
# `fpgasort.cl` and `fpga_sort.cpp`

The kernel `fpgasort` as the program of one work-item, the host's merge `merge_s` with its
temporary array, and the host function `fpga_sort`.
-/

namespace Fpga

open Conc Machine

/-! ## The kernel -/

/-- The body of the kernel's innermost loop. -/
def exchange (j k i : Nat) : Prog Nat F32 :=
  let ij := i ^^^ j
  if ij > i then
    if i &&& k = 0 then .swapIf F32.gt i ij else .swapIf F32.lt i ij
  else .done

/-- `for (i = low; i < high; i++)` -/
def innerLoop (low high j k : Nat) : Prog Nat F32 :=
  .forEach (List.range' low (high - low)) (exchange j k)

/-- `fpgasort(a, num)`, the work-item `index = get_global_id(0)` of `get_global_size(0)`; `none`
when the fuel ends before the loops do. -/
def fpgasort (fuel num globalSize index : Nat) : Option (Prog Nat F32) :=
  let offset := num / globalSize
  let startIndex := index * offset
  let high := startIndex + offset
  let low := startIndex
  (loops fuel high).map fun kj => .forEach kj fun p => innerLoop low high p.2 p.1

/-- All work-items of the kernel at once. -/
def ndRangeKernel (fuel num globalSize : Nat) : Option (Prog Nat F32) :=
  ((List.range globalSize).mapM (fpgasort fuel num globalSize)).map fun items =>
    .parEach items id

/-! ## The host's merge -/

/-- How an index of `merge_s` moves through its run: up to a last index, or down to one. -/
inductive Cursor where
  | up (last : Int)
  | down (last : Int)

namespace Cursor

/-- The loop condition on the index. -/
def Live : Cursor → Int → Prop
  | up last, iter => iter ≤ last
  | down last, iter => iter ≥ last

instance (c : Cursor) (iter : Int) : Decidable (c.Live iter) :=
  match c with
  | up last => inferInstanceAs (Decidable (iter ≤ last))
  | down last => inferInstanceAs (Decidable (iter ≥ last))

/-- `iter + 1` or `iter - 1` -/
def next : Cursor → Int → Int
  | up _, iter => iter + 1
  | down _, iter => iter - 1

/-- How many indices are left. -/
def left : Cursor → Int → Nat
  | up last, iter => (last + 1 - iter).toNat
  | down last, iter => (iter + 1 - last).toNat

theorem left_next {c : Cursor} {iter : Int} (h : c.Live iter) :
    c.left iter = c.left (c.next iter) + 1 := by
  cases c <;> simp only [Live, left, next] at * <;> omega

end Cursor

/-- `while (iter1 … && iter2 …)`: the smaller of the two elements goes to `temp`. The rest of the
function receives the values of `iter1`, `iter2` and `temp_iter`. -/
def mergeWhile (c₁ c₂ : Cursor) (iter1 iter2 tempIter : Int)
    (rest : Int → Int → Int → Prog Cell F32) : Prog Cell F32 :=
  if h : c₁.Live iter1 ∧ c₂.Live iter2 then
    .load (.host iter1) fun x => .load (.host iter2) fun y =>
      if F32.le x y then
        (Prog.copy (.host iter1) (.temp tempIter)).seq
          (mergeWhile c₁ c₂ (c₁.next iter1) iter2 (tempIter + 1) rest)
      else
        (Prog.copy (.host iter2) (.temp tempIter)).seq
          (mergeWhile c₁ c₂ iter1 (c₂.next iter2) (tempIter + 1) rest)
  else rest iter1 iter2 tempIter
termination_by c₁.left iter1 + c₂.left iter2
decreasing_by
  · have := Cursor.left_next h.1; omega
  · have := Cursor.left_next h.2; omega

/-- `while (iter …)`: what is left of one run goes to `temp`. -/
def drainWhile (c : Cursor) (iter tempIter : Int) (rest : Int → Prog Cell F32) : Prog Cell F32 :=
  if h : c.Live iter then
    (Prog.copy (.host iter) (.temp tempIter)).seq
      (drainWhile c (c.next iter) (tempIter + 1) rest)
  else rest tempIter
termination_by c.left iter
decreasing_by
  have := Cursor.left_next h; omega

/-- `for (int i = left; i <= right; i++) (*array)[i] = temp[i - left];` -/
def copyBack (left right : Int) : Prog Cell F32 :=
  .forEach (List.range (right - left + 1).toNat) fun d =>
    .copy (.temp (left + d - left)) (.host (left + d))

/-- One branch of `merge_s`: the loop over both runs, what is left of either, and the copy back. -/
def mergeBranch (left right : Int) (c₁ c₂ drain₁ drain₂ : Cursor) (iter1 iter2 : Int) :
    Prog Cell F32 :=
  mergeWhile c₁ c₂ iter1 iter2 0 fun iter1 iter2 tempIter =>
    drainWhile drain₁ iter1 tempIter fun tempIter =>
      drainWhile drain₂ iter2 tempIter fun _ => copyBack left right

/-- `merge_s(array, left, middle, right)`. Its `temp` is a region of its own, so a store past the
end of it leaves the array as it is. -/
def mergeS (left middle right : Int) : Prog Cell F32 :=
  .load (.host left) fun x₁ => .load (.host (left + 1)) fun y₁ =>
    .load (.host (middle + 1)) fun x₂ => .load (.host (middle + 1 + 1)) fun y₂ =>
      let iter1Increment := F32.lt x₁ y₁
      let iter2Increment := F32.lt x₂ y₂
      if iter1Increment && iter2Increment then
        mergeBranch left right (.up middle) (.up right) (.up middle) (.up right) left (middle + 1)
      else if iter1Increment && !iter2Increment then
        -- the second loop over `iter2` runs down to `middle`, not to `middle + 1`
        mergeBranch left right (.up middle) (.down (middle + 1)) (.up middle) (.down middle)
          left right
      else if !iter1Increment && iter2Increment then
        mergeBranch left right (.down left) (.up right) (.down left) (.up right)
          middle (middle + 1)
      else
        -- both loops over `iter2` run down to `middle`
        mergeBranch left right (.down left) (.down middle) (.down left) (.down middle)
          middle right

/-! ## The host function -/

/-- The loop over the results of the work-items `i`, …, merging each into the front of the array. -/
def mergeLoop (numOfElements globalSize : Nat) : List Nat → Int → Prog Cell F32
  | [], _ => .done
  | i :: is, prevRight =>
    let left : Int := ↑(i * numOfElements / globalSize)
    let right := left + ↑(numOfElements / globalSize) - 1
    (mergeS 0 prevRight right).seq (mergeLoop numOfElements globalSize is right)

/-- `fpga_sort(num_of_elements, data)`; `none` when the fuel ends before the kernel does. -/
def fpgaSort (fuel numOfElements : Nat) : Option (Prog Cell F32) :=
  let globalSize := 2
  (ndRangeKernel fuel numOfElements globalSize).map fun kernel =>
    (Cell.hostToDevice numOfElements).seq ((kernel.map Cell.dev).seq
      ((Cell.deviceToHost numOfElements).seq
        (mergeLoop numOfElements globalSize (List.range' 1 (globalSize - 1))
          (↑(numOfElements / globalSize) - 1))))

/-- The calls of `fpga_sort`: `queue[0]` is queue 0, and the host's own merge is a job that it puts
on a queue of its own and waits for. -/
def hostCalls (numOfElements : Nat) (kernel : Prog Nat F32) : List (Queue.Call Cell F32) :=
  let globalSize := 2
  -- the two buffers, written with `CL_TRUE`: `num_of_elements` is a parameter of the kernel here
  [.enqueue ⟨0, [], Cell.hostToDevice numOfElements⟩, .waitForEvents [0],
    .enqueue ⟨0, [], .done⟩, .waitForEvents [2],
    .finish 0,
    .enqueue ⟨0, [], kernel.map Cell.dev⟩,
    -- read with `CL_TRUE`; it names no event of the kernel
    .enqueue ⟨0, [], Cell.deviceToHost numOfElements⟩, .waitForEvents [6],
    .enqueue ⟨1, [], mergeLoop numOfElements globalSize (List.range' 1 (globalSize - 1))
      (↑(numOfElements / globalSize) - 1)⟩, .waitForEvents [8]]

/-- `fpga_sort(num_of_elements, data)` as the calls of its host; `none` as above. -/
def fpgaSortCalls (fuel numOfElements : Nat) : Option (List (Queue.Call Cell F32)) :=
  (ndRangeKernel fuel numOfElements 2).map (hostCalls numOfElements)

/-! ## The OpenCL objects -/

/-- What `init_opencl` creates for each device. -/
def kinds : List Aocl.Kind := [.queue, .kernel]

/-- The order in which `cleanup` releases it. -/
def order : List Aocl.Kind := [.kernel, .queue]

/-- `init_opencl()` -/
def initOpencl (env : Aocl.Env) : Aocl.Host Bool := Aocl.initOpencl kinds order env

/-- `queue[0]` or `kernel[0]` -/
def first (kind : Aocl.Kind) : Aocl.Host Aocl.Handle := do
  let w ← get
  match w.arrays kind with
  -- the `scoped_array` is still null
  | none => throw .undefined
  | some array =>
    if array 0 = .uninitialised then throw .undefined
    return array 0

/-- `fpga_sort`, as it creates objects. It reads no status, not even what `init_opencl` returns. -/
def fpgaSortObjects (env : Aocl.Env) : Aocl.Host Int := do
  let _ ← initOpencl env
  let _ ← Aocl.newObject env (.createBuffer 0) (.buffer 0)
  let _ ← Aocl.newObject env (.createBuffer 1) (.buffer 1)
  let _ ← first .queue
  let _ ← first .kernel
  let _ ← Aocl.newObject env (.enqueueKernel 0) (.event 0 2)
  return 0

end Fpga
