import ParSort.Machine.Qsort

/-!
# `pthread_sort.cpp`

The array `a` is the memory. `qsort` is a parameter: see `Machine/Qsort.lean` for what is assumed of
it.
-/

namespace Pthread

open Conc

def ASCENDING : Int := 1
def DESCENDING : Int := 0

/-- A call `BS(&x)` or `BM(&x)`: the struct `arr`. -/
structure Arr where
  lo : Nat
  cnt : Nat
  dir : Int
  layer : Int

/-! ## The comparators -/

def desc : Comparator := fun x1 x2 =>
  if x1.toInt > x2.toInt then -1 else if x1.toInt = x2.toInt then 0 else 1

def asc : Comparator := fun x1 x2 =>
  if x1.toInt < x2.toInt then -1 else if x1.toInt = x2.toInt then 0 else 1

/-! ## The merge -/

/-- `compareAndSwap(i, j, dir)`: the test is `dir == (a[i] > a[j])`. -/
def compareAndSwap (i j : Nat) (dir : Int) : Prog Nat F32 :=
  .swapIf (fun x y => dir = if F32.gt x y then 1 else 0) i j

/-- `for (i = lo; i < lo + k; i++) compareAndSwap(i, i + k, dir);` -/
def compareLoop (lo k : Nat) (dir : Int) : Prog Nat F32 :=
  .forEach (List.range' lo k) fun i => compareAndSwap i (i + k) dir

def merge (lo cnt : Nat) (dir : Int) : Prog Nat F32 :=
  if cnt > 1 then
    let k := cnt / 2
    (compareLoop lo k dir).seq ((merge lo k dir).seq (merge (lo + k) k dir))
  else .done
termination_by cnt

def BM (x : Arr) : Prog Nat F32 :=
  if x.cnt > 1 then
    let k := x.cnt / 2
    (compareLoop x.lo k x.dir).seq
      (if x.layer ≤ 0 then (merge x.lo k x.dir).seq (merge (x.lo + k) k x.dir)
      else
        (BM { lo := x.lo, cnt := k, dir := x.dir, layer := x.layer - 1 }).seq
          (BM { lo := x.lo + k, cnt := k, dir := x.dir, layer := x.layer - 1 }))
  else .done
termination_by x.cnt

/-! ## The sort -/

section
variable (qsort : Qsort)

/-- From layer 1 on the halves are sorted by `qsort`, before that by two threads. The source has a
return value and returns it on no path: the call is taken to return, with a value nobody reads. -/
def BS (x : Arr) : Prog Nat F32 :=
  if x.cnt > 1 then
    let k := x.cnt / 2
    let merged := BM { lo := x.lo, cnt := x.cnt, dir := x.dir, layer := 1 - x.layer }
    if x.layer ≥ 1 then
      (qsort asc x.lo k).seq ((qsort desc (x.lo + k) k).seq merged)
    else
      -- two `pthread_create`, then two `pthread_join`
      .par (BS { lo := x.lo, cnt := k, dir := ASCENDING, layer := x.layer + 1 })
        (BS { lo := x.lo + k, cnt := k, dir := DESCENDING, layer := x.layer + 1 }) merged
  else .done
termination_by x.cnt

/-- `pthread_sort(num_of_elements, data)` -/
def pthreadSort (numOfElements : Nat) : Prog Nat F32 :=
  BS qsort { lo := 0, cnt := numOfElements, dir := ASCENDING, layer := 0 }

end

end Pthread
