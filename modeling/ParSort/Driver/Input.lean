import ParSort.Driver.Main
import ParSort.Machine.Bytes
import ParSort.Machine.Loop

/-!
# The program `mysort`

`main` of `mysort.cpp` from its command line: the arguments, the file and the memory it is read
into. Nothing here stops the program but a file that does not open.
-/

namespace Driver

open Conc Machine

/-! ## The arguments -/

/-- `isspace`: a blank, or `\t`, `\n`, `\v`, `\f`, `\r`. -/
def isSpace (c : UInt8) : Bool := c = 32 || 9 ≤ c && c ≤ 13

def isDigit (c : UInt8) : Bool := 48 ≤ c && c ≤ 57

/-- The digits that a string starts with. -/
def digits (s : List UInt8) : Nat :=
  (s.takeWhile isDigit).foldl (fun n c => 10 * n + (c.toNat - 48)) 0

/-- `atoi`; `none` when the number does not fit an `int`. -/
def atoi (s : List UInt8) : Option Int :=
  let n := match s.dropWhile isSpace with
    -- `-` and `+`
    | 45 :: s => -(digits s : Int)
    | 43 :: s => digits s
    | s => digits s
  if wrap32 n = n then some n else none

/-- The path, `numElements` and `mode`. `none` when a number does not fit, or when `argv[2]` is not
there: the usage message does not stop the program. -/
def arguments : List (List UInt8) → Option (List UInt8 × Int × Int)
  | [_, path, count, mode] =>
    (atoi count).bind fun numElements => (atoi mode).map fun mode => (path, numElements, mode)
  -- `argc == 4` does not hold: the mode stays 0
  | _ :: path :: count :: _ => (atoi count).map fun numElements => (path, numElements, 0)
  | _ => none

/-! ## The memory -/

/-- `int mem_size = numElements * sizeof(float)` -/
def memSize (numElements : Int) : Int := wrap32 (4 * numElements)

/-- `malloc(mem_size)` has room for `numElements` floats. -/
def Allocated (numElements : Int) : Prop := 0 ≤ numElements ∧ 4 * numElements ≤ memSize numElements

instance (numElements : Int) : Decidable (Allocated numElements) :=
  inferInstanceAs (Decidable (_ ∧ _))

/-- `fread(input_data, sizeof(float), numElements, fp)`: the bytes that the file does not reach stay
as they were in the heap, also those of a float that it ends in. -/
def fread (file : List UInt8) (numElements : Nat) (heap : Mem Nat F32) : Mem Nat F32 := fun i =>
  if i < numElements then F32.overlay (file.drop (4 * i)) (heap i) else heap i

/-! ## The program -/

/-- How a run ends. -/
inductive Outcome where
  /-- `argv[2]` is not there, a number does not fit, or the heap overflows -/
  | undefined
  /-- `exit(EXIT_FAILURE)` -/
  | failure
  | verdict (v : Verdict)
  deriving DecidableEq, Repr

/-- Every run of `mysort` ends with `Q`; `fopen` are the files, `heap` what `malloc` returns. -/
def mysort (qsort : Qsort) (fuel : Nat) (argv : List (List UInt8))
    (fopen : List UInt8 → Option (List UInt8)) (heap : Mem Nat F32) (M : Mem Cell F32)
    (Q : Outcome → Prop) : Prop :=
  match arguments argv with
  | none => Q .undefined
  | some (path, numElements, mode) =>
    match fopen path with
    | none => Q .failure
    | some file =>
      if Allocated numElements then
        let inputData := fread file numElements.toNat heap
        main qsort fuel mode numElements.toNat inputData M fun v => Q (.verdict v)
      else Q .undefined

end Driver
