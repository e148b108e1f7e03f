import ParSort.Resource.Ledger

/-!
# The OpenCL objects of a host program

`init_opencl`, `cleanup` and `_checkError` as `main.cpp` and `fpga_sort.cpp` share them: the two
programs differ in the objects they create for each device (`Kind`). The status of every call is a
parameter, so a run is a run of the runtime's answers. A handle that `new T[n]` left uninitialised
must not be read, nor an element that the array does not have.
-/

namespace Aocl

/-- The arrays with one object for each device. -/
inductive Kind where
  | queue | kernel | inputABuf | inputBBuf | outputBuf
  deriving DecidableEq, Repr

/-- An object, by the place that is to hold its handle. The events of device `i` are
`write_event[0]`, `write_event[1]`, `kernel_event[i]` and `finish_event[i]`; the buffers are the
locals `d_input` and `d_elems`. -/
inductive Object where
  | context
  | program
  | slot (kind : Kind) (i : Nat)
  | event (i e : Nat)
  | buffer (b : Nat)
  deriving DecidableEq, Repr

inductive Handle where
  | uninitialised
  | null
  | object (o : Object)
  deriving DecidableEq, Repr

/-- The calls that report a status. -/
inductive Call where
  | findPlatform | getDevices | getNames
  | createContext
  /-- `CL_INVALID_PROGRAM` when there is no binary to load -/
  | loadBinary
  | createProgram
  | binaryStatus (i : Nat)
  | buildProgram
  | create (kind : Kind) (i : Nat)
  | createBuffer (b : Nat)
  | enqueueWrite (i w : Nat)
  | setArg (i a : Nat)
  | enqueueKernel (i : Nat)
  | enqueueRead (i : Nat)
  | waitForEvents
  | profile (i t : Nat)
  deriving DecidableEq, Repr

/-- What the runtime answers. -/
structure Env where
  /-- `setCwdToExeDir()` -/
  cwd : Bool
  /-- `findPlatform("Altera") != NULL` -/
  platform : Bool
  /-- what `getDevices` stores in `num_devices` -/
  devices : Nat
  /-- `CL_SUCCESS` is 0 -/
  status : Call → Int

/-- The globals, and the objects created and released so far. -/
structure World where
  numDevices : Nat
  context : Handle
  program : Handle
  /-- the `scoped_array`s, `none` for `NULL` -/
  arrays : Kind → Option (Nat → Handle)
  log : List (Ledger.Event Object)

def World.init : World := ⟨0, .null, .null, fun _ => none, []⟩

/-- How a run ends before it returns. -/
inductive Stop where
  | exit (status : Int)
  /-- an uninitialised handle is read, or no element of an array -/
  | undefined
  deriving DecidableEq, Repr

abbrev Host := EStateM Stop World

def emit (event : Ledger.Event Object) : Host PUnit :=
  modify fun w => { w with log := w.log ++ [event] }

/-! ## `cleanup` and `_checkError` -/

/-- `if(h) clRelease…(h);` -/
def release : Handle → Host PUnit
  | .uninitialised => throw .undefined
  | .null => pure ⟨⟩
  | .object o => emit (.release o)

/-- `array && array[i]` -/
def World.slot (w : World) (i : Nat) (kind : Kind) : Handle :=
  match w.arrays kind with
  | none => .null
  | some array => array i

section
variable (kinds order : List Kind) (env : Env)

/-- `cleanup()`, which releases the objects of a device in `order`. -/
def cleanup : Host PUnit := do
  let w ← get
  (List.range w.numDevices).forM fun i => order.forM fun kind => release (w.slot i kind)
  release w.program
  release w.context

/-- `_checkError(…, error, …)` -/
def checkError (error : Int) : Host PUnit := do
  if error ≠ 0 then
    cleanup order
    throw (.exit error)

/-! ## `init_opencl` -/

/-- The handle that a call returns. -/
def newObject (call : Call) (o : Object) : Host Handle :=
  if env.status call = 0 then do
    emit (.acquire o)
    return .object o
  else return .null

/-- `array.reset(num_devices)` -/
def World.reset (w : World) (kind : Kind) : World :=
  { w with arrays := Function.update w.arrays kind (some fun _ => .uninitialised) }

/-- `array[i] = h` -/
def World.set (w : World) (i : Nat) (kind : Kind) (h : Handle) : World :=
  let array := (w.arrays kind).map fun array => Function.update array i h
  { w with arrays := Function.update w.arrays kind array }

/-- `array[i] = clCreate…(…, &status); checkError(status, …);` -/
def createSlot (i : Nat) (kind : Kind) : Host PUnit := do
  let h ← newObject env (.create kind i) (.slot kind i)
  modify fun w => w.set i kind h
  checkError order (env.status (.create kind i))

/-- `createProgramFromBinary(context, …)`: until it returns, only its own local holds the
program. -/
def createProgramFromBinary : Host Handle := do
  checkError order (env.status .loadBinary)
  let program ← newObject env .createProgram .program
  checkError order (env.status .createProgram)
  (List.range env.devices).forM fun i => checkError order (env.status (.binaryStatus i))
  return program

/-- `init_opencl()` up to its context; false when it returns there. -/
def openContext : Host Bool := do
  if !env.cwd then return false
  checkError order (env.status .findPlatform)
  if !env.platform then return false
  modify fun w => { w with numDevices := env.devices }
  checkError order (env.status .getDevices)
  checkError order (env.status .getNames)
  let context ← newObject env .createContext .context
  modify fun w => { w with context := context }
  checkError order (env.status .createContext)
  return true

/-- The rest of `init_opencl()`: the program, and the objects `kinds` of each device. -/
def createObjects : Host PUnit := do
  let program ← createProgramFromBinary order env
  modify fun w => { w with program := program }
  checkError order (env.status .buildProgram)
  modify fun w => kinds.foldl World.reset w
  (List.range env.devices).forM fun i => kinds.forM (createSlot order env i)

/-- `init_opencl()` -/
def initOpencl : Host Bool := do
  if !(← openContext order env) then return false
  -- `getBoardBinaryFile(…, device[0])`
  if env.devices = 0 then throw .undefined
  createObjects kinds order env
  return true

end

end Aocl
