import ParSort.Aocl.Host

/-!
# The OpenCL run of `main.cpp`, as it creates and releases objects

The default mode of `main`: `init_opencl`, `init_problem`, `cl_run` and `cleanup`. What the commands
of `cl_run` compute is in `Simd/Cl.lean`.
-/

namespace Simd

open Aocl

/-- What `init_opencl` creates for each device. -/
def kinds : List Kind := [.queue, .kernel, .inputABuf, .inputBBuf, .outputBuf]

/-- The order in which `cleanup` releases it. -/
def order : List Kind := [.kernel, .queue, .inputABuf, .inputBBuf, .outputBuf]

section
variable (env : Env)

def initOpencl : Host Bool := Aocl.initOpencl kinds order env

/-- `kernel_event[i]`, once its command is enqueued. -/
def kernelHandle (i : Nat) : Handle := .object (.event i 2)

/-- `finish_event[i]`: a read that fails leaves it as `new` made it. -/
def finishHandle (i : Nat) : Handle :=
  if env.status (.enqueueRead i) = 0 then .object (.event i 3) else .uninitialised

/-- The iteration of `cl_run` that enqueues the commands for device `i`. -/
def enqueue (i : Nat) : Host PUnit := do
  let write0 ← newObject env (.enqueueWrite i 0) (.event i 0)
  checkError order (env.status (.enqueueWrite i 0))
  let write1 ← newObject env (.enqueueWrite i 1) (.event i 1)
  checkError order (env.status (.enqueueWrite i 1))
  (List.range 3).forM fun a => checkError order (env.status (.setArg i a))
  let _ ← newObject env (.enqueueKernel i) (.event i 2)
  checkError order (env.status (.enqueueKernel i))
  -- this status is not checked
  let _ ← newObject env (.enqueueRead i) (.event i 3)
  release write0
  release write1

/-- `clWaitForEvents` reads its events, whether or not it can wait for them. -/
def readEvent : Handle → Host PUnit
  | .uninitialised => throw .undefined
  | _ => pure ⟨⟩

/-- `clWaitForEvents(num_devices, finish_event)` and its status. -/
def waitForEvents (events : List Handle) : Host Int := do
  events.forM readEvent
  return env.status .waitForEvents

/-- `getStartEndTime(kernel_event[i])` -/
def getStartEndTime (i : Nat) : Host PUnit :=
  (List.range 2).forM fun t => checkError order (env.status (.profile i t))

/-- `cl_run()` -/
def runEvents : Host PUnit := do
  let w ← get
  let devices := List.range w.numDevices
  devices.forM (enqueue env)
  -- nor is this one
  let _ ← waitForEvents env (devices.map (finishHandle env))
  devices.forM (getStartEndTime env)
  devices.forM fun i => do
    release (kernelHandle i)
    release (finishHandle env i)

/-- The default mode of `main`, up to its exit status. -/
def clMain : Host Int := do
  if !(← initOpencl env) then return -1
  -- `init_problem()`
  if (← get).numDevices = 0 then checkError order (-1)
  runEvents env
  cleanup order
  return 0

end

end Simd
