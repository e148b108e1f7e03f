import ParSort.Aocl.Host
import ParSort.Aocl.Path

/-!
# What `init_opencl` finds on a machine

The searches of `AOCL_Utils.cpp`, on bytes: the platform by a part of its name, the program's file
by the name of the board. `System.env` is what a machine answers to `init_opencl`.
-/

namespace Aocl

/-! ## Names -/

/-- `tolower` of the C locale. -/
def tolower (c : UInt8) : UInt8 := if 65 ≤ c && c ≤ 90 then c + 32 else c

/-- `s.find(t)`; `none` for `npos`. -/
def find (s t : List UInt8) : Option Nat :=
  (List.range (s.length + 1)).find? fun i => t.isPrefixOf (s.drop i)

/-- A platform: its name and the names of its devices. -/
structure Platform where
  name : List UInt8
  devices : List (List UInt8)

/-- `findPlatform(platform_name_search)` -/
def findPlatform (platforms : List Platform) (search : List UInt8) : Option Platform :=
  platforms.find? fun p => (find (p.name.map tolower) (search.map tolower)).isSome

/-! ## Files -/

/-- `.aocx` -/
def aocx : List UInt8 := [46, 97, 111, 99, 120]

/-- `VERSION_STR`, which is `140`. -/
def version : List UInt8 := [49, 52, 48]

/-- What ends the board's name in the name of a device: a blank and a colon. -/
def boardEnd : List UInt8 := [32, 58]

/-- `stem_board_version.aocx` -/
def boardFile (stem board : List UInt8) : List UInt8 :=
  stem ++ [95] ++ board ++ [95] ++ version ++ aocx

/-- `getBoardBinaryFile(stem, device)` -/
def getBoardBinaryFile (fileExists : List UInt8 → Bool) (stem deviceName : List UInt8) :
    List UInt8 :=
  if fileExists (stem ++ aocx) then stem ++ aocx
  else
    match find deviceName boardEnd with
    | some e =>
      let file := boardFile stem (deviceName.take e)
      if fileExists file then file else stem ++ aocx
    | none => stem ++ aocx

/-- `loadBinaryFile`, of what `fopen` finds. -/
def loadBinaryFile : Option (List UInt8) → Option (List UInt8)
  | none => none
  -- `fread` of no bytes returns 0
  | some [] => none
  | some (b :: bytes) => some (b :: bytes)

/-- `CL_INVALID_PROGRAM` -/
def invalidProgram : Int := -44

/-- The status of loading the program's binary, for the first device: `fileExists` and
`loadBinaryFile` fail alike. -/
def loadStatus (files : List UInt8 → Option (List UInt8)) (stem deviceName : List UInt8) : Int :=
  let file := getBoardBinaryFile (fun name => (files name).isSome) stem deviceName
  if (loadBinaryFile (files file)).isSome then 0 else invalidProgram

/-! ## The machine -/

structure System where
  /-- `/proc/self/exe` -/
  exe : Option (List UInt8)
  /-- what the stack holds where `path` will be -/
  stack : Nat → UInt8
  /-- where `chdir` succeeds -/
  isDir : List UInt8 → Bool
  /-- the directory before -/
  cwd : List UInt8
  /-- the readable files of a directory -/
  files : List UInt8 → List UInt8 → Option (List UInt8)
  platforms : List Platform
  /-- the statuses of the other calls -/
  status : Call → Int

/-- The directory after `chdir(path)`. -/
def System.dir (s : System) : Option (List UInt8) → List UInt8
  | some path => if s.isDir path then path else s.cwd
  | none => s.cwd

/-- `Altera` -/
def altera : List UInt8 := [65, 108, 116, 101, 114, 97]

/-- What `init_opencl` meets when it loads `stem`; `none` when `setCwdToExeDir` reads outside of its
array. -/
def System.env (s : System) (stem : List UInt8) : Option Env :=
  (setCwdToExeDir s.stack s.exe).map fun r =>
    let platform := findPlatform s.platforms altera
    let devices := platform.elim [] Platform.devices
    { cwd := r.1
      platform := platform.isSome
      devices := devices.length
      status := fun c =>
        if c = .loadBinary then loadStatus (s.files (s.dir r.2)) stem (devices.headD [])
        else s.status c }

end Aocl
