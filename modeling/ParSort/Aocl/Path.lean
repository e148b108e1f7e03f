/-!
# The directory of the executable

`setCwdToExeDir` on bytes. `readlink` leaves what lies behind the link in `path` as it was, and
`strlen` looks there for the end of the string.
-/

namespace Aocl

/-- The size of `path`. -/
def pathSize : Nat := 256

def slash : UInt8 := 47

def backslash : UInt8 := 92

/-- `readlink("/proc/self/exe", path, 256)`: no NUL is written. -/
def readlink (link : List UInt8) (path : Nat → UInt8) (i : Nat) : UInt8 :=
  if i < pathSize then link.getD i (path i) else path i

/-- `strlen(path)`; `none` when the array holds no NUL. -/
def strlen (path : Nat → UInt8) : Option Nat := (List.range pathSize).find? fun i => path i = 0

def IsSeparator (b : UInt8) : Prop := b = slash ∨ b = backslash

instance (b : UInt8) : Decidable (IsSeparator b) := inferInstanceAs (Decidable (_ ∨ _))

/-- The loop from `i` down to a separator or to 0. -/
def lastSeparator (path : Nat → UInt8) : Nat → Nat
  | 0 => 0
  | i + 1 => if IsSeparator (path (i + 1)) then i + 1 else lastSeparator path i

/-- `setCwdToExeDir()`, when `readlink` finds `link` and `path` is what the stack left: the result,
and the name that `chdir` gets, whose own result is ignored. `none` when a byte outside of `path`
is read. -/
def setCwdToExeDir (stack : Nat → UInt8) :
    Option (List UInt8) → Option (Bool × Option (List UInt8))
  | none => some (false, none)
  | some link =>
    let path := readlink link stack
    match strlen path with
    | none => none
    -- `strlen(path) - 1` wraps around
    | some 0 => none
    | some (n + 1) => some (true, some ((List.range (lastSeparator path n)).map path))

end Aocl
