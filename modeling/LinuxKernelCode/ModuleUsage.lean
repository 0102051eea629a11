import LinuxKernelCode.StdioText

/-!
# The usage check of `rmmod`

`rmmod` of `rmmod_code.c` turns a path into a module name, looks the module up
in `/proc/modules` and asks the kernel to delete it if it is not in use.  The
variables `name`, `size` and `refs` of `check_usage` are shared by all lines:
`sscanf` overwrites only those for which the line has a field, and they start
with whatever is on the stack.  A line of the module that is cut short prints a
message and is then judged by the reference count left over from before.
-/

namespace LinuxKernelCode.Rmmod

open Stdio

/-! ## Module names -/

def basename (path : List Char) : List Char :=
  match strrchr path '/' with
  | some base => base.drop 1
  | none => path

def filename2modnameLoop : List Char → List Char
  | [] => []
  | c :: afterslash =>
      if c = '.' then []
      else (if c = '-' then '_' else c) :: filename2modnameLoop afterslash

def filename2modname (filename : List Char) : List Char :=
  filename2modnameLoop (basename filename)

/-! ## Scanning a line -/

/-- What `sscanf(line, "%s %lu %lu", ...)` converts. -/
inductive Scan
  | nothing
  | name (name : List Char)
  | size (name : List Char) (size : BitVec 64)
  | refs (name : List Char) (size refs : BitVec 64)
  deriving DecidableEq, Repr

def sscanf (line : List Char) : Scan :=
  match scanWord line with
  | none => .nothing
  | some (name, rest) =>
      match scanUnsigned rest with
      | none => .name name
      | some (size, rest) =>
          match scanUnsigned rest with
          | none => .size name size
          | some (refs, _) => .refs name size refs

/-- The return value, which is `EOF` when nothing is converted. -/
def Scan.scanned : Scan → ℤ
  | .nothing => -1
  | .name _ => 1
  | .size _ _ => 2
  | .refs _ _ _ => 3

/-- The variables of `check_usage`. -/
structure Vars where
  name : List Char
  size : BitVec 64
  refs : BitVec 64
  deriving DecidableEq, Repr

def Vars.assign (vars : Vars) : Scan → Vars
  | .nothing => vars
  | .name name => { vars with name := name }
  | .size name size => { vars with name := name, size := size }
  | .refs name size refs => ⟨name, size, refs⟩

/-! ## Checking the usage -/

inductive Message
  | cannotOpen (errno : ℤ)
  | longLine
  | unknownFormat (line : List Char)
  | noUnloadSupport
  | inUse (line : List Char)
  | doesNotExist (modname : List Char)
  | removing (name : List Char)
  deriving DecidableEq, Repr

/-- How a call ends: it returns, it ends the process, it uses a stream that
was not opened, or it needs more fuel. -/
inductive Ending
  | returns (code : ℤ)
  | exits
  | undefined
  | running
  deriving DecidableEq, Repr

def EINVAL : ℤ := 22

def ENOENT : ℤ := 2

/-- `sizeof(line)`. -/
def lineSize : ℕ := 10240

/-- The outcome of `fopen("/proc/modules", "r")`. -/
inductive Fopen
  | opened (stream : List Char)
  | failed (errno : ℤ)

/-- The messages that are printed at the line of the module. -/
def verdictMessages (line : List Char) (scanned : ℤ) (vars : Vars) :
    List Message :=
  (if scanned < 2 then [.unknownFormat line] else []) ++
    (if scanned = 2 then [.noUnloadSupport] else []) ++
    if vars.refs ≠ 0 then [.inUse line] else []

/-- `(refs == 0) ? 0 : -EINVAL`. -/
def verdict (refs : BitVec 64) : ℤ := if refs = 0 then 0 else -EINVAL

/-- The function `error` is declared nowhere in the program, so whether it
comes back is an argument. -/
def checkUsageLoop (modname : List Char) (errorReturns : Bool) :
    ℕ → List Char → Vars → Ending × List Message
  | 0, _, _ => (.running, [])
  | fuel + 1, stream, vars =>
      match fgets (lineSize - 1) stream with
      | none =>
          (if errorReturns then .returns (verdict 1) else .exits,
            [.doesNotExist modname])
      | some (line, rest) =>
          if '\n' ∉ line then (.exits, [.longLine])
          else
            let scan := sscanf line
            let vars := vars.assign scan
            if vars.name ≠ modname then
              checkUsageLoop modname errorReturns fuel rest vars
            else
              (.returns (verdict vars.refs),
                verdictMessages line scan.scanned vars)

def checkUsage (modname : List Char) (moduleList : Fopen) (errorReturns : Bool)
    (vars : Vars) : Ending × List Message :=
  match moduleList with
  | .opened stream =>
      checkUsageLoop modname errorReturns (stream.length + 1) stream vars
  | .failed errno =>
      if errno = ENOENT then (.returns 0, [])
      else (.undefined, [.cannotOpen errno])

/-! ## Removing a module -/

def O_EXCL : BitVec 32 := 0o200

def O_TRUNC : BitVec 32 := 0o1000

def O_NONBLOCK : BitVec 32 := 0o4000

/-- What is outside of the program: the module list, the C library's `error`,
the uninitialised variables and the answer of the kernel. -/
structure System where
  moduleList : Fopen
  errorReturns : Bool
  vars : Vars
  deleteModule : List Char → BitVec 32 → ℤ

structure Removal where
  ending : Ending
  deleted : List (List Char × BitVec 32)
  messages : List Message

def rmmod (path : List Char) (flags : BitVec 32) (system : System) : Removal :=
  let name := filename2modname path
  let delete (messages : List Message) : Removal :=
    let ret := system.deleteModule name flags
    ⟨.returns ret, [(name, flags)],
      messages ++ if ret ≠ 0 then [.removing name] else []⟩
  if flags &&& O_NONBLOCK ≠ 0 ∧ flags &&& O_TRUNC = 0 then
    match checkUsage name system.moduleList system.errorReturns system.vars with
    | (.returns code, messages) =>
        if code ≠ 0 then ⟨.returns 1, [], messages⟩ else delete messages
    | (ending, messages) => ⟨ending, [], messages⟩
  else delete []

end LinuxKernelCode.Rmmod
