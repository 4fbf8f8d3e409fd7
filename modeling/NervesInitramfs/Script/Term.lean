import NervesInitramfs.Block.Probe
import NervesInitramfs.CLib.CNumber
import NervesInitramfs.Uboot.Env

/-!
# Terms, variables and the outside world (`script.c`, `script.h`)

The data that the interpreter works on. A `struct term *` is an `Option Term`, with `none` for
`NULL`; a list of parameters linked through `next` is a list. The state holds the globals of the
program, and next to them what it cannot see coming: the outcomes of its system calls and the
contents of the block devices.
-/

namespace NervesInitramfs

open CLib

/-- The handlers of the functions that a script can use. -/
inductive Builtin
  | assign | add | subtract | blkid | cmd | env | fwupRevert | getenv | help | loadenv | ls
  | poweroff | print | readfile | reboot | saveenv | setenv | sleep | vars
deriving DecidableEq

/-- `struct term`, without the kind `term_variable`, which is `Variable`. -/
inductive Term
  /-- The name of a variable, which stands for what the variable holds. -/
  | identifier (name : CString)
  /-- A text. -/
  | string (value : CString)
  /-- An `int`. -/
  | number (value : Int32)
  /-- A `bool`. -/
  | boolean (value : Bool)
  /-- A call that has not been made yet. -/
  | function (handler : Builtin) (parameters : List Term)

/-- An entry of the list `variables`. -/
structure Variable where
  /-- The name it is looked up by. -/
  name : CString
  /-- What the variable holds; `none` after an assignment of a call that returns `NULL`. -/
  value : Option Term

/-- The entries of the function table that a script cannot call by name. -/
def Builtin.isOperator : Builtin → Bool
  | .assign | .add | .subtract => true
  | _ => false

/-- What a script does that can be seen from outside, and each call of a built-in function and each
assignment to a variable. -/
inductive Event
  /-- A built-in function is called. -/
  | called (handler : Builtin)
  /-- A variable is assigned to. -/
  | assigned (name : CString)
  /-- Bytes go to the standard error. -/
  | printed (bytes : List UInt8)
  /-- A message goes to the log of the kernel. -/
  | info (bytes : List UInt8)
  /-- A read of a device is tried. -/
  | read (path : CString) (offset length : Nat)
  /-- A write to a device is tried. -/
  | written (path : CString) (offset length : Nat)
  /-- A command is run. -/
  | ran (argv : List CString)
  /-- `usleep` -/
  | slept (microseconds : Int32)
  /-- The machine restarts. -/
  | rebooted
  /-- The machine is switched off. -/
  | poweredOff
deriving DecidableEq

/-- The outcome of a system call. Each call uses the fields that it needs. -/
structure Reply where
  /-- Whether it succeeded. -/
  ok : Bool
  /-- How many bytes it moved. -/
  count : Nat
  /-- The bytes it delivered. -/
  bytes : List UInt8
  /-- The directory entries it listed, with whether they are themselves directories. -/
  entries : List (List UInt8 × Bool)
  /-- The block devices it listed. -/
  devices : List BlockDeviceInfo
  /-- The byte in memory in front of a local buffer. -/
  stray : UInt8

/-- The outcome of a call that fails. -/
def Reply.failed : Reply := ⟨false, 0, [], [], [], 0⟩

/-- The world outside. -/
structure World where
  /-- The outcomes of the system calls to come. When they run out, all fail. -/
  replies : List Reply
  /-- What is on the device with a given path or specification. -/
  disk : CString → Nat → UInt8

/-- The global variables of the program, the world and what has happened so far. -/
structure State where
  /-- `variables` -/
  vars : List Variable
  /-- `working_uboot_env` -/
  workingUbootEnv : UbootEnv
  /-- `parser_result` -/
  parserResult : Option Term
  world : World
  log : List Event
  /-- The strings that `argv` points to, in the memory where the kernel has put them. -/
  argv : List CString

/-- Why an evaluation comes to no result. -/
inductive Stop
  /-- A field is read through `NULL`. -/
  | nullDereference
  /-- The program does what C leaves undefined. -/
  | undefined
  /-- `exit` -/
  | exited
  /-- The parser returns without success. -/
  | parseError
  /-- The bound on the recursion is reached. -/
  | outOfFuel
deriving DecidableEq

/-- A computation of the interpreter. When it stops, the state is the one it stopped in. -/
abbrev Interp := EStateM Stop State

/-- What the union in a `struct term` holds, and which member has been stored. -/
inductive Content
  /-- The address of the name. -/
  | identifier (name : CString)
  /-- The address of the text. -/
  | string (value : CString)
  /-- The `int`. -/
  | number (value : Int32)
  /-- One byte; the others are what they were. -/
  | boolean (value : Bool)
  /-- The address of the handler, and the list of the parameters. -/
  | function (handler : Builtin)
deriving DecidableEq

/-- The union of a term. -/
def Term.content : Term → Content
  | .identifier name => .identifier name
  | .string value => .string value
  | .number value => .number value
  | .boolean value => .boolean value
  | .function handler _ => .function handler

/-- The machine that the program runs on, and the C library. -/
structure Machine where
  /-- Addresses and `unsigned long` have this many bits. -/
  bits : Nat
  /-- They are at least as wide as an `int`. -/
  wide : 32 ≤ bits
  /-- The C library's, which may put equal names in any order. -/
  qsort : Qsort envNameCompare
  /-- What `number` reads when another member of the union has been stored. -/
  inactiveNumber : Content → Int32
  /-- The byte that `boolean` reads when another member of the union has been stored. -/
  inactiveBoolean : Content → UInt8

/-- `number` of the union -/
def Machine.numberIn (machine : Machine) : Content → Int32
  | .number value => value
  | content => machine.inactiveNumber content

/-- `boolean` of the union, as an `int` -/
def Machine.booleanIn (machine : Machine) : Content → Int
  | .boolean value => if value then 1 else 0
  | content => (machine.inactiveBoolean content).toNat

/-- Follow `next`. -/
def next : List Term → Interp (List Term)
  | [] => throw .nullDereference
  | _ :: rest => pure rest

/-! ## Effects -/

/-- Note what has happened. -/
def record (e : Event) : Interp Unit := modify fun s => { s with log := s.log ++ [e] }

/-- Note that a function is called, unless it is an operator. -/
def recordCall (handler : Builtin) : Interp Unit :=
  if handler.isOperator then pure () else record (.called handler)

/-- `info`, with the message put together. -/
def info (message : List UInt8) : Interp Unit := record (.info message)

/-- The outcome of the next system call. -/
def reply : Interp Reply := do
  let s ← get
  match s.world.replies with
  | [] => pure .failed
  | r :: rest =>
    set { s with world := { s.world with replies := rest } }
    pure r

/-- `open_block_device`, as the path that it resolved the specification to. The outcome alone says
what the path is: how a specification is resolved, and that one of 32 characters or more is copied
over the end of `devpath`, is a subject of its own (`Waiting.openBlockDevice`). -/
def openBlockDevice (_spec : CString) : Interp (Option CString) := do
  let r ← reply
  pure (if r.ok then some (CString.ofBytes r.bytes) else none)

/-- `lseek(fd, offset, SEEK_SET) >= 0`. There is nothing in front of a device. -/
def lseek (offset : Int) : Interp Bool := do
  let r ← reply
  pure (decide (0 ≤ offset) && r.ok)

/-- `length` bytes of the device from `offset` on. -/
def World.bytesAt (world : World) (path : CString) (offset length : Nat) : List UInt8 :=
  (List.range length).map fun i => world.disk path (offset + i)

/-- `read` of `length` bytes at `offset`: the bytes that came, or `none` for an error. -/
def readDevice (path : CString) (offset length : Nat) : Interp (Option (List UInt8)) := do
  record (.read path offset length)
  let r ← reply
  let s ← get
  pure (if r.ok then some (s.world.bytesAt path offset (min r.count length)) else none)

/-- The world after `data` has been stored at `offset`. -/
def World.store (world : World) (path : CString) (offset : Nat) (data : List UInt8) : World :=
  { world with disk := fun p i =>
      if p = path ∧ offset ≤ i then (data[i - offset]?).getD (world.disk p i)
      else world.disk p i }

/-- `write` of `data` at `offset`: how many of the bytes were stored, or `none` for an error. -/
def writeDevice (path : CString) (offset : Nat) (data : List UInt8) : Interp (Option Nat) := do
  record (.written path offset data.length)
  let r ← reply
  if r.ok then
    let stored := data.take r.count
    modify fun s => { s with world := s.world.store path offset stored }
    pure (some stored.length)
  else pure none

/-! ## The variables -/

/-- `get_variable_impl` -/
def getVariableImpl (vars : List Variable) (name : CString) : Option Variable :=
  vars.find? fun v => strcmp v.name name = 0

/-- `get_variable`. A variable that has not been set is an empty text. -/
def getVariable (name : CString) : Interp (Option Term) := do
  let s ← get
  match getVariableImpl s.vars name with
  | some v => pure v.value
  | none => pure (some (.string (CString.ofString "")))

/-- The loop that looks a name up and what is then stored there; `none` when the name is not
found. -/
def replaceVariable (name : CString) (value : Option Term) : List Variable → Option (List Variable)
  | [] => none
  | v :: rest =>
    if strcmp v.name name = 0 then some ({ v with value := value } :: rest)
    else (replaceVariable name value rest).map (v :: ·)

/-- The list of variables after `set_variable`. -/
def assigned (vars : List Variable) (name : CString) (value : Option Term) : List Variable :=
  match replaceVariable name value vars with
  | some vars => vars
  | none => ⟨name, value⟩ :: vars

/-- `set_variable` -/
def setVariable (name : CString) (value : Option Term) : Interp Unit := do
  record (.assigned name)
  modify fun s => { s with vars := assigned s.vars name value }

/-- `set_string_variable` -/
def setStringVariable (name value : CString) : Interp Unit := setVariable name (some (.string value))

/-- `set_boolean_variable` -/
def setBooleanVariable (name : CString) (value : Bool) : Interp Unit :=
  setVariable name (some (.boolean value))

/-- `set_number_variable` -/
def setNumberVariable (name : CString) (value : Int32) : Interp Unit :=
  setVariable name (some (.number value))

/-! ## Collecting the heap -/

/-- `term_dupe`, which has no copy for a call. -/
def termDupe : Option Term → Interp (Option Term)
  | none => throw .nullDereference
  | some (.function _ _) => pure none
  | some t => pure (some t)

/-- The loop of `term_gc_heap` over the old variables. Here `set_variable` moves a variable, which
does not count as an assignment. -/
def copyVariables : List Variable → Interp Unit
  | [] => pure ()
  | v :: rest => do
    let value ← termDupe v.value
    modify fun s => { s with vars := assigned s.vars v.name value }
    copyVariables rest

/-- `term_gc_heap`. The heap is as large as need be: where the program ends with "Out of heap"
instead, nothing else happens. -/
def termGcHeap : Interp Unit := do
  let s ← get
  set { s with vars := [] }
  copyVariables s.vars

/-! ## The function table -/

/-- `struct function_info` -/
structure FunctionInfo where
  name : CString
  /-- The least number of parameters. -/
  arity : Nat
  handler : Builtin
  /-- What `help` says about the function; an operator has nothing there. -/
  description : Option String

/-- `function_table` -/
def functionTable : List FunctionInfo :=
  [⟨.ofString "=", 2, .assign, none⟩,
   ⟨.ofString "+", 2, .add, none⟩,
   ⟨.ofString "-", 2, .subtract, none⟩,
   ⟨.ofString "blkid", 0, .blkid, some "list block devices"⟩,
   ⟨.ofString "cmd", 1, .cmd, some "run an external command"⟩,
   ⟨.ofString "env", 0, .env, some "print all loaded U-Boot variables"⟩,
   ⟨.ofString "fwup_revert", 0, .fwupRevert, some "revert to the previous firmware image"⟩,
   ⟨.ofString "getenv", 1, .getenv, some "get the value of a U-Boot variable"⟩,
   ⟨.ofString "help", 0, .help, some "print out help in the REPL"⟩,
   ⟨.ofString "loadenv", 0, .loadenv, some "load a U-Boot environment block"⟩,
   ⟨.ofString "ls", 0, .ls, some "list files"⟩,
   ⟨.ofString "poweroff", 0, .poweroff, some "power off the device"⟩,
   ⟨.ofString "print", 1, .print, some "print one or more strings and variables"⟩,
   ⟨.ofString "readfile", 1, .readfile, some "read a file (truncates long files)"⟩,
   ⟨.ofString "reboot", 0, .reboot, some "reset the device"⟩,
   ⟨.ofString "saveenv", 0, .saveenv, some "save all U-Boot variables back to storage"⟩,
   ⟨.ofString "setenv", 2, .setenv,
     some "set a U-Boot variable. It is not saved until you call saveenv/0"⟩,
   ⟨.ofString "sleep", 0, .sleep, some "sleep for n milliseconds"⟩,
   ⟨.ofString "vars", 0, .vars, some "print all known variables and their values"⟩]

/-- `lookup_function` -/
def lookupFunction (name : CString) (arity : Nat) : Option Builtin :=
  (functionTable.find? fun entry => strcmp entry.name name = 0 ∧ entry.arity ≤ arity).map (·.handler)

/-- `function_info_by_fun` -/
def functionInfoByFun (handler : Builtin) : Option FunctionInfo :=
  functionTable.find? fun entry => entry.handler = handler

/-- `term_new_fun` -/
def termNewFun (name : CString) (parameters : List Term) : Option Term :=
  (lookupFunction name parameters.length).map (.function · parameters)

end NervesInitramfs
