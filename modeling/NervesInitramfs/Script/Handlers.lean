import NervesInitramfs.Script.Term

/-!
# Resolving terms and the built-in functions (`script.c`, `cmd.c`, `util.c`)

`termResolve` runs the handler of a call, and handlers resolve their parameters. The handlers are
therefore defined for any `resolve`, and tied to it at the end of the file. Through a variable a
term can lead back to itself, so the depth of the recursion is bounded by an argument; that it is
never reached is something to prove.
-/

namespace NervesInitramfs

open CLib

section

variable (machine : Machine) (resolve : Option Term → Interp (Option Term)) (depth : Nat)

/-! ## Coercions -/

/-- `term_to_boolean`. The texts that are false are the empty one, `0` and `false`. -/
def termToBoolean (rv : Option Term) : Interp Bool := do
  match ← resolve rv with
  | none => throw .nullDereference
  | some (.string value) =>
    pure !(value.strlen = 0 || strcaseeq value (.ofString "0") || strcaseeq value (.ofString "false"))
  | some (.number value) => pure (value ≠ 0)
  | some (.boolean value) => pure value
  | some (.identifier _) | some (.function _ _) => pure false

/-- `term_to_number`. A text is read in the base that its first digits say. -/
def termToNumber (rv : Option Term) : Interp Int32 := do
  match ← resolve rv with
  | none => throw .nullDereference
  | some (.string value) => pure (toInt32 (strtoull value 0))
  | some (.number value) => pure value
  | some (.boolean value) => pure (if value then 1 else 0)
  | some (.identifier _) | some (.function _ _) => pure 0

/-- `term_to_string`, as the `string` of the term that is returned. The recursion through an
identifier is bounded by the first argument. -/
def termToString : Nat → Option Term → Interp CString
  | 0, _ => throw .outOfFuel
  | depth + 1, rv => do
    match ← resolve rv with
    | none => throw .nullDereference
    | some (.identifier name) => termToString depth (← getVariable name)
    | some (.string value) => pure value
    | some (.number value) => pure (.ofBytes (decimalInt value.toInt))
    | some (.boolean value) => pure (.ofString (if value then "true" else "false"))
    | some (.function _ _) => pure (.ofString "")

/-- `get_variable_as_string` -/
def getVariableAsString (name : CString) : Interp CString := do
  match getVariableImpl (← get).vars name with
  | some v => termToString resolve depth v.value
  | none => pure (.ofString "")

/-- `get_variable_as_boolean` -/
def getVariableAsBoolean (name : CString) : Interp Bool := do
  match getVariableImpl (← get).vars name with
  | some v => termToBoolean resolve v.value
  | none => pure false

/-- `get_variable_as_number` -/
def getVariableAsNumber (name : CString) : Interp Int32 := do
  match getVariableImpl (← get).vars name with
  | some v => termToNumber resolve v.value
  | none => pure 0

/-- `term_compare`. It looks at the kind of the left operand and reads the same member of the union
in the right one. A number or a boolean comes out of whatever is there, but the text of what is no
string can be anywhere in memory. -/
def termCompare (left right : Option Term) : Interp Int := do
  let rleft ← resolve left
  let rright ← resolve right
  match rleft with
  | none => throw .nullDereference
  | some (.identifier _) | some (.function _ _) => pure 1
  | some (.string a) =>
    match rright with
    | none => throw .nullDereference
    | some (.string b) => pure (strcmp a b)
    | some _ => throw .undefined
  | some (.number a) =>
    match rright with
    | none => throw .nullDereference
    | some b => pure (a - machine.numberIn b.content).toInt
  | some (.boolean a) =>
    match rright with
    | none => throw .nullDereference
    | some b => pure ((if a then 1 else 0) - machine.booleanIn b.content)

/-! ## Operators -/

/-- `function_assign`. The value is resolved, the name is taken from the union without a look at the
kind. -/
def functionAssign (parameters : List Term) : Interp (Option Term) := do
  let value ← resolve (← next parameters).head?
  match parameters.head? with
  | some (.identifier name) =>
    setVariable name value
    pure value
  | some _ => throw .undefined
  | none => throw .nullDereference

/-- `function_add`, in an `int` that wraps around. -/
def functionAdd (parameters : List Term) : Interp (Option Term) := do
  let a ← termToNumber resolve parameters.head?
  let b ← termToNumber resolve (← next parameters).head?
  pure (some (.number (a + b)))

/-- `function_subtract`, likewise. -/
def functionSubtract (parameters : List Term) : Interp (Option Term) := do
  let a ← termToNumber resolve parameters.head?
  let b ← termToNumber resolve (← next parameters).head?
  pure (some (.number (a - b)))

/-! ## Printing -/

/-- The bytes of a string literal in the source. -/
def printed (s : String) : Interp Unit := record (.printed (text s))

/-- The loop of `function_print`. -/
def printParameters : List Term → Interp Unit
  | [] => pure ()
  | parameter :: rest => do
    let str ← termToString resolve depth (some parameter)
    record (.printed str.bytes)
    printParameters rest

/-- `function_print` -/
def functionPrint (parameters : List Term) : Interp (Option Term) := do
  printParameters resolve depth parameters
  printed "\n"
  pure none

end

mutual

/-- `inspect`, as the bytes that are printed; `none` for a `NULL` among the parameters. -/
def inspect : Term → Option (List UInt8)
  | .identifier name => some name.bytes
  | .string value => some (text "\"" ++ value.bytes ++ text "\"")
  | .number value => some (decimalInt value.toInt)
  | .boolean value => some (text (if value then "true" else "false"))
  | .function handler parameters => do
    let info ← functionInfoByFun handler
    let inside ← inspectParameters info.arity parameters
    pure (info.name.bytes ++ text "(" ++ inside ++ text ")")

/-- The loop of `inspect` over the parameters of a call. -/
def inspectParameters : Nat → List Term → Option (List UInt8)
  | 0, _ => some []
  | _ + 1, [] => none
  | n + 1, p :: rest => do
    let first ← inspect p
    let others ← inspectParameters n rest
    pure (first ++ (if rest.isEmpty then [] else text ",") ++ others)

end

/-- The loop of `function_vars`. -/
def inspectVariables : List Variable → Interp Unit
  | [] => pure ()
  | v :: rest => do
    match v.value.bind inspect with
    | none => throw .nullDereference
    | some bytes => record (.printed (v.name.bytes ++ text "=" ++ bytes ++ text "\n"))
    inspectVariables rest

/-- `function_vars` -/
def functionVars (_parameters : List Term) : Interp (Option Term) := do
  inspectVariables (← get).vars
  pure none

/-- A loop that prints one line after the other. -/
def printLines : List (List UInt8) → Interp Unit
  | [] => pure ()
  | line :: rest => do
    record (.printed (line ++ text "\n"))
    printLines rest

/-- `function_env` -/
def functionEnv (_parameters : List Term) : Interp (Option Term) := do
  printLines ((← get).workingUbootEnv.vars.map fun var =>
    var.name.bytes ++ text "=" ++ var.value.bytes)
  pure none

/-- `function_blkid`. The outcome is the list that `probe_block_devices` makes. -/
def functionBlkid (_parameters : List Term) : Interp (Option Term) := do
  printLines ((← reply).devices.map fun device =>
    device.path ++ text ": " ++ text (if device.type = .disk then "DISK" else "PART") ++
      text "UUID=\"" ++ device.uuid ++ text "\"")
  pure none

/-- `"%-<width>s"` -/
def padRight (width : Nat) (s : List UInt8) : List UInt8 :=
  s ++ List.replicate (width - s.length) 32

/-- The line about a function, if it has a description. -/
def helpLine (entry : FunctionInfo) : Option (List UInt8) :=
  entry.description.map fun description =>
    padRight 16 ((entry.name.bytes ++ text "/" ++ decimal entry.arity).take 15) ++ text description

/-- `function_help` -/
def functionHelp (_parameters : List Term) : Interp (Option Term) := do
  printLines (functionTable.filterMap helpLine)
  printed "\nType Ctrl-D to exit repl.\n"
  pure none

section

variable (machine : Machine) (resolve : Option Term → Interp (Option Term)) (depth : Nat)

/-- The path that `function_ls` lists. -/
def lsPath (parameters : List Term) : Interp CString :=
  match parameters.head? with
  | some p => termToString resolve depth (some p)
  | none => pure (.ofString "/")

/-- `function_ls`. The outcome is what `scandir` lists. -/
def functionLs (parameters : List Term) : Interp (Option Term) := do
  let _path ← lsPath resolve depth parameters
  printLines ((← reply).entries.map fun (name, directory) =>
    padRight 32 name ++ text (if directory then "<DIR>" else ""))
  pure none

/-! ## The U-Boot environment -/

/-- `working_uboot_env.env_size = block_count * 512`, as that value. -/
def sizeOfBlocks (blockCount : Int32) : Nat := toSize machine.bits (blockCount * 512)

/-- The buffer that `function_loadenv` reads `size` bytes at `offset` into, if all of them come. A
read into the `NULL` that `malloc` returns when the size is impossible fails. -/
def readBlocks (path : CString) (offset size : Nat) : Interp (Option (Buffer machine.bits)) :=
  match malloc machine.bits size with
  | none => pure none
  | some buffer => do
    match ← readDevice path offset size with
    | some got => pure (if got.length = size then buffer.memcpy 0 got else none)
    | none => pure none

/-- `function_loadenv`. The flags are cleared as soon as the block has been read, and
`uboot_env.loaded` is set again once it has been accepted. -/
def functionLoadenv (_parameters : List Term) : Interp (Option Term) := do
  let devpathspec ← getVariableAsString resolve depth (.ofString "uboot_env.path")
  let block ← getVariableAsNumber resolve (.ofString "uboot_env.start")
  let blockCount ← getVariableAsNumber resolve (.ofString "uboot_env.count")
  let size := sizeOfBlocks machine blockCount
  modify fun s => { s with workingUbootEnv := { s.workingUbootEnv with envSize := size } }
  match ← openBlockDevice devpathspec with
  | none =>
    info (text "Could not open '" ++ devpathspec.bytes ++ text "'")
    pure none
  | some devpath =>
    let sought ← lseek (block * 512).toInt
    if !sought then
      info (text "Could not seek to block " ++ decimalInt block.toInt ++ text " (byte offset " ++
        decimalInt (block * 512).toInt ++ text ") in '" ++ devpath.bytes ++ text "'")
      pure none
    else
      match ← readBlocks machine devpathspec (block * 512).toInt.toNat size with
      | none =>
        info (text "Could not read " ++ decimalInt blockCount.toInt ++ text " blocks (" ++
          decimalInt (blockCount * 512).toInt ++ text " bytes) from '" ++ devpath.bytes ++ text "'")
        pure none
      | some buffer =>
        setBooleanVariable (.ofString "uboot_env.loaded") false
        setBooleanVariable (.ofString "uboot_env.modified") false
        match ubootEnvRead (← get).workingUbootEnv buffer with
        | none => throw .undefined
        | some (rc, env) =>
          modify fun s => { s with workingUbootEnv := env }
          if rc < 0 then pure none
          else
            setBooleanVariable (.ofString "uboot_env.loaded") true
            pure none

/-- `function_setenv` -/
def functionSetenv (parameters : List Term) : Interp (Option Term) := do
  let name ← termToString resolve depth parameters.head?
  let rest ← next parameters
  let value ← termToString resolve depth rest.head?
  let (rc, env) := ubootEnvSetenv (← get).workingUbootEnv name value
  (if rc < 0 then
    info (text "Error setting uboot environment variable '" ++ name.bytes ++ text "' to '" ++
      value.bytes ++ text "'")
  else do
    modify fun s => { s with workingUbootEnv := env }
    setBooleanVariable (.ofString "uboot_env.modified") true)
  -- What is handed back is the parameter itself, not its value.
  pure rest.head?

/-- `function_getenv`. A variable that is not there is an empty text. -/
def functionGetenv (parameters : List Term) : Interp (Option Term) := do
  let name ← termToString resolve depth parameters.head?
  match ubootEnvGetenv (← get).workingUbootEnv name with
  | none => pure (some (.string (.ofString "")))
  | some value => pure (some (.string value))

/-- `function_saveenv`. The `NULL` that `malloc` returns when the size is impossible is written
to. -/
def functionSaveenv (_parameters : List Term) : Interp (Option Term) := do
  let devpathspec ← getVariableAsString resolve depth (.ofString "uboot_env.path")
  let block ← getVariableAsNumber resolve (.ofString "uboot_env.start")
  let blockCount ← getVariableAsNumber resolve (.ofString "uboot_env.count")
  let size := sizeOfBlocks machine blockCount
  modify fun s => { s with workingUbootEnv := { s.workingUbootEnv with envSize := size } }
  match ← openBlockDevice devpathspec with
  | none =>
    info (text "Could not open '" ++ devpathspec.bytes ++ text "'")
    pure none
  | some devpath =>
    let sought ← lseek (block * 512).toInt
    if !sought then
      info (text "Could not seek to block " ++ decimalInt block.toInt ++ text " (byte offset " ++
        decimalInt (block * 512).toInt ++ text ") in '" ++ devpath.bytes ++ text "'")
      pure none
    else
      match malloc machine.bits size with
      | none => throw .undefined
      | some buffer =>
        match ubootEnvWrite machine.qsort (← get).workingUbootEnv buffer with
        | none => throw .undefined
        | some (rc, env, buffer) =>
          modify fun s => { s with workingUbootEnv := env }
          if rc < 0 then pure none
          else
            let amountWritten ← writeDevice devpathspec (block * 512).toInt.toNat buffer.bytes
            if amountWritten ≠ some size then
              info (text "Could not write " ++ decimalInt blockCount.toInt ++ text " blocks (" ++
                decimalInt (blockCount * 512).toInt ++ text " bytes) from '" ++ devpath.bytes ++
                text "'")
              pure none
            else
              setBooleanVariable (.ofString "uboot_env.modified") false
              pure none

/-! ## Commands, files and the power switch -/

/-- `trim_string_in_place`. From a blank string the pointer `last` leaves the buffer at the front,
where `stray` is the first byte it meets; `none` stands for the crash that follows unless it stops
there with nothing to move. -/
def trimStringInPlace (stray : UInt8) (str : CString) : Option CString :=
  match str.bytes.dropWhile isspace with
  | [] => if str.strlen = 0 ∧ !isspace stray then some str else none
  | first => some (.ofBytes ((first.reverse.dropWhile isspace).reverse))

/-- The output of a command that fits in a buffer of 256 bytes. -/
def outputBuffer (r : Reply) : CString := .ofBytes (r.bytes.take 255)

/-- The loop of `function_cmd` over its parameters. -/
def cmdArguments : Nat → List Term → Interp (List CString)
  | 0, _ => pure []
  | _ + 1, [] => pure []
  | n + 1, parameter :: rest => do
    let str ← termToString resolve depth (some parameter)
    let others ← cmdArguments n rest
    pure (str :: others)

/-- `function_cmd`, with at most 15 arguments. -/
def functionCmd (parameters : List Term) : Interp (Option Term) := do
  let argv ← cmdArguments resolve depth 15 parameters
  record (.ran argv)
  let r ← reply
  (if r.ok then pure ()
  else info (text "Ignoring non-zero exit from " ++ (argv.headD (.ofString "")).bytes))
  match trimStringInPlace r.stray (outputBuffer r) with
  | none => throw .undefined
  | some output => pure (some (.string output))

/-- `function_fwup_revert`, which returns only when it fails. -/
def functionFwupRevert (_parameters : List Term) : Interp (Option Term) := do
  let devpathspec ← getVariableAsString resolve depth (.ofString "uboot_env.path")
  match ← openBlockDevice devpathspec with
  | none =>
    info (text "Failure to revert due to invalid uboot_env.path")
    pure (some (.boolean false))
  | some devpath =>
    record (.ran [.ofString "/usr/bin/fwup", .ofString "revert.fw", .ofString "-d", devpath,
      .ofString "-t", .ofString "revert"])
    let r ← reply
    if r.ok then
      record .rebooted
      throw .exited
    else
      info (text "Failure from fwup revert: " ++ (outputBuffer r).bytes)
      pure (some (.boolean false))

/-- `function_reboot` -/
def functionReboot (_parameters : List Term) : Interp (Option Term) := do
  record .rebooted
  throw .exited

/-- `function_poweroff` -/
def functionPoweroff (_parameters : List Term) : Interp (Option Term) := do
  record .poweredOff
  throw .exited

/-- `function_sleep` -/
def functionSleep (parameters : List Term) : Interp (Option Term) := do
  let milliseconds ← termToNumber resolve parameters.head?
  record (.slept (milliseconds * 1000))
  pure none

/-- `function_readfile`. What is longer than a quarter of the heap is cut off. -/
def functionReadfile (parameters : List Term) : Interp (Option Term) := do
  let path ← termToString resolve depth parameters.head?
  let r ← reply
  if r.ok then pure (some (.string (.ofBytes (r.bytes.take 4133))))
  else
    info (text "Error reading " ++ path.bytes)
    pure (some (.string (.ofString "")))

/-! ## Calls -/

/-- Call the handler through its pointer. -/
def Builtin.run : Builtin → List Term → Interp (Option Term)
  | .assign => functionAssign resolve
  | .add => functionAdd resolve
  | .subtract => functionSubtract resolve
  | .blkid => functionBlkid
  | .cmd => functionCmd resolve depth
  | .env => functionEnv
  | .fwupRevert => functionFwupRevert resolve depth
  | .getenv => functionGetenv resolve depth
  | .help => functionHelp
  | .loadenv => functionLoadenv machine resolve depth
  | .ls => functionLs resolve depth
  | .poweroff => functionPoweroff
  | .print => functionPrint resolve depth
  | .readfile => functionReadfile resolve depth
  | .reboot => functionReboot
  | .saveenv => functionSaveenv machine resolve depth
  | .setenv => functionSetenv resolve depth
  | .sleep => functionSleep resolve
  | .vars => functionVars

end

/-- `term_resolve`, to the given depth. -/
def termResolve (machine : Machine) : Nat → Option Term → Interp (Option Term)
  | 0, _ => throw .outOfFuel
  | depth + 1, rv =>
    match rv with
    | none => throw .nullDereference
    | some (.identifier name) => do termResolve machine depth (← getVariable name)
    | some (.function handler parameters) => do
      recordCall handler
      handler.run machine (termResolve machine depth) depth parameters
    | some term => pure (some term)

/-- `run_function` -/
def runFunction (machine : Machine) (depth : Nat) (rv : Term) : Interp (Option Term) :=
  match rv with
  | .function handler parameters => do
    recordCall handler
    handler.run machine (termResolve machine depth) depth parameters
  | _ => throw .undefined

/-- The loop of `run_functions`. -/
def runFunctions (machine : Machine) (depth : Nat) : Option Term → List Term → Interp (Option Term)
  | lastResult, [] => pure lastResult
  | _, rv :: rest => do
    let result ← runFunction machine depth rv
    runFunctions machine depth result rest

end NervesInitramfs
