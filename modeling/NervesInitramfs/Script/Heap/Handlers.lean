import NervesInitramfs.Script.Heap.Store

/-!
# The built-in functions on terms in the heap (`script.c`)

What the handlers do outside the heap is what they do in the rest of the model. Here they get and
return pointers, and whatever they allocate comes out of the heap.
-/

namespace NervesInitramfs.TermHeap

open CLib

section

variable (machine : Machine) (resolve : Option Ptr → HeapInterp (Option Ptr)) (depth : Nat)

/-! ## Coercions -/

/-- `term_to_boolean` -/
def termToBoolean (rv : Option Ptr) : HeapInterp Bool := do
  match (← deref (← resolve rv)).data with
  | .string string => do
    let value ← textAt string
    pure !(value.strlen = 0 || strcaseeq value (.ofString "0") || strcaseeq value (.ofString "false"))
  | .number number => pure (number ≠ 0)
  | .boolean boolean => pure boolean
  | .identifier _ | .function _ _ | .var _ _ => pure false

/-- `term_to_number` -/
def termToNumber (rv : Option Ptr) : HeapInterp Int32 := do
  match (← deref (← resolve rv)).data with
  | .string string => do
    let value ← textAt string
    pure (toInt32 (strtoull value 0))
  | .number number => pure number
  | .boolean boolean => pure (if boolean then 1 else 0)
  | .identifier _ | .function _ _ | .var _ _ => pure 0

/-- `term_to_string`, as the `string` of the term that is returned. -/
def termToString : Nat → Option Ptr → HeapInterp Ptr
  | 0, _ => throw (.stop .outOfFuel)
  | n + 1, rv => do
    match (← deref (← resolve rv)).data with
    | .identifier identifier => do
      termToString n (← getVariable machine depth (← textAt identifier))
    | .string string => pure string
    | .number number => newText (.ofBytes (decimalInt number.toInt))
    | .boolean boolean => newText (.ofString (if boolean then "true" else "false"))
    | .function _ _ | .var _ _ => newText (.ofString "")
where
  newText (value : CString) : HeapInterp Ptr := do
    let rv ← termNewString machine value
    match (← deref (some rv)).data with
    | .string string => pure string
    | _ => throw (.stop .undefined)

/-- The string that `term_to_string` leads to. -/
def stringOf (rv : Option Ptr) : HeapInterp CString := do
  textAt (← termToString machine resolve depth depth rv)

/-- `get_variable_as_string` -/
def getVariableAsString (name : CString) : HeapInterp CString := do
  match ← getVariableImpl depth name with
  | some (_, value) => stringOf machine resolve depth value
  | none => pure (.ofString "")

/-- `get_variable_as_boolean` -/
def getVariableAsBoolean (name : CString) : HeapInterp Bool := do
  match ← getVariableImpl depth name with
  | some (_, value) => termToBoolean resolve value
  | none => pure false

/-- `get_variable_as_number` -/
def getVariableAsNumber (name : CString) : HeapInterp Int32 := do
  match ← getVariableImpl depth name with
  | some (_, value) => termToNumber resolve value
  | none => pure 0

/-- The union of a term. -/
def contentOf : TermData → HeapInterp Content
  | .identifier identifier => do pure (.identifier (← textAt identifier))
  | .string string => do pure (.string (← textAt string))
  | .number number => pure (.number number)
  | .boolean boolean => pure (.boolean boolean)
  | .function handler _ => pure (.function handler)
  | .var _ _ => throw (.stop .undefined)

/-- `term_compare`, on the member of the union that the kind of the left operand says. -/
def termCompare (left right : Option Ptr) : HeapInterp Int := do
  let rleft ← resolve left
  let rright ← resolve right
  match (← deref rleft).data with
  | .string a => do
    match (← deref rright).data with
    | .string b => do pure (strcmp (← textAt a) (← textAt b))
    | _ => throw (.stop .undefined)
  | .number a => do
    let content ← contentOf (← deref rright).data
    pure (a - machine.numberIn content).toInt
  | .boolean a => do
    let content ← contentOf (← deref rright).data
    pure ((if a then 1 else 0) - machine.booleanIn content)
  | .identifier _ | .function _ _ | .var _ _ => pure 1

/-! ## Operators -/

/-- `parameters->next` -/
def nextOf (parameters : Option Ptr) : HeapInterp (Option Ptr) := do
  pure (← deref parameters).next

/-- `function_assign`. The variable points to the term that the value is resolved to, which is not
copied. -/
def functionAssign (parameters : Option Ptr) : HeapInterp (Option Ptr) := do
  let value ← resolve (← nextOf parameters)
  match (← deref parameters).data with
  | .identifier identifier => do
    setVariable machine depth (← textAt identifier) value
    pure value
  | _ => throw (.stop .undefined)

/-- `function_add` -/
def functionAdd (parameters : Option Ptr) : HeapInterp (Option Ptr) := do
  let a ← termToNumber resolve parameters
  let b ← termToNumber resolve (← nextOf parameters)
  let p ← termNewNumber machine (a + b)
  pure (some p)

/-- `function_subtract` -/
def functionSubtract (parameters : Option Ptr) : HeapInterp (Option Ptr) := do
  let a ← termToNumber resolve parameters
  let b ← termToNumber resolve (← nextOf parameters)
  let p ← termNewNumber machine (a - b)
  pure (some p)

/-! ## Printing -/

/-- The loop of `function_print`. -/
def printParameters : Nat → Option Ptr → HeapInterp Unit
  | _, none => pure ()
  | 0, some _ => throw (.stop .outOfFuel)
  | n + 1, some parameter => do
    let str ← stringOf machine resolve depth (some parameter)
    outside (record (.printed str.bytes))
    printParameters n (← nextOf (some parameter))

/-- `function_print` -/
def functionPrint (parameters : Option Ptr) : HeapInterp (Option Ptr) := do
  printParameters machine resolve depth depth parameters
  outside (printed "\n")
  pure none

/-- `inspect`, as the bytes that are printed. -/
def inspect : Nat → Option Ptr → HeapInterp (List UInt8)
  | 0, _ => throw (.stop .outOfFuel)
  | n + 1, rv => do
    match (← deref rv).data with
    | .identifier identifier => do pure (← textAt identifier).bytes
    | .string string => do pure (text "\"" ++ (← textAt string).bytes ++ text "\"")
    | .number number => pure (decimalInt number.toInt)
    | .boolean boolean => pure (text (if boolean then "true" else "false"))
    | .function handler parameters => do
      match functionInfoByFun handler with
      | none => throw (.stop .nullDereference)
      | some info => do
        let inside ← inspectParameters n info.arity parameters
        pure (info.name.bytes ++ text "(" ++ inside ++ text ")")
    | .var name value => do
      let inside ← inspect n value
      pure ((← textAt name).bytes ++ text "=" ++ inside)
where
  /-- The loop over the parameters of a call. -/
  inspectParameters (n : Nat) : Nat → Option Ptr → HeapInterp (List UInt8)
    | 0, _ => pure []
    | count + 1, p => do
      let first ← inspect n p
      let rest ← nextOf p
      let others ← inspectParameters n count rest
      pure (first ++ (if rest.isNone then [] else text ",") ++ others)

/-- The loop of `function_vars`. -/
def inspectVariables : Nat → Option Ptr → HeapInterp Unit
  | _, none => pure ()
  | 0, some _ => throw (.stop .outOfFuel)
  | n + 1, some var => do
    let bytes ← inspect depth (some var)
    outside (record (.printed (bytes ++ text "\n")))
    inspectVariables n (← nextOf (some var))

/-- `function_vars` -/
def functionVars (_parameters : Option Ptr) : HeapInterp (Option Ptr) := do
  inspectVariables depth depth (← get).vars
  pure none

/-- A handler that neither looks at its parameters nor touches the heap. -/
def functionOutside (handler : List Term → Interp (Option Term)) (_parameters : Option Ptr) :
    HeapInterp (Option Ptr) := do
  let _ ← outside (handler [])
  pure none

/-- `function_ls` -/
def functionLs (parameters : Option Ptr) : HeapInterp (Option Ptr) := do
  let _path ← match parameters with
    | some p => stringOf machine resolve depth (some p)
    | none => pure (.ofString "/")
  outside (do
    printLines ((← reply).entries.map fun (name, directory) =>
      padRight 32 name ++ text (if directory then "<DIR>" else "")))
  pure none

/-! ## The U-Boot environment -/

/-- `function_loadenv` -/
def functionLoadenv (_parameters : Option Ptr) : HeapInterp (Option Ptr) := do
  let devpathspec ← getVariableAsString machine resolve depth (.ofString "uboot_env.path")
  let block ← getVariableAsNumber resolve depth (.ofString "uboot_env.start")
  let blockCount ← getVariableAsNumber resolve depth (.ofString "uboot_env.count")
  let size := sizeOfBlocks machine blockCount
  outside (modify fun s => { s with workingUbootEnv := { s.workingUbootEnv with envSize := size } })
  match ← outside (openBlockDevice devpathspec) with
  | none =>
    outside (info (text "Could not open '" ++ devpathspec.bytes ++ text "'"))
    pure none
  | some devpath =>
    let sought ← outside (lseek (block * 512).toInt)
    if !sought then
      outside (info (text "Could not seek to block " ++ decimalInt block.toInt ++
        text " (byte offset " ++ decimalInt (block * 512).toInt ++ text ") in '" ++ devpath.bytes ++
        text "'"))
      pure none
    else
      match ← outside (readBlocks machine devpathspec (block * 512).toInt.toNat size) with
      | none =>
        outside (info (text "Could not read " ++ decimalInt blockCount.toInt ++ text " blocks (" ++
          decimalInt (blockCount * 512).toInt ++ text " bytes) from '" ++ devpath.bytes ++
          text "'"))
        pure none
      | some buffer =>
        setBooleanVariable machine depth (.ofString "uboot_env.loaded") false
        setBooleanVariable machine depth (.ofString "uboot_env.modified") false
        match ubootEnvRead (← get).outside.workingUbootEnv buffer with
        | none => throw (.stop .undefined)
        | some (rc, env) =>
          outside (modify fun s => { s with workingUbootEnv := env })
          if rc < 0 then pure none
          else
            setBooleanVariable machine depth (.ofString "uboot_env.loaded") true
            pure none

/-- `function_setenv`, which returns the pointer to its second parameter. -/
def functionSetenv (parameters : Option Ptr) : HeapInterp (Option Ptr) := do
  let name ← stringOf machine resolve depth parameters
  let rest ← nextOf parameters
  let value ← stringOf machine resolve depth rest
  let (rc, env) := ubootEnvSetenv (← get).outside.workingUbootEnv name value
  (if rc < 0 then
    outside (info (text "Error setting uboot environment variable '" ++ name.bytes ++
      text "' to '" ++ value.bytes ++ text "'"))
  else do
    outside (modify fun s => { s with workingUbootEnv := env })
    setBooleanVariable machine depth (.ofString "uboot_env.modified") true)
  nextOf parameters

/-- `function_getenv` -/
def functionGetenv (parameters : Option Ptr) : HeapInterp (Option Ptr) := do
  let name ← stringOf machine resolve depth parameters
  let p ← termNewString machine
    ((ubootEnvGetenv (← get).outside.workingUbootEnv name).getD (.ofString ""))
  pure (some p)

/-- `function_saveenv` -/
def functionSaveenv (_parameters : Option Ptr) : HeapInterp (Option Ptr) := do
  let devpathspec ← getVariableAsString machine resolve depth (.ofString "uboot_env.path")
  let block ← getVariableAsNumber resolve depth (.ofString "uboot_env.start")
  let blockCount ← getVariableAsNumber resolve depth (.ofString "uboot_env.count")
  let size := sizeOfBlocks machine blockCount
  outside (modify fun s => { s with workingUbootEnv := { s.workingUbootEnv with envSize := size } })
  match ← outside (openBlockDevice devpathspec) with
  | none =>
    outside (info (text "Could not open '" ++ devpathspec.bytes ++ text "'"))
    pure none
  | some devpath =>
    let sought ← outside (lseek (block * 512).toInt)
    if !sought then
      outside (info (text "Could not seek to block " ++ decimalInt block.toInt ++
        text " (byte offset " ++ decimalInt (block * 512).toInt ++ text ") in '" ++ devpath.bytes ++
        text "'"))
      pure none
    else
      match malloc machine.bits size with
      | none => throw (.stop .undefined)
      | some buffer =>
        match ubootEnvWrite machine.qsort (← get).outside.workingUbootEnv buffer with
        | none => throw (.stop .undefined)
        | some (rc, env, buffer) =>
          outside (modify fun s => { s with workingUbootEnv := env })
          if rc < 0 then pure none
          else
            let amountWritten ←
              outside (writeDevice devpathspec (block * 512).toInt.toNat buffer.bytes)
            if amountWritten ≠ some size then
              outside (info (text "Could not write " ++ decimalInt blockCount.toInt ++
                text " blocks (" ++ decimalInt (blockCount * 512).toInt ++ text " bytes) from '" ++
                devpath.bytes ++ text "'"))
              pure none
            else
              setBooleanVariable machine depth (.ofString "uboot_env.modified") false
              pure none

/-! ## Commands, files and the power switch -/

/-- The loop of `function_cmd` over its parameters. -/
def cmdArguments : Nat → Option Ptr → HeapInterp (List CString)
  | 0, _ => pure []
  | _ + 1, none => pure []
  | n + 1, some parameter => do
    let str ← stringOf machine resolve depth (some parameter)
    let others ← cmdArguments n (← nextOf (some parameter))
    pure (str :: others)

/-- `system_cmd` and what `function_cmd` makes of its output. -/
def cmdOutput (argv : List CString) : Interp CString := do
  record (.ran argv)
  let r ← reply
  (if r.ok then pure ()
  else info (text "Ignoring non-zero exit from " ++ (argv.headD (.ofString "")).bytes))
  match trimStringInPlace r.stray (outputBuffer r) with
  | none => throw .undefined
  | some output => pure output

/-- `function_cmd` -/
def functionCmd (parameters : Option Ptr) : HeapInterp (Option Ptr) := do
  let argv ← cmdArguments machine resolve depth 15 parameters
  let p ← termNewString machine (← outside (cmdOutput argv))
  pure (some p)

/-- What `function_fwup_revert` does with the specification of the device; it returns only on
failure. -/
def fwupRevert (devpathspec : CString) : Interp Unit := do
  match ← openBlockDevice devpathspec with
  | none => info (text "Failure to revert due to invalid uboot_env.path")
  | some devpath =>
    record (.ran [.ofString "/usr/bin/fwup", .ofString "revert.fw", .ofString "-d", devpath,
      .ofString "-t", .ofString "revert"])
    let r ← reply
    if r.ok then
      record .rebooted
      throw .exited
    else info (text "Failure from fwup revert: " ++ (outputBuffer r).bytes)

/-- `function_fwup_revert` -/
def functionFwupRevert (_parameters : Option Ptr) : HeapInterp (Option Ptr) := do
  let devpathspec ← getVariableAsString machine resolve depth (.ofString "uboot_env.path")
  outside (fwupRevert devpathspec)
  let p ← termNewBoolean machine false
  pure (some p)

/-- `function_sleep` -/
def functionSleep (parameters : Option Ptr) : HeapInterp (Option Ptr) := do
  let milliseconds ← termToNumber resolve parameters
  outside (record (.slept (milliseconds * 1000)))
  pure none

/-- What `function_readfile` gets from the file. -/
def fileContents (path : CString) : Interp CString := do
  let r ← reply
  if r.ok then pure (.ofBytes (r.bytes.take (heapSize / 4 - 1)))
  else
    info (text "Error reading " ++ path.bytes)
    pure (.ofString "")

/-- `function_readfile` -/
def functionReadfile (parameters : Option Ptr) : HeapInterp (Option Ptr) := do
  let path ← stringOf machine resolve depth parameters
  let p ← termNewString machine (← outside (fileContents path))
  pure (some p)

/-! ## Calls -/

/-- Call the handler through its pointer. -/
def run : Builtin → Option Ptr → HeapInterp (Option Ptr)
  | .assign => functionAssign machine resolve depth
  | .add => functionAdd machine resolve
  | .subtract => functionSubtract machine resolve
  | .blkid => functionOutside functionBlkid
  | .cmd => functionCmd machine resolve depth
  | .env => functionOutside functionEnv
  | .fwupRevert => functionFwupRevert machine resolve depth
  | .getenv => functionGetenv machine resolve depth
  | .help => functionOutside functionHelp
  | .loadenv => functionLoadenv machine resolve depth
  | .ls => functionLs machine resolve depth
  | .poweroff => functionOutside functionPoweroff
  | .print => functionPrint machine resolve depth
  | .readfile => functionReadfile machine resolve depth
  | .reboot => functionOutside functionReboot
  | .saveenv => functionSaveenv machine resolve depth
  | .setenv => functionSetenv machine resolve depth
  | .sleep => functionSleep resolve
  | .vars => functionVars depth

end

/-- `term_resolve`, to the given depth. -/
def termResolve (machine : Machine) : Nat → Option Ptr → HeapInterp (Option Ptr)
  | 0, _ => throw (.stop .outOfFuel)
  | depth + 1, rv => do
    match (← deref rv).data with
    | .identifier identifier => do
      termResolve machine depth (← getVariable machine depth (← textAt identifier))
    | .function handler parameters => do
      outside (recordCall handler)
      run machine (termResolve machine depth) depth handler parameters
    | .string _ | .number _ | .boolean _ | .var _ _ => pure rv

/-- `run_function` -/
def runFunction (machine : Machine) (depth : Nat) (rv : Option Ptr) : HeapInterp (Option Ptr) := do
  match (← deref rv).data with
  | .function handler parameters => do
    outside (recordCall handler)
    run machine (termResolve machine depth) depth handler parameters
  | _ => throw (.stop .undefined)

/-- The loop of `run_functions`. -/
def runFunctions (machine : Machine) (depth : Nat) :
    Nat → Option Ptr → Option Ptr → HeapInterp (Option Ptr)
  | _, lastResult, none => pure lastResult
  | 0, _, some _ => throw (.stop .outOfFuel)
  | n + 1, _, some rv => do
    let result ← runFunction machine depth (some rv)
    runFunctions machine depth n result (← nextOf (some rv))

end NervesInitramfs.TermHeap
