import NervesInitramfs.Script.Handlers

/-!
# Loading and saving in steps (`script.c`)

The settings that `function_loadenv` and `function_saveenv` begin with, `function_loadenv` up to its
call of `uboot_env_read`, and `function_saveenv` with the file descriptors that it opens and closes.
-/

namespace NervesInitramfs

open CLib

section

variable (machine : Machine) (resolve : Option Term → Interp (Option Term)) (depth : Nat)

/-- The settings of the environment, as a call reads them. -/
structure EnvSettings where
  /-- `uboot_env.path` -/
  path : CString
  /-- `uboot_env.start`, in blocks of 512 bytes. -/
  start : Int32
  /-- `uboot_env.count`, the number of these blocks. -/
  count : Int32

/-- The first three lines of both functions. What a variable holds can be a call, which runs when
the variable is read. -/
def envSettings : Interp EnvSettings := do
  let path ← getVariableAsString resolve depth (.ofString "uboot_env.path")
  let start ← getVariableAsNumber resolve (.ofString "uboot_env.start")
  let count ← getVariableAsNumber resolve (.ofString "uboot_env.count")
  pure ⟨path, start, count⟩

/-- `function_loadenv` up to the call `uboot_env_read(&working_uboot_env, buffer)`: the buffer, if
it comes to the call. -/
def loadenvBuffer : Interp (Option (Buffer machine.bits)) := do
  let devpathspec ← getVariableAsString resolve depth (.ofString "uboot_env.path")
  let block ← getVariableAsNumber resolve (.ofString "uboot_env.start")
  let blockCount ← getVariableAsNumber resolve (.ofString "uboot_env.count")
  let size := sizeOfBlocks machine blockCount
  modify fun s => { s with workingUbootEnv := { s.workingUbootEnv with envSize := size } }
  match ← openBlockDevice devpathspec with
  | none =>
    info (text "Could not open '" ++ devpathspec.bytes ++ text "'")
    pure none
  | some devpath =>
    let sought ← lseek (block * 512).toInt
    if !sought then
      info (text "Could not seek to block " ++ decimalInt block.toInt ++ text " (byte offset " ++
        decimalInt (block * 512).toInt ++ text ") in '" ++ devpath.bytes ++ text "'")
      pure none
    else
      match ← readBlocks machine devpathspec (block * 512).toInt.toNat size with
      | none =>
        info (text "Could not read " ++ decimalInt blockCount.toInt ++ text " blocks (" ++
          decimalInt (blockCount * 512).toInt ++ text " bytes) from '" ++ devpath.bytes ++ text "'")
        pure none
      | some buffer =>
        setBooleanVariable (.ofString "uboot_env.loaded") false
        setBooleanVariable (.ofString "uboot_env.modified") false
        pure (some buffer)

/-- `function_loadenv` from there on. -/
def loadenvRead : Option (Buffer machine.bits) → Interp (Option Term)
  | none => pure none
  | some buffer => do
    match ubootEnvRead (← get).workingUbootEnv buffer with
    | none => throw .undefined
    | some (rc, env) =>
      modify fun s => { s with workingUbootEnv := env }
      if rc < 0 then pure none
      else
        setBooleanVariable (.ofString "uboot_env.loaded") true
        pure none

/-- The descriptor that `open` returns: the lowest one that is not open. -/
def lowestFree (fds : List Nat) : Nat :=
  ((List.range (fds.length + 1)).find? fun fd => !fds.contains fd).getD fds.length

/-- `function_saveenv`, with the descriptors that are open before and after. -/
def functionSaveenvFds (fds : List Nat) (_parameters : List Term) :
    Interp (Option Term × List Nat) := do
  let devpathspec ← getVariableAsString resolve depth (.ofString "uboot_env.path")
  let block ← getVariableAsNumber resolve (.ofString "uboot_env.start")
  let blockCount ← getVariableAsNumber resolve (.ofString "uboot_env.count")
  let size := sizeOfBlocks machine blockCount
  modify fun s => { s with workingUbootEnv := { s.workingUbootEnv with envSize := size } }
  match ← openBlockDevice devpathspec with
  | none =>
    info (text "Could not open '" ++ devpathspec.bytes ++ text "'")
    pure (none, fds)
  | some devpath =>
    let fd := lowestFree fds
    let fds := fd :: fds
    let sought ← lseek (block * 512).toInt
    if !sought then
      info (text "Could not seek to block " ++ decimalInt block.toInt ++ text " (byte offset " ++
        decimalInt (block * 512).toInt ++ text ") in '" ++ devpath.bytes ++ text "'")
      pure (none, fds.erase fd)
    else
      match malloc machine.bits size with
      | none => throw .undefined
      | some buffer =>
        match ubootEnvWrite machine.qsort (← get).workingUbootEnv buffer with
        | none => throw .undefined
        | some (rc, env, buffer) =>
          modify fun s => { s with workingUbootEnv := env }
          -- This exit frees the buffer, but does not close the descriptor.
          if rc < 0 then pure (none, fds)
          else
            let amountWritten ← writeDevice devpathspec (block * 512).toInt.toNat buffer.bytes
            let fds := fds.erase fd
            if amountWritten ≠ some size then
              info (text "Could not write " ++ decimalInt blockCount.toInt ++ text " blocks (" ++
                decimalInt (blockCount * 512).toInt ++ text " bytes) from '" ++ devpath.bytes ++
                text "'")
              pure (none, fds)
            else
              setBooleanVariable (.ofString "uboot_env.modified") false
              pure (none, fds)

end

end NervesInitramfs
