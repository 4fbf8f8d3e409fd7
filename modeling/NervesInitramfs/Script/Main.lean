import NervesInitramfs.Script.Parser
import Mathlib.Logic.Relation

/-!
# Booting (`nerves_initramfs.c`)

Before the configuration file is read, the variables get their defaults and what the command line
says. That is read in place: the `=` of an argument is overwritten.
-/

namespace NervesInitramfs

open CLib

/-- What one turn of the loop over the command line makes of an argument. -/
def setParameter (arg : CString) : Interp Unit :=
  if arg.bytes.head? = some 45 then pure ()
  else
    let key := CString.ofBytes (arg.bytes.takeWhile (· ≠ 61))
    match arg.bytes.dropWhile (· ≠ 61) with
    | [] => setBooleanVariable key true
    | _ :: value => setStringVariable key (.ofBytes value)

/-- What it leaves of the argument: the first `=` is overwritten with a NUL. -/
def parameterAfter (arg : CString) : CString :=
  if arg.bytes.head? = some 45 then arg else .ofBytes (arg.bytes.takeWhile (· ≠ 61))

/-- The turn at `argv[i]`. -/
def scanParameter (i : Nat) : Interp Unit := do
  match (← get).argv[i]? with
  | none => throw .nullDereference
  | some arg =>
    modify fun s => { s with argv := s.argv.set i (parameterAfter arg) }
    setParameter arg

/-- So many turns of the loop, from `argv[i]` on. -/
def setParameters : (turns i : Nat) → Interp Unit
  | 0, _ => pure ()
  | turns + 1, i => do
    scanParameter i
    setParameters turns (i + 1)

/-- `initialize_script_defaults`. The defaults come first, so that the command line overrides
them. -/
def initializeScriptDefaults : Interp Unit := do
  termGcHeap
  modify fun s => { s with workingUbootEnv := ubootEnvInit }
  setStringVariable (.ofString "rootfs.fstype") (.ofString "squashfs")
  setStringVariable (.ofString "rootfs.path") (.ofString "/dev/mmcblk0p2")
  setBooleanVariable (.ofString "rootfs.encrypted") false
  setStringVariable (.ofString "rootfs.cipher") (.ofString "")
  setStringVariable (.ofString "rootfs.secret") (.ofString "")
  setStringVariable (.ofString "uboot_env.path") (.ofString "/dev/mmcblk0")
  setBooleanVariable (.ofString "uboot_env.loaded") false
  setBooleanVariable (.ofString "uboot_env.modified") false
  setNumberVariable (.ofString "uboot_env.start") 256
  setNumberVariable (.ofString "uboot_env.count") 256
  setBooleanVariable (.ofString "run_repl") false
  let argc := (← get).argv.length
  setParameters (argc - 1) 1

/-- What the whole loop leaves of the command line. -/
def argvAfter : List CString → List CString
  | [] => []
  | program :: args => program :: args.map parameterAfter

section

variable (machine : Machine) (depth : Nat)

/-- The loop of `repl` over the lines that are typed. -/
def repl : List Script → Interp Unit
  | [] => pure ()
  | line :: rest => do
    let _ ← evalString machine depth line
    (match (← get).parserResult with
    | none => pure ()
    | some result => do
      let str ← termToString (termResolve machine depth) depth (some result)
      record (.printed (str.bytes ++ text "\n")))
    repl rest

/-- `main` up to the REPL: whether that is to run. -/
def configure (file : Option Script) : Interp Bool := do
  initializeScriptDefaults
  let _ ← evalFile machine depth file
  getVariableAsBoolean (termResolve machine depth) (.ofString "run_repl")

end

/-- The globals when the program starts, with its command line. -/
def State.boot (argv : List CString) (world : World) : State := ⟨[], ⟨0, []⟩, none, world, [], argv⟩

/-- A state in which the interpreter begins to read scripts. -/
def Started (s : State) : Prop :=
  ∃ argv world, initializeScriptDefaults (State.boot argv world) = .ok () s

/-- The states that the interpreter can come to from `s` by any inputs. -/
def Reaches (machine : Machine) : State → State → Prop :=
  Relation.ReflTransGen fun s s' => ∃ i, Step machine i s s'

end NervesInitramfs
