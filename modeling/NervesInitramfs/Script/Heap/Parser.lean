import NervesInitramfs.Script.Heap.Handlers
import NervesInitramfs.Script.Main

/-!
# Parsing a script into the heap (`parser.y`, `lexer.l`)

The actions of the grammar on pointers. The lexer makes the terms of the tokens; it is at most one
token ahead of the parser. A token that is in no part of a statement when the parser gives up is
left in the heap, as it would be by the action of a term that consists of it.
-/

namespace NervesInitramfs.TermHeap

open CLib

section

variable (machine : Machine) (depth : Nat)

/-- The text of a `STRING` token: the string with its quotes. -/
def quoted (value : CString) : CString := .ofString "\"" ++ value ++ .ofString "\""

/-- A call of a function; the parser gives up when there is no such function. -/
def buildCall (name : CString) (parameters : Option Ptr) : HeapInterp Ptr := do
  match ← termNewFun machine depth name parameters with
  | some rc => pure rc
  | none => throw (.stop .parseError)

/-- The action of `FunctionCall`, with the identifier and the list of the parameters. -/
def callNamed (id : Ptr) (parameters : Option Ptr) : HeapInterp Ptr := do
  match (← deref (some id)).data with
  | .identifier identifier => do
    let reversed ← termReverse depth none parameters
    buildCall machine depth (← textAt identifier) reversed
  | _ => throw (.stop .undefined)

mutual

/-- The actions of `term`. -/
def buildTerm : TermSyntax → HeapInterp Ptr
  | .add left right => do
    let l ← buildTerm left
    let r ← buildTerm right
    setNext l (some r)
    buildCall machine depth (.ofString "+") (some l)
  | .subtract left right => do
    let l ← buildTerm left
    let r ← buildTerm right
    setNext l (some r)
    buildCall machine depth (.ofString "-") (some l)
  | .neg operand => do
    let t ← buildTerm operand
    let value ← termToNumber (termResolve machine depth) (some t)
    termNewNumber machine (-value)
  | .paren inner => buildTerm inner
  | .identifier id => termNewIdentifier machine id.name
  | .string value => termNewQstring machine (quoted value)
  | .number base digits => termNewNumber machine (toInt32 (strtou machine.bits base digits))
  | .boolean value => termNewBoolean machine value
  | .functionCall id parameters => do
    let name ← termNewIdentifier machine id.name
    let ps ← buildParameters none parameters
    callNamed machine depth name ps

/-- The actions of `Parameters`, from the list of the ones before on; each is put in front. -/
def buildParameters (before : Option Ptr) : List TermSyntax → HeapInterp (Option Ptr)
  | [] => pure before
  | t :: rest => do
    let p ← buildTerm t
    setNext p before
    buildParameters (some p) rest

end

/-- The actions of `BooleanExpression`. -/
def evalBoolean : BooleanSyntax → HeapInterp Bool
  | .term t => do
    let term ← buildTerm machine depth t
    termToBoolean (termResolve machine depth) (some term)
  | .paren inner => evalBoolean inner
  | .comparison relation left right => do
    let l ← buildTerm machine depth left
    let r ← buildTerm machine depth right
    let n ← termCompare machine (termResolve machine depth) (some l) (some r)
    pure (relation.holds n)
  | .not inner => do
    let b ← evalBoolean inner
    pure !b
  | .and left right => do
    let l ← evalBoolean left
    let r ← evalBoolean right
    pure (l && r)
  | .or left right => do
    let l ← evalBoolean left
    let r ← evalBoolean right
    pure (l || r)

/-- The actions of `Action`. -/
def buildAction : ActionSyntax → HeapInterp Ptr
  | .functionCall id parameters => do
    let name ← termNewIdentifier machine id.name
    let ps ← buildParameters machine depth none parameters
    callNamed machine depth name ps
  | .assignment id value => do
    let name ← termNewIdentifier machine id.name
    let t ← buildTerm machine depth value
    setNext name (some t)
    buildCall machine depth (.ofString "=") (some name)

/-- The actions of `Actions`, from the list of the ones before on; each is put in front. -/
def buildActions (before : Option Ptr) : List ActionSyntax → HeapInterp (Option Ptr)
  | [] => pure before
  | a :: rest => do
    let p ← buildAction machine depth a
    setNext p before
    buildActions (some p) rest

/-- The actions of `Statement`. -/
def evalStatement : StatementSyntax → HeapInterp (Option Ptr)
  | .rule condition block => do
    let fires ← evalBoolean machine depth condition
    let actions ← buildActions machine depth none block
    let reversed ← termReverse depth none actions
    (if fires then do let _ ← runFunctions machine depth depth none reversed else pure ())
    pure none
  | .action a => do
    let p ← buildAction machine depth a
    runFunctions machine depth depth none (some p)

/-- The actions for a part of a statement that is never completed. -/
def evalFragment : Fragment → HeapInterp Unit
  | .term t => do let _ ← buildTerm machine depth t
  | .boolean b => do let _ ← evalBoolean machine depth b
  | .action a => do let _ ← buildAction machine depth a

/-- The parts that the parser has on its stack at a syntax error. -/
def evalFragments : List Fragment → HeapInterp Unit
  | [] => throw (.stop .parseError)
  | part :: rest => do
    evalFragment machine depth part
    evalFragments rest

/-- An input, piece by piece as it comes. -/
def evalInput : Input → HeapInterp Unit
  | .start => do
    termGcHeap machine depth
    modify fun s => { s with parserResult := none }
  | .statement s => do
    let result ← evalStatement machine depth s
    modify fun s => { s with parserResult := result }
  | .syntaxError parts => evalFragments machine depth parts
  | .printResult => do
    match (← get).parserResult with
    | none => pure ()
    | some result => do
      let str ← stringOf machine (termResolve machine depth) depth (some result)
      outside (record (.printed (str.bytes ++ text "\n")))

/-- The interpreter goes from `s` to `s'` on an input: it gets through, or the parser gives up. -/
def Step (i : Input) (s s' : HeapState) : Prop :=
  ∃ depth, evalInput machine depth i s = .ok () s' ∨
    evalInput machine depth i s = .error (.stop .parseError) s'

/-! ## Texts -/

/-- The actions of `Statements`. -/
def evalStatements : List StatementSyntax → HeapInterp Unit
  | [] => pure ()
  | s :: rest => do
    let result ← evalStatement machine depth s
    modify fun s => { s with parserResult := result }
    evalStatements rest

/-- The actions for a whole text. -/
def evalScript (script : Script) : HeapInterp Unit := do
  modify fun s => { s with parserResult := none }
  evalStatements machine depth script.statements
  match script.error with
  | none => pure ()
  | some parts => evalFragments machine depth parts

/-- `yyparse`: 0, or 1 when the parser gives up. -/
def yyparse (script : Script) : HeapInterp Int :=
  tryCatch (do evalScript machine depth script; pure 0) fun e =>
    if e = .stop .parseError then pure 1 else throw e

/-- `eval_string` -/
def evalString (input : Script) : HeapInterp Int := do
  termGcHeap machine depth
  yyparse machine depth input

/-! ## Booting -/

/-- What a parameter of the command line sets. -/
def setParameter (arg : CString) : HeapInterp Unit :=
  if arg.bytes.head? = some 45 then pure ()
  else
    let key := CString.ofBytes (arg.bytes.takeWhile (· ≠ 61))
    match arg.bytes.dropWhile (· ≠ 61) with
    | [] => setBooleanVariable machine depth key true
    | _ :: value => setStringVariable machine depth key (.ofBytes value)

/-- A turn of the loop over the command line. The `=` is overwritten before the variable is set. -/
def scanParameter (i : Nat) : HeapInterp Unit := do
  match (← get).outside.argv[i]? with
  | none => throw (.stop .nullDereference)
  | some arg =>
    outside (modify fun s => { s with argv := s.argv.set i (parameterAfter arg) })
    setParameter machine depth arg

/-- The turns that are left, from the parameter with this index on. -/
def setParameters : (turns i : Nat) → HeapInterp Unit
  | 0, _ => pure ()
  | turns + 1, i => do
    scanParameter machine depth i
    setParameters turns (i + 1)

/-- `initialize_script_defaults` -/
def initializeScriptDefaults : HeapInterp Unit := do
  termGcHeap machine depth
  outside (modify fun s => { s with workingUbootEnv := ubootEnvInit })
  setStringVariable machine depth (.ofString "rootfs.fstype") (.ofString "squashfs")
  setStringVariable machine depth (.ofString "rootfs.path") (.ofString "/dev/mmcblk0p2")
  setBooleanVariable machine depth (.ofString "rootfs.encrypted") false
  setStringVariable machine depth (.ofString "rootfs.cipher") (.ofString "")
  setStringVariable machine depth (.ofString "rootfs.secret") (.ofString "")
  setStringVariable machine depth (.ofString "uboot_env.path") (.ofString "/dev/mmcblk0")
  setBooleanVariable machine depth (.ofString "uboot_env.loaded") false
  setBooleanVariable machine depth (.ofString "uboot_env.modified") false
  setNumberVariable machine depth (.ofString "uboot_env.start") 256
  setNumberVariable machine depth (.ofString "uboot_env.count") 256
  setBooleanVariable machine depth (.ofString "run_repl") false
  let argc := (← get).outside.argv.length
  setParameters machine depth (argc - 1) 1

/-- The globals when the program starts. -/
def HeapState.boot (argv : List CString) (world : World) : HeapState :=
  ⟨fun _ => none, 0, none, 0, none, none, State.boot argv world⟩

/-- A state in which the interpreter begins to read scripts. -/
def Started (s : HeapState) : Prop :=
  ∃ depth argv world, initializeScriptDefaults machine depth (.boot argv world) = .ok () s

/-- The states that the interpreter can come to. -/
def Reachable (s : HeapState) : Prop :=
  ∃ s0, Started machine s0 ∧ Relation.ReflTransGen (fun s s' => ∃ i, Step machine i s s') s0 s

end

end NervesInitramfs.TermHeap
