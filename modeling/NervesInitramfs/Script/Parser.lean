import NervesInitramfs.Script.Handlers

/-!
# Parsing a script (`parser.y`)

The grammar's actions run while a script is parsed, whenever a rule is reduced. A syntax tree
records which rules are reduced, and its actions run from the leaves up and from left to right. Some
of them build a term, others evaluate what has been built already: conditions, the operand of a
unary minus, and every statement.
-/

namespace NervesInitramfs

open CLib

/-- The bytes that the lexer takes into an `identifier`. -/
def identifierByte (c : UInt8) : Bool :=
  c = 95 || c = 46 || (97 ≤ c && c ≤ 122) || (65 ≤ c && c ≤ 90) || (48 ≤ c && c ≤ 57)

/-- The text of an `IDENTIFIER`. -/
structure Identifier where
  name : CString
  lexical : name.bytes ≠ [] ∧ ∀ c ∈ name.bytes, identifierByte c

def Identifier.ofString (s : String)
    (h : (CString.ofString s).bytes ≠ [] ∧ (CString.ofString s).bytes.all identifierByte := by
      decide) : Identifier := ⟨.ofString s, h.1, List.all_eq_true.mp h.2⟩

/-- `term`, with its `Parameters` as a list. A number is the token's text and its base. -/
inductive TermSyntax
  | add (left right : TermSyntax)
  | subtract (left right : TermSyntax)
  | neg (operand : TermSyntax)
  | paren (inner : TermSyntax)
  | identifier (name : Identifier)
  | string (value : CString)
  | number (base : Nat) (digits : List UInt8)
  | boolean (value : Bool)
  | functionCall (name : Identifier) (parameters : List TermSyntax)

/-- The operators of `Comparison`. -/
inductive Relation
  | neq | lt | lte | eq | gte | gt
deriving DecidableEq

/-- `BooleanExpression` -/
inductive BooleanSyntax
  | term (t : TermSyntax)
  | paren (inner : BooleanSyntax)
  | comparison (relation : Relation) (left right : TermSyntax)
  | not (inner : BooleanSyntax)
  | and (left right : BooleanSyntax)
  | or (left right : BooleanSyntax)

/-- `Action` -/
inductive ActionSyntax
  | functionCall (name : Identifier) (parameters : List TermSyntax)
  | assignment (name : Identifier) (value : TermSyntax)

/-- `Statement`. The action block of a rule is the list of its actions. -/
inductive StatementSyntax
  | rule (condition : BooleanSyntax) (block : List ActionSyntax)
  | action (a : ActionSyntax)

/-- A part of a statement that is complete when the parser comes upon a syntax error in it. -/
inductive Fragment
  | term (t : TermSyntax)
  | boolean (b : BooleanSyntax)
  | action (a : ActionSyntax)

section

variable (machine : Machine) (depth : Nat)

/-- A call of a function by name; the parser gives up when there is no such function. -/
def buildCall (name : CString) (parameters : List Term) : Interp Term :=
  match termNewFun name parameters with
  | some t => pure t
  | none => throw .parseError

mutual

/-- The actions of `term`. -/
def buildTerm : TermSyntax → Interp Term
  | .add left right => do
    let l ← buildTerm left
    let r ← buildTerm right
    buildCall (.ofString "+") [l, r]
  | .subtract left right => do
    let l ← buildTerm left
    let r ← buildTerm right
    buildCall (.ofString "-") [l, r]
  | .neg operand => do
    let t ← buildTerm operand
    let value ← termToNumber (termResolve machine depth) (some t)
    pure (.number (-value))
  | .paren inner => buildTerm inner
  | .identifier id => pure (.identifier id.name)
  | .string value => pure (.string value)
  | .number base digits => pure (.number (toInt32 (strtou machine.bits base digits)))
  | .boolean value => pure (.boolean value)
  | .functionCall id parameters => do
    let ps ← buildTerms parameters
    buildCall id.name ps

/-- The actions of `Parameters`. -/
def buildTerms : List TermSyntax → Interp (List Term)
  | [] => pure []
  | t :: rest => do
    let first ← buildTerm t
    let others ← buildTerms rest
    pure (first :: others)

end

/-- How a relation judges the outcome of `term_compare`. -/
def Relation.holds : Relation → Int → Bool
  | .neq, n => n ≠ 0
  | .lt, n => n < 0
  | .lte, n => n ≤ 0
  | .eq, n => n = 0
  | .gte, n => n ≥ 0
  | .gt, n => n > 0

/-- The actions of `BooleanExpression`. Both operands have been evaluated when `&&` and `||` are. -/
def evalBoolean : BooleanSyntax → Interp Bool
  | .term t => do
    let term ← buildTerm machine depth t
    termToBoolean (termResolve machine depth) (some term)
  | .paren inner => evalBoolean inner
  | .comparison relation left right => do
    let l ← buildTerm machine depth left
    let r ← buildTerm machine depth right
    let n ← termCompare machine (termResolve machine depth) (some l) (some r)
    pure (relation.holds n)
  | .not inner => do
    let b ← evalBoolean inner
    pure !b
  | .and left right => do
    let l ← evalBoolean left
    let r ← evalBoolean right
    pure (l && r)
  | .or left right => do
    let l ← evalBoolean left
    let r ← evalBoolean right
    pure (l || r)

/-- The actions of `Action`. -/
def buildAction : ActionSyntax → Interp Term
  | .functionCall id parameters => do
    let ps ← buildTerms machine depth parameters
    buildCall id.name ps
  | .assignment id value => do
    let t ← buildTerm machine depth value
    buildCall (.ofString "=") [.identifier id.name, t]

/-- The actions of `Actions`. -/
def buildActions : List ActionSyntax → Interp (List Term)
  | [] => pure []
  | a :: rest => do
    let first ← buildAction machine depth a
    let others ← buildActions rest
    pure (first :: others)

/-- The actions of `Statement`. -/
def evalStatement : StatementSyntax → Interp (Option Term)
  | .rule condition block => do
    let fires ← evalBoolean machine depth condition
    let actions ← buildActions machine depth block
    (if fires then do let _ ← runFunctions machine depth none actions else pure ())
    pure none
  | .action a => do
    let t ← buildAction machine depth a
    runFunctions machine depth none [t]

/-- The actions for a part of a statement that is never completed. -/
def evalFragment : Fragment → Interp Unit
  | .term t => do let _ ← buildTerm machine depth t
  | .boolean b => do let _ ← evalBoolean machine depth b
  | .action a => do let _ ← buildAction machine depth a

/-! ## Runs -/

/-- What the interpreter is given, piece by piece: `eval_string` and `eval_file` collect the heap
and start to parse, statements follow, and the parser ends at the end of the text or, with some
parts of a statement left over, at a syntax error. The REPL then prints the result. -/
inductive Input
  | start
  | statement (s : StatementSyntax)
  | syntaxError (parts : List Fragment)
  | printResult

/-- The parts that the parser has on its stack at a syntax error. -/
def evalFragments : List Fragment → Interp Unit
  | [] => throw .parseError
  | part :: rest => do
    evalFragment machine depth part
    evalFragments rest

def evalInput : Input → Interp Unit
  | .start => do
    termGcHeap
    modify fun s => { s with parserResult := none }
  | .statement s => do
    let result ← evalStatement machine depth s
    modify fun s => { s with parserResult := result }
  | .syntaxError parts => evalFragments machine depth parts
  | .printResult => do
    match (← get).parserResult with
    | none => pure ()
    | some result =>
      let str ← termToString (termResolve machine depth) depth (some result)
      record (.printed (str.bytes ++ text "\n"))

/-- The interpreter goes from `s` to `s'` on an input: it gets through, or the parser gives up. -/
def Step (i : Input) (s s' : State) : Prop :=
  ∃ depth, evalInput machine depth i s = .ok () s' ∨
    evalInput machine depth i s = .error .parseError s'

/-! ## Texts -/

/-- What the parser finds in a text: statements, and then the end of the text or a syntax error,
where it has some parts of a statement on its stack. -/
structure Script where
  statements : List StatementSyntax
  error : Option (List Fragment)

/-- The actions of `Statements`. -/
def evalStatements : List StatementSyntax → Interp Unit
  | [] => pure ()
  | s :: rest => do
    let result ← evalStatement machine depth s
    modify fun s => { s with parserResult := result }
    evalStatements rest

/-- The actions for a whole text. -/
def evalScript (script : Script) : Interp Unit := do
  modify fun s => { s with parserResult := none }
  evalStatements machine depth script.statements
  match script.error with
  | none => pure ()
  | some parts => evalFragments machine depth parts

/-- `yyparse`: 0, or 1 when the parser gives up. -/
def yyparse (script : Script) : Interp Int :=
  tryCatch (do evalScript machine depth script; pure 0) fun e =>
    if e = .parseError then pure 1 else throw e

def evalString (input : Script) : Interp Int := do
  termGcHeap
  yyparse machine depth input

/-- `eval_file`, with what is in the file if it can be read. -/
def evalFile (file : Option Script) : Interp Int := do
  termGcHeap
  match file with
  | none => pure (-1)
  | some input => yyparse machine depth input

end

end NervesInitramfs
