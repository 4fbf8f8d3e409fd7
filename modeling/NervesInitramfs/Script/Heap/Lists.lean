import NervesInitramfs.Script.Heap.Parser

/-!
# The lists of terms (`parser.y`)

The derivations from which the grammar's actions build terms, with the actions on pointers as they
are for each rule, and the lists that `next` links the terms into. The first parameter of a call and
the action of a block without braces are taken as they are; nothing is stored in them.
-/

namespace NervesInitramfs.TermHeap

open CLib

/-! ## Derivations -/

mutual

/-- `term` -/
inductive TermDerivation
  | add (left right : TermDerivation)
  | subtract (left right : TermDerivation)
  | negate (operand : TermDerivation)
  | paren (inner : TermDerivation)
  | identifier (id : Identifier)
  | string (value : CString)
  | number (base : Nat) (digits : List UInt8)
  | boolean (value : Bool)
  | functionCall (id : Identifier) (parameters : ParametersDerivation)

/-- `Parameters` -/
inductive ParametersDerivation
  | noParameters
  | moreParameters (parameters : ParametersDerivation) (t : TermDerivation)
  | oneParameter (t : TermDerivation)

end

/-- `Action`: a `FunctionCall` or an `Assignment`. -/
inductive ActionDerivation
  | functionCall (id : Identifier) (parameters : ParametersDerivation)
  | assignment (id : Identifier) (value : TermDerivation)

/-- `Actions` -/
inductive ActionsDerivation
  | noActions
  | moreActions (actions : ActionsDerivation) (a : ActionDerivation)

/-- `ActionBlock` -/
inductive BlockDerivation
  | blockAction (a : ActionDerivation)
  | blockActions (actions : ActionsDerivation)

/-! ## The actions of the rules -/

section

variable (machine : Machine) (depth : Nat)

mutual

/-- The action of the rule, after those of the parts from left to right. -/
def TermDerivation.build : TermDerivation → HeapInterp Ptr
  | .add left right => do
    let l ← left.build
    let r ← right.build
    setNext l (some r)
    buildCall machine depth (.ofString "+") (some l)
  | .subtract left right => do
    let l ← left.build
    let r ← right.build
    setNext l (some r)
    buildCall machine depth (.ofString "-") (some l)
  | .negate operand => do
    let t ← operand.build
    let value ← termToNumber (termResolve machine depth) (some t)
    termNewNumber machine (-value)
  | .paren inner => inner.build
  | .identifier id => termNewIdentifier machine id.name
  | .string value => termNewQstring machine (quoted value)
  | .number base digits => termNewNumber machine (toInt32 (strtou machine.bits base digits))
  | .boolean value => termNewBoolean machine value
  | .functionCall id parameters => do
    let name ← termNewIdentifier machine id.name
    let ps ← parameters.build
    callNamed machine depth name ps

/-- Each parameter is put in front of those before it. -/
def ParametersDerivation.build : ParametersDerivation → HeapInterp (Option Ptr)
  | .noParameters => pure none
  | .moreParameters parameters t => do
    let ps ← parameters.build
    let p ← t.build
    setNext p ps
    pure (some p)
  | .oneParameter t => do
    let p ← t.build
    pure (some p)

end

/-- An assignment is a call of `=` with the identifier in front of the value. -/
def ActionDerivation.build : ActionDerivation → HeapInterp Ptr
  | .functionCall id parameters => do
    let name ← termNewIdentifier machine id.name
    let ps ← parameters.build machine depth
    callNamed machine depth name ps
  | .assignment id value => do
    let name ← termNewIdentifier machine id.name
    let t ← value.build machine depth
    setNext name (some t)
    buildCall machine depth (.ofString "=") (some name)

/-- Each action is put in front of those before it. -/
def ActionsDerivation.build : ActionsDerivation → HeapInterp (Option Ptr)
  | .noActions => pure none
  | .moreActions actions a => do
    let before ← actions.build
    let p ← a.build machine depth
    setNext p before
    pure (some p)

/-- The list of the actions in braces is turned round. -/
def BlockDerivation.build : BlockDerivation → HeapInterp (Option Ptr)
  | .blockAction a => do
    let p ← a.build machine depth
    pure (some p)
  | .blockActions actions => do
    let reversed ← actions.build machine depth
    termReverse depth none reversed

end

/-! ## What is written -/

/-- The written arguments. -/
def ParametersDerivation.terms : ParametersDerivation → List TermDerivation
  | .noParameters => []
  | .moreParameters parameters t => parameters.terms ++ [t]
  | .oneParameter t => [t]

/-- The written actions. -/
def ActionsDerivation.list : ActionsDerivation → List ActionDerivation
  | .noActions => []
  | .moreActions actions a => actions.list ++ [a]

/-- The one action, or those in braces. -/
def BlockDerivation.list : BlockDerivation → List ActionDerivation
  | .blockAction a => [a]
  | .blockActions actions => actions.list

mutual

/-- The calls, with the number of the written arguments. -/
def TermDerivation.calls : TermDerivation → List (CString × Nat)
  | .add left right => left.calls ++ right.calls ++ [(.ofString "+", 2)]
  | .subtract left right => left.calls ++ right.calls ++ [(.ofString "-", 2)]
  | .negate operand => operand.calls
  | .paren inner => inner.calls
  | .functionCall id parameters => parameters.calls ++ [(id.name, parameters.terms.length)]
  | .identifier _ | .string _ | .number _ _ | .boolean _ => []

def ParametersDerivation.calls : ParametersDerivation → List (CString × Nat)
  | .noParameters => []
  | .moreParameters parameters t => parameters.calls ++ t.calls
  | .oneParameter t => t.calls

end

def ActionDerivation.calls : ActionDerivation → List (CString × Nat)
  | .functionCall id parameters => parameters.calls ++ [(id.name, parameters.terms.length)]
  | .assignment _ value => value.calls ++ [(.ofString "=", 2)]

mutual

/-- The operands of unary minuses, which are evaluated at once. -/
def TermDerivation.negated : TermDerivation → List TermDerivation
  | .add left right | .subtract left right => left.negated ++ right.negated
  | .negate operand => operand.negated ++ [operand]
  | .paren inner => inner.negated
  | .functionCall _ parameters => parameters.negated
  | .identifier _ | .string _ | .number _ _ | .boolean _ => []

def ParametersDerivation.negated : ParametersDerivation → List TermDerivation
  | .noParameters => []
  | .moreParameters parameters t => parameters.negated ++ t.negated
  | .oneParameter t => t.negated

end

def ActionDerivation.negated : ActionDerivation → List TermDerivation
  | .functionCall _ parameters => parameters.negated
  | .assignment _ value => value.negated

def ActionsDerivation.calls : ActionsDerivation → List (CString × Nat)
  | .noActions => []
  | .moreActions actions a => actions.calls ++ a.calls

def ActionsDerivation.negated : ActionsDerivation → List TermDerivation
  | .noActions => []
  | .moreActions actions a => actions.negated ++ a.negated

def BlockDerivation.calls : BlockDerivation → List (CString × Nat)
  | .blockAction a => a.calls
  | .blockActions actions => actions.calls

def BlockDerivation.negated : BlockDerivation → List TermDerivation
  | .blockAction a => a.negated
  | .blockActions actions => actions.negated

/-! ## What the parser makes of a derivation -/

mutual

/-- The brackets and the rules are the same. -/
def TermDerivation.toSyntax : TermDerivation → TermSyntax
  | .add left right => .add left.toSyntax right.toSyntax
  | .subtract left right => .subtract left.toSyntax right.toSyntax
  | .negate operand => .neg operand.toSyntax
  | .paren inner => .paren inner.toSyntax
  | .identifier id => .identifier id
  | .string value => .string value
  | .number base digits => .number base digits
  | .boolean value => .boolean value
  | .functionCall id parameters => .functionCall id parameters.toSyntax

/-- The parameters as a list, in the order in which they are written. -/
def ParametersDerivation.toSyntax : ParametersDerivation → List TermSyntax
  | .noParameters => []
  | .moreParameters parameters t => parameters.toSyntax ++ [t.toSyntax]
  | .oneParameter t => [t.toSyntax]

end

def ActionDerivation.toSyntax : ActionDerivation → ActionSyntax
  | .functionCall id parameters => .functionCall id parameters.toSyntax
  | .assignment id value => .assignment id value.toSyntax

/-- The actions as a list, likewise. -/
def ActionsDerivation.toSyntax : ActionsDerivation → List ActionSyntax
  | .noActions => []
  | .moreActions actions a => actions.toSyntax ++ [a.toSyntax]

def BlockDerivation.toSyntax : BlockDerivation → List ActionSyntax
  | .blockAction a => [a.toSyntax]
  | .blockActions actions => actions.toSyntax

/-! ## The lists in memory -/

/-- From the pointer `p` the links lead through the nodes, in this order, to `NULL`. -/
def Chain (cells : Ptr → Option Cell) : Option Ptr → List Ptr → Prop
  | p, [] => p = none
  | p, q :: rest => p = some q ∧ ∃ t, cells q = some (.term t) ∧ Chain cells t.next rest

/-- The call of a function that takes `arity` arguments, with a list of nodes for arguments. -/
def CallAt (cells : Ptr → Option Cell) (p : Ptr) (name : CString) (arity : Nat) (nodes : List Ptr) :
    Prop :=
  ∃ handler first next, lookupFunction name arity = some handler ∧
    cells p = some (.term ⟨.function handler first, next⟩) ∧ Chain cells first nodes

section

variable (machine : Machine) (cells : Ptr → Option Cell)

mutual

/-- At `p` is the term that was written. The lists are all those in it, of the operands and of the
arguments of its calls, each with its nodes in the order in which they were written; the operand of a
unary minus is a list of its own. -/
inductive BuiltTerm : TermDerivation → Ptr → List (List Ptr) → Prop
  | add {left right : TermDerivation} {p l r : Ptr} {lists lists' : List (List Ptr)}
      (hl : BuiltTerm left l lists) (hr : BuiltTerm right r lists')
      (call : CallAt cells p (.ofString "+") 2 [l, r]) :
      BuiltTerm (.add left right) p ([l, r] :: (lists ++ lists'))
  | subtract {left right : TermDerivation} {p l r : Ptr} {lists lists' : List (List Ptr)}
      (hl : BuiltTerm left l lists) (hr : BuiltTerm right r lists')
      (call : CallAt cells p (.ofString "-") 2 [l, r]) :
      BuiltTerm (.subtract left right) p ([l, r] :: (lists ++ lists'))
  | negate {operand : TermDerivation} {p q : Ptr} {lists : List (List Ptr)} {value : Int32}
      {next : Option Ptr} (ht : BuiltTerm operand q lists) (alone : Chain cells (some q) [q])
      (number : cells p = some (.term ⟨.number value, next⟩)) :
      BuiltTerm (.negate operand) p ([q] :: lists)
  | paren {inner : TermDerivation} {p : Ptr} {lists : List (List Ptr)}
      (ht : BuiltTerm inner p lists) : BuiltTerm (.paren inner) p lists
  | identifier {id : Identifier} {p q : Ptr} {next : Option Ptr}
      (node : cells p = some (.term ⟨.identifier q, next⟩))
      (text : cells q = some (.text id.name)) : BuiltTerm (.identifier id) p []
  | string {value : CString} {p q : Ptr} {next : Option Ptr}
      (node : cells p = some (.term ⟨.string q, next⟩)) (text : cells q = some (.text value)) :
      BuiltTerm (.string value) p []
  | number {base : Nat} {digits : List UInt8} {p : Ptr} {next : Option Ptr}
      (node : cells p = some (.term ⟨.number (toInt32 (strtou machine.bits base digits)), next⟩)) :
      BuiltTerm (.number base digits) p []
  | boolean {value : Bool} {p : Ptr} {next : Option Ptr}
      (node : cells p = some (.term ⟨.boolean value, next⟩)) : BuiltTerm (.boolean value) p []
  | functionCall {id : Identifier} {parameters : ParametersDerivation} {p : Ptr} {nodes : List Ptr}
      {lists : List (List Ptr)} (hps : BuiltParameters parameters nodes lists)
      (call : CallAt cells p id.name parameters.terms.length nodes) :
      BuiltTerm (.functionCall id parameters) p (nodes :: lists)

/-- The nodes are those of the written arguments, one for each. -/
inductive BuiltParameters : ParametersDerivation → List Ptr → List (List Ptr) → Prop
  | noParameters : BuiltParameters .noParameters [] []
  | moreParameters {parameters : ParametersDerivation} {t : TermDerivation} {p : Ptr}
      {nodes : List Ptr} {lists lists' : List (List Ptr)}
      (hps : BuiltParameters parameters nodes lists) (ht : BuiltTerm t p lists') :
      BuiltParameters (.moreParameters parameters t) (nodes ++ [p]) (lists ++ lists')
  | oneParameter {t : TermDerivation} {p : Ptr} {lists : List (List Ptr)}
      (ht : BuiltTerm t p lists) : BuiltParameters (.oneParameter t) [p] lists

end

/-- At `p` is the call that was written, or the one of `=`. -/
inductive BuiltAction : ActionDerivation → Ptr → List (List Ptr) → Prop
  | functionCall {id : Identifier} {parameters : ParametersDerivation} {p : Ptr} {nodes : List Ptr}
      {lists : List (List Ptr)} (hps : BuiltParameters machine cells parameters nodes lists)
      (call : CallAt cells p id.name parameters.terms.length nodes) :
      BuiltAction (.functionCall id parameters) p (nodes :: lists)
  | assignment {id : Identifier} {value : TermDerivation} {p name t q : Ptr}
      {lists : List (List Ptr)} {next : Option Ptr}
      (node : cells name = some (.term ⟨.identifier q, next⟩))
      (text : cells q = some (.text id.name)) (ht : BuiltTerm machine cells value t lists)
      (call : CallAt cells p (.ofString "=") 2 [name, t]) :
      BuiltAction (.assignment id value) p ([name, t] :: lists)

/-- The nodes are those of the written actions, one for each. -/
inductive BuiltActions : ActionsDerivation → List Ptr → List (List Ptr) → Prop
  | noActions : BuiltActions .noActions [] []
  | moreActions {actions : ActionsDerivation} {a : ActionDerivation} {p : Ptr} {nodes : List Ptr}
      {lists lists' : List (List Ptr)} (hactions : BuiltActions actions nodes lists)
      (ha : BuiltAction machine cells a p lists') :
      BuiltActions (.moreActions actions a) (nodes ++ [p]) (lists ++ lists')

/-- The same for a block, whose list is in the order in which the actions are written. -/
inductive BuiltBlock : BlockDerivation → List Ptr → List (List Ptr) → Prop
  | blockAction {a : ActionDerivation} {p : Ptr} {lists : List (List Ptr)}
      (ha : BuiltAction machine cells a p lists) : BuiltBlock (.blockAction a) [p] lists
  | blockActions {actions : ActionsDerivation} {nodes : List Ptr} {lists : List (List Ptr)}
      (hactions : BuiltActions machine cells actions nodes lists) :
      BuiltBlock (.blockActions actions) nodes lists

end

/-- The actions are run one after the other, each once. -/
def runEach (machine : Machine) (depth : Nat) : List Ptr → Option Ptr → HeapInterp (Option Ptr)
  | [], lastResult => pure lastResult
  | p :: rest, _ => do
    let result ← runFunction machine depth (some p)
    runEach machine depth rest result

end NervesInitramfs.TermHeap
