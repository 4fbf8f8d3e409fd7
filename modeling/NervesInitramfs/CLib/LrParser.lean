import Mathlib.Logic.Relation
import NervesInitramfs.CLib.Lalr

/-!
# Running parser tables

The loop of a parser that bison generates. Its stack holds a state, a symbol and the semantic value
of that symbol in each frame, with the top first; below the frames is state 0.
-/

namespace CLib

variable {T N R : Type}

/-- The semantic values of the symbols on the right-hand side of a rule. -/
def Args (Value : GrammarSymbol T N → Type) : List (GrammarSymbol T N) → Type
  | [] => Unit
  | x :: rest => Value x × Args Value rest

/-- The semantic values of a grammar and the actions of its rules. -/
structure Actions (g : Grammar T N R) where
  Value : GrammarSymbol T N → Type
  act : (r : R) → Args Value (g.rhs r) → Value (.nonterminal (g.lhs r))

structure Lexeme (Value : GrammarSymbol T N → Type) where
  token : T
  value : Value (.token token)

structure StackFrame (Value : GrammarSymbol T N → Type) where
  state : Nat
  symbol : GrammarSymbol T N
  value : Value symbol

structure Config (Value : GrammarSymbol T N → Type) where
  stack : List (StackFrame Value)
  input : List (Lexeme Value)

def topState {Value : GrammarSymbol T N → Type} : List (StackFrame Value) → Nat
  | [] => 0
  | f :: _ => f.state

/-- What the tables say. -/
inductive Move (R : Type)
  | shift (state : Nat)
  | reduce (r : R)
  | error
deriving DecidableEq

def Move.rule : Move R → Option R
  | .reduce r => some r
  | .shift _ | .error => none

def Move.state : Move R → Option Nat
  | .shift state => some state
  | .reduce _ | .error => none

inductive Next (Value : GrammarSymbol T N → Type)
  | more (c : Config Value)
  | accepted
  | failed

section

variable [DecidableEq T] [DecidableEq N]

def move (tables : List (Row T N R)) (state : Nat) (t : T) : Move R :=
  match tables[state]? with
  | none => .error
  | some row =>
    match row.shifts.lookup t with
    | some state => .shift state
    | none => ((row.reductions.lookup t).or row.default).elim .error .reduce

/-- The state that a nonterminal leads to. -/
def gotoState (tables : List (Row T N R)) (state : Nat) (n : N) : Option Nat :=
  tables[state]?.bind fun row => row.gotos.lookup n

/-- The values of some frames, which have to be frames for the given symbols. -/
def takeArgs {Value : GrammarSymbol T N → Type} :
    (symbols : List (GrammarSymbol T N)) → List (StackFrame Value) → Option (Args Value symbols)
  | [], [] => some ()
  | x :: rest, f :: fs =>
    if h : f.symbol = x then (takeArgs rest fs).map fun args => (h ▸ f.value, args) else none
  | _, _ => none

variable {g : Grammar T N R} (a : Actions g) (tables : List (Row T N R)) (endToken : T)

def reduce (r : R) (stack : List (StackFrame a.Value)) : Option (List (StackFrame a.Value)) := do
  let n := (g.rhs r).length
  let args ← takeArgs (g.rhs r) (stack.take n).reverse
  let state ← gotoState tables (topState (stack.drop n)) (g.lhs r)
  pure (⟨state, .nonterminal (g.lhs r), a.act r args⟩ :: stack.drop n)

/-- The token that the parser looks at. -/
def lookaheadOf (input : List (Lexeme a.Value)) : T := (input.head?.map Lexeme.token).getD endToken

/-- One round of the loop. The parser accepts by a shift of the end of the input. -/
def parseStep (c : Config a.Value) : Next a.Value :=
  match move tables (topState c.stack) (lookaheadOf a endToken c.input) with
  | .shift state =>
    match c.input with
    | [] => .accepted
    | x :: rest => .more ⟨⟨state, .token x.token, x.value⟩ :: c.stack, rest⟩
  | .reduce r =>
    match reduce a tables r c.stack with
    | some stack => .more ⟨stack, c.input⟩
    | none => .failed
  | .error => .failed

/-- Whether the parser accepts, and the stack that it ends with. -/
def runParser : (fuel : Nat) → Config a.Value → Option (Bool × List (StackFrame a.Value))
  | 0, _ => none
  | fuel + 1, c =>
    match parseStep a tables endToken c with
    | .more c => runParser fuel c
    | .accepted => some (true, c.stack)
    | .failed => some (false, c.stack)

/-- Rounds of the loop that go on. -/
abbrev Parsing : Config a.Value → Config a.Value → Prop :=
  Relation.ReflTransGen fun c c' => parseStep a tables endToken c = .more c'

end

end CLib
