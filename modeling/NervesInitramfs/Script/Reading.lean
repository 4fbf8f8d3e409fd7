import NervesInitramfs.CLib.Derivation
import NervesInitramfs.Script.Tables

/-!
# Reading a condition by the precedences

What a condition says when unary minus binds tightest, `+` and `-` come next and go from left to
right, then the comparisons, `!`, `&&` and `||`, and parentheses override all that. The reading is a
syntax tree, and its value is worked out from the values of its parts, whatever the parser does.
-/

namespace NervesInitramfs

open CLib

/-- The token of an operator. -/
def Relation.lexeme : Relation → ParserLexeme
  | .neq => ⟨.neq, ()⟩
  | .lt => ⟨.lt, ()⟩
  | .lte => ⟨.lte, ()⟩
  | .eq => ⟨.eq, ()⟩
  | .gte => ⟨.gte, ()⟩
  | .gt => ⟨.gt, ()⟩

def leftParen : ParserLexeme := ⟨.leftParen, ()⟩

def rightParen : ParserLexeme := ⟨.rightParen, ()⟩

def minus : ParserLexeme := ⟨.minus, ()⟩

/-! ## Terms -/

/-- How tightly the operators of a term bind, from the loosest up. The parameters of a call are next
to them. -/
inductive TermLevel
  | sum | unary | primary | parameters

def TermLevel.nonterminal : TermLevel → Nonterminal
  | .sum | .unary | .primary => .term
  | .parameters => .parameters

/-- What tokens are read as. -/
abbrev TermLevel.Tree (x : TermLevel) : Type := SemanticValue (.nonterminal x.nonterminal)

/-- The tokens `w` are read as a tree, by operators that bind at least as tightly as a level
says. -/
inductive TermReading : (x : TermLevel) → List ParserLexeme → x.Tree → Prop
  | add {u v : List ParserLexeme} {l r : TermSyntax} (hl : TermReading .sum u l)
      (hr : TermReading .unary v r) : TermReading .sum (u ++ ⟨.plus, ()⟩ :: v) (TermSyntax.add l r)
  | subtract {u v : List ParserLexeme} {l r : TermSyntax} (hl : TermReading .sum u l)
      (hr : TermReading .unary v r) : TermReading .sum (u ++ minus :: v) (TermSyntax.subtract l r)
  | ofUnary {w : List ParserLexeme} {t : TermSyntax} (h : TermReading .unary w t) :
      TermReading .sum w t
  | neg {w : List ParserLexeme} {t : TermSyntax} (h : TermReading .unary w t) :
      TermReading .unary (minus :: w) (TermSyntax.neg t)
  | ofPrimary {w : List ParserLexeme} {t : TermSyntax} (h : TermReading .primary w t) :
      TermReading .unary w t
  | identifier (id : Identifier) :
      TermReading .primary [⟨.identifier, id⟩] (TermSyntax.identifier id)
  | string (value : CString) : TermReading .primary [⟨.string, value⟩] (TermSyntax.string value)
  | number (base : Nat) (digits : List UInt8) :
      TermReading .primary [⟨.number, (base, digits)⟩] (TermSyntax.number base digits)
  | boolean (value : Bool) : TermReading .primary [⟨.boolean, value⟩] (TermSyntax.boolean value)
  | functionCall (id : Identifier) {w : List ParserLexeme} {ps : List TermSyntax}
      (h : TermReading .parameters w ps) :
      TermReading .primary (⟨.identifier, id⟩ :: leftParen :: (w ++ [rightParen]))
        (TermSyntax.functionCall id ps)
  | paren {w : List ParserLexeme} {t : TermSyntax} (h : TermReading .sum w t) :
      TermReading .primary (leftParen :: (w ++ [rightParen])) (TermSyntax.paren t)
  | noParameters : TermReading .parameters [] ([] : List TermSyntax)
  | oneParameter {w : List ParserLexeme} {t : TermSyntax} (h : TermReading .sum w t) :
      TermReading .parameters w [t]
  | moreParameters {u v : List ParserLexeme} {ps : List TermSyntax} {t : TermSyntax}
      (hps : TermReading .parameters u ps) (ht : TermReading .sum v t) :
      TermReading .parameters (u ++ ⟨.comma, ()⟩ :: v) (List.append ps [t])

/-! ## Conditions -/

inductive ConditionLevel
  | or | and | not | comparison

/-- The tokens `w` are read as a condition, by operators that bind at least as tightly as a level
says. -/
inductive ConditionReading : ConditionLevel → List ParserLexeme → BooleanSyntax → Prop
  | or {u v : List ParserLexeme} {l r : BooleanSyntax} (hl : ConditionReading .or u l)
      (hr : ConditionReading .and v r) : ConditionReading .or (u ++ ⟨.or, ()⟩ :: v) (.or l r)
  | ofAnd {w : List ParserLexeme} {b : BooleanSyntax} (h : ConditionReading .and w b) :
      ConditionReading .or w b
  | and {u v : List ParserLexeme} {l r : BooleanSyntax} (hl : ConditionReading .and u l)
      (hr : ConditionReading .not v r) : ConditionReading .and (u ++ ⟨.and, ()⟩ :: v) (.and l r)
  | ofNot {w : List ParserLexeme} {b : BooleanSyntax} (h : ConditionReading .not w b) :
      ConditionReading .and w b
  | not {w : List ParserLexeme} {b : BooleanSyntax} (h : ConditionReading .not w b) :
      ConditionReading .not (⟨.not, ()⟩ :: w) (.not b)
  | ofComparison {w : List ParserLexeme} {b : BooleanSyntax} (h : ConditionReading .comparison w b) :
      ConditionReading .not w b
  | comparison (relation : Relation) {u v : List ParserLexeme} {l r : TermSyntax}
      (hl : TermReading .sum u l) (hr : TermReading .sum v r) :
      ConditionReading .comparison (u ++ relation.lexeme :: v) (.comparison relation l r)
  | term {w : List ParserLexeme} {t : TermSyntax} (h : TermReading .sum w t) :
      ConditionReading .comparison w (.term t)
  | paren {w : List ParserLexeme} {b : BooleanSyntax} (h : ConditionReading .or w b) :
      ConditionReading .comparison (leftParen :: (w ++ [rightParen])) (.paren b)

/-! ## Values -/

section

variable (machine : Machine) (s : State) (call : Identifier → List Term → Term)

/-- What a computation returns in the state `s`. -/
def outcome {α : Type} (m : Interp α) : Option α :=
  match m s with
  | .ok a _ => some a
  | .error _ _ => none

mutual

/-- The value of a term in the state `s`, where a call returns what `call` says. The operators are
those of `script.c`, on operands that are values already. -/
def TermSyntax.value : TermSyntax → Option Term
  | .add left right => do
    let l ← left.value
    let r ← right.value
    (outcome s (functionAdd pure [l, r])).join
  | .subtract left right => do
    let l ← left.value
    let r ← right.value
    (outcome s (functionSubtract pure [l, r])).join
  | .neg operand => do
    let t ← operand.value
    let n ← outcome s (termToNumber pure (some t))
    some (.number (-n))
  | .paren inner => inner.value
  | .identifier id => (outcome s (getVariable id.name)).join
  | .string value => some (.string value)
  | .number base digits => some (.number (toInt32 (strtou machine.bits base digits)))
  | .boolean value => some (.boolean value)
  | .functionCall id parameters => do
    let vs ← valuesIn parameters
    some (call id vs)

def valuesIn : List TermSyntax → Option (List Term)
  | [] => some []
  | t :: rest => do
    let v ← t.value
    let vs ← valuesIn rest
    some (v :: vs)

end

/-- The truth value of a condition in the state `s`; `none` where a comparison has none. -/
def BooleanSyntax.value : BooleanSyntax → Option Bool
  | .term t => do
    let v ← t.value machine s call
    outcome s (termToBoolean pure (some v))
  | .paren inner => inner.value
  | .comparison relation left right => do
    let l ← left.value machine s call
    let r ← right.value machine s call
    let n ← outcome s (termCompare machine pure (some l) (some r))
    some (relation.holds n)
  | .not inner => do
    let b ← inner.value
    some !b
  | .and left right => do
    let l ← left.value
    let r ← right.value
    some (l && r)
  | .or left right => do
    let l ← left.value
    let r ← right.value
    some (l || r)

end

end NervesInitramfs
