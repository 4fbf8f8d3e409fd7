import NervesInitramfs.Script.Grammar

/-!
# The generated parser (`parser.tab.c`)

The tables that bison computes from the grammar, and `yyparse` up to the syntax that it builds. The
states are numbered in the order in which they are reached.
-/

namespace NervesInitramfs

open CLib

abbrev ParserRow := Row Token Nonterminal Production

/-- Whatever comes, the rule is complete. -/
def complete (r : Production) : ParserRow := ⟨[], [], [], some r⟩

/-- A term has to come. -/
def expectTerm (gotos : List (Nonterminal × Nat)) : ParserRow :=
  ⟨[(.boolean, 2), (.identifier, 20), (.number, 4), (.string, 5), (.minus, 6), (.leftParen, 21)],
    (.functionCall, 22) :: gotos, [], none⟩

/-- A condition has to come. -/
def expectCondition (condition term : Nat) : ParserRow :=
  ⟨[(.boolean, 2), (.identifier, 20), (.number, 4), (.string, 5), (.minus, 6), (.not, 7),
      (.leftParen, 8)],
    [(.booleanExpression, condition), (.comparison, 15), (.functionCall, 22), (.term, term)], [],
    none⟩

/-- Unless the term goes on, the rule is complete. -/
def afterOperand (r : Production) : ParserRow := ⟨[(.minus, 36), (.plus, 37)], [], [], some r⟩

/-- A term that can be one side of a comparison has been read. -/
def comparing : List (Token × Nat) :=
  [(.neq, 30), (.lt, 31), (.lte, 32), (.eq, 33), (.gte, 34), (.gt, 35), (.minus, 36), (.plus, 37)]

/-- The tokens that a statement can begin with. -/
def beginnings : List Token :=
  [.boolean, .identifier, .number, .string, .minus, .not, .leftParen]

def parserTables : List ParserRow :=
  [ -- At the start, and between two statements.
   ⟨[], [(.statements, 1)], [], some .noStatements⟩,
   ⟨[(.boolean, 2), (.identifier, 3), (.number, 4), (.string, 5), (.minus, 6), (.not, 7),
      (.leftParen, 8), (.endOfInput, 9)],
     [(.statement, 10), (.rule, 11), (.action, 12), (.assignment, 13), (.booleanExpression, 14),
      (.comparison, 15), (.functionCall, 16), (.term, 17)], [], none⟩,
   complete .termBoolean,
   ⟨[(.assign, 18), (.leftParen, 19)], [], [], some .termIdentifier⟩,
   complete .termNumber,
   complete .termString,
   expectTerm [(.term, 23)],
   expectCondition 24 17,
   expectCondition 25 26,
   ⟨[], [], [], none⟩,
   -- 10: a statement has been read, or what may turn out to be one.
   complete .moreStatements,
   complete .statementRule,
   complete .statementAction,
   complete .actionAssignment,
   ⟨[(.and, 27), (.or, 28), (.arrow, 29)], [], [], none⟩,
   complete .booleanComparison,
   ⟨[], [], (beginnings ++ [Token.endOfInput]).map fun t => (t, .actionFunctionCall),
     some .termFunctionCall⟩,
   ⟨comparing, [], [], some .booleanTerm⟩,
   expectTerm [(.term, 38)],
   { expectTerm [(.parameters, 39), (.term, 40)] with default := some .noParameters },
   -- 20
   ⟨[(.leftParen, 19)], [], [], some .termIdentifier⟩,
   expectTerm [(.term, 41)],
   complete .termFunctionCall,
   complete .termNegate,
   complete .booleanNot,
   ⟨[(.and, 27), (.or, 28), (.rightParen, 42)], [], [], none⟩,
   ⟨comparing ++ [(.rightParen, 43)], [], [], some .booleanTerm⟩,
   expectCondition 44 17,
   expectCondition 45 17,
   ⟨[(.identifier, 46), (.leftBrace, 47)],
     [(.actionBlock, 48), (.action, 49), (.assignment, 13), (.functionCall, 50)], [], none⟩,
   -- 30: an operator of a comparison, a minus or a plus.
   expectTerm [(.term, 51)],
   expectTerm [(.term, 52)],
   expectTerm [(.term, 53)],
   expectTerm [(.term, 54)],
   expectTerm [(.term, 55)],
   expectTerm [(.term, 56)],
   expectTerm [(.term, 57)],
   expectTerm [(.term, 58)],
   afterOperand .assignment,
   ⟨[(.comma, 59), (.rightParen, 60)], [], [], none⟩,
   -- 40
   afterOperand .oneParameter,
   ⟨[(.minus, 36), (.plus, 37), (.rightParen, 43)], [], [], none⟩,
   complete .booleanParen,
   complete .termParen,
   complete .booleanAnd,
   ⟨[(.and, 27)], [], [], some .booleanOr⟩,
   ⟨[(.assign, 18), (.leftParen, 19)], [], [], none⟩,
   ⟨[], [(.actions, 61)], [], some .noActions⟩,
   complete .rule,
   complete .blockAction,
   -- 50
   complete .actionFunctionCall,
   afterOperand (.comparison .neq),
   afterOperand (.comparison .lt),
   afterOperand (.comparison .lte),
   afterOperand (.comparison .eq),
   afterOperand (.comparison .gte),
   afterOperand (.comparison .gt),
   complete .termSubtract,
   complete .termAdd,
   expectTerm [(.term, 62)],
   -- 60
   complete .functionCall,
   ⟨[(.identifier, 46), (.rightBrace, 63)],
     [(.action, 64), (.assignment, 13), (.functionCall, 50)], [], none⟩,
   afterOperand .moreParameters,
   complete .blockActions,
   complete .moreActions]

theorem parserTables_eq : grammar.tables 100 = parserTables := by
  decide +kernel

/-! ## Parsing -/

abbrev ParserLexeme := Lexeme SemanticValue

abbrev ParserFrame := StackFrame SemanticValue

/-- The statements that have been read, in the frame at the bottom of the stack. -/
def statementsIn : (x : GrammarSymbol Token Nonterminal) → SemanticValue x → List StatementSyntax
  | .nonterminal .statements, ss => ss
  | _, _ => []

/-- The parts of a statement that a frame holds. -/
def fragmentsIn : (x : GrammarSymbol Token Nonterminal) → SemanticValue x → List Fragment
  | .nonterminal .term, t => [.term t]
  | .nonterminal .parameters, ps => List.map Fragment.term ps
  | .nonterminal .functionCall, call => [.term (.functionCall call.1 call.2)]
  | .nonterminal .booleanExpression, b => [.boolean b]
  | .nonterminal .comparison, b => [.boolean b]
  | .nonterminal .action, a => [.action a]
  | .nonterminal .assignment, a => [.action a]
  | .nonterminal .actions, actions => List.map Fragment.action actions
  | .nonterminal .actionBlock, actions => List.map Fragment.action actions
  | _, _ => []

/-- What the parser has found when it ends. -/
def scriptOf (accepted : Bool) (stack : List ParserFrame) : Script :=
  let frames := stack.reverse
  { statements := frames.flatMap fun f => statementsIn f.symbol f.value
    error := if accepted then none else some (frames.flatMap fun f => fragmentsIn f.symbol f.value) }

/-- What the parser finds in a list of tokens, if `fuel` rounds are enough. -/
def parse (fuel : Nat) (input : List ParserLexeme) : Option Script :=
  (runParser actions parserTables .endOfInput fuel ⟨[], input⟩).map fun r => scriptOf r.1 r.2

/-- The parser finds `script` in a list of tokens. -/
def Parses (input : List ParserLexeme) (script : Script) : Prop :=
  ∃ fuel, parse fuel input = some script

end NervesInitramfs
