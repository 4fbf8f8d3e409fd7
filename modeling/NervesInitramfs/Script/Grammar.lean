import NervesInitramfs.CLib.LrParser
import NervesInitramfs.Script.Parser

/-!
# The grammar (`parser.y`)

The rules with their precedences and with the syntax that each of them builds, and the parser that
bison makes of them.
-/

namespace NervesInitramfs

open CLib

/-- The tokens, with bison's `$end`. -/
inductive Token
  | boolean | identifier | number | string
  | and | or | neq | lt | lte | eq | gte | gt | arrow
  | semicolon | comma | assign | minus | plus | not
  | leftParen | rightParen | leftBrace | rightBrace
  | endOfInput
deriving DecidableEq

inductive Nonterminal
  | accept | statements | statement | rule | actionBlock | actions | action | assignment
  | booleanExpression | comparison | functionCall | parameters | term
deriving DecidableEq

/-- The rules, by what they are for and which alternative they are, with bison's `$accept`. -/
inductive Production
  | accept
  | noStatements | moreStatements
  | statementRule | statementAction
  | rule
  | blockAction | blockActions
  | noActions | moreActions
  | actionFunctionCall | actionAssignment
  | assignment
  | booleanTerm | booleanParen | booleanComparison | booleanNot | booleanAnd | booleanOr
  | comparison (relation : Relation)
  | functionCall
  | noParameters | moreParameters | oneParameter
  | termAdd | termSubtract | termNegate | termParen | termIdentifier | termString | termNumber
  | termBoolean | termFunctionCall
deriving DecidableEq

def Relation.token : Relation → Token
  | .neq => .neq
  | .lt => .lt
  | .lte => .lte
  | .eq => .eq
  | .gte => .gte
  | .gt => .gt

def Production.lhs : Production → Nonterminal
  | .accept => .accept
  | .noStatements | .moreStatements => .statements
  | .statementRule | .statementAction => .statement
  | .rule => .rule
  | .blockAction | .blockActions => .actionBlock
  | .noActions | .moreActions => .actions
  | .actionFunctionCall | .actionAssignment => .action
  | .assignment => .assignment
  | .booleanTerm | .booleanParen | .booleanComparison | .booleanNot | .booleanAnd | .booleanOr =>
    .booleanExpression
  | .comparison _ => .comparison
  | .functionCall => .functionCall
  | .noParameters | .moreParameters | .oneParameter => .parameters
  | .termAdd | .termSubtract | .termNegate | .termParen | .termIdentifier | .termString
  | .termNumber | .termBoolean | .termFunctionCall => .term

def Production.rhs : Production → List (GrammarSymbol Token Nonterminal)
  | .accept => [.nonterminal .statements, .token .endOfInput]
  | .noStatements => []
  | .moreStatements => [.nonterminal .statements, .nonterminal .statement]
  | .statementRule => [.nonterminal .rule]
  | .statementAction => [.nonterminal .action]
  | .rule => [.nonterminal .booleanExpression, .token .arrow, .nonterminal .actionBlock]
  | .blockAction => [.nonterminal .action]
  | .blockActions => [.token .leftBrace, .nonterminal .actions, .token .rightBrace]
  | .noActions => []
  | .moreActions => [.nonterminal .actions, .nonterminal .action]
  | .actionFunctionCall => [.nonterminal .functionCall]
  | .actionAssignment => [.nonterminal .assignment]
  | .assignment => [.token .identifier, .token .assign, .nonterminal .term]
  | .booleanTerm => [.nonterminal .term]
  | .booleanParen => [.token .leftParen, .nonterminal .booleanExpression, .token .rightParen]
  | .booleanComparison => [.nonterminal .comparison]
  | .booleanNot => [.token .not, .nonterminal .booleanExpression]
  | .booleanAnd =>
    [.nonterminal .booleanExpression, .token .and, .nonterminal .booleanExpression]
  | .booleanOr => [.nonterminal .booleanExpression, .token .or, .nonterminal .booleanExpression]
  | .comparison relation => [.nonterminal .term, .token relation.token, .nonterminal .term]
  | .functionCall =>
    [.token .identifier, .token .leftParen, .nonterminal .parameters, .token .rightParen]
  | .noParameters => []
  | .moreParameters => [.nonterminal .parameters, .token .comma, .nonterminal .term]
  | .oneParameter => [.nonterminal .term]
  | .termAdd => [.nonterminal .term, .token .plus, .nonterminal .term]
  | .termSubtract => [.nonterminal .term, .token .minus, .nonterminal .term]
  | .termNegate => [.token .minus, .nonterminal .term]
  | .termParen => [.token .leftParen, .nonterminal .term, .token .rightParen]
  | .termIdentifier => [.token .identifier]
  | .termString => [.token .string]
  | .termNumber => [.token .number]
  | .termBoolean => [.token .boolean]
  | .termFunctionCall => [.nonterminal .functionCall]

def grammar : Grammar Token Nonterminal Production where
  tokens := [.boolean, .identifier, .number, .string, .and, .or, .neq, .lt, .lte, .eq, .gte, .gt,
    .arrow, .semicolon, .comma, .assign, .minus, .plus, .not, .leftParen, .rightParen, .leftBrace,
    .rightBrace, .endOfInput]
  nonterminals := [.accept, .statements, .statement, .rule, .actionBlock, .actions, .action,
    .assignment, .booleanExpression, .comparison, .functionCall, .parameters, .term]
  rules := [.accept, .noStatements, .moreStatements, .statementRule, .statementAction, .rule,
    .blockAction, .blockActions, .noActions, .moreActions, .actionFunctionCall, .actionAssignment,
    .assignment, .booleanTerm, .booleanParen, .booleanComparison, .booleanNot, .booleanAnd,
    .booleanOr, .comparison .neq, .comparison .lt, .comparison .lte, .comparison .eq,
    .comparison .gte, .comparison .gt, .functionCall, .noParameters, .moreParameters,
    .oneParameter, .termAdd, .termSubtract, .termNegate, .termParen, .termIdentifier, .termString,
    .termNumber, .termBoolean, .termFunctionCall]
  lhs := Production.lhs
  rhs := Production.rhs
  precedence := [(.left, [.arrow]), (.left, [.semicolon]), (.left, [.comma]), (.right, [.assign]),
    (.left, [.or]), (.left, [.and]), (.left, [.neq, .eq]), (.left, [.lt, .lte, .gte, .gt]),
    (.left, [.minus, .plus]), (.right, [.not])]

/-! ## What the rules build -/

/-- The semantic values. The one of a number is the base and the text. -/
def SemanticValue : GrammarSymbol Token Nonterminal → Type
  | .token .boolean => Bool
  | .token .identifier => Identifier
  | .token .number => Nat × List UInt8
  | .token .string => CString
  | .token _ => Unit
  | .nonterminal .accept => Unit
  | .nonterminal .statements => List StatementSyntax
  | .nonterminal .statement => StatementSyntax
  | .nonterminal .rule => StatementSyntax
  | .nonterminal .actionBlock => List ActionSyntax
  | .nonterminal .actions => List ActionSyntax
  | .nonterminal .action => ActionSyntax
  | .nonterminal .assignment => ActionSyntax
  | .nonterminal .booleanExpression => BooleanSyntax
  | .nonterminal .comparison => BooleanSyntax
  | .nonterminal .functionCall => Identifier × List TermSyntax
  | .nonterminal .parameters => List TermSyntax
  | .nonterminal .term => TermSyntax

def semanticAction : (r : Production) → Args SemanticValue r.rhs → SemanticValue (.nonterminal r.lhs)
  | .accept, _ => ()
  | .noStatements, _ => ([] : List StatementSyntax)
  | .moreStatements, (ss, s, _) => List.append ss [s]
  | .statementRule, (rule, _) => rule
  | .statementAction, (a, _) => StatementSyntax.action a
  | .rule, (b, _, block, _) => StatementSyntax.rule b block
  | .blockAction, (a, _) => List.singleton a
  | .blockActions, (_, actions, _, _) => actions
  | .noActions, _ => ([] : List ActionSyntax)
  | .moreActions, (actions, a, _) => List.append actions [a]
  | .actionFunctionCall, (call, _) => ActionSyntax.functionCall call.1 call.2
  | .actionAssignment, (a, _) => a
  | .assignment, (id, _, t, _) => ActionSyntax.assignment id t
  | .booleanTerm, (t, _) => BooleanSyntax.term t
  | .booleanParen, (_, b, _, _) => BooleanSyntax.paren b
  | .booleanComparison, (c, _) => c
  | .booleanNot, (_, b, _) => BooleanSyntax.not b
  | .booleanAnd, (l, _, r, _) => BooleanSyntax.and l r
  | .booleanOr, (l, _, r, _) => BooleanSyntax.or l r
  | .comparison relation, (l, _, r, _) => BooleanSyntax.comparison relation l r
  | .functionCall, (id, _, ps, _, _) => Prod.mk id ps
  | .noParameters, _ => ([] : List TermSyntax)
  | .moreParameters, (ps, _, t, _) => List.append ps [t]
  | .oneParameter, (t, _) => List.singleton t
  | .termAdd, (l, _, r, _) => TermSyntax.add l r
  | .termSubtract, (l, _, r, _) => TermSyntax.subtract l r
  | .termNegate, (_, t, _) => TermSyntax.neg t
  | .termParen, (_, t, _, _) => TermSyntax.paren t
  | .termIdentifier, (id, _) => TermSyntax.identifier id
  | .termString, (value, _) => TermSyntax.string value
  | .termNumber, (n, _) => TermSyntax.number n.1 n.2
  | .termBoolean, (value, _) => TermSyntax.boolean value
  | .termFunctionCall, (call, _) => TermSyntax.functionCall call.1 call.2

abbrev actions : Actions grammar := ⟨SemanticValue, semanticAction⟩

end NervesInitramfs
