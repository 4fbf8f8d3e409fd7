import NervesInitramfs.Script.Proofs.ReadingProofs
import NervesInitramfs.Script.Proofs.StatementProofs

/-!
# Proofs: the parser reads conditions by the precedences

By induction on a reading: where the tables of the parser expect a term or a condition, they shift
and reduce what is read until the syntax tree of the reading is on the stack.
-/

namespace NervesInitramfs

open CLib

/-! ## The tables -/

/-- The states in which a term has to come, and those in which it can be a sum. -/
def termStates : List Nat := [1, 6, 7, 8, 18, 19, 21, 27, 28, 30, 31, 32, 33, 34, 35, 36, 37, 59]

def sumStates : List Nat := [1, 7, 8, 18, 19, 21, 27, 28, 30, 31, 32, 33, 34, 35, 59]

def TermLevel.states : TermLevel → List Nat
  | .sum => sumStates
  | .unary | .primary => termStates
  | .parameters => [19]

/-- The tokens that follow a term in a condition. -/
def TermLevel.follow : TermLevel → List Token
  | .sum | .unary | .primary =>
    [.and, .or, .neq, .lt, .lte, .eq, .gte, .gt, .arrow, .comma, .minus, .plus, .rightParen]
  | .parameters => [.comma, .rightParen]

/-- The state that a nonterminal leads to, where it leads to one. -/
def gotoOf (q : Nat) (n : Nonterminal) : Nat := (gotoState parserTables q n).getD 0

/-- What the parser does on the first token of a term. A term at the beginning of a statement has
states of its own, as it may turn out to be an action. -/
structure ExpectsTerm (q : Nat) : Prop where
  boolean : move parserTables q .boolean = .shift 2
  number : move parserTables q .number = .shift 4
  string : move parserTables q .string = .shift 5
  minus : move parserTables q .minus = .shift 6
  identifier : move parserTables q .identifier = .shift (if q = 1 then 3 else 20)
  leftParen : ∃ p ∈ [8, 21], move parserTables q .leftParen = .shift p
  functionCall : gotoState parserTables q .functionCall = some (if q = 1 then 16 else 22)
  term : gotoState parserTables q .term = some (gotoOf q .term)

theorem expectsTerm {q : Nat} (hq : q ∈ termStates) : ExpectsTerm q := by
  have hall : ∀ q ∈ termStates, move parserTables q .boolean = .shift 2 ∧
      move parserTables q .number = .shift 4 ∧ move parserTables q .string = .shift 5 ∧
      move parserTables q .minus = .shift 6 ∧
      move parserTables q .identifier = .shift (if q = 1 then 3 else 20) ∧
      (∃ p ∈ [8, 21], move parserTables q .leftParen = .shift p) ∧
      gotoState parserTables q .functionCall = some (if q = 1 then 16 else 22) ∧
      gotoState parserTables q .term = some (gotoOf q .term) := by decide
  obtain ⟨h1, h2, h3, h4, h5, h6, h7, h8⟩ := hall q hq
  exact ⟨h1, h2, h3, h4, h5, h6, h7, h8⟩

theorem termStates_of_sumStates {q : Nat} (hq : q ∈ sumStates) : q ∈ termStates := by
  have hall : ∀ q ∈ sumStates, q ∈ termStates := by decide
  exact hall q hq

/-- A term is complete in front of what follows it. At the beginning of a statement a call in front
of a minus is not. -/
theorem complete_before {t : Token} (ht : t ∈ TermLevel.sum.follow) :
    move parserTables 3 t = .reduce .termIdentifier ∧
      move parserTables 20 t = .reduce .termIdentifier ∧
      (t ≠ .minus → move parserTables 16 t = .reduce .termFunctionCall) := by
  have hall : ∀ t ∈ TermLevel.sum.follow, move parserTables 3 t = .reduce .termIdentifier ∧
      move parserTables 20 t = .reduce .termIdentifier ∧
      (t ≠ .minus → move parserTables 16 t = .reduce .termFunctionCall) := by decide
  exact hall t ht

/-- And so is a parameter. -/
theorem complete_parameter {t : Token} (ht : t ∈ TermLevel.parameters.follow) :
    move parserTables 19 t = .reduce .noParameters ∧
      move parserTables 40 t = .reduce .oneParameter ∧
      move parserTables 62 t = .reduce .moreParameters := by
  have hall : ∀ t ∈ TermLevel.parameters.follow, move parserTables 19 t = .reduce .noParameters ∧
      move parserTables 40 t = .reduce .oneParameter ∧
      move parserTables 62 t = .reduce .moreParameters := by decide
  exact hall t ht

/-! ## Rounds of the parser -/

/-- The frame of a token, and that of a term where one has been found in the state `q`. -/
abbrev tokenFrame (s : Nat) (x : ParserLexeme) : ParserFrame := ⟨s, .token x.token, x.value⟩

abbrev termFrame (q : Nat) (t : TermSyntax) : ParserFrame := ⟨gotoOf q .term, .nonterminal .term, t⟩

abbrev parametersFrame (ps : List TermSyntax) : ParserFrame :=
  ⟨gotoOf 19 .parameters, .nonterminal .parameters, ps⟩

theorem shifts (stack : List ParserFrame) (x : ParserLexeme) {s : Nat}
    (h : move parserTables (topState stack) x.token = .shift s) (rest : List ParserLexeme) :
    Yyparse ⟨stack, x :: rest⟩ ⟨tokenFrame s x :: stack, rest⟩ := by
  have hstep : parseStep actions parserTables .endOfInput ⟨stack, x :: rest⟩ =
      .more ⟨tokenFrame s x :: stack, rest⟩ := parseStep_shift (a := actions) h rest
  exact .single hstep

theorem reduces (r : Production) (args : Args SemanticValue r.rhs) {stack : List ParserFrame}
    {input : List ParserLexeme} {s : Nat}
    (hmove : move parserTables (topState stack) (lookaheadOf actions .endOfInput input) = .reduce r)
    (hargs : takeArgs r.rhs (stack.take r.rhs.length).reverse = some args)
    (hgoto : gotoState parserTables (topState (stack.drop r.rhs.length)) r.lhs = some s) :
    Yyparse ⟨stack, input⟩
      ⟨⟨s, .nonterminal r.lhs, semanticAction r args⟩ :: stack.drop r.rhs.length, input⟩ := by
  have hreduce : reduce actions parserTables r stack =
      some (⟨s, .nonterminal r.lhs, semanticAction r args⟩ :: stack.drop r.rhs.length) :=
    reduce_eq hargs hgoto
  have hstep : parseStep actions parserTables .endOfInput ⟨stack, input⟩ =
      .more ⟨⟨s, .nonterminal r.lhs, semanticAction r args⟩ :: stack.drop r.rhs.length, input⟩ :=
    parseStep_reduce (a := actions) hmove hreduce
  exact .single hstep

/-! ## Terms -/

/-- The tokens `w` do not begin with a call that a minus follows, in `w` or in what comes next. -/
def NoCallMinus (w rest : List ParserLexeme) : Prop :=
  ∀ u v id ps, w = u ++ v → TermReading .primary u (TermSyntax.functionCall id ps) →
    lookaheadOf actions .endOfInput (v ++ rest) ≠ .minus

theorem NoCallMinus.front {u v rest : List ParserLexeme} (h : NoCallMinus (u ++ v) rest) :
    NoCallMinus u (v ++ rest) := by
  rintro u₁ u₂ id ps rfl hcall
  rw [← List.append_assoc]
  exact h u₁ (u₂ ++ v) id ps (List.append_assoc _ _ _) hcall

/-- Where the tables expect a term or parameters, the parser reads `w` and has the tree `t` on its
stack. -/
def ReadAs (x : TermLevel) (w : List ParserLexeme) (t : x.Tree) : Prop :=
  ∀ q ∈ x.states, ∀ stack, topState stack = q → ∀ rest,
    lookaheadOf actions .endOfInput rest ∈ x.follow → (q = 1 → NoCallMinus w rest) →
      Yyparse ⟨stack, w ++ rest⟩
        ⟨⟨gotoOf q x.nonterminal, .nonterminal x.nonterminal, t⟩ :: stack, rest⟩

theorem gotoState_term {q : Nat} (hq : q ∈ termStates) {stack : List ParserFrame}
    (htop : topState stack = q) :
    gotoState parserTables (topState stack) .term = some (gotoOf q .term) := by
  rw [htop]
  exact (expectsTerm hq).term

/-- A sum, an operator and one more operand. The operator leads to the state `p` and its rule is
complete behind the operand. -/
theorem readAs_operator {op : ParserLexeme} {p : Nat} (hfollow : op.token ∈ TermLevel.sum.follow)
    (hp : p ∈ TermLevel.unary.states) (hne : p ≠ 1)
    (hop : ∀ q ∈ sumStates, move parserTables (gotoOf q .term) op.token = .shift p)
    {u v : List ParserLexeme} {l r t : TermSyntax} (hl : ReadAs .sum u l) (hr : ReadAs .unary v r)
    (hreduce : ∀ q ∈ sumStates, ∀ stack, topState stack = q → ∀ rest,
      Yyparse ⟨termFrame p r :: tokenFrame p op :: termFrame q l :: stack, rest⟩
        ⟨termFrame q t :: stack, rest⟩) : ReadAs .sum (u ++ op :: v) t := by
  intro q hq stack htop rest hrest hcall
  have hleft := hl q hq stack htop (op :: (v ++ rest)) hfollow fun h => (hcall h).front
  have hshift := shifts (termFrame q l :: stack) op (hop q hq) (v ++ rest)
  have hright := hr p hp (tokenFrame p op :: termFrame q l :: stack) rfl rest hrest
    fun h => absurd h hne
  rw [List.append_assoc]
  exact hleft.trans (hshift.trans (hright.trans (hreduce q hq stack htop rest)))

theorem readAs_add {u v : List ParserLexeme} {l r : TermSyntax} (hl : ReadAs .sum u l)
    (hr : ReadAs .unary v r) : ReadAs .sum (u ++ ⟨.plus, ()⟩ :: v) (TermSyntax.add l r) := by
  refine readAs_operator (p := 37) (by decide) (by decide) (by decide) (by decide) hl hr ?_
  intro q hq stack htop rest
  have hgoto := gotoState_term (termStates_of_sumStates hq) htop
  exact reduces .termAdd (l, (), r, ()) rfl rfl hgoto

theorem readAs_subtract {u v : List ParserLexeme} {l r : TermSyntax} (hl : ReadAs .sum u l)
    (hr : ReadAs .unary v r) : ReadAs .sum (u ++ minus :: v) (TermSyntax.subtract l r) := by
  refine readAs_operator (p := 36) (by decide) (by decide) (by decide) (by decide) hl hr ?_
  intro q hq stack htop rest
  have hgoto := gotoState_term (termStates_of_sumStates hq) htop
  exact reduces .termSubtract (l, (), r, ()) rfl rfl hgoto

/-- The rule of a unary minus is complete as soon as its operand is. -/
theorem readAs_neg {w : List ParserLexeme} {t : TermSyntax} (h : ReadAs .unary w t) :
    ReadAs .unary (minus :: w) (TermSyntax.neg t) := by
  intro q hq stack htop rest hrest hcall
  have hshift := shifts stack minus (by rw [htop]; exact (expectsTerm hq).minus) (w ++ rest)
  have hoperand := h 6 (by decide) (tokenFrame 6 minus :: stack) rfl rest hrest
    fun h => absurd h (by decide)
  refine hshift.trans (hoperand.trans ?_)
  exact reduces .termNegate ((), t, ()) rfl rfl (gotoState_term hq htop)

/-- A term that is one token. -/
theorem readAs_single {x : ParserLexeme} {t : TermSyntax}
    (hreads : ∀ q ∈ termStates, ∃ p, move parserTables q x.token = .shift p ∧
      ∀ stack, topState stack = q → ∀ rest,
        lookaheadOf actions .endOfInput rest ∈ TermLevel.primary.follow →
          Yyparse ⟨tokenFrame p x :: stack, rest⟩ ⟨termFrame q t :: stack, rest⟩) :
    ReadAs .primary [x] t := by
  intro q hq stack htop rest hrest _
  obtain ⟨p, hmove, hreduce⟩ := hreads q hq
  have hshift := shifts stack x (by rw [htop]; exact hmove) rest
  exact hshift.trans (hreduce stack htop rest hrest)

theorem readAs_identifier (id : Identifier) :
    ReadAs .primary [⟨.identifier, id⟩] (TermSyntax.identifier id) := by
  refine readAs_single fun q hq => ⟨_, (expectsTerm hq).identifier, ?_⟩
  intro stack htop rest hrest
  refine reduces .termIdentifier (id, ()) ?_ rfl (gotoState_term hq htop)
  show move parserTables (if q = 1 then 3 else 20) _ = _
  split
  · exact (complete_before hrest).1
  · exact (complete_before hrest).2.1

theorem readAs_string (value : CString) :
    ReadAs .primary [⟨.string, value⟩] (TermSyntax.string value) := by
  refine readAs_single fun q hq => ⟨_, (expectsTerm hq).string, ?_⟩
  intro stack htop rest hrest
  exact reduces .termString (value, ()) rfl rfl (gotoState_term hq htop)

theorem readAs_number (base : Nat) (digits : List UInt8) :
    ReadAs .primary [⟨.number, (base, digits)⟩] (TermSyntax.number base digits) := by
  refine readAs_single fun q hq => ⟨_, (expectsTerm hq).number, ?_⟩
  intro stack htop rest hrest
  exact reduces .termNumber ((base, digits), ()) rfl rfl (gotoState_term hq htop)

theorem readAs_boolean (value : Bool) :
    ReadAs .primary [⟨.boolean, value⟩] (TermSyntax.boolean value) := by
  refine readAs_single fun q hq => ⟨_, (expectsTerm hq).boolean, ?_⟩
  intro stack htop rest hrest
  exact reduces .termBoolean (value, ()) rfl rfl (gotoState_term hq htop)

theorem readAs_paren {w : List ParserLexeme} {t : TermSyntax} (h : ReadAs .sum w t) :
    ReadAs .primary (leftParen :: (w ++ [rightParen])) (TermSyntax.paren t) := by
  intro q hq stack htop rest hrest _
  obtain ⟨p, hp, hmove⟩ := (expectsTerm hq).leftParen
  have hinside : ∀ p ∈ [8, 21], p ∈ TermLevel.sum.states ∧ p ≠ 1 ∧
      move parserTables (gotoOf p .term) .rightParen = .shift 43 := by decide
  obtain ⟨hstates, hne, hclose⟩ := hinside p hp
  have hopen := shifts stack leftParen (by rw [htop]; exact hmove) ((w ++ [rightParen]) ++ rest)
  have hw := h p hstates (tokenFrame p leftParen :: stack) rfl (rightParen :: rest)
    (show Token.rightParen ∈ TermLevel.sum.follow by decide) fun h => absurd h hne
  have hshift := shifts (termFrame p t :: tokenFrame p leftParen :: stack) rightParen hclose rest
  rw [List.append_assoc] at hopen
  rw [List.cons_append, List.append_assoc]
  refine hopen.trans (hw.trans (hshift.trans ?_))
  exact reduces .termParen ((), t, (), ()) rfl rfl (gotoState_term hq htop)

/-- At the beginning of a statement a call is a term only where no minus follows. -/
theorem readAs_functionCall (id : Identifier) {w : List ParserLexeme} {ps : List TermSyntax}
    (hreading : TermReading .parameters w ps) (h : ReadAs .parameters w ps) :
    ReadAs .primary (⟨.identifier, id⟩ :: leftParen :: (w ++ [rightParen]))
      (TermSyntax.functionCall id ps) := by
  intro q hq stack htop rest hrest hcall
  have hid := shifts stack ⟨.identifier, id⟩ (by rw [htop]; exact (expectsTerm hq).identifier)
    (leftParen :: (w ++ rightParen :: rest))
  have hopen : move parserTables (if q = 1 then 3 else 20) .leftParen = .shift 19 := by
    split
    · rfl
    · rfl
  have hparen := shifts (tokenFrame (if q = 1 then 3 else 20) ⟨.identifier, id⟩ :: stack) leftParen
    hopen (w ++ rightParen :: rest)
  have hw := h 19 (by decide)
    (tokenFrame 19 leftParen :: tokenFrame (if q = 1 then 3 else 20) ⟨.identifier, id⟩ :: stack) rfl
    (rightParen :: rest) (show Token.rightParen ∈ TermLevel.parameters.follow by decide)
    fun h => absurd h (by decide)
  have hclose := shifts (parametersFrame ps ::
    tokenFrame 19 leftParen :: tokenFrame (if q = 1 then 3 else 20) ⟨.identifier, id⟩ :: stack)
    rightParen (show move parserTables 39 .rightParen = .shift 60 from rfl) rest
  have hgoto : gotoState parserTables (topState stack) .functionCall =
      some (if q = 1 then 16 else 22) := by
    rw [htop]
    exact (expectsTerm hq).functionCall
  have hfunction : Yyparse ⟨tokenFrame 60 rightParen :: parametersFrame ps :: tokenFrame 19 leftParen ::
        tokenFrame (if q = 1 then 3 else 20) ⟨.identifier, id⟩ :: stack, rest⟩
      ⟨⟨if q = 1 then 16 else 22, .nonterminal .functionCall, (id, ps)⟩ :: stack, rest⟩ :=
    reduces .functionCall (id, (), ps, (), ()) rfl rfl hgoto
  rw [List.cons_append, List.cons_append, List.append_assoc]
  refine hid.trans (hparen.trans (hw.trans (hclose.trans (hfunction.trans ?_))))
  refine reduces .termFunctionCall ((id, ps), ()) ?_ rfl (gotoState_term hq htop)
  show move parserTables (if q = 1 then 16 else 22) _ = _
  split
  · rename_i hone
    refine (complete_before hrest).2.2 ?_
    exact hcall hone _ [] id ps (List.append_nil _).symm (.functionCall id hreading)
  · rfl

theorem gotoState_parameters {stack : List ParserFrame} (htop : topState stack = 19) :
    gotoState parserTables (topState stack) .parameters = some (gotoOf 19 .parameters) := by
  rw [htop]
  rfl

/-- What follows a parameter follows a term. -/
theorem follow_parameter {t : Token} (ht : t ∈ TermLevel.parameters.follow) :
    t ∈ TermLevel.sum.follow := by
  have hall : ∀ t ∈ TermLevel.parameters.follow, t ∈ TermLevel.sum.follow := by decide
  exact hall t ht

theorem readAs_noParameters : ReadAs .parameters [] ([] : List TermSyntax) := by
  intro q hq stack htop rest hrest _
  obtain rfl := List.mem_singleton.mp hq
  refine reduces .noParameters () ?_ rfl (gotoState_parameters htop)
  rw [htop]
  exact (complete_parameter hrest).1

theorem readAs_oneParameter {w : List ParserLexeme} {t : TermSyntax} (h : ReadAs .sum w t) :
    ReadAs .parameters w [t] := by
  intro q hq stack htop rest hrest _
  obtain rfl := List.mem_singleton.mp hq
  have hw := h 19 (by decide) stack htop rest (follow_parameter hrest)
    fun h => absurd h (by decide)
  refine hw.trans ?_
  exact reduces .oneParameter (t, ()) (complete_parameter hrest).2.1 rfl (gotoState_parameters htop)

theorem readAs_moreParameters {u v : List ParserLexeme} {ps : List TermSyntax} {t : TermSyntax}
    (hps : ReadAs .parameters u ps) (ht : ReadAs .sum v t) :
    ReadAs .parameters (u ++ ⟨.comma, ()⟩ :: v) (List.append ps [t]) := by
  intro q hq stack htop rest hrest _
  obtain rfl := List.mem_singleton.mp hq
  have hu := hps 19 (by decide) stack htop (⟨.comma, ()⟩ :: (v ++ rest))
    (show Token.comma ∈ TermLevel.parameters.follow by decide) fun h => absurd h (by decide)
  have hcomma := shifts (parametersFrame ps :: stack) ⟨.comma, ()⟩
    (show move parserTables 39 .comma = .shift 59 from rfl) (v ++ rest)
  have hv := ht 59 (by decide) (tokenFrame 59 ⟨.comma, ()⟩ ::
    parametersFrame ps :: stack) rfl rest (follow_parameter hrest)
    fun h => absurd h (by decide)
  rw [List.append_assoc]
  refine hu.trans (hcomma.trans (hv.trans ?_))
  exact reduces .moreParameters (ps, (), t, ()) (complete_parameter hrest).2.2 rfl
    (gotoState_parameters htop)

theorem readAs_of_termReading {x : TermLevel} {w : List ParserLexeme} {t : x.Tree}
    (h : TermReading x w t) : ReadAs x w t := by
  induction h with
  | add hl hr ihl ihr => exact readAs_add ihl ihr
  | subtract hl hr ihl ihr => exact readAs_subtract ihl ihr
  | ofUnary h ih => exact fun q hq => ih q (termStates_of_sumStates hq)
  | neg h ih => exact readAs_neg ih
  | ofPrimary h ih => exact ih
  | identifier id => exact readAs_identifier id
  | string value => exact readAs_string value
  | number base digits => exact readAs_number base digits
  | boolean value => exact readAs_boolean value
  | functionCall id h ih => exact readAs_functionCall id h ih
  | paren h ih => exact readAs_paren ih
  | noParameters => exact readAs_noParameters
  | oneParameter h ih => exact readAs_oneParameter ih
  | moreParameters hps ht ihps iht => exact readAs_moreParameters ihps iht

/-! ## Conditions -/

/-- The states in which a condition has to come and can be of a level. -/
def ConditionLevel.states : ConditionLevel → List Nat
  | .or => [1, 8]
  | .and => [1, 8, 28]
  | .not | .comparison => [1, 7, 8, 27, 28]

/-- The tokens that follow a condition of a level. -/
def ConditionLevel.follow : ConditionLevel → List Token
  | .or => [.or, .rightParen, .arrow]
  | .and | .not | .comparison => [.and, .or, .rightParen, .arrow]

def Relation.state : Relation → Nat
  | .neq => 30
  | .lt => 31
  | .lte => 32
  | .eq => 33
  | .gte => 34
  | .gt => 35

/-- What the parser does where it expects a condition. -/
structure ExpectsCondition (q : Nat) : Prop where
  not : move parserTables q .not = .shift 7
  leftParen : move parserTables q .leftParen = .shift 8
  sum : q ∈ sumStates
  relation : ∀ relation : Relation,
    move parserTables (gotoOf q .term) relation.token = .shift relation.state
  comparison : gotoState parserTables q .comparison = some 15
  booleanExpression : gotoState parserTables q .booleanExpression = some (gotoOf q .booleanExpression)

theorem expectsCondition {q : Nat} (hq : q ∈ ConditionLevel.comparison.states) :
    ExpectsCondition q := by
  have hall : ∀ q ∈ ConditionLevel.comparison.states, move parserTables q .not = .shift 7 ∧
      move parserTables q .leftParen = .shift 8 ∧ q ∈ sumStates ∧
      (∀ relation ∈ [Relation.neq, .lt, .lte, .eq, .gte, .gt],
        move parserTables (gotoOf q .term) relation.token = .shift relation.state) ∧
      gotoState parserTables q .comparison = some 15 ∧
      gotoState parserTables q .booleanExpression = some (gotoOf q .booleanExpression) := by decide
  obtain ⟨h1, h2, h3, h4, h5, h6⟩ := hall q hq
  refine ⟨h1, h2, h3, fun relation => h4 relation ?_, h5, h6⟩
  cases relation <;> decide

/-- What the parser does in front of a token that ends an operand of `&&` and `||`. A term in
parentheses goes on as a term. -/
theorem complete_condition {t : Token} (ht : t ∈ ConditionLevel.comparison.follow) :
    (∀ q ∈ ConditionLevel.comparison.states, (q = 8 → t ≠ .rightParen) →
      move parserTables (gotoOf q .term) t = .reduce .booleanTerm) ∧
    ∀ relation : Relation, relation.state ∈ sumStates ∧
      move parserTables (gotoOf relation.state .term) t = .reduce (.comparison relation) := by
  have hall : ∀ t ∈ ConditionLevel.comparison.follow,
      (∀ q ∈ ConditionLevel.comparison.states, (q = 8 → t ≠ .rightParen) →
        move parserTables (gotoOf q .term) t = .reduce .booleanTerm) ∧
      ∀ relation ∈ [Relation.neq, .lt, .lte, .eq, .gte, .gt], relation.state ∈ sumStates ∧
        move parserTables (gotoOf relation.state .term) t = .reduce (.comparison relation) := by
    decide
  refine ⟨(hall t ht).1, fun relation => (hall t ht).2 relation ?_⟩
  cases relation <;> decide

/-- A term in parentheses is a term. -/
def BooleanSyntax.parenthesised : BooleanSyntax → BooleanSyntax
  | .term t => .term (.paren t)
  | b => .paren b

/-- The syntax tree that the parser builds for a reading. -/
def BooleanSyntax.asParsed : BooleanSyntax → BooleanSyntax
  | .term t => .term t
  | .comparison relation l r => .comparison relation l r
  | .paren inner => inner.asParsed.parenthesised
  | .not inner => .not inner.asParsed
  | .and l r => .and l.asParsed r.asParsed
  | .or l r => .or l.asParsed r.asParsed

abbrev expressionFrame (q : Nat) (b : BooleanSyntax) : ParserFrame :=
  ⟨gotoOf q .booleanExpression, .nonterminal .booleanExpression, b⟩

/-- The frame of a condition. A term stays one until the parser has seen what follows. -/
def conditionFrame (q : Nat) : BooleanSyntax → ParserFrame
  | .term t => termFrame q t
  | b => expressionFrame q b

def ReadAsCondition (x : ConditionLevel) (w : List ParserLexeme) (b : BooleanSyntax) : Prop :=
  ∀ q ∈ x.states, ∀ stack, topState stack = q → ∀ rest,
    lookaheadOf actions .endOfInput rest ∈ x.follow → (q = 1 → NoCallMinus w rest) →
      Yyparse ⟨stack, w ++ rest⟩ ⟨conditionFrame q b :: stack, rest⟩

theorem gotoState_expression {q : Nat} (hq : q ∈ ConditionLevel.comparison.states)
    {stack : List ParserFrame} (htop : topState stack = q) :
    gotoState parserTables (topState stack) .booleanExpression =
      some (gotoOf q .booleanExpression) := by
  rw [htop]
  exact (expectsCondition hq).booleanExpression

/-- A condition becomes an operand of `&&` and `||`. -/
theorem becomes_expression {q : Nat} (hq : q ∈ ConditionLevel.comparison.states) {stack : List ParserFrame}
    (htop : topState stack = q) (rest : List ParserLexeme)
    (hrest : lookaheadOf actions .endOfInput rest ∈ ConditionLevel.comparison.follow)
    (hparen : q = 8 → lookaheadOf actions .endOfInput rest ≠ .rightParen) (b : BooleanSyntax) :
    Yyparse ⟨conditionFrame q b :: stack, rest⟩ ⟨expressionFrame q b :: stack, rest⟩ := by
  cases b with
  | term t =>
    have hmove := (complete_condition hrest).1 q hq hparen
    exact reduces .booleanTerm (t, ()) hmove rfl (gotoState_expression hq htop)
  | _ => exact .refl

theorem follow_condition {t : Token} (ht : t ∈ ConditionLevel.comparison.follow) :
    t ∈ TermLevel.sum.follow := by
  have hall : ∀ t ∈ ConditionLevel.comparison.follow, t ∈ TermLevel.sum.follow := by decide
  exact hall t ht

theorem readAs_term {w : List ParserLexeme} {t : TermSyntax} (h : TermReading .sum w t) :
    ReadAsCondition .comparison w (.term t) := by
  intro q hq stack htop rest hrest hcall
  exact readAs_of_termReading h q (expectsCondition hq).sum stack htop rest (follow_condition hrest)
    hcall

theorem readAs_comparison (relation : Relation) {u v : List ParserLexeme} {l r : TermSyntax}
    (hl : TermReading .sum u l) (hr : TermReading .sum v r) :
    ReadAsCondition .comparison (u ++ relation.lexeme :: v) (.comparison relation l r) := by
  intro q hq stack htop rest hrest hcall
  have hexpects := expectsCondition hq
  have htoken : relation.lexeme.token = relation.token := by cases relation <;> rfl
  have hfirst : relation.lexeme.token ∈ TermLevel.sum.follow := by cases relation <;> decide
  have hleft := readAs_of_termReading hl q hexpects.sum stack htop (relation.lexeme :: (v ++ rest))
    hfirst fun h => (hcall h).front
  have hmove : move parserTables (gotoOf q .term) relation.lexeme.token = .shift relation.state := by
    rw [htoken]
    exact hexpects.relation relation
  have hshift := shifts (termFrame q l :: stack) relation.lexeme hmove (v ++ rest)
  obtain ⟨hstate, hcomplete⟩ := (complete_condition hrest).2 relation
  have hright := readAs_of_termReading hr relation.state hstate
    (tokenFrame relation.state relation.lexeme :: termFrame q l :: stack) rfl rest
    (follow_condition hrest) fun h => by cases relation <;> exact nomatch h
  have hgoto : gotoState parserTables (topState stack) .comparison = some 15 := by
    rw [htop]
    exact hexpects.comparison
  have hcomparison : Yyparse ⟨termFrame relation.state r ::
        tokenFrame relation.state relation.lexeme :: termFrame q l :: stack, rest⟩
      ⟨⟨15, .nonterminal .comparison, BooleanSyntax.comparison relation l r⟩ :: stack, rest⟩ := by
    cases relation with
    | neq => exact reduces (.comparison .neq) (l, (), r, ()) hcomplete rfl hgoto
    | lt => exact reduces (.comparison .lt) (l, (), r, ()) hcomplete rfl hgoto
    | lte => exact reduces (.comparison .lte) (l, (), r, ()) hcomplete rfl hgoto
    | eq => exact reduces (.comparison .eq) (l, (), r, ()) hcomplete rfl hgoto
    | gte => exact reduces (.comparison .gte) (l, (), r, ()) hcomplete rfl hgoto
    | gt => exact reduces (.comparison .gt) (l, (), r, ()) hcomplete rfl hgoto
  rw [List.append_assoc]
  refine hleft.trans (hshift.trans (hright.trans (hcomparison.trans ?_)))
  exact reduces .booleanComparison (BooleanSyntax.comparison relation l r, ()) rfl rfl
    (gotoState_expression hq htop)

/-- Behind a term the closing parenthesis is shifted, which makes the parentheses part of the
term. -/
theorem readAs_parenthesised {w : List ParserLexeme} {b : BooleanSyntax}
    (h : ReadAsCondition .or w b) :
    ReadAsCondition .comparison (leftParen :: (w ++ [rightParen])) b.parenthesised := by
  intro q hq stack htop rest hrest _
  have hexpects := expectsCondition hq
  have hopen := shifts stack leftParen (by rw [htop]; exact hexpects.leftParen)
    ((w ++ [rightParen]) ++ rest)
  have hw := h 8 (by decide) (tokenFrame 8 leftParen :: stack) rfl (rightParen :: rest)
    (show Token.rightParen ∈ ConditionLevel.or.follow by decide) fun h => absurd h (by decide)
  rw [List.append_assoc] at hopen
  rw [List.cons_append, List.append_assoc]
  refine hopen.trans (hw.trans ?_)
  have hexpression : ∀ b : BooleanSyntax,
      Yyparse ⟨expressionFrame 8 b :: tokenFrame 8 leftParen :: stack, rightParen :: rest⟩
        ⟨expressionFrame q (.paren b) :: stack, rest⟩ := by
    intro b
    have hclose := shifts (expressionFrame 8 b :: tokenFrame 8 leftParen :: stack) rightParen
      (show move parserTables 25 .rightParen = .shift 42 from rfl) rest
    refine hclose.trans ?_
    exact reduces .booleanParen ((), b, (), ()) rfl rfl (gotoState_expression hq htop)
  cases b with
  | term t =>
    have hclose := shifts (termFrame 8 t :: tokenFrame 8 leftParen :: stack) rightParen
      (show move parserTables 26 .rightParen = .shift 43 from rfl) rest
    refine hclose.trans ?_
    exact reduces .termParen ((), t, (), ()) rfl rfl
      (gotoState_term (termStates_of_sumStates hexpects.sum) htop)
  | _ => exact hexpression _

theorem readAs_not {w : List ParserLexeme} {b : BooleanSyntax} (h : ReadAsCondition .not w b) :
    ReadAsCondition .not (⟨.not, ()⟩ :: w) (.not b) := by
  intro q hq stack htop rest hrest _
  have hshift := shifts stack ⟨.not, ()⟩ (by rw [htop]; exact (expectsCondition hq).not) (w ++ rest)
  have hw := h 7 (by decide) (tokenFrame 7 ⟨.not, ()⟩ :: stack) rfl rest hrest
    fun h => absurd h (by decide)
  have hoperand := becomes_expression (q := 7) (by decide)
    (show topState (tokenFrame 7 ⟨.not, ()⟩ :: stack) = 7 from rfl) rest hrest
    (fun h => absurd h (by decide)) b
  refine hshift.trans (hw.trans (hoperand.trans ?_))
  exact reduces .booleanNot ((), b, ()) rfl rfl (gotoState_expression hq htop)

/-- Two operands of `&&` or of `||`. The operator leads to the state `p` and takes in all that is of
the level `y` behind it. -/
theorem readAs_junction {x y : ConditionLevel} {op : ParserLexeme} {p : Nat}
    (hop : op.token ∈ x.follow ∧ op.token ∈ ConditionLevel.comparison.follow ∧
      op.token ≠ .rightParen)
    (hp : p ∈ y.states ∧ p ∈ ConditionLevel.comparison.states ∧ p ≠ 1 ∧ p ≠ 8)
    (hx : ∀ q ∈ x.states, q ∈ ConditionLevel.comparison.states ∧
      move parserTables (gotoOf q .booleanExpression) op.token = .shift p)
    (hfollow : ∀ t ∈ x.follow, t ∈ y.follow ∧ t ∈ ConditionLevel.comparison.follow)
    {u v : List ParserLexeme} {l r b : BooleanSyntax} (hl : ReadAsCondition x u l)
    (hr : ReadAsCondition y v r)
    (hreduce : ∀ q ∈ ConditionLevel.comparison.states, ∀ stack, topState stack = q → ∀ rest,
      lookaheadOf actions .endOfInput rest ∈ x.follow →
        Yyparse ⟨expressionFrame p r :: tokenFrame p op :: expressionFrame q l :: stack, rest⟩
          ⟨conditionFrame q b :: stack, rest⟩) :
    ReadAsCondition x (u ++ op :: v) b := by
  intro q hq stack htop rest hrest hcall
  obtain ⟨hop1, hop2, hop3⟩ := hop
  obtain ⟨hp1, hp2, hp3, hp4⟩ := hp
  obtain ⟨hq', hmove⟩ := hx q hq
  obtain ⟨hy, hrest'⟩ := hfollow _ hrest
  have hleft := hl q hq stack htop (op :: (v ++ rest)) hop1 fun h => (hcall h).front
  have hfinish := becomes_expression hq' htop (op :: (v ++ rest)) hop2 (fun _ => hop3) l
  have hshift := shifts (expressionFrame q l :: stack) op hmove (v ++ rest)
  have hright := hr p hp1 (tokenFrame p op :: expressionFrame q l :: stack) rfl rest hy
    fun h => absurd h hp3
  have hfinish' := becomes_expression hp2
    (show topState (tokenFrame p op :: expressionFrame q l :: stack) = p from rfl) rest hrest'
    (fun h => absurd h hp4) r
  rw [List.append_assoc]
  exact hleft.trans (hfinish.trans (hshift.trans (hright.trans (hfinish'.trans
    (hreduce q hq' stack htop rest hrest)))))

theorem readAs_and {u v : List ParserLexeme} {l r : BooleanSyntax} (hl : ReadAsCondition .and u l)
    (hr : ReadAsCondition .not v r) : ReadAsCondition .and (u ++ ⟨.and, ()⟩ :: v) (.and l r) := by
  refine readAs_junction (p := 27) (by decide) (by decide) (by decide) (by decide) hl hr ?_
  intro q hq stack htop rest _
  exact reduces .booleanAnd (l, (), r, ()) rfl rfl (gotoState_expression hq htop)

theorem readAs_or {u v : List ParserLexeme} {l r : BooleanSyntax} (hl : ReadAsCondition .or u l)
    (hr : ReadAsCondition .and v r) : ReadAsCondition .or (u ++ ⟨.or, ()⟩ :: v) (.or l r) := by
  refine readAs_junction (p := 28) (by decide) (by decide) (by decide) (by decide) hl hr ?_
  intro q hq stack htop rest hrest
  have hmove : ∀ t ∈ ConditionLevel.or.follow, move parserTables 45 t = .reduce .booleanOr := by
    decide
  exact reduces .booleanOr (l, (), r, ()) (hmove _ hrest) rfl (gotoState_expression hq htop)

theorem readAs_of_conditionReading {x : ConditionLevel} {w : List ParserLexeme} {b : BooleanSyntax}
    (h : ConditionReading x w b) : ReadAsCondition x w b.asParsed := by
  induction h with
  | or hl hr ihl ihr => exact readAs_or ihl ihr
  | ofAnd h ih =>
    have hstates : ∀ q ∈ ConditionLevel.or.states, q ∈ ConditionLevel.and.states := by decide
    have hfollow : ∀ t ∈ ConditionLevel.or.follow, t ∈ ConditionLevel.and.follow := by decide
    exact fun q hq stack htop rest hrest => ih q (hstates q hq) stack htop rest (hfollow _ hrest)
  | and hl hr ihl ihr => exact readAs_and ihl ihr
  | ofNot h ih =>
    have hstates : ∀ q ∈ ConditionLevel.and.states, q ∈ ConditionLevel.not.states := by decide
    exact fun q hq => ih q (hstates q hq)
  | not h ih => exact readAs_not ih
  | ofComparison h ih => exact ih
  | comparison relation hl hr => exact readAs_comparison relation hl hr
  | term h => exact readAs_term h
  | paren h ih => exact readAs_parenthesised ih

end NervesInitramfs
