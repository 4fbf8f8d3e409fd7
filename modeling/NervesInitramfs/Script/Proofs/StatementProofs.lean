import NervesInitramfs.CLib.Proofs.LrProofs
import NervesInitramfs.Script.Proofs.TokenProofs

/-!
# Statements one after the other

The parser comes back to the same state after each statement. What it does at the end of the text it
does as well when another statement begins, unless that goes on where the last one could have ended.
-/

namespace NervesInitramfs

open CLib

/-! ## The tables -/

theorem move_outside {q : Nat} (hq : 65 ≤ q) (t : Token) : move parserTables q t = .error := by
  have hnone : parserTables[q]? = none := List.getElem?_eq_none hq
  simp only [move, hnone]

theorem lt_of_move {q : Nat} {t : Token} (h : move parserTables q t ≠ .error) : q < 65 := by
  by_contra hq
  exact h (move_outside (Nat.le_of_not_lt hq) t)

theorem lt_of_gotoState {q s : Nat} {n : Nonterminal} (h : gotoState parserTables q n = some s) :
    q < 65 := by
  by_contra hq
  have hnone : parserTables[q]? = none := List.getElem?_eq_none (Nat.le_of_not_lt hq)
  simp only [gotoState, hnone] at h
  exact nomatch h

theorem mem_tokens (t : Token) : t ∈ grammar.tokens := by cases t <;> decide

theorem mem_nonterminals (n : Nonterminal) : n ∈ grammar.nonterminals := by cases n <;> decide

/-- A state that the parser does not get out of at the end of the text: there is no way from a
condition or from parameters to a whole statement. -/
def stuckAtEnd : List Nonterminal := [.booleanExpression, .comparison, .parameters]

def stuckStates : List Nat := [14, 15, 24, 25, 39, 44, 45]

/-- The states behind the brace that closes a rule, up to the end of the statement. -/
def closingStates : List Nat := [63, 48, 11, 10, 1]

/-- The states in which an identifier is a term. -/
def identifierStates : List Nat := [3, 20]

/-- Where a statement that could have ended takes in the next token instead. -/
def TakesIn (q : Nat) (r : Production) (t : Token) : Prop :=
  (r = .assignment ∧ t = .minus) ∨ (q ∈ identifierStates ∧ t = .leftParen)

instance (q : Nat) (r : Production) (t : Token) : Decidable (TakesIn q r t) :=
  inferInstanceAs (Decidable (_ ∨ _))

/-- What holds of every reduction at the end of the text: on the first token of a statement the
parser reduces by the same rule, but for an assignment in front of a minus and an identifier in
front of a parenthesis; what is stuck stays stuck; and what the closing brace begins goes on to the
end of the statement. -/
theorem reduction_at_end {q : Nat} {r : Production} (h : move parserTables q .endOfInput = .reduce r) :
    (∀ t ∈ beginnings, r.lhs ∈ stuckAtEnd ∨ move parserTables q t = .reduce r ∨ TakesIn q r t) ∧
    (q ∈ stuckStates → r.lhs ∈ stuckAtEnd) ∧
    (q ∈ closingStates →
      r ≠ .assignment ∧ ∀ p < 65, ∀ s ∈ gotoState parserTables p r.lhs, s ∈ closingStates) := by
  have hall : ∀ q < 65, ∀ r ∈ (move parserTables q .endOfInput).rule,
      (∀ t ∈ beginnings, r.lhs ∈ stuckAtEnd ∨ move parserTables q t = .reduce r ∨ TakesIn q r t) ∧
      (q ∈ stuckStates → r.lhs ∈ stuckAtEnd) ∧
      (q ∈ closingStates →
        r ≠ .assignment ∧ ∀ p < 65, ∀ s ∈ gotoState parserTables p r.lhs, s ∈ closingStates) := by
    set_option synthInstance.maxSize 400 in decide +kernel
  exact hall q (lt_of_move (by rw [h]; nofun)) r (by rw [h]; rfl)

theorem same_reduction {q : Nat} {r : Production} (h : move parserTables q .endOfInput = .reduce r)
    {t : Token} (ht : t ∈ beginnings) :
    r.lhs ∈ stuckAtEnd ∨ move parserTables q t = .reduce r ∨ TakesIn q r t :=
  (reduction_at_end h).1 t ht

theorem stuck_reduction {q : Nat} {r : Production} (hq : q ∈ stuckStates)
    (h : move parserTables q .endOfInput = .reduce r) : r.lhs ∈ stuckAtEnd :=
  (reduction_at_end h).2.1 hq

theorem closing_reduction {q : Nat} {r : Production} (hq : q ∈ closingStates)
    (h : move parserTables q .endOfInput = .reduce r) :
    r ≠ .assignment ∧ ∀ p s, gotoState parserTables p r.lhs = some s → s ∈ closingStates := by
  obtain ⟨hr, hgoto⟩ := (reduction_at_end h).2.2 hq
  exact ⟨hr, fun p s hs => hgoto p (lt_of_gotoState hs) s hs⟩

/-- What holds of every shift. -/
theorem shift_state {q s : Nat} {t : Token} (h : move parserTables q t = .shift s) :
    1 < s ∧ (t = .rightBrace → s ∈ closingStates) ∧ (s ∈ identifierStates → t = .identifier) ∧
      (t = .endOfInput → q = 1) := by
  have hall : ∀ q < 65, ∀ t ∈ grammar.tokens, ∀ s ∈ (move parserTables q t).state,
      1 < s ∧ (t = .rightBrace → s ∈ closingStates) ∧ (s ∈ identifierStates → t = .identifier) ∧
        (t = .endOfInput → q = 1) := by
    set_option synthInstance.maxSize 400 in decide +kernel
  exact hall q (lt_of_move (by rw [h]; nofun)) t (mem_tokens t) s (by rw [h]; rfl)

theorem one_lt_of_shift {q s : Nat} {t : Token} (h : move parserTables q t = .shift s) : 1 < s :=
  (shift_state h).1

theorem closing_of_shift {q s : Nat} (h : move parserTables q .rightBrace = .shift s) :
    s ∈ closingStates :=
  (shift_state h).2.1 rfl

theorem identifier_of_shift {q s : Nat} {t : Token} (h : move parserTables q t = .shift s)
    (hs : s ∈ identifierStates) : t = .identifier :=
  (shift_state h).2.2.1 hs

theorem state_of_end {q s : Nat} (h : move parserTables q .endOfInput = .shift s) : q = 1 :=
  (shift_state h).2.2.2 rfl

/-- Between two statements the parser shifts. -/
theorem move_between {t : Token} (h : move parserTables 1 t ≠ .error) :
    t ∈ beginnings ∨ t = .endOfInput := by
  have hall : ∀ t ∈ grammar.tokens, move parserTables 1 t ≠ .error →
      t ∈ beginnings ∨ t = .endOfInput := by
    decide
  exact hall t (mem_tokens t) h

/-- What holds of every state that the parser goes to after a reduction. -/
theorem goto_state {q s : Nat} {n : Nonterminal} (h : gotoState parserTables q n = some s) :
    0 < s ∧ (s = 1 → q = 0) ∧ s ∉ identifierStates ∧ n ≠ .accept ∧
      (n ∈ stuckAtEnd → s ∈ stuckStates) := by
  have hall : ∀ q < 65, ∀ n ∈ grammar.nonterminals, ∀ s ∈ gotoState parserTables q n,
      0 < s ∧ (s = 1 → q = 0) ∧ s ∉ identifierStates ∧ n ≠ .accept ∧
        (n ∈ stuckAtEnd → s ∈ stuckStates) := by
    set_option synthInstance.maxSize 400 in decide +kernel
  exact hall q (lt_of_gotoState h) n (mem_nonterminals n) s h

theorem stuck_goto {q s : Nat} {n : Nonterminal} (hn : n ∈ stuckAtEnd)
    (h : gotoState parserTables q n = some s) : s ∈ stuckStates :=
  (goto_state h).2.2.2.2 hn

/-! ## The stack between two statements -/

/-- The stack when some statements have been read. -/
def baseStack (ss : List StatementSyntax) : List ParserFrame := [⟨1, .nonterminal .statements, ss⟩]

/-- The rounds of `yyparse` that go on. -/
abbrev Yyparse : Config SemanticValue → Config SemanticValue → Prop :=
  Parsing actions parserTables .endOfInput

theorem topState_base (σ : List ParserFrame) (ss ss' : List StatementSyntax) :
    topState (σ ++ baseStack ss) = topState (σ ++ baseStack ss') := by
  cases σ <;> rfl

theorem topState_pos {σ : List ParserFrame} (hσ : ∀ f ∈ σ, 1 < f.state)
    (ss : List StatementSyntax) : 0 < topState (σ ++ baseStack ss) := by
  cases σ with
  | nil => exact Nat.one_pos
  | cons f σ => exact Nat.lt_trans Nat.one_pos (hσ f List.mem_cons_self)

/-- A reduction inside a statement leaves what is below the statement alone. -/
theorem reduce_inside {σ : List ParserFrame} {r : Production} (hn : r.rhs.length ≤ σ.length)
    {ss : List StatementSyntax} {st : List ParserFrame} (hσ : ∀ f ∈ σ, 1 < f.state)
    (h : reduce actions parserTables r (σ ++ baseStack ss) = some st) :
    ∃ σ', st = σ' ++ baseStack ss ∧ (∀ f ∈ σ', 1 < f.state) ∧
      ∀ ss', reduce actions parserTables r (σ ++ baseStack ss') = some (σ' ++ baseStack ss') := by
  obtain ⟨args, state, hargs, hstate, rfl⟩ := reduce_some h
  have hdrop : ∀ ss', (σ ++ baseStack ss').drop r.rhs.length =
      σ.drop r.rhs.length ++ baseStack ss' := fun ss' => List.drop_append_of_le_length hn
  have htake : ∀ ss', (σ ++ baseStack ss').take r.rhs.length = σ.take r.rhs.length :=
    fun ss' => List.take_append_of_le_length hn
  have hrest : ∀ f ∈ σ.drop r.rhs.length, 1 < f.state := fun f hf => hσ f (List.mem_of_mem_drop hf)
  have hstate' : gotoState parserTables (topState (σ.drop r.rhs.length ++ baseStack ss)) r.lhs =
      some state := by
    rw [← hdrop ss]
    exact hstate
  refine ⟨⟨state, .nonterminal r.lhs, actions.act r args⟩ :: σ.drop r.rhs.length, ?_, ?_, ?_⟩
  · exact congrArg (_ :: ·) (hdrop ss)
  · refine List.forall_mem_cons.mpr ⟨?_, hrest⟩
    show 1 < state
    obtain ⟨hpos, hone, -⟩ := goto_state hstate'
    have htop := topState_pos hrest ss
    by_contra hle
    have hzero := hone (by omega)
    omega
  · intro ss'
    have hargs' : takeArgs r.rhs ((σ ++ baseStack ss').take r.rhs.length).reverse = some args := by
      rw [htake ss', ← htake ss]
      exact hargs
    have hgoto : gotoState parserTables (topState ((σ ++ baseStack ss').drop r.rhs.length)) r.lhs =
        some state := by
      rw [hdrop ss', topState_base _ ss' ss]
      exact hstate'
    refine (reduce_eq hargs' hgoto).trans ?_
    exact congrArg (fun rest => some (_ :: rest)) (hdrop ss')

/-- A reduction that takes what is below the statement ends the statement. -/
theorem reduce_statement {σ : List ParserFrame} {r : Production} (hn : σ.length < r.rhs.length)
    {ss : List StatementSyntax} {st : List ParserFrame}
    (h : reduce actions parserTables r (σ ++ baseStack ss) = some st) :
    ∃ s, st = baseStack (ss ++ [s]) ∧
      ∀ ss', reduce actions parserTables r (σ ++ baseStack ss') = some (baseStack (ss' ++ [s])) := by
  have hsymbols := symbols_of_reduce h
  have hwhole : (σ ++ baseStack ss).take r.rhs.length = σ ++ baseStack ss := by
    apply List.take_of_length_le
    simp only [List.length_append, baseStack, List.length_singleton]
    exact hn
  have hrhs : r.rhs = .nonterminal .statements :: σ.reverse.map StackFrame.symbol := by
    have htaken : ((σ ++ baseStack ss).take r.rhs.length).reverse.map StackFrame.symbol = r.rhs := hsymbols
    rw [← htaken, hwhole, List.reverse_append, List.map_append]
    rfl
  obtain ⟨args, state, hargs, hstate, rfl⟩ := reduce_some h
  cases r with
  | accept =>
    obtain ⟨-, -, -, hne, -⟩ := goto_state hstate
    exact absurd rfl hne
  | moreStatements =>
    obtain ⟨f, hf, hsymbol⟩ := List.map_eq_singleton_iff.mp (List.cons.inj hrhs).2.symm
    obtain rfl : σ = [f] := by simpa using hf
    obtain ⟨q, x, s⟩ := f
    obtain rfl : x = .nonterminal .statement := hsymbol
    exact ⟨s, (Option.some.inj h).symm, fun ss' => rfl⟩
  | _ => simp [Production.rhs] at hrhs

/-- What the parser does in a statement does not depend on the statements that it has read. -/
theorem step_over {σ : List ParserFrame} {ss : List StatementSyntax} {input : List ParserLexeme}
    {c : Config SemanticValue} (hσ : ∀ f ∈ σ, 1 < f.state)
    (h : parseStep actions parserTables .endOfInput ⟨σ ++ baseStack ss, input⟩ = .more c) :
    ∃ σ' new, c.stack = σ' ++ baseStack (ss ++ new) ∧ (∀ f ∈ σ', 1 < f.state) ∧
      ∀ ss', parseStep actions parserTables .endOfInput ⟨σ ++ baseStack ss', input⟩ =
        .more ⟨σ' ++ baseStack (ss' ++ new), c.input⟩ := by
  rcases parseStep_more h with ⟨x, rest, state, hinput, hmove, rfl⟩ | ⟨r, st, hmove, hreduce, rfl⟩
  · have hinput : input = x :: rest := hinput
    subst hinput
    refine ⟨⟨state, .token x.token, x.value⟩ :: σ, [], ?_, ?_, fun ss' => ?_⟩
    · rw [List.append_nil]
      rfl
    · exact List.forall_mem_cons.mpr ⟨one_lt_of_shift hmove, hσ⟩
    · rw [List.append_nil]
      exact parseStep_shift (by rw [topState_base σ ss' ss]; exact hmove) rest
  · have hsame : ∀ ss', move parserTables (topState (σ ++ baseStack ss'))
        (lookaheadOf actions .endOfInput input) = .reduce r := by
      intro ss'
      rw [topState_base σ ss' ss]
      exact hmove
    by_cases hn : r.rhs.length ≤ σ.length
    · obtain ⟨σ', hst, hσ', hothers⟩ := reduce_inside hn hσ hreduce
      refine ⟨σ', [], ?_, hσ', fun ss' => ?_⟩
      · rw [List.append_nil]
        exact hst
      · rw [List.append_nil]
        exact parseStep_reduce (hsame ss') (hothers ss')
    · obtain ⟨s, hst, hothers⟩ := reduce_statement (Nat.lt_of_not_le hn) hreduce
      refine ⟨[], [s], hst, fun f hf => absurd hf List.not_mem_nil, fun ss' => ?_⟩
      exact parseStep_reduce (hsame ss') (hothers ss')

theorem parsing_over {σ : List ParserFrame} {ss : List StatementSyntax} {input : List ParserLexeme}
    {c : Config SemanticValue} (hσ : ∀ f ∈ σ, 1 < f.state)
    (h : Yyparse ⟨σ ++ baseStack ss, input⟩ c) :
    ∃ σ' new, c.stack = σ' ++ baseStack (ss ++ new) ∧ (∀ f ∈ σ', 1 < f.state) ∧
      ∀ ss', Yyparse ⟨σ ++ baseStack ss', input⟩ ⟨σ' ++ baseStack (ss' ++ new), c.input⟩ := by
  generalize hc : (⟨σ ++ baseStack ss, input⟩ : Config SemanticValue) = c₀ at h
  induction h using Relation.ReflTransGen.head_induction_on generalizing σ ss input with
  | refl =>
    subst hc
    refine ⟨σ, [], by rw [List.append_nil], hσ, fun ss' => ?_⟩
    rw [List.append_nil]
  | @head c₀ c₁ hstep _ ih =>
    subst hc
    obtain ⟨σ₁, new₁, hstack, hσ₁, hsteps⟩ := step_over hσ hstep
    obtain ⟨stack₁, input₁⟩ := c₁
    have hstack : stack₁ = σ₁ ++ baseStack (ss ++ new₁) := hstack
    subst hstack
    obtain ⟨σ₂, new₂, hstack₂, hσ₂, hparsing⟩ := ih hσ₁ rfl
    refine ⟨σ₂, new₁ ++ new₂, by rw [← List.append_assoc]; exact hstack₂, hσ₂, fun ss' => ?_⟩
    rw [← List.append_assoc]
    exact .head (hsteps ss') (hparsing (ss' ++ new₁))

/-! ## One statement -/

theorem parse_start (input : List ParserLexeme) :
    parseStep actions parserTables .endOfInput ⟨[], input⟩ = .more ⟨baseStack [], input⟩ := by
  have hmove : move parserTables 0 (lookaheadOf actions .endOfInput input) = .reduce .noStatements := by
    cases lookaheadOf actions Token.endOfInput input <;> rfl
  exact parseStep_reduce hmove rfl

theorem scriptOf_base (ss : List StatementSyntax) : scriptOf true (baseStack ss) = ⟨ss, none⟩ := by
  show Script.mk (ss ++ []) none = ⟨ss, none⟩
  rw [List.append_nil]

theorem parses_of_yyparse {input : List ParserLexeme} {ss : List StatementSyntax}
    (h : Yyparse ⟨baseStack [], input⟩ ⟨baseStack ss, []⟩) : Parses input ⟨ss, none⟩ := by
  have hend : move parserTables (topState (baseStack ss)) .endOfInput = .shift 9 := by
    show move parserTables 1 .endOfInput = .shift 9
    decide
  have hwhole : Yyparse ⟨[], input⟩ ⟨baseStack ss, []⟩ := .head (parse_start input) h
  obtain ⟨fuel, hfuel⟩ := runParser_of_parsing hwhole hend
  refine ⟨fuel, ?_⟩
  rw [parse, hfuel, Option.map_some, scriptOf_base]

/-- A text that is parsed without an error is read up to the end. -/
theorem yyparse_of_parses {input : List ParserLexeme} {ss : List StatementSyntax}
    (h : Parses input ⟨ss, none⟩) : Yyparse ⟨baseStack [], input⟩ ⟨baseStack ss, []⟩ := by
  obtain ⟨fuel, hfuel⟩ := h
  obtain ⟨⟨accepted, stack⟩, hrun, hscript⟩ := Option.map_eq_some_iff.mp hfuel
  cases accepted with
  | false => exact absurd (congrArg Script.error hscript) (by simp [scriptOf])
  | true =>
    obtain ⟨state, hparsing, hmove⟩ := runParser_accepts hrun
    rcases Relation.ReflTransGen.cases_head hparsing with heq | ⟨c, hstep, hrest⟩
    · obtain ⟨rfl, rfl⟩ := Config.mk.inj heq
      exact nomatch hmove
    · rw [parse_start] at hstep
      obtain rfl := Next.more.inj hstep
      obtain ⟨σ, new, hstack, hσ, -⟩ := parsing_over (fun f hf => absurd hf List.not_mem_nil)
        (show Yyparse ⟨[] ++ baseStack [], input⟩ ⟨stack, []⟩ from hrest)
      have hstack : stack = σ ++ baseStack new := hstack
      subst hstack
      have hone := state_of_end hmove
      cases σ with
      | nil =>
        have hscript : scriptOf true (baseStack new) = ⟨ss, none⟩ := hscript
        rw [scriptOf_base] at hscript
        obtain rfl := (Script.mk.inj hscript).1
        exact hrest
      | cons f σ => exact absurd hone (Nat.ne_of_gt (hσ f List.mem_cons_self))

theorem ne_nil_of_parses {input : List ParserLexeme} {s : StatementSyntax}
    (h : Parses input ⟨[s], none⟩) : input ≠ [] := by
  rintro rfl
  rcases Relation.ReflTransGen.cases_head (yyparse_of_parses h) with heq | ⟨c, hstep, -⟩
  · exact nomatch (Config.mk.inj heq).1
  · have haccepted : parseStep actions parserTables .endOfInput ⟨baseStack [], []⟩ = .accepted := rfl
    rw [haccepted] at hstep
    exact nomatch hstep

/-- A statement begins with a token that the parser shifts between two statements. -/
theorem firstToken_of_parses {input : List ParserLexeme} {s : StatementSyntax}
    (h : Parses input ⟨[s], none⟩) :
    ∃ t, firstToken input = some t ∧ (t ∈ beginnings ∨ t = .endOfInput) := by
  cases input with
  | nil => exact absurd rfl (ne_nil_of_parses h)
  | cons x rest =>
    refine ⟨x.token, rfl, move_between fun herror => ?_⟩
    rcases Relation.ReflTransGen.cases_head (yyparse_of_parses h) with heq | ⟨c, hstep, -⟩
    · exact nomatch (Config.mk.inj heq).2
    · have hmove : move parserTables (topState (baseStack []))
          (lookaheadOf actions .endOfInput (x :: rest)) = .error := herror
      simp only [parseStep, hmove] at hstep
      cases hstep

/-! ## Two statements -/

/-- What keeps the parser from taking a token into the statement that it has on its stack. -/
def Ends (t : Token) (stack : List ParserFrame) : Prop :=
  (t = .minus → (∀ f ∈ stack, f.symbol ≠ .token .assign) ∨ topState stack ∈ closingStates) ∧
    (t = .leftParen → topState stack ∉ identifierStates)

theorem not_stuck {stack : List ParserFrame} {ss : List StatementSyntax}
    (h : Yyparse ⟨stack, []⟩ ⟨baseStack ss, []⟩) : topState stack ∉ stuckStates := by
  generalize hc : (⟨stack, []⟩ : Config SemanticValue) = c at h
  induction h using Relation.ReflTransGen.head_induction_on generalizing stack with
  | refl =>
    obtain ⟨rfl, -⟩ := Config.mk.inj hc
    show 1 ∉ stuckStates
    decide
  | head hstep _ ih =>
    subst hc
    intro hstuck
    rcases parseStep_more hstep with ⟨x, rest, state, hinput, -⟩ | ⟨r, st, hmove, hreduce, rfl⟩
    · exact nomatch hinput
    · obtain ⟨args, state, -, hstate, rfl⟩ := reduce_some hreduce
      exact ih rfl (stuck_goto (stuck_reduction hstuck hmove) hstate)

/-- A reduction at the end of a statement is made on the first token of the next one as well. -/
theorem ends_reduction {t : Token} (ht : t ∈ beginnings ∨ t = .endOfInput) {stack st : List ParserFrame}
    {r : Production} {ss : List StatementSyntax} (hends : Ends t stack)
    (hmove : move parserTables (topState stack) .endOfInput = .reduce r)
    (hreduce : reduce actions parserTables r stack = some st)
    (hrest : Yyparse ⟨st, []⟩ ⟨baseStack ss, []⟩) :
    move parserTables (topState stack) t = .reduce r ∧ Ends t st := by
  have hsymbols := symbols_of_reduce hreduce
  obtain ⟨args, state, -, hstate, rfl⟩ := reduce_some hreduce
  have hlhs : r.lhs ∉ stuckAtEnd := fun hstuck => not_stuck hrest (stuck_goto hstuck hstate)
  refine ⟨?_, fun hminus => ?_, fun _ => (goto_state hstate).2.2.1⟩
  · rcases ht with ht | rfl
    · rcases same_reduction hmove ht with hstuck | hsame | ⟨rfl, hminus⟩ | ⟨hid, hparen⟩
      · exact absurd hstuck hlhs
      · exact hsame
      · rcases hends.1 hminus with hassign | hclosing
        · have hmem : .token .assign ∈ grammar.rhs .assignment := by decide
          rw [← hsymbols] at hmem
          obtain ⟨f, hf, hsymbol⟩ := List.mem_map.mp hmem
          exact absurd hsymbol (hassign f (List.mem_of_mem_take (List.mem_reverse.mp hf)))
        · exact absurd rfl (closing_reduction hclosing hmove).1
      · exact absurd hid (hends.2 hparen)
    · exact hmove
  · rcases hends.1 hminus with hassign | hclosing
    · refine .inl (List.forall_mem_cons.mpr ⟨nofun, fun f hf => ?_⟩)
      exact hassign f (List.mem_of_mem_drop hf)
    · exact .inr ((closing_reduction hclosing hmove).2 _ _ hstate)

/-- The parser reads a statement up to its end when a statement follows that it does not absorb. -/
theorem yyparse_statement {input next : List ParserLexeme} {s : StatementSyntax} {t : Token}
    (h : Parses input ⟨[s], none⟩) (ht : t ∈ beginnings ∨ t = .endOfInput)
    (hnext : lookaheadOf actions .endOfInput next = t)
    (hminus : t = .minus → .assign ∈ input.map Lexeme.token → lastToken input = some .rightBrace)
    (hparen : t = .leftParen → lastToken input ≠ some .identifier) (ss : List StatementSyntax) :
    Yyparse ⟨baseStack ss, input ++ next⟩ ⟨baseStack (ss ++ [s]), next⟩ := by
  obtain ⟨x, state, below, hlast, hshift, hgoes, hreduces⟩ :=
    parsing_split (yyparse_of_parses h) (ne_nil_of_parses h)
  have htoken : lastToken input = some x.token := by rw [lastToken, hlast]; rfl
  have hends : Ends t (⟨state, .token x.token, x.value⟩ :: below) := by
    refine ⟨fun hm => ?_, fun hp hid => ?_⟩
    · by_cases hassign : .assign ∈ input.map Lexeme.token
      · have hbrace := hminus hm hassign
        rw [htoken] at hbrace
        rw [Option.some.inj hbrace] at hshift
        exact .inr (closing_of_shift hshift)
      · refine .inl (tokens_of_parsing (hgoes []) ?_ ?_)
        · exact List.forall_mem_cons.mpr ⟨nofun, fun f hf => absurd hf List.not_mem_nil⟩
        · rw [List.append_nil]
          intro y hy heq
          exact hassign (List.mem_map.mpr ⟨y, hy, heq⟩)
    · exact hparen hp (htoken.trans (congrArg some (identifier_of_shift hshift hid)))
  have hreads : Yyparse ⟨baseStack [], input ++ next⟩ ⟨baseStack [s], next⟩ := by
    refine (hgoes next).trans (parsing_reduces (fun st r st' hst hmove hreduce hrest => ?_) hreduces
      hends)
    rw [hnext]
    exact ends_reduction ht hst hmove hreduce hrest
  obtain ⟨σ, new, hstack, hσ, hover⟩ := parsing_over (fun f hf => absurd hf List.not_mem_nil)
    (show Yyparse ⟨[] ++ baseStack [], input ++ next⟩ ⟨baseStack [s], next⟩ from hreads)
  cases σ with
  | nil =>
    obtain rfl : [s] = new := by
      have hvalue := (List.cons.inj hstack).1
      exact eq_of_heq (StackFrame.mk.inj hvalue).2.2
    exact hover ss
  | cons f σ =>
    have hf : (⟨1, .nonterminal .statements, [s]⟩ : ParserFrame) = f := (List.cons.inj hstack).1
    have hlt := hσ f List.mem_cons_self
    rw [← hf] at hlt
    exact absurd hlt (Nat.lt_irrefl 1)

/-! ## Many statements -/

theorem yylex_joined (line second : CString × Separator) (rest : List (CString × Separator))
    (hsep : line.2 = .semicolon → modeAfter line.1.bytes = .code) :
    yylex (joined (line :: second :: rest)) = yylex line.1.bytes ++ yylex (joined (second :: rest)) := by
  obtain ⟨text, sep⟩ := line
  cases sep with
  | newline => exact yylex_newline text.bytes (joined (second :: rest))
  | semicolon => exact yylex_semicolon (hsep rfl) (joined (second :: rest))

theorem firstToken_joined {line : CString × Separator} {t : Token}
    (h : firstToken (yylex line.1.bytes) = some t) {rest : List (CString × Separator)}
    (hapart : StatementsApart (line :: rest)) : firstToken (yylex (joined (line :: rest))) = some t := by
  cases rest with
  | nil => exact h
  | cons second rest =>
    rw [yylex_joined line second rest hapart.2.1, firstToken]
    cases hlex : yylex line.1.bytes with
    | nil =>
      rw [hlex] at h
      exact nomatch h
    | cons x others =>
      rw [hlex] at h
      exact h

/-- Statements that are apart are parsed as what each of them is alone. -/
theorem parses_joined {lines : List (CString × Separator)} {ss : List StatementSyntax}
    (halone : List.Forall₂ (fun line s => Parses (yylex line.1.bytes) ⟨[s], none⟩) lines ss)
    (hapart : StatementsApart lines) : Parses (yylex (joined lines)) ⟨ss, none⟩ := by
  have hgoes : ∀ done, Yyparse ⟨baseStack done, yylex (joined lines)⟩ ⟨baseStack (done ++ ss), []⟩ := by
    induction halone with
    | nil =>
      intro done
      rw [List.append_nil]
      exact .refl
    | @cons line s rest others hs hrest ih =>
      intro done
      cases hrest with
      | nil =>
        have hread := yyparse_statement hs (.inr rfl) (show lookaheadOf actions .endOfInput [] = _ from rfl)
          nofun nofun done
        rw [List.append_nil] at hread
        exact hread
      | @cons second s' rest others hs' hothers =>
        obtain ⟨habsorbs, hsep, hapart'⟩ := hapart
        obtain ⟨t, hfirst, ht⟩ := firstToken_of_parses hs'
        have hnext : lookaheadOf actions .endOfInput (yylex (joined (second :: rest))) = t := by
          have hjoined := firstToken_joined hfirst hapart'
          rw [firstToken] at hjoined
          rw [lookaheadOf, hjoined]
          rfl
        have hread := yyparse_statement hs ht hnext (fun hm hassign => ?_) (fun hp hid => ?_) done
        · rw [yylex_joined line second rest hsep]
          have hmore := ih hapart' (done ++ [s])
          rw [List.append_assoc] at hmore
          exact hread.trans hmore
        · by_contra hbrace
          exact habsorbs (.inl ⟨by rw [hfirst, hm], hassign, hbrace⟩)
        · exact habsorbs (.inr ⟨by rw [hfirst, hp], hid⟩)
  exact parses_of_yyparse (hgoes [])

end NervesInitramfs
