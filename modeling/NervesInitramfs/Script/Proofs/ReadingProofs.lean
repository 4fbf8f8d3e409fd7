import NervesInitramfs.Script.Reading

/-!
# Proofs: every condition has a reading

The grammar has one rule for each operator and leaves the precedences to the declarations. Whatever
it derives can be read by the precedences: readings are closed under all of its rules.
-/

namespace NervesInitramfs

open CLib

/-! ## Terms -/

def ReadsTerm (x : TermLevel) (w : List ParserLexeme) : Prop := ∃ t, TermReading x w t

theorem ReadsTerm.add {u v : List ParserLexeme} (hu : ReadsTerm .sum u)
    (hv : ReadsTerm .unary v) : ReadsTerm .sum (u ++ ⟨.plus, ()⟩ :: v) := by
  obtain ⟨l, hl⟩ := hu
  obtain ⟨r, hr⟩ := hv
  exact ⟨_, .add hl hr⟩

theorem ReadsTerm.subtract {u v : List ParserLexeme} (hu : ReadsTerm .sum u)
    (hv : ReadsTerm .unary v) : ReadsTerm .sum (u ++ minus :: v) := by
  obtain ⟨l, hl⟩ := hu
  obtain ⟨r, hr⟩ := hv
  exact ⟨_, .subtract hl hr⟩

/-- A sum behind an operator goes on with the sum in front of it. -/
theorem ReadsTerm.join {op : ParserLexeme}
    (hop : ∀ {u v}, ReadsTerm .sum u → ReadsTerm .unary v → ReadsTerm .sum (u ++ op :: v))
    {u v : List ParserLexeme} (hu : ReadsTerm .sum u) (hv : ReadsTerm .sum v) :
    ReadsTerm .sum (u ++ op :: v) := by
  have hsums : ∀ {x v} {t : x.Tree}, TermReading x v t → x = .sum → ReadsTerm .sum (u ++ op :: v) := by
    intro x v t h hx
    induction h with
    | add hl hr ihl ihr =>
      have hsum := (ihl rfl).add ⟨_, hr⟩
      rwa [List.append_assoc] at hsum
    | subtract hl hr ihl ihr =>
      have hsum := (ihl rfl).subtract ⟨_, hr⟩
      rwa [List.append_assoc] at hsum
    | ofUnary h ih => exact hop hu ⟨_, h⟩
    | _ => exact nomatch hx
  obtain ⟨t, ht⟩ := hv
  exact hsums ht rfl

/-- A minus in front of a sum belongs to its first operand. -/
theorem ReadsTerm.neg {w : List ParserLexeme} (hw : ReadsTerm .sum w) :
    ReadsTerm .sum (minus :: w) := by
  have hsums : ∀ {x w} {t : x.Tree}, TermReading x w t → x = .sum → ReadsTerm .sum (minus :: w) := by
    intro x w t h hx
    induction h with
    | add hl hr ihl ihr => exact (ihl rfl).add ⟨_, hr⟩
    | subtract hl hr ihl ihr => exact (ihl rfl).subtract ⟨_, hr⟩
    | ofUnary h ih => exact ⟨_, .ofUnary (.neg h)⟩
    | _ => exact nomatch hx
  obtain ⟨t, ht⟩ := hw
  exact hsums ht rfl

theorem ReadsTerm.ofPrimary {w : List ParserLexeme} (hw : ReadsTerm .primary w) :
    ReadsTerm .sum w := by
  obtain ⟨t, ht⟩ := hw
  exact ⟨t, .ofUnary (.ofPrimary ht)⟩

/-! ## Conditions -/

def ReadsCondition (x : ConditionLevel) (w : List ParserLexeme) : Prop :=
  ∃ b, ConditionReading x w b

theorem ReadsCondition.or {u v : List ParserLexeme} (hu : ReadsCondition .or u)
    (hv : ReadsCondition .and v) : ReadsCondition .or (u ++ ⟨.or, ()⟩ :: v) := by
  obtain ⟨l, hl⟩ := hu
  obtain ⟨r, hr⟩ := hv
  exact ⟨_, .or hl hr⟩

theorem ReadsCondition.and {u v : List ParserLexeme} (hu : ReadsCondition .and u)
    (hv : ReadsCondition .not v) : ReadsCondition .and (u ++ ⟨.and, ()⟩ :: v) := by
  obtain ⟨l, hl⟩ := hu
  obtain ⟨r, hr⟩ := hv
  exact ⟨_, .and hl hr⟩

theorem ReadsCondition.ofAnd {w : List ParserLexeme} (hw : ReadsCondition .and w) :
    ReadsCondition .or w := by
  obtain ⟨b, hb⟩ := hw
  exact ⟨b, .ofAnd hb⟩

theorem ReadsCondition.ofComparison {w : List ParserLexeme}
    (hw : ReadsCondition .comparison w) : ReadsCondition .or w := by
  obtain ⟨b, hb⟩ := hw
  exact ⟨b, .ofAnd (.ofNot (.ofComparison hb))⟩

theorem ReadsCondition.joinOr {u v : List ParserLexeme} (hu : ReadsCondition .or u)
    (hv : ReadsCondition .or v) : ReadsCondition .or (u ++ ⟨.or, ()⟩ :: v) := by
  obtain ⟨b, hb⟩ := hv
  generalize hx : ConditionLevel.or = x at hb
  induction hb with
  | @or v₁ v₂ l r hl hr ihl ihr =>
    have hwhole := (ihl rfl).or ⟨r, hr⟩
    rwa [List.append_assoc] at hwhole
  | @ofAnd v b h ih => exact hu.or ⟨b, h⟩
  | _ => exact nomatch hx

theorem ReadsCondition.joinAnd {u v : List ParserLexeme} (hu : ReadsCondition .and u)
    (hv : ReadsCondition .and v) : ReadsCondition .and (u ++ ⟨.and, ()⟩ :: v) := by
  obtain ⟨b, hb⟩ := hv
  generalize hx : ConditionLevel.and = x at hb
  induction hb with
  | @and v₁ v₂ l r hl hr ihl ihr =>
    have hwhole := (ihl rfl).and ⟨r, hr⟩
    rwa [List.append_assoc] at hwhole
  | @ofNot v b h ih => exact hu.and ⟨b, h⟩
  | _ => exact nomatch hx

/-- What is behind `&&` belongs to the last operand of `||` in front of it. -/
theorem ReadsCondition.orAnd {u v : List ParserLexeme} (hu : ReadsCondition .or u)
    (hv : ReadsCondition .and v) : ReadsCondition .or (u ++ ⟨.and, ()⟩ :: v) := by
  obtain ⟨b, hb⟩ := hu
  cases hb with
  | @or u₁ u₂ l r hl hr =>
    have hwhole := ReadsCondition.or ⟨l, hl⟩ (ReadsCondition.joinAnd ⟨r, hr⟩ hv)
    rwa [List.append_assoc]
  | ofAnd h => exact (ReadsCondition.joinAnd ⟨b, h⟩ hv).ofAnd

/-- And what is in front of `&&` belongs to the first operand of `||` behind it. -/
theorem ReadsCondition.andOr {u v : List ParserLexeme} (hu : ReadsCondition .or u)
    (hv : ReadsCondition .or v) : ReadsCondition .or (u ++ ⟨.and, ()⟩ :: v) := by
  obtain ⟨b, hb⟩ := hv
  generalize hx : ConditionLevel.or = x at hb
  induction hb with
  | @or v₁ v₂ l r hl hr ihl ihr =>
    have hwhole := (ihl rfl).or ⟨r, hr⟩
    rwa [List.append_assoc] at hwhole
  | @ofAnd v b h ih => exact hu.orAnd ⟨b, h⟩
  | _ => exact nomatch hx

/-- A `!` in front of a condition belongs to its first operand. -/
theorem ReadsCondition.not {w : List ParserLexeme} (hw : ReadsCondition .or w) :
    ReadsCondition .or (⟨.not, ()⟩ :: w) := by
  obtain ⟨b, hb⟩ := hw
  have hfirst : ∀ {x w b}, ConditionReading x w b →
      ReadsCondition (match x with | .comparison => .not | x => x) (⟨.not, ()⟩ :: w) := by
    intro x w b h
    induction h with
    | or hl hr ihl ihr => exact ihl.or ⟨_, hr⟩
    | ofAnd h ih => exact ih.ofAnd
    | and hl hr ihl ihr => exact ihl.and ⟨_, hr⟩
    | ofNot h ih =>
      obtain ⟨b, hb⟩ := ih
      exact ⟨b, .ofNot hb⟩
    | not h ih =>
      exact ⟨_, .not (.not h)⟩
    | ofComparison h ih => exact ih
    | comparison relation hl hr => exact ⟨_, .not (.ofComparison (.comparison relation hl hr))⟩
    | term h => exact ⟨_, .not (.ofComparison (.term h))⟩
    | paren h ih => exact ⟨_, .not (.ofComparison (.paren h))⟩
  exact hfirst hb

/-! ## What the grammar derives -/

/-- What is derived from a symbol can be read. -/
def Readable : GrammarSymbol Token Nonterminal → List ParserLexeme → Prop
  | .token t, w => ∃ value, w = [⟨t, value⟩]
  | .nonterminal .term, w => ReadsTerm .sum w
  | .nonterminal .parameters, w => ReadsTerm .parameters w
  | .nonterminal .functionCall, w => ∃ id ps, TermReading .primary w (TermSyntax.functionCall id ps)
  | .nonterminal .comparison, w => ReadsCondition .comparison w
  | .nonterminal .booleanExpression, w => ReadsCondition .or w
  | .nonterminal _, _ => True

theorem readable_of_rule (r : Production) {w : List ParserLexeme} (h : Cut Readable r.rhs w) :
    Readable (.nonterminal r.lhs) w := by
  cases r with
  | termAdd =>
    obtain ⟨u, _, rfl, hu, _, _, rfl, ⟨_, rfl⟩, v, _, rfl, hv, rfl⟩ := h
    rw [List.append_nil]
    exact ReadsTerm.join ReadsTerm.add hu hv
  | termSubtract =>
    obtain ⟨u, _, rfl, hu, _, _, rfl, ⟨_, rfl⟩, v, _, rfl, hv, rfl⟩ := h
    rw [List.append_nil]
    exact ReadsTerm.join ReadsTerm.subtract hu hv
  | termNegate =>
    obtain ⟨_, _, rfl, ⟨_, rfl⟩, v, _, rfl, hv, rfl⟩ := h
    rw [List.append_nil]
    exact ReadsTerm.neg hv
  | termParen =>
    obtain ⟨_, _, rfl, ⟨_, rfl⟩, v, _, rfl, ⟨t, ht⟩, _, _, rfl, ⟨_, rfl⟩, rfl⟩ := h
    exact ReadsTerm.ofPrimary ⟨_, .paren ht⟩
  | termIdentifier =>
    obtain ⟨_, _, rfl, ⟨id, rfl⟩, rfl⟩ := h
    exact ReadsTerm.ofPrimary ⟨_, .identifier id⟩
  | termString =>
    obtain ⟨_, _, rfl, ⟨value, rfl⟩, rfl⟩ := h
    exact ReadsTerm.ofPrimary ⟨_, .string value⟩
  | termNumber =>
    obtain ⟨_, _, rfl, ⟨⟨base, digits⟩, rfl⟩, rfl⟩ := h
    exact ReadsTerm.ofPrimary ⟨_, .number base digits⟩
  | termBoolean =>
    obtain ⟨_, _, rfl, ⟨value, rfl⟩, rfl⟩ := h
    exact ReadsTerm.ofPrimary ⟨_, .boolean value⟩
  | termFunctionCall =>
    obtain ⟨v, _, rfl, ⟨id, ps, hcall⟩, rfl⟩ := h
    rw [List.append_nil]
    exact ReadsTerm.ofPrimary ⟨_, hcall⟩
  | functionCall =>
    obtain ⟨_, _, rfl, ⟨id, rfl⟩, _, _, rfl, ⟨_, rfl⟩, v, _, rfl, ⟨ps, hps⟩, _, _, rfl, ⟨_, rfl⟩,
      rfl⟩ := h
    exact ⟨id, ps, .functionCall id hps⟩
  | noParameters =>
    obtain rfl := h
    exact ⟨_, .noParameters⟩
  | oneParameter =>
    obtain ⟨v, _, rfl, ⟨t, ht⟩, rfl⟩ := h
    rw [List.append_nil]
    exact ⟨_, .oneParameter ht⟩
  | moreParameters =>
    obtain ⟨u, _, rfl, ⟨ps, hps⟩, _, _, rfl, ⟨_, rfl⟩, v, _, rfl, ⟨t, ht⟩, rfl⟩ := h
    rw [List.append_nil]
    exact ⟨_, .moreParameters hps ht⟩
  | comparison relation =>
    obtain ⟨u, _, rfl, ⟨l, hl⟩, _, _, rfl, ⟨value, rfl⟩, v, _, rfl, ⟨t, ht⟩, rfl⟩ := h
    have hlexeme : (⟨relation.token, value⟩ : ParserLexeme) = relation.lexeme := by cases relation <;> rfl
    rw [List.append_nil, hlexeme]
    exact ⟨_, .comparison relation hl ht⟩
  | booleanTerm =>
    obtain ⟨v, _, rfl, ⟨t, ht⟩, rfl⟩ := h
    rw [List.append_nil]
    exact ReadsCondition.ofComparison ⟨_, .term ht⟩
  | booleanParen =>
    obtain ⟨_, _, rfl, ⟨_, rfl⟩, v, _, rfl, ⟨b, hb⟩, _, _, rfl, ⟨_, rfl⟩, rfl⟩ := h
    exact ReadsCondition.ofComparison ⟨_, .paren hb⟩
  | booleanComparison =>
    obtain ⟨v, _, rfl, hv, rfl⟩ := h
    rw [List.append_nil]
    exact ReadsCondition.ofComparison hv
  | booleanNot =>
    obtain ⟨_, _, rfl, ⟨_, rfl⟩, v, _, rfl, hv, rfl⟩ := h
    rw [List.append_nil]
    exact ReadsCondition.not hv
  | booleanAnd =>
    obtain ⟨u, _, rfl, hu, _, _, rfl, ⟨_, rfl⟩, v, _, rfl, hv, rfl⟩ := h
    rw [List.append_nil]
    exact ReadsCondition.andOr hu hv
  | booleanOr =>
    obtain ⟨u, _, rfl, hu, _, _, rfl, ⟨_, rfl⟩, v, _, rfl, hv, rfl⟩ := h
    rw [List.append_nil]
    exact ReadsCondition.joinOr hu hv
  | _ => trivial

theorem readable_of_derives {x : GrammarSymbol Token Nonterminal} {w : List ParserLexeme}
    (h : Derives grammar [x] w) : Readable x w := by
  obtain ⟨u, _, rfl, hu, rfl⟩ := h.cut (fun x => ⟨x.value, rfl⟩) fun r _ => readable_of_rule r
  rw [List.append_nil]
  exact hu

/-- A rule condition, that is what the grammar derives in front of the arrow of a rule. -/
abbrev RuleCondition (w : List ParserLexeme) : Prop :=
  Derives grammar [.nonterminal .booleanExpression] w

/-! ## Readings are derivations -/

theorem derives_single (r : Production) (x : ParserLexeme) (h : r.rhs = [.token x.token]) :
    Derives grammar [.nonterminal r.lhs] [x] := by
  refine .of_rule r ?_
  show Derives grammar r.rhs [x]
  rw [h]
  exact .token x .nil

theorem derives_of_termReading {x : TermLevel} {w : List ParserLexeme} {t : x.Tree}
    (h : TermReading x w t) : Derives grammar [.nonterminal x.nonterminal] w := by
  have hrparen : Derives grammar [.token .rightParen] [rightParen] := .token rightParen .nil
  induction h with
  | add hl hr ihl ihr =>
    exact .of_rule Production.termAdd (ihl.append (.token ⟨.plus, ()⟩ ihr))
  | subtract hl hr ihl ihr =>
    exact .of_rule Production.termSubtract (ihl.append (.token minus ihr))
  | ofUnary h ih => exact ih
  | neg h ih => exact .of_rule Production.termNegate (.token minus ih)
  | ofPrimary h ih => exact ih
  | identifier id => exact derives_single .termIdentifier ⟨.identifier, id⟩ rfl
  | string value => exact derives_single .termString ⟨.string, value⟩ rfl
  | number base digits => exact derives_single .termNumber ⟨.number, (base, digits)⟩ rfl
  | boolean value => exact derives_single .termBoolean ⟨.boolean, value⟩ rfl
  | functionCall id h ih =>
    refine .of_rule Production.termFunctionCall (.of_rule Production.functionCall ?_)
    exact .token ⟨.identifier, id⟩ (.token leftParen (ih.append hrparen))
  | paren h ih => exact .of_rule Production.termParen (.token leftParen (ih.append hrparen))
  | noParameters => exact .of_rule Production.noParameters .nil
  | oneParameter h ih => exact .of_rule Production.oneParameter ih
  | moreParameters hps ht ihps iht =>
    exact .of_rule Production.moreParameters (ihps.append (.token ⟨.comma, ()⟩ iht))

theorem derives_of_call {w : List ParserLexeme} {id : Identifier} {ps : List TermSyntax}
    (h : TermReading .primary w (TermSyntax.functionCall id ps)) :
    Derives grammar [.nonterminal .functionCall] w := by
  cases h with
  | functionCall id h =>
    have hrparen : Derives grammar [.token .rightParen] [rightParen] := .token rightParen .nil
    refine .of_rule Production.functionCall (.token ⟨.identifier, id⟩ (.token leftParen ?_))
    exact (derives_of_termReading h).append hrparen

theorem ruleCondition_of_reading {x : ConditionLevel} {w : List ParserLexeme} {b : BooleanSyntax}
    (h : ConditionReading x w b) : RuleCondition w := by
  induction h with
  | or hl hr ihl ihr =>
    exact .of_rule Production.booleanOr (ihl.append (.token ⟨.or, ()⟩ ihr))
  | and hl hr ihl ihr =>
    exact .of_rule Production.booleanAnd (ihl.append (.token ⟨.and, ()⟩ ihr))
  | not h ih => exact .of_rule Production.booleanNot (.token (⟨.not, ()⟩ : ParserLexeme) ih)
  | ofAnd h ih | ofNot h ih | ofComparison h ih => exact ih
  | comparison relation hl hr =>
    refine .of_rule Production.booleanComparison (.of_rule (Production.comparison relation) ?_)
    have hrest := Derives.token relation.lexeme (derives_of_termReading hr)
    have htoken : relation.lexeme.token = relation.token := by cases relation <;> rfl
    rw [htoken] at hrest
    exact (derives_of_termReading hl).append hrest
  | term h => exact .of_rule Production.booleanTerm (derives_of_termReading h)
  | paren h ih =>
    have hrparen : Derives grammar [.token .rightParen] [rightParen] := .token rightParen .nil
    exact .of_rule Production.booleanParen (.token leftParen (ih.append hrparen))

/-- The rule conditions are what has a reading. -/
theorem ruleCondition_iff {w : List ParserLexeme} :
    RuleCondition w ↔ ∃ b, ConditionReading .or w b := by
  constructor
  · intro h
    exact readable_of_derives h
  · rintro ⟨b, hb⟩
    exact ruleCondition_of_reading hb

end NervesInitramfs
