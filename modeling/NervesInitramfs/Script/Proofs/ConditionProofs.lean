import NervesInitramfs.Script.Proofs.PrecedenceProofs
import NervesInitramfs.Script.Proofs.RuleProofs

/-!
# Proofs: what a condition says

The parser builds the terms of a condition and leaves most of them to be evaluated when a comparison
needs them. Where evaluating changes nothing, that gives the value of the reading all the same.
-/

namespace NervesInitramfs

open CLib

/-! ## Computations that change nothing -/

/-- The state is `s` but for the log. -/
def Undisturbed (s s' : State) : Prop := ∃ log, s' = { s with log := log }

/-- The computation returns `a` and changes nothing. -/
def Returns {α : Type} (s : State) (m : Interp α) (a : α) : Prop :=
  ∀ s1, Undisturbed s s1 → ∃ s2, m s1 = .ok a s2 ∧ Undisturbed s s2

/-- It does so, or what it does is undefined where there is nothing to return. -/
def Computes {α : Type} (s : State) (m : Interp α) : Option α → Prop
  | some a => Returns s m a
  | none => ∀ s1, Undisturbed s s1 → ∃ s2, m s1 = .error .undefined s2

section

variable {α β : Type} {s : State} {m : Interp α} {f : α → Interp β}

theorem returns_pure (s : State) (a : α) : Returns s (pure a) a := fun s1 h1 => ⟨s1, rfl, h1⟩

theorem Returns.bind {a : α} {b : β} (hm : Returns s m a) (hf : Returns s (f a) b) :
    Returns s (m >>= f) b := by
  intro s1 h1
  obtain ⟨s2, hs2, h2⟩ := hm s1 h1
  obtain ⟨s3, hs3, h3⟩ := hf s2 h2
  refine ⟨s3, ?_, h3⟩
  rw [bind_of_ok hs2]
  exact hs3

theorem Returns.computes {a : α} {o : Option β} (hm : Returns s m a) (hf : Computes s (f a) o) :
    Computes s (m >>= f) o := by
  cases o with
  | some b => exact hm.bind hf
  | none =>
    intro s1 h1
    obtain ⟨s2, hs2, h2⟩ := hm s1 h1
    obtain ⟨s3, hs3⟩ := hf s2 h2
    refine ⟨s3, ?_⟩
    rw [bind_of_ok hs2]
    exact hs3

theorem Computes.bind {o : Option α} {g : α → Option β} (hm : Computes s m o)
    (hf : ∀ a, Computes s (f a) (g a)) : Computes s (m >>= f) (o.bind g) := by
  cases o with
  | some a => exact Returns.computes hm (hf a)
  | none =>
    intro s1 h1
    obtain ⟨s2, hs2⟩ := hm s1 h1
    refine ⟨s2, ?_⟩
    show EStateM.bind m f s1 = _
    rw [EStateM.bind, hs2]

end

/-! ## Terms that have a value -/

/-- From some depth on the term resolves to the literal `v`, and that changes nothing. -/
def Gives (machine : Machine) (s : State) (t v : Term) : Prop :=
  v.isLiteral ∧ ∃ N, ∀ depth ≥ N, Returns s (termResolve machine depth (some t)) (some v)

/-- Every variable holds a value. -/
def Assigned (s : State) : Prop := ∀ v ∈ s.vars, ∃ t, v.value = some t ∧ t.isLiteral

/-- A call with `n` parameters changes nothing, and returns what `call` says of their values. -/
def SideEffectFree (machine : Machine) (s : State) (call : Identifier → List Term → Term)
    (id : Identifier) (n : Nat) : Prop :=
  ∃ handler, lookupFunction id.name n = some handler ∧
    ∀ ts vs, ts.length = n → List.Forall₂ (Gives machine s) ts vs →
      Gives machine s (.function handler ts) (call id vs)

section

variable {machine : Machine} {s : State}

theorem gives_literal (machine : Machine) (s : State) {t : Term} (h : t.isLiteral) :
    Gives machine s t t := by
  refine ⟨h, 1, fun depth hdepth s1 h1 => ⟨s1, ?_, h1⟩⟩
  obtain ⟨depth, rfl⟩ : ∃ d, depth = d + 1 := ⟨depth - 1, by omega⟩
  exact termResolve_literal machine depth h s1

/-- A computation on what the term resolves to. -/
theorem Gives.returns {α : Type} {t v : Term} {f : Option Term → Interp α} {a : α}
    (h : Gives machine s t v) (hf : f (some v) = pure a) :
    ∃ N, ∀ depth ≥ N, Returns s (termResolve machine depth (some t) >>= f) a := by
  obtain ⟨-, N, hN⟩ := h
  refine ⟨N, fun depth hdepth => (hN depth hdepth).bind ?_⟩
  rw [hf]
  exact returns_pure s a

theorem Gives.toNumber {t v : Term} (h : Gives machine s t v) :
    ∃ N, ∀ depth ≥ N, Returns s (termToNumber (termResolve machine depth) (some t)) v.asNumber := by
  refine h.returns ?_
  cases v with
  | string value | number value | boolean value => rfl
  | identifier _ | function _ _ => exact absurd h.1 Bool.false_ne_true

theorem Gives.toBoolean {t v : Term} (h : Gives machine s t v) :
    ∃ N, ∀ depth ≥ N, Returns s (termToBoolean (termResolve machine depth) (some t)) v.asBoolean := by
  refine h.returns ?_
  cases v with
  | string value | number value | boolean value => rfl
  | identifier _ | function _ _ => exact absurd h.1 Bool.false_ne_true

theorem Gives.toString {t v : Term} (h : Gives machine s t v) :
    ∃ N, ∀ depth ≥ N, ∀ n,
      Returns s (termToString (termResolve machine depth) (n + 1) (some t)) v.asString := by
  obtain ⟨hlit, N, hN⟩ := h
  refine ⟨N, fun depth hdepth n => (hN depth hdepth).bind ?_⟩
  cases v with
  | string value | number value | boolean value => exact returns_pure s _
  | identifier _ | function _ _ => exact absurd hlit Bool.false_ne_true

/-- An operator on terms that have values. -/
theorem gives_operator {handler : Builtin} {op : Int32 → Int32 → Int32}
    (ha : Arithmetic machine handler op) {l r a b : Term} (hl : Gives machine s l a)
    (hr : Gives machine s r b) :
    Gives machine s (.function handler [l, r]) (.number (op a.asNumber b.asNumber)) := by
  obtain ⟨N, hN⟩ := hl.toNumber
  obtain ⟨M, hM⟩ := hr.toNumber
  refine ⟨rfl, max N M + 1, fun depth hdepth s1 h1 => ?_⟩
  obtain ⟨depth, rfl⟩ : ∃ d, depth = d + 1 := ⟨depth - 1, by omega⟩
  rw [ha.resolve]
  refine (hN depth (by omega)).bind ((hM depth (by omega)).bind ?_) s1 h1
  exact returns_pure s _

theorem gives_identifier (machine : Machine) (hs : Assigned s) (name : CString) :
    ∃ v, outcome s (getVariable name) = some (some v) ∧
      Gives machine s (.identifier name) v := by
  obtain ⟨v, hstore, hlit⟩ : ∃ v : Term,
      (store s.vars name).getD (some (.string (.ofString ""))) = some v ∧ v.isLiteral := by
    cases hv : store s.vars name with
    | none => exact ⟨_, rfl, rfl⟩
    | some value =>
      obtain ⟨entry, hentry, -, rfl⟩ := mem_of_store hv
      exact hs entry hentry
  have hget : ∀ s1, Undisturbed s s1 → getVariable name s1 = .ok (some v) s1 := by
    rintro s1 ⟨log, rfl⟩
    rw [getVariable_eq, hstore]
  refine ⟨v, ?_, hlit, 2, fun depth hdepth s1 h1 => ⟨s1, ?_, h1⟩⟩
  · rw [outcome, hget s ⟨s.log, rfl⟩]
  · obtain ⟨depth, rfl⟩ : ∃ d, depth = d + 2 := ⟨depth - 2, by omega⟩
    exact (bind_of_ok (hget s1 h1)).trans (termResolve_literal machine depth hlit s1)

end

/-! ## Building terms -/

section

variable {machine : Machine} {s : State} {call : Identifier → List Term → Term}

/-- The parser builds a term that gives the value of what it has read. -/
def BuildsValue (machine : Machine) (s : State) (call : Identifier → List Term → Term)
    (syn : TermSyntax) : Prop :=
  ∃ t v N, syn.value machine s call = some v ∧ Gives machine s t v ∧
    ∀ depth ≥ N, Returns s (buildTerm machine depth syn) t

theorem outcome_operator {handler : Builtin} {op : Int32 → Int32 → Int32}
    (ha : Arithmetic machine handler op) {a b : Term} (hla : a.isLiteral) (hlb : b.isLiteral) :
    outcome s (handler.run machine pure 0 [a, b]) = some (some (.number (op a.asNumber b.asNumber))) := by
  have hvalue : ∀ {v : Term}, v.isLiteral → ∀ s, termToNumber pure (some v) s = .ok v.asNumber s :=
    fun h s => termToNumber_literal h rfl
  rw [ha.run, outcome, bind_of_ok (hvalue hla s), bind_of_ok (hvalue hlb s)]
  rfl

/-- Adding and subtracting differ in what `op` does only. -/
theorem buildsValue_operator {handler : Builtin} {op : Int32 → Int32 → Int32}
    (ha : Arithmetic machine handler op) {left right syn : TermSyntax}
    (hvalue : syn.value machine s call = (left.value machine s call).bind fun l =>
      (right.value machine s call).bind fun r => (outcome s (handler.run machine pure 0 [l, r])).join)
    (hbuild : ∀ depth, buildTerm machine depth syn = do
      let l ← buildTerm machine depth left
      let r ← buildTerm machine depth right
      pure (.function handler [l, r]))
    (hl : BuildsValue machine s call left) (hr : BuildsValue machine s call right) :
    BuildsValue machine s call syn := by
  obtain ⟨l, a, N, hla, hgl, hbl⟩ := hl
  obtain ⟨r, b, M, hrb, hgr, hbr⟩ := hr
  refine ⟨.function handler [l, r], .number (op a.asNumber b.asNumber), max N M, ?_,
    gives_operator ha hgl hgr, fun depth hdepth => ?_⟩
  · rw [hvalue, hla, hrb, Option.bind_some, Option.bind_some, outcome_operator ha hgl.1 hgr.1]
    rfl
  · rw [hbuild]
    exact (hbl depth (by omega)).bind ((hbr depth (by omega)).bind (returns_pure s _))

/-- A minus evaluates its operand while the term is built. -/
theorem buildsValue_neg {operand : TermSyntax} (h : BuildsValue machine s call operand) :
    BuildsValue machine s call (.neg operand) := by
  obtain ⟨t, v, N, hv, hgives, hbuild⟩ := h
  obtain ⟨M, hM⟩ := hgives.toNumber
  have hnumber : outcome s (termToNumber pure (some v)) = some v.asNumber := by
    have hok : termToNumber pure (some v) s = .ok v.asNumber s := termToNumber_literal hgives.1 rfl
    rw [outcome, hok]
  refine ⟨.number (-v.asNumber), .number (-v.asNumber), max N M, ?_,
    gives_literal machine s rfl, fun depth hdepth => ?_⟩
  · show ((operand.value machine s call).bind fun t =>
      (outcome s (termToNumber pure (some t))).bind fun n => some (Term.number (-n))) = _
    rw [hv, Option.bind_some, hnumber, Option.bind_some]
  · unfold buildTerm
    exact (hbuild depth (by omega)).bind ((hM depth (by omega)).bind (returns_pure s _))

mutual

theorem buildsValue (hs : Assigned s) (syn : TermSyntax)
    (hcalls : syn.Calls (SideEffectFree machine s call)) : BuildsValue machine s call syn := by
  match syn with
  | .add left right =>
    refine buildsValue_operator arithmetic_add rfl (fun depth => ?_) (buildsValue hs left hcalls.1)
      (buildsValue hs right hcalls.2)
    rw [buildTerm]
    rfl
  | .subtract left right =>
    refine buildsValue_operator arithmetic_subtract rfl (fun depth => ?_)
      (buildsValue hs left hcalls.1) (buildsValue hs right hcalls.2)
    rw [buildTerm]
    rfl
  | .neg operand => exact buildsValue_neg (buildsValue hs operand hcalls)
  | .paren inner =>
    obtain ⟨t, v, N, hv, hgives, hbuild⟩ := buildsValue hs inner hcalls
    refine ⟨t, v, N, hv, hgives, fun depth hdepth => ?_⟩
    rw [buildTerm]
    exact hbuild depth hdepth
  | .identifier id =>
    obtain ⟨v, hv, hgives⟩ := gives_identifier machine hs id.name
    refine ⟨.identifier id.name, v, 0, ?_, hgives, fun depth _ => ?_⟩
    · rw [TermSyntax.value, hv]
      rfl
    · rw [buildTerm]
      exact returns_pure s _
  | .string value =>
    exact ⟨.string value, _, 0, rfl, gives_literal machine s rfl, fun _ _ => returns_pure s _⟩
  | .number base digits =>
    exact ⟨.number (toInt32 (strtou machine.bits base digits)), _, 0, rfl,
      gives_literal machine s rfl, fun _ _ => returns_pure s _⟩
  | .boolean value =>
    exact ⟨.boolean value, _, 0, rfl, gives_literal machine s rfl, fun _ _ => returns_pure s _⟩
  | .functionCall id parameters =>
    obtain ⟨handler, hlookup, hcall⟩ := hcalls.1
    obtain ⟨ts, vs, N, hvs, hlen, hgives, hbuild⟩ := buildsValues hs parameters hcalls.2
    refine ⟨.function handler ts, call id vs, N, ?_, hcall ts vs hlen hgives, fun depth hdepth => ?_⟩
    · rw [TermSyntax.value, hvs]
      rfl
    · rw [buildTerm]
      refine (hbuild depth hdepth).bind fun s1 h1 => ⟨s1, ?_, h1⟩
      exact buildCall_eq (hlen ▸ hlookup) s1

theorem buildsValues (hs : Assigned s) (syns : List TermSyntax)
    (hcalls : CallsIn (SideEffectFree machine s call) syns) :
    ∃ ts vs N, valuesIn machine s call syns = some vs ∧ ts.length = syns.length ∧
      List.Forall₂ (Gives machine s) ts vs ∧
      ∀ depth ≥ N, Returns s (buildTerms machine depth syns) ts := by
  match syns with
  | [] => exact ⟨[], [], 0, rfl, rfl, .nil, fun _ _ => returns_pure s _⟩
  | syn :: rest =>
    obtain ⟨t, v, N, hv, hgives, hbuild⟩ := buildsValue hs syn hcalls.1
    obtain ⟨ts, vs, M, hvs, hlen, hgivess, hbuilds⟩ := buildsValues hs rest hcalls.2
    refine ⟨t :: ts, v :: vs, max N M, ?_, congrArg (· + 1) hlen, .cons hgives hgivess,
      fun depth hdepth => ?_⟩
    · rw [valuesIn, hv, hvs]
      rfl
    · rw [buildTerms]
      exact (hbuild depth (by omega)).bind ((hbuilds depth (by omega)).bind (returns_pure s _))

end

/-! ## Evaluating conditions -/

/-- `term_compare` resolves both sides, and then compares what it has found. -/
theorem computes_comparison {l r a b : Term} (hl : Gives machine s l a) (hr : Gives machine s r b) :
    ∃ N, ∀ depth ≥ N, Computes s (termCompare machine (termResolve machine depth) (some l) (some r))
      (outcome s (termCompare machine pure (some a) (some b))) := by
  obtain ⟨hla, N, hN⟩ := hl
  obtain ⟨hlb, M, hM⟩ := hr
  refine ⟨max N M, fun depth hdepth => ?_⟩
  refine (hN depth (by omega)).computes ((hM depth (by omega)).computes ?_)
  cases a with
  | identifier _ | function _ _ => exact absurd hla Bool.false_ne_true
  | string _ | number _ | boolean _ =>
    cases b with
    | identifier _ | function _ _ => exact absurd hlb Bool.false_ne_true
    | string _ | number _ | boolean _ =>
      first
      | exact returns_pure s _
      | exact fun s1 _ => ⟨s1, rfl⟩

theorem computes_condition (hs : Assigned s) {b : BooleanSyntax}
    (hcalls : b.Calls (SideEffectFree machine s call)) :
    ∃ N, ∀ depth ≥ N, Computes s (evalBoolean machine depth b) (b.value machine s call) := by
  induction b with
  | term t =>
    obtain ⟨t', v, N, hv, hgives, hbuild⟩ := buildsValue hs t hcalls
    obtain ⟨M, hM⟩ := hgives.toBoolean
    have hboolean : outcome s (termToBoolean pure (some v)) = some v.asBoolean := by
      have hok : termToBoolean pure (some v) s = .ok v.asBoolean s :=
        termToBoolean_literal hgives.1 rfl
      rw [outcome, hok]
    refine ⟨max N M, fun depth hdepth => ?_⟩
    show Computes s _ ((t.value machine s call).bind fun v => outcome s (termToBoolean pure (some v)))
    rw [hv, Option.bind_some, hboolean]
    exact (hbuild depth (by omega)).bind (hM depth (by omega))
  | paren inner ih => exact ih hcalls
  | comparison relation left right =>
    obtain ⟨l, a, N, ha, hgl, hbl⟩ := buildsValue hs left hcalls.1
    obtain ⟨r, b, M, hb, hgr, hbr⟩ := buildsValue hs right hcalls.2
    obtain ⟨K, hK⟩ := computes_comparison hgl hgr
    refine ⟨max N (max M K), fun depth hdepth => ?_⟩
    show Computes s _ ((left.value machine s call).bind fun l =>
      (right.value machine s call).bind fun r =>
        (outcome s (termCompare machine pure (some l) (some r))).bind fun n => some (relation.holds n))
    rw [ha, Option.bind_some, hb, Option.bind_some]
    refine (hbl depth (by omega)).computes ((hbr depth (by omega)).computes ?_)
    exact (hK depth (by omega)).bind fun n => returns_pure s _
  | not inner ih =>
    obtain ⟨N, hN⟩ := ih hcalls
    exact ⟨N, fun depth hdepth => (hN depth hdepth).bind fun b => returns_pure s _⟩
  | and left right ihl ihr | or left right ihl ihr =>
    obtain ⟨N, hN⟩ := ihl hcalls.1
    obtain ⟨M, hM⟩ := ihr hcalls.2
    refine ⟨max N M, fun depth hdepth => ?_⟩
    refine (hN depth (by omega)).bind fun l => (hM depth (by omega)).bind fun r => ?_
    exact returns_pure s _

/-! ## What the parser makes of a reading -/

theorem value_parenthesised (b : BooleanSyntax) :
    b.parenthesised.value machine s call = b.value machine s call := by
  cases b with
  | term t => rfl
  | _ => rfl

theorem value_asParsed (b : BooleanSyntax) :
    b.asParsed.value machine s call = b.value machine s call := by
  induction b with
  | term t => rfl
  | comparison relation l r => rfl
  | paren inner ih => exact (value_parenthesised _).trans ih
  | not inner ih => rw [BooleanSyntax.asParsed, BooleanSyntax.value, BooleanSyntax.value, ih]
  | and l r ihl ihr => rw [BooleanSyntax.asParsed, BooleanSyntax.value, BooleanSyntax.value, ihl, ihr]
  | or l r ihl ihr => rw [BooleanSyntax.asParsed, BooleanSyntax.value, BooleanSyntax.value, ihl, ihr]

theorem calls_asParsed {P : Identifier → Nat → Prop} {b : BooleanSyntax} (h : b.Calls P) :
    b.asParsed.Calls P := by
  induction b with
  | term t => exact h
  | comparison relation l r => exact h
  | paren inner ih =>
    have hinner := ih h
    show inner.asParsed.parenthesised.Calls P
    cases hb : inner.asParsed with
    | _ =>
      rw [hb] at hinner
      exact hinner
  | not inner ih => exact ih h
  | and l r ihl ihr => exact ⟨ihl h.1, ihr h.2⟩
  | or l r ihl ihr => exact ⟨ihl h.1, ihr h.2⟩

end

/-! ## Rule conditions -/

/-- The tokens begin with a call of a function that a minus follows. -/
def BeginsWithCallMinus (w : List ParserLexeme) : Prop :=
  ∃ u x v, w = u ++ x :: v ∧ Derives grammar [.nonterminal .functionCall] u ∧ x.token = .minus

theorem noCallMinus {w rest : List ParserLexeme} (h : ¬ BeginsWithCallMinus w)
    (hrest : lookaheadOf actions .endOfInput rest ≠ .minus) : NoCallMinus w rest := by
  rintro u v id ps rfl hcall hminus
  cases v with
  | nil => exact hrest hminus
  | cons x v => exact h ⟨u, x, v, rfl, derives_of_call hcall, hminus⟩

/-- When the parser has shifted, the token is gone. -/
theorem eq_of_yyparse (stack : List ParserFrame) {stack' : List ParserFrame} {x : ParserLexeme} {rest : List ParserLexeme}
    {s : Nat} (hmove : move parserTables (topState stack) x.token = .shift s)
    (h : Yyparse ⟨stack, x :: rest⟩ ⟨stack', x :: rest⟩) : stack' = stack := by
  rcases Relation.ReflTransGen.cases_head h with heq | ⟨c, hstep, hrest⟩
  · exact (Config.mk.inj heq).1.symm
  · rw [parseStep_shift (a := actions) hmove rest] at hstep
    obtain rfl := Next.more.inj hstep
    have hlength := length_of_parsing hrest
    simp at hlength

/-- In front of an arrow the parser finds one condition only. -/
theorem condition_unique {c : Config SemanticValue} {ss : List StatementSyntax} {x : ParserLexeme}
    {rest : List ParserLexeme} {b b' : BooleanSyntax} (hx : x.token = .arrow)
    (h : Yyparse c ⟨expressionFrame 1 b :: baseStack ss, x :: rest⟩)
    (h' : Yyparse c ⟨expressionFrame 1 b' :: baseStack ss, x :: rest⟩) : b = b' := by
  have hmove : move parserTables 14 x.token = .shift 29 := by
    rw [hx]
    rfl
  have hunique : Relator.RightUnique fun c c' : Config SemanticValue =>
      parseStep actions parserTables .endOfInput c = .more c' := by
    intro c c₁ c₂ h₁ h₂
    exact Next.more.inj (h₁.symm.trans h₂)
  have hframe : ∀ {b b' : BooleanSyntax},
      Yyparse ⟨expressionFrame 1 b :: baseStack ss, x :: rest⟩
        ⟨expressionFrame 1 b' :: baseStack ss, x :: rest⟩ → b' = b := by
    intro b b' h
    have hstack := eq_of_yyparse (expressionFrame 1 b :: baseStack ss) hmove h
    exact eq_of_heq (StackFrame.mk.inj (List.cons.inj hstack).1).2.2
  rcases Relation.ReflTransGen.total_of_right_unique hunique h h' with h | h
  · exact (hframe h).symm
  · exact hframe h

/-- The parser reads every rule condition that does not begin with a call and a minus by the
precedences, and computes the value of the reading. -/
theorem condition_follows_precedences {w : List ParserLexeme} (hw : RuleCondition w)
    (hcall : ¬ BeginsWithCallMinus w) :
    ∃ b, (∀ ss x rest, x.token = .arrow →
        Yyparse ⟨baseStack ss, w ++ x :: rest⟩
          ⟨⟨14, .nonterminal .booleanExpression, b⟩ :: baseStack ss, x :: rest⟩) ∧
      (∃ c, ConditionReading .or w c) ∧
      ∀ c, ConditionReading .or w c → ∀ machine s call, Assigned s →
        c.Calls (SideEffectFree machine s call) →
          ∃ N, ∀ depth ≥ N, Computes s (evalBoolean machine depth b) (c.value machine s call) := by
  have hparses : ∀ c, ConditionReading .or w c → ∀ ss x rest, x.token = .arrow →
      Yyparse ⟨baseStack ss, w ++ x :: rest⟩
        ⟨expressionFrame 1 c.asParsed :: baseStack ss, x :: rest⟩ := by
    intro c hc ss x rest hx
    have hlookahead : lookaheadOf actions .endOfInput (x :: rest) = .arrow := hx
    have hread := readAs_of_conditionReading hc 1 (by decide) (baseStack ss) rfl (x :: rest)
      (by rw [hlookahead]; decide) fun _ => noCallMinus hcall (by rw [hlookahead]; decide)
    refine hread.trans (becomes_expression (q := 1) (by decide) rfl _ (by rw [hlookahead]; decide) ?_ _)
    exact fun h => absurd h (by decide)
  obtain ⟨c, hc⟩ := ruleCondition_iff.mp hw
  refine ⟨c.asParsed, hparses c hc, ⟨c, hc⟩, fun c' hc' machine s call hs hcalls => ?_⟩
  have hsame : c.asParsed = c'.asParsed :=
    condition_unique (x := ⟨.arrow, ()⟩) rfl (hparses c hc [] _ [] rfl)
      (hparses c' hc' [] _ [] rfl)
  rw [hsame, ← value_asParsed c']
  exact computes_condition hs (calls_asParsed hcalls)

/-! ## A condition with a call -/

/-- What `getenv` returns in the state `s` for the values of its parameters. -/
def getenvValue (s : State) (_ : Identifier) (vs : List Term) : Term :=
  .string ((ubootEnvGetenv s.workingUbootEnv (vs.head?.elim (.ofString "") Term.asString)).getD
    (.ofString ""))

theorem sideEffectFree_getenv (machine : Machine) (s : State) {id : Identifier}
    (hid : id.name = .ofString "getenv") : SideEffectFree machine s (getenvValue s) id 1 := by
  refine ⟨.getenv, ?_, fun ts vs hlen hgives => ?_⟩
  · rw [hid]
    decide
  · cases hgives with
    | nil => exact nomatch hlen
    | @cons t v ts vs hgives hrest =>
      cases hrest with
      | cons _ _ => simp at hlen
      | nil =>
        obtain ⟨N, hN⟩ := hgives.toString
        refine ⟨rfl, N + 2, fun depth hdepth => ?_⟩
        obtain ⟨depth, rfl⟩ : ∃ d, depth = d + 2 := ⟨depth - 2, by omega⟩
        have hcall : Returns s (recordCall .getenv) () := by
          rintro s1 ⟨log, rfl⟩
          exact ⟨_, rfl, _, rfl⟩
        have hget : Returns s (functionGetenv (termResolve machine (depth + 1)) (depth + 1) [t])
            (some (getenvValue s id [v])) := by
          intro s1 h1
          obtain ⟨s2, hs2, log, rfl⟩ := hN (depth + 1) (by omega) depth s1 h1
          exact ⟨{ s with log := log }, functionGetenv_eq hs2, log, rfl⟩
        exact hcall.bind hget

/-- `!x - 3 - 1 == -getenv("n") || false` -/
def sampleCondition : List ParserLexeme :=
  [⟨.not, ()⟩, ⟨.identifier, letterX⟩, minus, ⟨.number, (10, text "3")⟩, minus,
    ⟨.number, (10, text "1")⟩, ⟨.eq, ()⟩, minus, ⟨.identifier, .ofString "getenv"⟩, leftParen,
    ⟨.string, .ofString "n"⟩, rightParen, ⟨.or, ()⟩, ⟨.boolean, false⟩]

def sampleTree : BooleanSyntax :=
  .or (.not (.comparison .eq
    (.subtract (.subtract (.identifier letterX) (.number 10 (text "3"))) (.number 10 (text "1")))
    (.neg (.functionCall (.ofString "getenv") [.string (.ofString "n")])))) (.term (.boolean false))

/-- `x` is 4 and nothing else is set. -/
def sampleState : State :=
  { State.boot [] plainWorld with vars := [⟨.ofString "x", some (.number 4)⟩] }

theorem sample_reading : ConditionReading .or sampleCondition sampleTree := by
  have hleft : TermReading .sum _ _ :=
    .subtract (.subtract (.ofUnary (.ofPrimary (.identifier letterX)))
      (.ofPrimary (.number 10 (text "3")))) (.ofPrimary (.number 10 (text "1")))
  have hcall : TermReading .primary _ _ :=
    .functionCall (.ofString "getenv") (.oneParameter (.ofUnary (.ofPrimary (.string (.ofString "n")))))
  have hnot : ConditionReading .not _ _ :=
    .not (.ofComparison (.comparison .eq hleft (.ofUnary (.neg (.ofPrimary hcall)))))
  have hright : ConditionReading .and _ _ :=
    .ofNot (.ofComparison (.term (.ofUnary (.ofPrimary (.boolean false)))))
  exact .or (.ofAnd (.ofNot hnot)) hright

theorem condition_follows_precedences_sample :
    ∃ b, (∀ ss x rest, x.token = .arrow →
        Yyparse ⟨baseStack ss, sampleCondition ++ x :: rest⟩
          ⟨⟨14, .nonterminal .booleanExpression, b⟩ :: baseStack ss, x :: rest⟩) ∧
      ∃ N, ∀ depth ≥ N, Computes sampleState (evalBoolean plainMachine depth b) (some false) := by
  have hstart : ¬ BeginsWithCallMinus sampleCondition := by
    rintro ⟨u, x, v, hw, hu, -⟩
    obtain ⟨id, ps, hcall⟩ : ∃ id ps, TermReading .primary u (TermSyntax.functionCall id ps) :=
      readable_of_derives hu
    cases hcall with
    | functionCall _ _ => exact nomatch (List.cons.inj hw).1
  obtain ⟨b, hb, -, hvalue⟩ := condition_follows_precedences (ruleCondition_iff.mpr ⟨_, sample_reading⟩)
    hstart
  have hassigned : Assigned sampleState := by
    intro v hv
    obtain rfl := List.mem_singleton.mp hv
    exact ⟨_, rfl, rfl⟩
  have hcalls : sampleTree.Calls (SideEffectFree plainMachine sampleState (getenvValue sampleState)) :=
    ⟨⟨⟨⟨trivial, trivial⟩, trivial⟩, sideEffectFree_getenv plainMachine sampleState rfl, trivial,
      trivial⟩, trivial⟩
  obtain ⟨N, hN⟩ := hvalue sampleTree sample_reading plainMachine sampleState _ hassigned hcalls
  have hfalse : sampleTree.value plainMachine sampleState (getenvValue sampleState) = some false := by
    decide
  rw [hfalse] at hN
  exact ⟨b, hb, N, hN⟩

end NervesInitramfs
