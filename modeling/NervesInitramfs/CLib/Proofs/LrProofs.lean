import NervesInitramfs.CLib.LrParser

/-!
# How a parser goes through its input

The parser looks at one token at a time. Up to the last token of a text it therefore does the same
whatever follows, and from there on it only reduces until it has seen the next token.
-/

namespace CLib

variable {T N R : Type} [DecidableEq T] [DecidableEq N] {g : Grammar T N R} {a : Actions g}
  {tables : List (Row T N R)} {endToken : T}

/-! ## One round -/

theorem symbols_of_takeArgs {Value : GrammarSymbol T N → Type} {symbols : List (GrammarSymbol T N)}
    {fs : List (StackFrame Value)} {args : Args Value symbols} (h : takeArgs symbols fs = some args) :
    fs.map StackFrame.symbol = symbols := by
  induction symbols generalizing fs with
  | nil =>
    cases fs with
    | nil => rfl
    | cons f fs => exact nomatch h
  | cons x symbols ih =>
    cases fs with
    | nil => exact nomatch h
    | cons f fs =>
      by_cases hx : f.symbol = x
      · simp only [takeArgs, dif_pos hx] at h
        obtain ⟨rest, hrest, -⟩ := Option.map_eq_some_iff.mp h
        rw [List.map_cons, hx, ih hrest]
      · simp [takeArgs, hx] at h

theorem reduce_some {r : R} {stack stack' : List (StackFrame a.Value)}
    (h : reduce a tables r stack = some stack') :
    ∃ args state, takeArgs (g.rhs r) (stack.take (g.rhs r).length).reverse = some args ∧
      gotoState tables (topState (stack.drop (g.rhs r).length)) (g.lhs r) = some state ∧
      stack' = ⟨state, .nonterminal (g.lhs r), a.act r args⟩ :: stack.drop (g.rhs r).length := by
  simp only [reduce, Option.bind_eq_bind, Option.bind_eq_some_iff, Option.pure_def,
    Option.some.injEq] at h
  obtain ⟨args, hargs, state, hstate, h⟩ := h
  exact ⟨args, state, hargs, hstate, h.symm⟩

theorem reduce_eq {r : R} {stack : List (StackFrame a.Value)} {args : Args a.Value (g.rhs r)} {state : Nat}
    (hargs : takeArgs (g.rhs r) (stack.take (g.rhs r).length).reverse = some args)
    (hstate : gotoState tables (topState (stack.drop (g.rhs r).length)) (g.lhs r) = some state) :
    reduce a tables r stack =
      some (⟨state, .nonterminal (g.lhs r), a.act r args⟩ :: stack.drop (g.rhs r).length) := by
  simp only [reduce, hargs, hstate, Option.bind_eq_bind, Option.bind_some]
  rfl

/-- The frames that a reduction takes are for the symbols of its rule. -/
theorem symbols_of_reduce {r : R} {stack stack' : List (StackFrame a.Value)}
    (h : reduce a tables r stack = some stack') :
    (stack.take (g.rhs r).length).reverse.map StackFrame.symbol = g.rhs r := by
  obtain ⟨args, -, hargs, -⟩ := reduce_some h
  exact symbols_of_takeArgs hargs

/-- A round that goes on is a shift or a reduction. -/
theorem parseStep_more {c c' : Config a.Value} (h : parseStep a tables endToken c = .more c') :
    (∃ x rest state, c.input = x :: rest ∧
      move tables (topState c.stack) x.token = .shift state ∧
      c' = ⟨⟨state, .token x.token, x.value⟩ :: c.stack, rest⟩) ∨
    ∃ r stack, move tables (topState c.stack) (lookaheadOf a endToken c.input) = .reduce r ∧
      reduce a tables r c.stack = some stack ∧ c' = ⟨stack, c.input⟩ := by
  obtain ⟨stack, input⟩ := c
  unfold parseStep at h
  split at h
  · rename_i state hmove
    cases input with
    | nil => exact nomatch h
    | cons x rest => exact .inl ⟨x, rest, state, rfl, hmove, (Next.more.inj h).symm⟩
  · rename_i r hmove
    cases hreduce : reduce a tables r stack with
    | none =>
      rw [hreduce] at h
      exact nomatch h
    | some stack' =>
      rw [hreduce] at h
      exact .inr ⟨r, stack', hmove, hreduce, (Next.more.inj h).symm⟩
  · exact nomatch h

theorem parseStep_shift {stack : List (StackFrame a.Value)} {x : Lexeme a.Value} {state : Nat}
    (h : move tables (topState stack) x.token = .shift state) (rest : List (Lexeme a.Value)) :
    parseStep a tables endToken ⟨stack, x :: rest⟩ =
      .more ⟨⟨state, .token x.token, x.value⟩ :: stack, rest⟩ := by
  have hmove : move tables (topState stack) (lookaheadOf a endToken (x :: rest)) = .shift state := h
  simp only [parseStep, hmove]

theorem parseStep_reduce {stack stack' : List (StackFrame a.Value)} {input : List (Lexeme a.Value)} {r : R}
    (hmove : move tables (topState stack) (lookaheadOf a endToken input) = .reduce r)
    (h : reduce a tables r stack = some stack') :
    parseStep a tables endToken ⟨stack, input⟩ = .more ⟨stack', input⟩ := by
  simp only [parseStep, hmove, h]

/-! ## Texts that go on -/

/-- Up to the last token of a text the parser does the same whatever follows. -/
theorem parsing_split {stack stack' : List (StackFrame a.Value)} {input : List (Lexeme a.Value)}
    (h : Parsing a tables endToken ⟨stack, input⟩ ⟨stack', []⟩) (hne : input ≠ []) :
    ∃ x state below, input.getLast? = some x ∧ move tables (topState below) x.token = .shift state ∧
      (∀ rest, Parsing a tables endToken ⟨stack, input ++ rest⟩
        ⟨⟨state, .token x.token, x.value⟩ :: below, rest⟩) ∧
      Parsing a tables endToken ⟨⟨state, .token x.token, x.value⟩ :: below, []⟩ ⟨stack', []⟩ := by
  generalize hc : (⟨stack, input⟩ : Config a.Value) = c at h
  induction h using Relation.ReflTransGen.head_induction_on generalizing stack input with
  | refl =>
    cases hc
    exact absurd rfl hne
  | head hstep hothers ih =>
    subst hc
    rcases parseStep_more hstep with ⟨x, rest, state, hinput, hmove, rfl⟩ | ⟨r, st, hmove, hreduce, rfl⟩
    · have hinput : input = x :: rest := hinput
      subst hinput
      cases rest with
      | nil => exact ⟨x, state, stack, rfl, hmove, fun rest => .single (parseStep_shift hmove rest),
          hothers⟩
      | cons y rest =>
        obtain ⟨z, state', below, hlast, hshift, hgoes, hends⟩ := ih (List.cons_ne_nil _ _) rfl
        refine ⟨z, state', below, ?_, hshift, fun more => ?_, hends⟩
        · rw [List.getLast?_cons_cons]
          exact hlast
        · exact .head (parseStep_shift hmove _) (hgoes more)
    · obtain ⟨z, state', below, hlast, hshift, hgoes, hends⟩ := ih hne rfl
      refine ⟨z, state', below, hlast, hshift, fun more => ?_, hends⟩
      have hsame : lookaheadOf a endToken (input ++ more) = lookaheadOf a endToken input := by
        cases input with
        | nil => exact absurd rfl hne
        | cons y rest => rfl
      exact .head (parseStep_reduce (by rw [hsame]; exact hmove) hreduce) (hgoes more)

/-- The reductions at the end of a text are made when it goes on as well, where they are made on the
next token too. `good` is what holds of the stack at each of them. -/
theorem parsing_reduces {good : List (StackFrame a.Value) → Prop} {stack stack' : List (StackFrame a.Value)}
    {input : List (Lexeme a.Value)}
    (hgood : ∀ st r st', good st → move tables (topState st) endToken = .reduce r →
      reduce a tables r st = some st' → Parsing a tables endToken ⟨st', []⟩ ⟨stack', []⟩ →
      move tables (topState st) (lookaheadOf a endToken input) = .reduce r ∧ good st')
    (h : Parsing a tables endToken ⟨stack, []⟩ ⟨stack', []⟩) (hstack : good stack) :
    Parsing a tables endToken ⟨stack, input⟩ ⟨stack', input⟩ := by
  generalize hc : (⟨stack, []⟩ : Config a.Value) = c at h
  induction h using Relation.ReflTransGen.head_induction_on generalizing stack with
  | refl =>
    cases hc
    exact .refl
  | head hstep hothers ih =>
    subst hc
    rcases parseStep_more hstep with ⟨x, rest, state, hinput, -⟩ | ⟨r, st, hmove, hreduce, rfl⟩
    · exact nomatch hinput
    · obtain ⟨hnext, hst⟩ := hgood stack r st hstack hmove hreduce hothers
      exact .head (parseStep_reduce hnext hreduce) (ih hst rfl)

/-- The tokens on the stack are tokens of the input. -/
theorem tokens_of_parsing {c c' : Config a.Value} {t : T} (h : Parsing a tables endToken c c')
    (hstack : ∀ f ∈ c.stack, f.symbol ≠ .token t) (hinput : ∀ x ∈ c.input, x.token ≠ t) :
    ∀ f ∈ c'.stack, f.symbol ≠ .token t := by
  induction h using Relation.ReflTransGen.head_induction_on with
  | refl => exact hstack
  | head hstep _ ih =>
    rcases parseStep_more hstep with ⟨x, rest, state, hc, -, rfl⟩ | ⟨r, stack, -, hreduce, rfl⟩
    · rw [hc, List.forall_mem_cons] at hinput
      refine ih (List.forall_mem_cons.mpr ⟨?_, hstack⟩) hinput.2
      intro hx
      exact hinput.1 (GrammarSymbol.token.inj hx)
    · obtain ⟨args, state, -, -, rfl⟩ := reduce_some hreduce
      refine ih (List.forall_mem_cons.mpr ⟨nofun, fun f hf => ?_⟩) hinput
      exact hstack f (List.mem_of_mem_drop hf)

theorem length_of_parsing {c c' : Config a.Value} (h : Parsing a tables endToken c c') :
    c'.input.length ≤ c.input.length := by
  induction h with
  | refl => exact Nat.le_refl _
  | tail _ hstep ih =>
    rcases parseStep_more hstep with ⟨x, rest, state, hinput, -, rfl⟩ | ⟨r, stack, -, -, rfl⟩
    · rw [hinput, List.length_cons] at ih
      exact Nat.le_of_succ_le ih
    · exact ih

/-! ## Results -/

/-- The parser accepts where it has come to a state that shifts the end. -/
theorem runParser_accepts {c : Config a.Value} {fuel : Nat} {stack : List (StackFrame a.Value)}
    (h : runParser a tables endToken fuel c = some (true, stack)) :
    ∃ state, Parsing a tables endToken c ⟨stack, []⟩ ∧
      move tables (topState stack) endToken = .shift state := by
  induction fuel generalizing c with
  | zero => exact nomatch h
  | succ fuel ih =>
    unfold runParser at h
    split at h
    · rename_i c' hstep
      obtain ⟨state, hparsing, hmove⟩ := ih h
      exact ⟨state, .head hstep hparsing, hmove⟩
    · rename_i hstep
      obtain ⟨-, rfl⟩ := Prod.mk.inj (Option.some.inj h)
      obtain ⟨stack, input⟩ := c
      unfold parseStep at hstep
      split at hstep
      · rename_i state hmove
        cases input with
        | nil => exact ⟨state, .refl, hmove⟩
        | cons x rest => exact nomatch hstep
      · split at hstep <;> exact nomatch hstep
      · exact nomatch hstep
    · exact nomatch h

/-- More rounds than are needed change nothing. -/
theorem runParser_unique {c : Config a.Value} {fuel fuel' : Nat} {r r' : Bool × List (StackFrame a.Value)}
    (h : runParser a tables endToken fuel c = some r)
    (h' : runParser a tables endToken fuel' c = some r') : r = r' := by
  induction fuel generalizing c fuel' with
  | zero => exact nomatch h
  | succ fuel ih =>
    cases fuel' with
    | zero => exact nomatch h'
    | succ fuel' =>
      rw [runParser] at h h'
      cases hstep : parseStep a tables endToken c with
      | more c' =>
        rw [hstep] at h h'
        exact ih h h'
      | accepted | failed =>
        rw [hstep] at h h'
        exact Option.some.inj (h.symm.trans h')

theorem runParser_of_parsing {c : Config a.Value} {stack : List (StackFrame a.Value)} {state : Nat}
    (h : Parsing a tables endToken c ⟨stack, []⟩)
    (hmove : move tables (topState stack) endToken = .shift state) :
    ∃ fuel, runParser a tables endToken fuel c = some (true, stack) := by
  induction h using Relation.ReflTransGen.head_induction_on with
  | refl =>
    have haccepted : parseStep a tables endToken ⟨stack, []⟩ = .accepted := by
      have hmove : move tables (topState stack) (lookaheadOf a endToken []) = .shift state := hmove
      simp only [parseStep, hmove]
    exact ⟨1, by simp only [runParser, haccepted]⟩
  | head hstep _ ih =>
    obtain ⟨fuel, hfuel⟩ := ih
    exact ⟨fuel + 1, by simp only [runParser, hstep, hfuel]⟩

end CLib
