import NervesInitramfs.CLib.Proofs.CStringProofs
import NervesInitramfs.Script.Parser
import NervesInitramfs.Script.Proofs.HandlerProofs

/-!
# Proofs: where values come from

Every value that a script gets hold of is a term that the parser built, a term that a variable
holds, or one that a handler handed back. So a class of values that is closed under these contains
whatever resolving a term can lead to.
-/

namespace NervesInitramfs

open CLib

mutual

/-- Every call in a term is as `p` says, of its handler and the number of its parameters. -/
def Term.every (p : Builtin → Nat → Bool) : Term → Bool
  | .identifier _ | .string _ | .number _ | .boolean _ => true
  | .function handler parameters => p handler parameters.length && everyIn p parameters

def everyIn (p : Builtin → Nat → Bool) : List Term → Bool
  | [] => true
  | t :: rest => t.every p && everyIn p rest

end

theorem everyIn_iff {p : Builtin → Nat → Bool} {ts : List Term} :
    everyIn p ts ↔ ∀ t ∈ ts, t.every p := by
  induction ts with
  | nil => simp [everyIn]
  | cons t rest ih => simp [everyIn, ih]

theorem every_function {p : Builtin → Nat → Bool} {handler : Builtin} {ps : List Term} :
    (Term.function handler ps).every p ↔ p handler ps.length ∧ ∀ t ∈ ps, t.every p := by
  simp [Term.every, everyIn_iff]

theorem every_literal {p : Builtin → Nat → Bool} {t : Term} (h : t.isLiteral) : t.every p := by
  cases t <;> simp_all [Term.isLiteral, Term.every]

/-- A class `Ok` of values that evaluation does not leave while `I` holds, with stops in `E`. -/
structure Values (I : State → Prop) (E : Stop → State → Prop) (Ok : Option Term → Prop) : Prop where
  frame : Frame I
  stored : ∀ s, I s → ∀ v ∈ s.vars, Ok v.value
  literal : ∀ t : Term, t.isLiteral → Ok (some t)
  operand : ∀ handler ps, Ok (some (.function handler ps)) → ∀ p, IsOperand handler ps p → Ok p
  notAssign : ∀ ps, ¬ Ok (some (.function .assign ps))
  void : ∀ handler ps, Ok (some (.function handler ps)) → handler.isVoid → Ok none
  null : Ok none → ∀ s, I s → E .nullDereference s
  inspectable : (∀ s, I s → E .nullDereference s) ∨
    ∀ s, I s → ∀ v ∈ s.vars, (v.value.bind inspect).isSome
  ends : ∀ s, I s → ∀ e, e ≠ .nullDereference → E e s

theorem getVariableImpl_mem {vars : List Variable} {name : CString} {v : Variable}
    (h : getVariableImpl vars name = some v) : v ∈ vars := List.mem_of_find?_eq_some h

section

variable {I : State → Prop} {E : Stop → State → Prop} {Ok : Option Term → Prop}
  {resolve : Option Term → Interp (Option Term)}

/-- The property that `resolve` stays within the class. -/
def Resolves (I : State → Prop) (E : Stop → State → Prop) (Ok : Option Term → Prop)
    (resolve : Option Term → Interp (Option Term)) : Prop :=
  ∀ rv, Ok rv → ∀ s, I s → Ensures (resolve rv) s (fun v s' => I s' ∧ Ok v) E

theorem Values.getVariable_ensures (hV : Values I E Ok) {s : State} (h : I s) (name : CString) :
    Ensures (getVariable name) s (fun v s' => I s' ∧ Ok v) E := by
  unfold getVariable
  rw [ensures_bind, ensures_get]
  split
  · rename_i v hv
    exact ⟨h, hV.stored s h v (getVariableImpl_mem hv)⟩
  · exact ⟨h, hV.literal _ rfl⟩

theorem Values.termToString_ensures (hV : Values I E Ok) (hres : Resolves I E Ok resolve)
    {rv : Option Term} (hrv : Ok rv) (depth : Nat) {s : State} (h : I s) :
    Ensures (termToString resolve depth rv) s (fun _ s' => I s') E := by
  induction depth generalizing rv s with
  | zero => exact hV.ends s h _ (by simp)
  | succ depth ih =>
    unfold termToString
    refine (hres rv hrv s h).bind fun v s1 ⟨h1, hv⟩ => ?_
    rcases v with _ | ⟨name | value | value | value | ⟨handler, ps⟩⟩
    · exact hV.null hv s1 h1
    · exact (hV.getVariable_ensures h1 name).bind fun u s2 ⟨h2, hu⟩ => ih hu h2
    · exact h1
    · exact h1
    · exact h1
    · exact h1

theorem Values.termToNumber_ensures (hV : Values I E Ok) (hres : Resolves I E Ok resolve)
    {rv : Option Term} (hrv : Ok rv) {s : State} (h : I s) :
    Ensures (termToNumber resolve rv) s (fun _ s' => I s') E := by
  unfold termToNumber
  refine (hres rv hrv s h).bind fun v s1 ⟨h1, hv⟩ => ?_
  rcases v with _ | ⟨name | value | value | value | ⟨handler, ps⟩⟩
  · exact hV.null hv s1 h1
  all_goals exact h1

theorem Values.termToBoolean_ensures (hV : Values I E Ok) (hres : Resolves I E Ok resolve)
    {rv : Option Term} (hrv : Ok rv) {s : State} (h : I s) :
    Ensures (termToBoolean resolve rv) s (fun _ s' => I s') E := by
  unfold termToBoolean
  refine (hres rv hrv s h).bind fun v s1 ⟨h1, hv⟩ => ?_
  rcases v with _ | ⟨name | value | value | value | ⟨handler, ps⟩⟩
  · exact hV.null hv s1 h1
  all_goals exact h1

theorem Values.termCompare_ensures (hV : Values I E Ok) (machine : Machine)
    (hres : Resolves I E Ok resolve) {left right : Option Term} (hleft : Ok left)
    (hright : Ok right) {s : State} (h : I s) :
    Ensures (termCompare machine resolve left right) s (fun _ s' => I s') E := by
  unfold termCompare
  refine (hres left hleft s h).bind fun l s1 ⟨h1, hl⟩ => ?_
  refine (hres right hright s1 h1).bind fun r s2 ⟨h2, hr⟩ => ?_
  have hnull : r = none → E .nullDereference s2 := by
    rintro rfl
    exact hV.null hr s2 h2
  have hundef := hV.ends s2 h2 .undefined (by simp)
  rcases l with _ | ⟨name | value | value | value | ⟨handler, ps⟩⟩
  · exact hV.null hl s2 h2
  · exact h2
  all_goals
    rcases r with _ | ⟨name' | value' | value' | value' | ⟨handler', ps'⟩⟩
    all_goals first | exact hnull rfl | exact hundef | exact h2

theorem Values.getVariableAsString_ensures (hV : Values I E Ok) (hres : Resolves I E Ok resolve)
    (depth : Nat) (name : CString) {s : State} (h : I s) :
    Ensures (getVariableAsString resolve depth name) s (fun _ s' => I s') E := by
  unfold getVariableAsString
  rw [ensures_bind, ensures_get]
  split
  · rename_i v hv
    exact hV.termToString_ensures hres (hV.stored s h v (getVariableImpl_mem hv)) depth h
  · exact h

theorem Values.getVariableAsNumber_ensures (hV : Values I E Ok) (hres : Resolves I E Ok resolve)
    (name : CString) {s : State} (h : I s) :
    Ensures (getVariableAsNumber resolve name) s (fun _ s' => I s') E := by
  unfold getVariableAsNumber
  rw [ensures_bind, ensures_get]
  split
  · rename_i v hv
    exact hV.termToNumber_ensures hres (hV.stored s h v (getVariableImpl_mem hv)) h
  · exact h

theorem Values.getVariableAsBoolean_ensures (hV : Values I E Ok) (hres : Resolves I E Ok resolve)
    (name : CString) {s : State} (h : I s) :
    Ensures (getVariableAsBoolean resolve name) s (fun _ s' => I s') E := by
  unfold getVariableAsBoolean
  rw [ensures_bind, ensures_get]
  split
  · rename_i v hv
    exact hV.termToBoolean_ensures hres (hV.stored s h v (getVariableImpl_mem hv)) h
  · exact h

theorem Values.operands (hV : Values I E Ok) (hres : Resolves I E Ok resolve) (depth : Nat)
    {handler : Builtin} {ps : List Term} (hps : ∀ p, IsOperand handler ps p → Ok p) :
    Operands I E resolve depth handler ps where
  string p hp _ h := hV.termToString_ensures hres (hps p hp) depth h
  number p hp _ h := hV.termToNumber_ensures hres (hps p hp) h
  stringSetting _ name _ _ h := hV.getVariableAsString_ensures hres depth name h
  numberSetting _ name _ _ h := hV.getVariableAsNumber_ensures hres name h
  few hfew s h := hV.null (hps none hfew) s h
  inspectable _ := hV.inspectable
  ends s h := ⟨hV.ends s h _ (by simp), hV.ends s h _ (by simp)⟩

theorem Values.returned (hV : Values I E Ok) {handler : Builtin} {ps : List Term}
    (hcall : Ok (some (.function handler ps))) {v : Option Term} (hv : Returned handler ps v) :
    Ok v := by
  unfold Returned at hv
  split at hv
  · rename_i hset
    subst hset
    refine hV.operand .setenv ps hcall v ?_
    rw [hv]
    rcases ps with _ | ⟨p, _ | ⟨q, rest⟩⟩ <;> simp [IsOperand, Builtin.needed]
  · split at hv
    · rename_i hvoid
      rw [hv]
      exact hV.void handler ps hcall hvoid
    · obtain ⟨t, rfl, ht⟩ := hv
      exact hV.literal t ht

/-- Running a call whose operands are in the class. -/
theorem Values.run_ensures (hV : Values I E Ok) (hres : Resolves I E Ok resolve) (machine : Machine)
    (depth : Nat) {handler : Builtin} {ps : List Term} (hassign : handler ≠ .assign)
    (hps : ∀ p, IsOperand handler ps p → Ok p) {s : State} (h : I s) :
    Ensures (do recordCall handler; handler.run machine resolve depth ps) s
      (fun v s' => I s' ∧ Returned handler ps v) E :=
  (recordCall_ensures hV.frame h handler).bind fun _ _ h1 =>
    NervesInitramfs.run_ensures hV.frame machine hassign h1 (hV.operands hres depth hps)

theorem Values.termResolve_ensures (hV : Values I E Ok) (machine : Machine) (depth : Nat) :
    Resolves I E Ok (termResolve machine depth) := by
  induction depth with
  | zero =>
    intro rv hrv s h
    exact hV.ends s h _ (by simp)
  | succ depth ih =>
    intro rv hrv s h
    rcases rv with _ | ⟨name | value | value | value | ⟨handler, ps⟩⟩
    · exact hV.null hrv s h
    · exact (hV.getVariable_ensures h name).bind fun u s1 ⟨h1, hu⟩ => ih u hu s1 h1
    · exact ⟨h, hrv⟩
    · exact ⟨h, hrv⟩
    · exact ⟨h, hrv⟩
    · have hassign : handler ≠ .assign := by
        rintro rfl
        exact hV.notAssign ps hrv
      refine (hV.run_ensures ih machine depth hassign (hV.operand handler ps hrv) h).mono ?_ ?_
      · rintro v s1 ⟨h1, hv⟩
        exact ⟨h1, hV.returned hrv hv⟩
      · intro e s1 he
        exact he

end

/-! ## What the parser builds -/

mutual

/-- Every call in a term is as `P` says, of its name and the number of its parameters. -/
def TermSyntax.Calls (P : Identifier → Nat → Prop) : TermSyntax → Prop
  | .add left right | .subtract left right => left.Calls P ∧ right.Calls P
  | .neg t | .paren t => t.Calls P
  | .functionCall id parameters => P id parameters.length ∧ CallsIn P parameters
  | .identifier _ | .string _ | .number _ _ | .boolean _ => True

def CallsIn (P : Identifier → Nat → Prop) : List TermSyntax → Prop
  | [] => True
  | t :: rest => t.Calls P ∧ CallsIn P rest

end

def BooleanSyntax.Calls (P : Identifier → Nat → Prop) : BooleanSyntax → Prop
  | .term t => t.Calls P
  | .paren b | .not b => b.Calls P
  | .comparison _ left right => left.Calls P ∧ right.Calls P
  | .and left right | .or left right => left.Calls P ∧ right.Calls P

/-- The calls in an action are as `P` says, and one that is the action itself as `Q` says. -/
def ActionSyntax.Calls (P Q : Identifier → Nat → Prop) : ActionSyntax → Prop
  | .functionCall id parameters => Q id parameters.length ∧ CallsIn P parameters
  | .assignment _ value => value.Calls P

def StatementSyntax.Calls (P Q : Identifier → Nat → Prop) : StatementSyntax → Prop
  | .rule condition block => condition.Calls P ∧ ∀ a ∈ block, a.Calls P Q
  | .action a => a.Calls P Q

def Fragment.Calls (P Q : Identifier → Nat → Prop) : Fragment → Prop
  | .term t => t.Calls P
  | .boolean b => b.Calls P
  | .action a => a.Calls P Q

def Input.Calls (P Q : Identifier → Nat → Prop) : Input → Prop
  | .start | .printResult => True
  | .statement s => s.Calls P Q
  | .syntaxError parts => ∀ part ∈ parts, part.Calls P Q

/-- The operators are not the names of functions that a script can call. -/
theorem lookupFunction_identifier (id : Identifier) {n : Nat} {handler : Builtin}
    (h : lookupFunction id.name n = some handler) : handler.isOperator = false := by
  have htable : ∀ entry ∈ functionTable, entry.handler.isOperator = false ∨
      entry.name.bytes.any (fun c => !identifierByte c) = true := by decide
  unfold lookupFunction at h
  obtain ⟨entry, hfind, rfl⟩ := Option.map_eq_some_iff.mp h
  have hname : entry.name = id.name := by
    have hmatch := List.find?_some hfind
    simp only [decide_eq_true_eq] at hmatch
    exact strcmp_eq_zero.mp hmatch.1
  rcases htable entry (List.mem_of_find?_eq_some hfind) with hop | hbyte
  · exact hop
  · obtain ⟨c, hc, hnot⟩ := List.any_eq_true.mp hbyte
    rw [hname] at hc
    simp [id.lexical.2 c hc] at hnot

theorem lookupFunction_add : lookupFunction (.ofString "+") 2 = some .add := by decide

theorem lookupFunction_subtract : lookupFunction (.ofString "-") 2 = some .subtract := by decide

theorem lookupFunction_assign : lookupFunction (.ofString "=") 2 = some .assign := by decide

/-- The class `Ok` contains what the parser builds with calls as `P` says. -/
structure Builds (Ok : Option Term → Prop) (P : Identifier → Nat → Prop) : Prop where
  identifier : ∀ name, Ok (some (.identifier name))
  operator : ∀ handler l r, handler.isOperator → handler ≠ .assign → Ok (some l) → Ok (some r) →
    Ok (some (.function handler [l, r]))
  call : ∀ id ps handler, P id ps.length → lookupFunction id.name ps.length = some handler →
    (∀ p ∈ ps, Ok (some p)) → Ok (some (.function handler ps))

section

variable {I : State → Prop} {E : Stop → State → Prop} {Ok : Option Term → Prop}
  {P Q : Identifier → Nat → Prop}

theorem Values.buildCall_ensures (hV : Values I E Ok) {s : State} (h : I s) (name : CString)
    (ps : List Term) : Ensures (buildCall name ps) s
      (fun t s' => I s' ∧ ∃ handler, lookupFunction name ps.length = some handler ∧
        t = .function handler ps) E := by
  unfold buildCall termNewFun
  cases hlookup : lookupFunction name ps.length with
  | none => exact hV.ends s h _ (by simp)
  | some handler => exact ⟨h, handler, rfl, rfl⟩

mutual

theorem Values.buildTerm_ensures (hV : Values I E Ok) (hB : Builds Ok P) (machine : Machine)
    (depth : Nat) (t : TermSyntax) (ht : t.Calls P) (s : State) (h : I s) :
    Ensures (buildTerm machine depth t) s (fun t' s' => I s' ∧ Ok (some t')) E := by
  match t with
  | .add left right =>
    unfold buildTerm
    refine (hV.buildTerm_ensures hB machine depth left ht.1 s h).bind fun l s1 ⟨h1, hl⟩ => ?_
    refine (hV.buildTerm_ensures hB machine depth right ht.2 s1 h1).bind fun r s2 ⟨h2, hr⟩ => ?_
    refine (hV.buildCall_ensures h2 _ _).mono ?_ fun _ _ he => he
    rintro t s3 ⟨h3, handler, hlookup, rfl⟩
    obtain rfl := Option.some.inj (lookupFunction_add.symm.trans hlookup)
    exact ⟨h3, hB.operator _ l r rfl (by decide) hl hr⟩
  | .subtract left right =>
    unfold buildTerm
    refine (hV.buildTerm_ensures hB machine depth left ht.1 s h).bind fun l s1 ⟨h1, hl⟩ => ?_
    refine (hV.buildTerm_ensures hB machine depth right ht.2 s1 h1).bind fun r s2 ⟨h2, hr⟩ => ?_
    refine (hV.buildCall_ensures h2 _ _).mono ?_ fun _ _ he => he
    rintro t s3 ⟨h3, handler, hlookup, rfl⟩
    obtain rfl := Option.some.inj (lookupFunction_subtract.symm.trans hlookup)
    exact ⟨h3, hB.operator _ l r rfl (by decide) hl hr⟩
  | .neg operand =>
    unfold buildTerm
    refine (hV.buildTerm_ensures hB machine depth operand ht s h).bind fun t s1 ⟨h1, ht1⟩ => ?_
    refine (hV.termToNumber_ensures (hV.termResolve_ensures machine depth) ht1 h1).bind ?_
    intro value s2 h2
    exact ⟨h2, hV.literal _ rfl⟩
  | .paren inner =>
    unfold buildTerm
    exact hV.buildTerm_ensures hB machine depth inner ht s h
  | .identifier id => exact ⟨h, hB.identifier id.name⟩
  | .string value => exact ⟨h, hV.literal _ rfl⟩
  | .number base digits => exact ⟨h, hV.literal _ rfl⟩
  | .boolean value => exact ⟨h, hV.literal _ rfl⟩
  | .functionCall id parameters =>
    unfold buildTerm
    refine (hV.buildTerms_ensures hB machine depth parameters ht.2 s h).bind ?_
    rintro ps s1 ⟨h1, hps, hlen⟩
    refine (hV.buildCall_ensures h1 id.name ps).mono ?_ fun _ _ he => he
    rintro t s2 ⟨h2, handler, hlookup, rfl⟩
    exact ⟨h2, hB.call id ps handler (hlen ▸ ht.1) hlookup hps⟩

theorem Values.buildTerms_ensures (hV : Values I E Ok) (hB : Builds Ok P) (machine : Machine)
    (depth : Nat) (ts : List TermSyntax) (hts : CallsIn P ts) (s : State) (h : I s) :
    Ensures (buildTerms machine depth ts) s
      (fun ps s' => I s' ∧ (∀ p ∈ ps, Ok (some p)) ∧ ps.length = ts.length) E := by
  match ts with
  | [] => exact ⟨h, by simp, rfl⟩
  | t :: rest =>
    unfold buildTerms
    refine (hV.buildTerm_ensures hB machine depth t hts.1 s h).bind fun p s1 ⟨h1, hp⟩ => ?_
    refine (hV.buildTerms_ensures hB machine depth rest hts.2 s1 h1).bind ?_
    rintro ps s2 ⟨h2, hps, hlen⟩
    refine ⟨h2, fun q hq => ?_, by simp [hlen]⟩
    rcases List.mem_cons.mp hq with rfl | hq
    · exact hp
    · exact hps q hq

end

theorem Values.evalBoolean_ensures (hV : Values I E Ok) (hB : Builds Ok P) (machine : Machine)
    (depth : Nat) (b : BooleanSyntax) (hb : b.Calls P) {s : State} (h : I s) :
    Ensures (evalBoolean machine depth b) s (fun _ s' => I s') E := by
  have hres := hV.termResolve_ensures machine depth
  induction b generalizing s with
  | term t =>
    unfold evalBoolean
    refine (hV.buildTerm_ensures hB machine depth t hb s h).bind fun t' s1 ⟨h1, ht⟩ => ?_
    exact hV.termToBoolean_ensures hres ht h1
  | paren inner ih =>
    unfold evalBoolean
    exact ih hb h
  | comparison relation left right =>
    unfold evalBoolean
    refine (hV.buildTerm_ensures hB machine depth left hb.1 s h).bind fun l s1 ⟨h1, hl⟩ => ?_
    refine (hV.buildTerm_ensures hB machine depth right hb.2 s1 h1).bind fun r s2 ⟨h2, hr⟩ => ?_
    exact (hV.termCompare_ensures machine hres hl hr h2).bind fun n s3 h3 => h3
  | not inner ih =>
    unfold evalBoolean
    exact (ih hb h).bind fun _ s1 h1 => h1
  | and left right ihl ihr =>
    unfold evalBoolean
    refine (ihl hb.1 h).bind fun l s1 h1 => ?_
    exact (ihr hb.2 h1).bind fun r s2 h2 => h2
  | or left right ihl ihr =>
    unfold evalBoolean
    refine (ihl hb.1 h).bind fun l s1 h1 => ?_
    exact (ihr hb.2 h1).bind fun r s2 h2 => h2

/-! ## Running what was built -/

/-- An action whose parameters are in the class. -/
inductive OkAction (Ok : Option Term → Prop) : Term → Prop
  | call (handler : Builtin) (ps : List Term) (hop : handler.isOperator = false)
      (hps : ∀ p, IsOperand handler ps p → Ok p) : OkAction Ok (.function handler ps)
  | assign (name : CString) (value : Term) (hvalue : Ok (some value)) :
      OkAction Ok (.function .assign [.identifier name, value])

/-- Calls as `Q` says have their operands in the class when all parameters are. -/
def BuildsActions (Ok : Option Term → Prop) (Q : Identifier → Nat → Prop) : Prop :=
  ∀ id ps handler, Q id ps.length → lookupFunction id.name ps.length = some handler →
    (∀ p ∈ ps, Ok (some p)) → ∀ p, IsOperand handler ps p → Ok p

theorem Values.buildAction_ensures (hV : Values I E Ok) (hB : Builds Ok P)
    (hA : BuildsActions Ok Q) (machine : Machine) (depth : Nat) (a : ActionSyntax)
    (ha : a.Calls P Q) {s : State} (h : I s) :
    Ensures (buildAction machine depth a) s (fun t s' => I s' ∧ OkAction Ok t) E := by
  unfold buildAction
  cases a with
  | functionCall id parameters =>
    refine (hV.buildTerms_ensures hB machine depth parameters ha.2 s h).bind ?_
    rintro ps s1 ⟨h1, hps, hlen⟩
    refine (hV.buildCall_ensures h1 id.name ps).mono ?_ fun _ _ he => he
    rintro t s2 ⟨h2, handler, hlookup, rfl⟩
    have hoperand := hA id ps handler (hlen ▸ ha.1) hlookup hps
    exact ⟨h2, .call handler ps (lookupFunction_identifier id hlookup) hoperand⟩
  | assignment id value =>
    refine (hV.buildTerm_ensures hB machine depth value ha s h).bind fun v s1 ⟨h1, hv⟩ => ?_
    refine (hV.buildCall_ensures h1 _ _).mono ?_ fun _ _ he => he
    rintro t s2 ⟨h2, handler, hlookup, rfl⟩
    obtain rfl := Option.some.inj (lookupFunction_assign.symm.trans hlookup)
    exact ⟨h2, .assign id.name v hv⟩

theorem Values.buildActions_ensures (hV : Values I E Ok) (hB : Builds Ok P)
    (hA : BuildsActions Ok Q) (machine : Machine) (depth : Nat) (block : List ActionSyntax)
    (hblock : ∀ a ∈ block, a.Calls P Q) {s : State} (h : I s) :
    Ensures (buildActions machine depth block) s (fun ts s' => I s' ∧ ∀ t ∈ ts, OkAction Ok t) E := by
  induction block generalizing s with
  | nil => exact ⟨h, by simp⟩
  | cons a rest ih =>
    unfold buildActions
    refine (hV.buildAction_ensures hB hA machine depth a (hblock a (by simp)) h).bind ?_
    rintro t s1 ⟨h1, ht⟩
    refine (ih (fun b hb => hblock b (by simp [hb])) h1).bind ?_
    rintro ts s2 ⟨h2, hts⟩
    refine ⟨h2, fun u hu => ?_⟩
    rcases List.mem_cons.mp hu with rfl | hu
    · exact ht
    · exact hts u hu

/-- What a statement hands on: `NULL` or a value of the class. -/
def Result (Ok : Option Term → Prop) (v : Option Term) : Prop := v = none ∨ Ok v

theorem Values.result_of_returned (hV : Values I E Ok) {handler : Builtin} {ps : List Term}
    (hps : ∀ p, IsOperand handler ps p → Ok p) {v : Option Term} (hv : Returned handler ps v) :
    Result Ok v := by
  unfold Returned at hv
  split at hv
  · rename_i hset
    subst hset
    right
    refine hps v ?_
    rw [hv]
    rcases ps with _ | ⟨p, _ | ⟨q, rest⟩⟩ <;> simp [IsOperand, Builtin.needed]
  · split at hv
    · exact Or.inl hv
    · obtain ⟨t, rfl, ht⟩ := hv
      exact Or.inr (hV.literal t ht)

/-- The effect of an assignment, after its right-hand side has been resolved. -/
theorem Values.runAssign_ensures (hV : Values I E Ok) (machine : Machine) (depth : Nat)
    {name : CString} {value : Term} (hvalue : Ok (some value)) {s : State} (h : I s)
    {post : Option Term → State → Prop}
    (hpost : ∀ v s', I s' → Ok v → termResolve machine depth (some value) s = .ok v s' →
      post v (s'.assign name v)) :
    Ensures (runFunction machine depth (.function .assign [.identifier name, value])) s post E := by
  have hres := hV.termResolve_ensures machine depth (some value) hvalue s h
  unfold Ensures at hres ⊢
  cases hv : termResolve machine depth (some value) s with
  | ok v s' =>
    rw [hv] at hres
    have hrun : runFunction machine depth (.function .assign [.identifier name, value]) s
        = .ok v (s'.assign name v) := by
      change (termResolve machine depth (some value) >>= fun v => do
        setVariable name v
        pure v) s = _
      rw [bind_of_ok hv]
      rfl
    rw [hrun]
    exact hpost v s' hres.1 hres.2 hv
  | error e s' =>
    rw [hv] at hres
    have hrun : runFunction machine depth (.function .assign [.identifier name, value]) s
        = .error e s' := by
      change (termResolve machine depth (some value) >>= fun v => do
        setVariable name v
        pure v) s = _
      simp only [bind, EStateM.bind, hv]
    rw [hrun]
    exact hres

theorem Values.runCall_ensures (hV : Values I E Ok) (machine : Machine) (depth : Nat)
    {handler : Builtin} {ps : List Term} (hop : handler.isOperator = false)
    (hps : ∀ p, IsOperand handler ps p → Ok p) {s : State} (h : I s) :
    Ensures (runFunction machine depth (.function handler ps)) s
      (fun v s' => I s' ∧ Result Ok v) E := by
  have hassign : handler ≠ .assign := by
    rintro rfl
    simp [Builtin.isOperator] at hop
  refine (hV.run_ensures (hV.termResolve_ensures machine depth) machine depth hassign hps h).mono
    ?_ fun _ _ he => he
  rintro v s1 ⟨h1, hv⟩
  exact ⟨h1, hV.result_of_returned hps hv⟩

theorem Values.runFunctions_ensures (hV : Values I E Ok)
    (hassign : ∀ s, I s → ∀ name v, Ok v → I (s.assign name v)) (machine : Machine) (depth : Nat)
    (ts : List Term) (hts : ∀ t ∈ ts, OkAction Ok t) {last : Option Term} (hlast : Result Ok last)
    {s : State} (h : I s) :
    Ensures (runFunctions machine depth last ts) s (fun v s' => I s' ∧ Result Ok v) E := by
  induction ts generalizing s last with
  | nil => exact ⟨h, hlast⟩
  | cons t rest ih =>
    have hrun : Ensures (runFunction machine depth t) s (fun v s' => I s' ∧ Result Ok v) E := by
      cases hts t (by simp) with
      | call handler ps hop hps => exact hV.runCall_ensures machine depth hop hps h
      | assign name value hvalue =>
        refine hV.runAssign_ensures machine depth hvalue h fun v s' h' hv _ => ?_
        exact ⟨hassign s' h' name v hv, Or.inr hv⟩
    unfold runFunctions
    exact hrun.bind fun v s1 ⟨h1, hv⟩ => ih (fun u hu => hts u (by simp [hu])) hv h1

theorem Values.evalStatement_ensures (hV : Values I E Ok) (hB : Builds Ok P)
    (hA : BuildsActions Ok Q) (hassign : ∀ s, I s → ∀ name v, Ok v → I (s.assign name v))
    (machine : Machine) (depth : Nat) (st : StatementSyntax) (hst : st.Calls P Q) {s : State}
    (h : I s) :
    Ensures (evalStatement machine depth st) s (fun v s' => I s' ∧ Result Ok v) E := by
  unfold evalStatement
  cases st with
  | rule condition block =>
    refine (hV.evalBoolean_ensures hB machine depth condition hst.1 h).bind fun fires s1 h1 => ?_
    refine (hV.buildActions_ensures hB hA machine depth block hst.2 h1).bind ?_
    rintro ts s2 ⟨h2, hts⟩
    cases fires with
    | false => exact ⟨h2, Or.inl rfl⟩
    | true =>
      rw [ensures_bind, if_pos rfl]
      refine (hV.runFunctions_ensures hassign machine depth ts hts (Or.inl rfl) h2).bind ?_
      rintro v s3 ⟨h3, hv⟩
      exact ⟨h3, Or.inl rfl⟩
  | action a =>
    refine (hV.buildAction_ensures hB hA machine depth a hst h).bind fun t s1 ⟨h1, ht⟩ => ?_
    exact hV.runFunctions_ensures hassign machine depth [t] (by simpa using ht) (Or.inl rfl) h1

theorem Values.evalFragment_ensures (hV : Values I E Ok) (hB : Builds Ok P)
    (hA : BuildsActions Ok Q) (machine : Machine) (depth : Nat) (part : Fragment)
    (hpart : part.Calls P Q) {s : State} (h : I s) :
    Ensures (evalFragment machine depth part) s (fun _ s' => I s') E := by
  unfold evalFragment
  cases part with
  | term t => exact (hV.buildTerm_ensures hB machine depth t hpart s h).bind fun _ s1 h1 => h1.1
  | boolean b => exact (hV.evalBoolean_ensures hB machine depth b hpart h).bind fun _ s1 h1 => h1
  | action a => exact (hV.buildAction_ensures hB hA machine depth a hpart h).bind fun _ s1 h1 => h1.1

theorem Values.evalFragments_ensures (hV : Values I E Ok) (hB : Builds Ok P)
    (hA : BuildsActions Ok Q) (machine : Machine) (depth : Nat) (parts : List Fragment)
    (hparts : ∀ part ∈ parts, part.Calls P Q) {s : State} (h : I s) :
    Ensures (evalFragments machine depth parts) s (fun _ s' => I s') E := by
  induction parts generalizing s with
  | nil => exact hV.ends s h _ (by simp)
  | cons part rest ih =>
    unfold evalFragments
    refine (hV.evalFragment_ensures hB hA machine depth part (hparts part (by simp)) h).bind
      fun _ s1 h1 => ?_
    exact ih (fun q hq => hparts q (by simp [hq])) h1

theorem Values.printResult_ensures (hV : Values I E Ok) (machine : Machine) (depth : Nat)
    {s : State} (h : I s) (hresult : Result Ok s.parserResult) :
    Ensures (evalInput machine depth .printResult) s (fun _ s' => I s') E := by
  unfold evalInput
  rw [ensures_bind, ensures_get]
  split
  · exact h
  · rename_i t ht
    have hok : Ok (some t) := by
      rcases hresult with hnone | hok
      · simp [ht] at hnone
      · rwa [ht] at hok
    exact (hV.termToString_ensures (hV.termResolve_ensures machine depth) hok depth h).bind
      fun str s1 h1 => hV.frame.record s1 h1 _ (by simp)

/-- A language whose inputs, other than collecting the heap, preserve `I`. -/
structure Language (I : State → Prop) (E : Stop → State → Prop) (Ok : Option Term → Prop)
    (P Q : Identifier → Nat → Prop) : Prop extends Values I E Ok, Builds Ok P where
  actions : BuildsActions Ok Q
  assign : ∀ s, I s → ∀ name v, Ok v → I (s.assign name v)
  result : ∀ s, I s → ∀ v, Result Ok v → I { s with parserResult := v }
  printed : ∀ s, I s → Result Ok s.parserResult

theorem Language.evalInput_ensures (hL : Language I E Ok P Q) (machine : Machine) (depth : Nat)
    {i : Input} (hi : i ≠ .start) (hcalls : i.Calls P Q) {s : State} (h : I s) :
    Ensures (evalInput machine depth i) s (fun _ s' => I s') E := by
  have hV := hL.toValues
  have hB := hL.toBuilds
  unfold evalInput
  cases i with
  | start => exact absurd rfl hi
  | statement st =>
    refine (hV.evalStatement_ensures hB hL.actions hL.assign machine depth st hcalls h).bind ?_
    rintro v s1 ⟨h1, hv⟩
    exact hL.result s1 h1 v hv
  | syntaxError parts =>
    exact hV.evalFragments_ensures hB hL.actions machine depth parts hcalls h
  | printResult => exact hV.printResult_ensures machine depth h (hL.printed s h)

end

end NervesInitramfs
