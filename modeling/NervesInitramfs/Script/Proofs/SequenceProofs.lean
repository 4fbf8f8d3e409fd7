import NervesInitramfs.Script.Proofs.AssignProofs
import NervesInitramfs.Script.Proofs.OrderProofs
import NervesInitramfs.Script.Proofs.RuleProofs
import NervesInitramfs.Script.Proofs.StatementProofs

/-!
# Proofs: statements evaluated one by one
-/

namespace NervesInitramfs

open CLib

/-! ## The actions of a statement -/

section

variable {machine : Machine} {depth : Nat}

theorem orderless_buildCall {name : CString} {ps : List Term}
    (h : (lookupFunction name ps.length).isSome) : Orderless (buildCall name ps) := by
  unfold buildCall termNewFun
  obtain ⟨handler, hlookup⟩ := Option.isSome_iff_exists.mp h
  rw [hlookup]
  exact orderless_pure _

mutual

theorem orderless_buildTerm (t : TermSyntax) (ht : t.Calls KnownCall) :
    Orderless (buildTerm machine depth t) := by
  match t with
  | .add left right =>
    unfold buildTerm
    refine (orderless_buildTerm left ht.1).bind fun l => ?_
    refine (orderless_buildTerm right ht.2).bind fun r => ?_
    exact orderless_buildCall (congrArg Option.isSome lookupFunction_add)
  | .subtract left right =>
    unfold buildTerm
    refine (orderless_buildTerm left ht.1).bind fun l => ?_
    refine (orderless_buildTerm right ht.2).bind fun r => ?_
    exact orderless_buildCall (congrArg Option.isSome lookupFunction_subtract)
  | .neg operand =>
    unfold buildTerm
    refine (orderless_buildTerm operand ht).bind fun t => ?_
    refine (orderless_termToNumber (orderless_termResolve machine depth) (some t)).bind fun value => ?_
    exact orderless_pure _
  | .paren inner =>
    unfold buildTerm
    exact orderless_buildTerm inner ht
  | .identifier id => exact orderless_pure _
  | .string value => exact orderless_pure _
  | .number base digits => exact orderless_pure _
  | .boolean value => exact orderless_pure _
  | .functionCall id parameters =>
    unfold buildTerm
    refine orderless_buildTerms parameters ht.2 fun ps hlen => ?_
    apply orderless_buildCall
    rw [hlen]
    exact ht.1

/-- What is done with the terms can rely on how many there are. -/
theorem orderless_buildTerms {α : Type} (ts : List TermSyntax) (hts : CallsIn KnownCall ts)
    {f : List Term → Interp α} (hf : ∀ ps, ps.length = ts.length → Orderless (f ps)) :
    Orderless (buildTerms machine depth ts >>= f) := by
  match ts with
  | [] => exact hf [] rfl
  | t :: rest =>
    unfold buildTerms
    rw [bind_assoc]
    refine (orderless_buildTerm t hts.1).bind fun first => ?_
    rw [bind_assoc]
    refine orderless_buildTerms rest hts.2 fun others hlen => ?_
    rw [pure_bind]
    apply hf
    rw [List.length_cons, List.length_cons, hlen]

end

theorem orderless_evalBoolean (b : BooleanSyntax) (hb : b.Calls KnownCall) :
    Orderless (evalBoolean machine depth b) := by
  have hres := orderless_termResolve machine depth
  induction b with
  | term t =>
    exact (orderless_buildTerm t hb).bind fun term => orderless_termToBoolean hres (some term)
  | paren inner ih => exact ih hb
  | comparison relation left right =>
    refine (orderless_buildTerm left hb.1).bind fun l => ?_
    refine (orderless_buildTerm right hb.2).bind fun r => ?_
    exact (orderless_termCompare machine hres (some l) (some r)).bind fun n => orderless_pure _
  | not inner ih => exact (ih hb).bind fun b => orderless_pure _
  | and left right ihl ihr => exact (ihl hb.1).bind fun l => (ihr hb.2).bind fun r => orderless_pure _
  | or left right ihl ihr => exact (ihl hb.1).bind fun l => (ihr hb.2).bind fun r => orderless_pure _

theorem orderless_buildAction (a : ActionSyntax) (ha : a.Calls KnownCall KnownCall) :
    Orderless (buildAction machine depth a) := by
  cases a with
  | functionCall id parameters =>
    refine orderless_buildTerms parameters ha.2 fun ps hlen => ?_
    apply orderless_buildCall
    rw [hlen]
    exact ha.1
  | assignment id value =>
    refine (orderless_buildTerm value ha).bind fun t => ?_
    exact orderless_buildCall (congrArg Option.isSome lookupFunction_assign)

theorem orderless_buildActions (block : List ActionSyntax) (h : ∀ a ∈ block, a.Calls KnownCall KnownCall) :
    Orderless (buildActions machine depth block) := by
  induction block with
  | nil => exact orderless_pure _
  | cons a rest ih =>
    refine (orderless_buildAction a (h a (.head rest))).bind fun first => ?_
    exact (ih fun b hb => h b (.tail a hb)).bind fun others => orderless_pure _

/-- A statement does the same in any order of the variables, and the parser gets through it. -/
theorem orderless_evalStatement (s : StatementSyntax) (h : s.Calls KnownCall KnownCall) :
    Orderless (evalStatement machine depth s) := by
  cases s with
  | rule condition block =>
    refine (orderless_evalBoolean condition h.1).bind fun fires => ?_
    refine (orderless_buildActions block h.2).bind fun actions => ?_
    refine Agree.bind ?_ fun _ => orderless_pure _
    cases fires with
    | false => exact orderless_pure _
    | true => exact (orderless_runFunctions machine depth none actions).bind fun _ => orderless_pure _
  | action a =>
    exact (orderless_buildAction a h).bind fun t => orderless_runFunctions machine depth none [t]

/-! ## One text and several -/

/-- A collection that can copy all values changes nothing but the order of the variables. -/
theorem termGcHeap_alike {s s' : State} (h : Alike s s') (hcopy : Copyable s') :
    ∃ t, termGcHeap s' = .ok () t ∧ Alike s t := by
  have hvalues : ∀ v ∈ s'.vars, v.value ≠ none := by
    intro v hv hnone
    obtain ⟨t, ht, -⟩ := hcopy v hv
    rw [hnone] at ht
    exact nomatch ht
  refine ⟨_, termGcHeap_eq hvalues, ⟨fun k => ?_, h.effects.env, h.effects.world, h.effects.log⟩,
    h.names, nodup_copied s'.vars List.nodup_nil⟩
  show store s.vars k = store (copied s'.vars []) k
  rw [store_copied h.names', show store s.vars k = store s'.vars k from h.effects.vars k]
  cases hk : store s'.vars k with
  | none => rfl
  | some value =>
    obtain ⟨v, hv, -, rfl⟩ := mem_of_store hk
    obtain ⟨t, ht, hcall⟩ := hcopy v hv
    rw [ht]
    cases t with
    | function handler ps => exact absurd rfl (hcall handler ps)
    | identifier _ | string _ | number _ | boolean _ => rfl

/-- The actions for a text without a syntax error. -/
theorem evalScript_eq (ss : List StatementSyntax) (s : State) :
    evalScript machine depth ⟨ss, none⟩ s =
      evalStatements machine depth ss { s with parserResult := none } := by
  show ((evalStatements machine depth ss >>= fun _ => pure ()) : Interp Unit)
    { s with parserResult := none } = _
  exact congrFun (bind_pure (evalStatements machine depth ss)) _

theorem yyparse_of_ok {script : Script} {s t : State}
    (h : evalScript machine depth script s = .ok () t) : yyparse machine depth script s = .ok 0 t := by
  unfold yyparse
  simp only [tryCatch, tryCatchThe, MonadExceptOf.tryCatch]
  delta EStateM.tryCatch
  simp only [bind_of_ok h]
  rfl

theorem yyparse_of_error {script : Script} {e : Stop} {s t : State} (he : e ≠ .parseError)
    (h : evalScript machine depth script s = .error e t) :
    yyparse machine depth script s = .error e t := by
  have hrun : (do evalScript machine depth script; pure 0 : Interp Int) s = .error e t := by
    simp only [bind, EStateM.bind, h]
  unfold yyparse
  simp only [tryCatch, tryCatchThe, MonadExceptOf.tryCatch]
  delta EStateM.tryCatch
  simp only [hrun, if_neg he]
  rfl

/-- The result of the statements of one text, and that of a text for each of them. -/
def Together (r : EStateM.Result Stop State Unit) (r' : EStateM.Result Stop State (List Int)) :
    Prop :=
  match r with
  | .ok _ s => ∃ rcs s', r' = .ok rcs s' ∧ (∀ rc ∈ rcs, rc = 0) ∧ Alike s s'
  | .error e s => ∃ s', r' = .error e s' ∧ e ≠ .parseError ∧ Alike s s'

/-- Both go on with another statement. -/
theorem together_cons {st : StatementSyntax} {rest : List StatementSyntax} (hst : st.Calls KnownCall KnownCall)
    {s s' : State} {t : State} (h : Alike s t) (hcollect : termGcHeap s' = .ok () t)
    (hrest : ∀ u u', Alike u u' → evalString machine depth ⟨[st], none⟩ s' = .ok 0 u' →
      Together (evalStatements machine depth rest u)
        (evalEach machine depth (rest.map fun st => ⟨[st], none⟩) u')) :
    Together (evalStatements machine depth (st :: rest) s)
      (evalEach machine depth ((st :: rest).map fun st => ⟨[st], none⟩) s') := by
  have horderless : Orderless (evalStatement machine depth st) := orderless_evalStatement st hst
  have hstatement := horderless s { t with parserResult := none }
    ⟨⟨h.effects.vars, h.effects.env, h.effects.world, h.effects.log⟩, h.names, h.names'⟩
  have hstring : evalString machine depth ⟨[st], none⟩ s' = yyparse machine depth ⟨[st], none⟩ t :=
    bind_of_ok hcollect
  cases hs : evalStatement machine depth st s with
  | ok result u =>
    rw [hs] at hstatement
    obtain ⟨u', hu', halike⟩ := hstatement
    let v : State := { u with parserResult := result }
    let v' : State := { u' with parserResult := result }
    have hv : Alike v v' :=
      ⟨⟨halike.effects.vars, halike.effects.env, halike.effects.world, halike.effects.log⟩,
        halike.names, halike.names'⟩
    have hone : evalString machine depth ⟨[st], none⟩ s' = .ok 0 v' := by
      rw [hstring]
      apply yyparse_of_ok
      rw [evalScript_eq, evalStatements, bind_of_ok hu']
      rfl
    have htext : evalStatements machine depth (st :: rest) s = evalStatements machine depth rest v := by
      rw [evalStatements, bind_of_ok hs]
      rfl
    rw [htext, List.map_cons, evalEach, bind_of_ok hone]
    have hmore := hrest v v' hv hone
    cases hv1 : evalStatements machine depth rest v with
    | ok _ w =>
      rw [hv1] at hmore
      obtain ⟨rcs, w', hw', hrcs, hlast⟩ := hmore
      refine ⟨0 :: rcs, w', ?_, ?_, hlast⟩
      · rw [bind_of_ok hw']
        rfl
      · intro rc hrc
        rcases List.mem_cons.mp hrc with rfl | hrc
        · rfl
        · exact hrcs rc hrc
    | error e w =>
      rw [hv1] at hmore
      obtain ⟨w', hw', he, hlast⟩ := hmore
      refine ⟨w', ?_, he, hlast⟩
      simp only [bind, EStateM.bind, hw']
  | error e u =>
    rw [hs] at hstatement
    obtain ⟨u', hu', he, halike⟩ := hstatement
    have hone : evalString machine depth ⟨[st], none⟩ s' = .error e u' := by
      rw [hstring]
      apply yyparse_of_error he
      rw [evalScript_eq, evalStatements]
      simp only [bind, EStateM.bind, hu']
    have htext : evalStatements machine depth (st :: rest) s = .error e u := by
      rw [evalStatements]
      simp only [bind, EStateM.bind, hs]
    rw [htext]
    refine ⟨u', ?_, he, halike⟩
    rw [List.map_cons, evalEach]
    simp only [bind, EStateM.bind, hone]

/-- The statements of a text go as a text for each of them goes. -/
theorem evalEach_statements (ss : List StatementSyntax) (hknown : ∀ st ∈ ss, st.Calls KnownCall KnownCall)
    {s s' : State} (h : Alike s s') (hcopy : ss ≠ [] → Copyable s')
    (hbetween : CollectsBetween machine depth (ss.map fun st => ⟨[st], none⟩) s') :
    Together (evalStatements machine depth ss s)
      (evalEach machine depth (ss.map fun st => ⟨[st], none⟩) s') := by
  induction ss generalizing s s' with
  | nil => exact ⟨[], s', rfl, by simp, h⟩
  | cons st rest ih =>
    obtain ⟨t, hcollect, ht⟩ := termGcHeap_alike h (hcopy (List.cons_ne_nil st rest))
    refine together_cons (hknown st (.head rest)) ht hcollect fun u u' hu hone => ?_
    have hrest : ∀ st' ∈ rest, st'.Calls KnownCall KnownCall := fun st' hst' => hknown st' (.tail st hst')
    cases rest with
    | nil => exact ih hrest hu (fun hne => absurd rfl hne) trivial
    | cons next rest =>
      obtain ⟨hcopy', hbetween'⟩ := hbetween 0 u' hone
      exact ih hrest hu (fun _ => hcopy') hbetween'

theorem sameLog_refl (l : List Event) : SameLog l l := by
  induction l using List.reverseRecOn with
  | nil => exact .nil
  | append_singleton l e ih => exact .event e ih

theorem evalString_of_ok {script : Script} {s t : State} (h : termGcHeap s = .ok () t) :
    evalString machine depth script s = yyparse machine depth script t := bind_of_ok h

/-- One text does what a text for each of its statements does. -/
theorem sameOutcome_statements {ss : List StatementSyntax} (hne : ss ≠ [])
    (hknown : ∀ st ∈ ss, st.Calls KnownCall KnownCall) {s : State}
    (hbetween : CollectsBetween machine depth (ss.map fun st => ⟨[st], none⟩) s) :
    SameOutcome (evalString machine depth ⟨ss, none⟩ s)
      (evalEach machine depth (ss.map fun st => ⟨[st], none⟩) s) := by
  obtain ⟨st, rest, rfl⟩ := List.exists_cons_of_ne_nil hne
  cases hcollect : termGcHeap s with
  | error e t =>
    have hfails : ∀ script, evalString machine depth script s = .error e t := fun script => by
      rw [evalString]
      simp only [bind, EStateM.bind, hcollect]
    have heach : evalEach machine depth ((st :: rest).map fun st => ⟨[st], none⟩) s = .error e t := by
      rw [List.map_cons, evalEach]
      simp only [bind, EStateM.bind, hfails]
    rw [hfails, heach]
    exact .stopped ⟨fun _ => rfl, rfl, rfl, sameLog_refl _⟩
  | ok _ t =>
    have hnodup : (t.vars.map Variable.name).Nodup := by
      obtain ⟨-, rfl⟩ := termGcHeap_ok hcollect
      exact nodup_copied s.vars List.nodup_nil
    have halike : Alike { t with parserResult := none } t :=
      ⟨⟨fun _ => rfl, rfl, rfl, sameLog_refl _⟩, hnodup, hnodup⟩
    have htogether : Together (evalStatements machine depth (st :: rest) { t with parserResult := none })
        (evalEach machine depth ((st :: rest).map fun st => ⟨[st], none⟩) s) := by
      refine together_cons (hknown st (.head rest)) halike hcollect fun u u' hu hone => ?_
      refine evalEach_statements rest (fun st' hst' => hknown st' (.tail st hst')) hu ?_ ?_
      · intro hrest
        obtain ⟨next, others, rfl⟩ := List.exists_cons_of_ne_nil hrest
        exact (hbetween 0 u' hone).1
      · cases rest with
        | nil => trivial
        | cons next others => exact (hbetween 0 u' hone).2
    rw [← evalScript_eq] at htogether
    rw [evalString_of_ok hcollect]
    cases hrun : evalScript machine depth ⟨st :: rest, none⟩ t with
    | ok _ u =>
      rw [hrun] at htogether
      obtain ⟨rcs, u', heach, hrcs, hu⟩ := htogether
      rw [yyparse_of_ok hrun, heach]
      exact .returned hrcs hu.effects
    | error e u =>
      rw [hrun] at htogether
      obtain ⟨u', heach, he, hu⟩ := htogether
      rw [yyparse_of_error he hrun, heach]
      exact .stopped hu.effects

end

end NervesInitramfs
