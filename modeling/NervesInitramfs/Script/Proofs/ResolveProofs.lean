import NervesInitramfs.CLib.Acyclic
import NervesInitramfs.Script.Proofs.AssignProofs

/-!
# Proofs: resolving a term comes to an end

Resolving a term follows the names in it, and from there the names in what the variables hold. While
no variable leads back to itself this way, the depth of the recursion is bounded. Only a term that
`setenv` hands back unresolved can close a loop.
-/

namespace NervesInitramfs

open CLib

/-! ## The names that a term leads to -/

mutual

/-- The names of the variables that resolving a term can look up. -/
def Term.mentions : Term → List CString
  | .identifier name => [name]
  | .string _ | .number _ | .boolean _ => []
  | .function handler parameters =>
    (if handler.readsSettings then settingNames else []) ++ mentionsIn parameters

def mentionsIn : List Term → List CString
  | [] => []
  | t :: rest => t.mentions ++ mentionsIn rest

end

mutual

/-- How deep the calls in a term are nested. -/
def Term.nesting : Term → Nat
  | .identifier _ | .string _ | .number _ | .boolean _ => 0
  | .function _ parameters => nestingIn parameters + 1

def nestingIn : List Term → Nat
  | [] => 0
  | t :: rest => max t.nesting (nestingIn rest)

end

/-- A variable leads to the names in what it holds. -/
def Leads (vars : List Variable) (x y : CString) : Prop :=
  ∃ t, store vars x = some (some t) ∧ y ∈ t.mentions

theorem mentions_subset {ps : List Term} {p : Term} (hp : p ∈ ps) {y : CString}
    (hy : y ∈ p.mentions) : y ∈ mentionsIn ps := by
  induction ps with
  | nil => simp at hp
  | cons q rest ih =>
    rcases List.mem_cons.mp hp with rfl | hp
    · simp [mentionsIn, hy]
    · simp [mentionsIn, ih hp]

theorem nesting_le {ps : List Term} {p : Term} (hp : p ∈ ps) : p.nesting ≤ nestingIn ps := by
  induction ps with
  | nil => simp at hp
  | cons q rest ih =>
    rcases List.mem_cons.mp hp with rfl | hp
    · exact Nat.le_max_left _ _
    · exact Nat.le_trans (ih hp) (Nat.le_max_right _ _)

theorem mentions_literal {t : Term} (h : t.isLiteral) : t.mentions = [] := by
  cases t <;> simp_all [Term.isLiteral, Term.mentions]

/-- An assignment changes where the one variable leads to. -/
theorem leads_assigned {vars : List Variable} {name : CString} {value : Option Term} {x y : CString}
    (h : Leads (assigned vars name value) x y) :
    (x = name ∧ ∃ t, value = some t ∧ y ∈ t.mentions) ∨ (x ≠ name ∧ Leads vars x y) := by
  obtain ⟨t, ht, hy⟩ := h
  rw [store_assigned] at ht
  by_cases hx : name = x
  · rw [if_pos hx] at ht
    exact Or.inl ⟨hx.symm, t, Option.some.inj ht, hy⟩
  · rw [if_neg hx] at ht
    exact Or.inr ⟨Ne.symm hx, t, ht, hy⟩

theorem leads_assigned_literal {vars : List Variable} {name : CString} {t : Term}
    (hlit : t.isLiteral) {x y : CString} (h : Leads (assigned vars name (some t)) x y) :
    Leads vars x y := by
  rcases leads_assigned h with ⟨-, u, hu, hy⟩ | ⟨-, hleads⟩
  · rw [← Option.some.inj hu, mentions_literal hlit] at hy
    simp at hy
  · exact hleads

/-! ## A bound on the depth -/

/-- A term without assignments, whose names have ranks below `r` and whose calls are nested at most
`k` deep. -/
def Bounded (ρ : CString → Nat) (r k : Nat) (t : Term) : Prop :=
  t.plain ∧ (∀ y ∈ t.mentions, ρ y < r) ∧ t.nesting ≤ k

/-- What every variable holds is bounded by the rank of its name. -/
def Grounded (ρ : CString → Nat) (k : Nat) (s : State) : Prop :=
  ∀ x t, store s.vars x = some (some t) → Bounded ρ (ρ x) k t

theorem bounded_literal {t : Term} (h : t.isLiteral) (ρ : CString → Nat) (r k : Nat) :
    Bounded ρ r k t := by
  refine ⟨every_literal h, by simp [mentions_literal h], ?_⟩
  cases t <;> simp_all [Term.isLiteral, Term.nesting]

theorem bounded_parameter {ρ : CString → Nat} {r k : Nat} {handler : Builtin} {ps : List Term}
    (h : Bounded ρ r k (.function handler ps)) : handler ≠ .assign ∧ 0 < k ∧
      (handler.readsSettings → ∀ y ∈ settingNames, ρ y < r) ∧ ∀ p ∈ ps, Bounded ρ r (k - 1) p := by
  obtain ⟨hplain, hrank, hnest⟩ := h
  obtain ⟨hassign, hps⟩ := every_function.mp hplain
  have hk : nestingIn ps + 1 ≤ k := hnest
  refine ⟨by simpa using hassign, by omega, fun hread y hy => ?_, fun p hp => ⟨hps p hp, ?_, ?_⟩⟩
  · exact hrank y (by simp [Term.mentions, hread, hy])
  · exact fun y hy => hrank y (by simp [Term.mentions, mentions_subset hp hy])
  · have hle := nesting_le hp
    omega

theorem grounded_frame (ρ : CString → Nat) (k : Nat) : Frame (Grounded ρ k) where
  record _ h _ _ := h
  world _ h _ := h
  env _ h _ := h
  flag s h name _ b := by
    intro x t ht
    change store (assigned s.vars name (some (.boolean b))) x = _ at ht
    rw [store_assigned] at ht
    by_cases hx : name = x
    · rw [if_pos hx] at ht
      rw [← Option.some.inj (Option.some.inj ht)]
      exact bounded_literal rfl ρ _ k
    · rw [if_neg hx] at ht
      exact h x t ht

section

variable {ρ : CString → Nat} {S : Nat}

/-- Enough depth to resolve a term whose names have ranks below `r` and whose calls are nested at
most `k` deep, where what the variables hold is nested at most `S` deep. -/
def enoughDepth (S r k : Nat) : Nat := r * (S + 2) + k + 1

theorem enoughDepth_lt {r r' k : Nat} (h : r' < r) :
    enoughDepth S r' S < enoughDepth S r k := by
  have hmul : (r' + 1) * (S + 2) ≤ r * (S + 2) := Nat.mul_le_mul_right _ h
  rw [Nat.add_mul] at hmul
  unfold enoughDepth
  omega

theorem lt_enoughDepth (r k : Nat) : r < enoughDepth S r k := by
  have hmul : r * 1 ≤ r * (S + 2) := Nat.mul_le_mul_left _ (by omega)
  unfold enoughDepth
  omega

/-- The property that `resolve` comes to an end on all terms that the depth is enough for. -/
def Terminates (ρ : CString → Nat) (S depth : Nat) (resolve : Option Term → Interp (Option Term)) :
    Prop :=
  ∀ r k rv s, Grounded ρ S s → (∀ t, rv = some t → Bounded ρ r k t) → enoughDepth S r k ≤ depth →
    Ensures (resolve rv) s
      (fun v s' => Grounded ρ S s' ∧ ∀ t, v = some t → ∀ y ∈ t.mentions, ρ y < r)
      fun e _ => e ≠ .outOfFuel

theorem bounded_of_getVariable {s : State} (h : Grounded ρ S s) (name : CString) (t : Term)
    (ht : (store s.vars name).getD (some (.string (.ofString ""))) = some t) :
    Bounded ρ (ρ name) S t := by
  cases hst : store s.vars name with
  | none =>
    rw [hst] at ht
    rw [← Option.some.inj ht]
    exact bounded_literal rfl ρ _ S
  | some v =>
    rw [hst] at ht
    exact h name t (hst.trans (congrArg some ht))

theorem termToString_terminates {depth : Nat} {resolve : Option Term → Interp (Option Term)}
    (hres : Terminates ρ S depth resolve) (n : Nat) {r k : Nat} {rv : Option Term} {s : State}
    (h : Grounded ρ S s) (hrv : ∀ t, rv = some t → Bounded ρ r k t)
    (hdepth : enoughDepth S r k ≤ depth) (hn : r < n) :
    Ensures (termToString resolve n rv) s (fun _ s' => Grounded ρ S s') fun e _ => e ≠ .outOfFuel := by
  induction n generalizing r k rv s with
  | zero => omega
  | succ n ih =>
    unfold termToString
    refine (hres r k rv s h hrv hdepth).bind ?_
    rintro v s1 ⟨h1, hv⟩
    rcases v with _ | ⟨name | value | value | value | ⟨handler, ps⟩⟩
    · exact fun hcontra => by cases hcontra
    · have hrank : ρ name < r := hv _ rfl name (by simp [Term.mentions])
      have hget : Ensures (getVariable name) s1
          (fun v s' => s' = s1 ∧ v = (store s1.vars name).getD (some (.string (.ofString ""))))
          fun e _ => e ≠ .outOfFuel := by
        unfold Ensures
        rw [getVariable_eq]
        exact ⟨rfl, rfl⟩
      refine hget.bind ?_
      rintro v s2 ⟨rfl, rfl⟩
      exact ih h1 (bounded_of_getVariable h1 name)
        (Nat.le_trans (Nat.le_of_lt (enoughDepth_lt hrank)) hdepth) (by omega)
    all_goals exact h1

theorem termToNumber_terminates {depth : Nat} {resolve : Option Term → Interp (Option Term)}
    (hres : Terminates ρ S depth resolve) {r k : Nat} {rv : Option Term} {s : State}
    (h : Grounded ρ S s) (hrv : ∀ t, rv = some t → Bounded ρ r k t)
    (hdepth : enoughDepth S r k ≤ depth) :
    Ensures (termToNumber resolve rv) s (fun _ s' => Grounded ρ S s') fun e _ => e ≠ .outOfFuel := by
  unfold termToNumber
  refine (hres r k rv s h hrv hdepth).bind fun v s1 ⟨h1, hv⟩ => ?_
  rcases v with _ | ⟨name | value | value | value | ⟨handler, ps⟩⟩
  · exact fun hcontra => by cases hcontra
  all_goals exact h1

/-- The value of a variable, with the bounds that hold for it. -/
theorem bounded_of_getVariableImpl {s : State} (h : Grounded ρ S s) {name : CString} {v : Variable}
    (hv : getVariableImpl s.vars name = some v) (t : Term) (ht : v.value = some t) :
    Bounded ρ (ρ name) S t := by
  refine h name t ?_
  rw [← getVariableImpl_value, hv, Option.map_some, ht]

theorem operands_terminate {depth : Nat} {resolve : Option Term → Interp (Option Term)}
    (hres : Terminates ρ S depth resolve) {r k : Nat} {handler : Builtin} {ps : List Term}
    (hcall : Bounded ρ r k (.function handler ps)) (hdepth : enoughDepth S r k ≤ depth + 1) :
    Operands (Grounded ρ S) (fun e _ => e ≠ .outOfFuel) resolve depth handler ps := by
  obtain ⟨-, hk, hsettings, hps⟩ := bounded_parameter hcall
  have hinner : enoughDepth S r (k - 1) ≤ depth := by
    unfold enoughDepth at hdepth ⊢
    omega
  have hr : r < depth := Nat.lt_of_lt_of_le (lt_enoughDepth r (k - 1)) hinner
  have hsetting : ∀ name, handler.readsSettings → name ∈ settingNames →
      ρ name < depth ∧ enoughDepth S (ρ name) S ≤ depth := by
    intro name hread hname
    have hrank := hsettings hread name hname
    have hlt := enoughDepth_lt (S := S) (k := k) hrank
    exact ⟨by omega, by omega⟩
  have hoperand : ∀ p, IsOperand handler ps p → ∀ t, p = some t → Bounded ρ r (k - 1) t := by
    rintro _ hp t rfl
    exact hps t hp
  refine ⟨fun p hp s h => ?_, fun p hp s h => ?_, fun hread name hname s h => ?_,
    fun hread name hname s h => ?_, fun _ _ _ => by simp, fun _ => Or.inl fun _ _ => by simp,
    fun _ _ => ⟨by simp, by simp⟩⟩
  · exact termToString_terminates hres depth h (hoperand p hp) hinner hr
  · exact termToNumber_terminates hres h (hoperand p hp) hinner
  · unfold getVariableAsString
    rw [ensures_bind, ensures_get]
    split
    · rename_i v hv
      exact termToString_terminates hres depth h (bounded_of_getVariableImpl h hv)
        (hsetting name hread hname).2 (hsetting name hread hname).1
    · exact h
  · unfold getVariableAsNumber
    rw [ensures_bind, ensures_get]
    split
    · rename_i v hv
      exact termToNumber_terminates hres h (bounded_of_getVariableImpl h hv)
        (hsetting name hread hname).2
    · exact h

/-- With enough depth, resolving a term never runs out of it. -/
theorem termResolve_terminates (machine : Machine) (depth : Nat) :
    Terminates ρ S depth (termResolve machine depth) := by
  induction depth with
  | zero =>
    intro r k rv s h hrv hdepth
    unfold enoughDepth at hdepth
    omega
  | succ depth ih =>
    intro r k rv s h hrv hdepth
    rcases rv with _ | ⟨name | value | value | value | ⟨handler, ps⟩⟩
    · exact fun hcontra => by cases hcontra
    · have hrank : ρ name < r := (hrv _ rfl).2.1 name (by simp [Term.mentions])
      have hlt := enoughDepth_lt (S := S) (k := k) hrank
      unfold Ensures
      rw [termResolve_identifier]
      have hspec := ih (ρ name) S _ s h (bounded_of_getVariable h name) (by omega)
      refine hspec.mono ?_ fun _ _ he => he
      rintro v s1 ⟨h1, hv⟩
      exact ⟨h1, fun t ht y hy => Nat.lt_trans (hv t ht y hy) hrank⟩
    · exact ⟨h, fun t ht y hy => (hrv t ht).2.1 y hy⟩
    · exact ⟨h, fun t ht y hy => (hrv t ht).2.1 y hy⟩
    · exact ⟨h, fun t ht y hy => (hrv t ht).2.1 y hy⟩
    · have hcall := hrv _ rfl
      obtain ⟨hassign, -, -, hps⟩ := bounded_parameter hcall
      refine (recordCall_ensures (grounded_frame ρ S) h handler).bind fun _ s1 h1 => ?_
      refine (run_ensures (grounded_frame ρ S) machine hassign h1
        (operands_terminate ih hcall hdepth)).mono ?_ fun _ _ he => he
      rintro v s2 ⟨h2, hv⟩
      refine ⟨h2, ?_⟩
      rintro t rfl y hy
      unfold Returned at hv
      split at hv
      · have hmem : t ∈ ps := List.mem_of_getElem? hv.symm
        exact (hps t hmem).2.1 y hy
      · split at hv
        · cases hv
        · obtain ⟨u, hu, hlit⟩ := hv
          rw [Option.some.inj hu, mentions_literal hlit] at hy
          simp at hy

end

/-! ## Loops -/

/-- No variable leads back to itself. -/
def Loopless (s : State) : Prop := Tidy s ∧ ∃ ρ, RankedBy (Leads s.vars) ρ

/-- The variables of a tidy state lead no further than those of `s0`. -/
def LeadsWithin (s0 s : State) : Prop :=
  Tidy s ∧ ∀ x y, Leads s.vars x y → Leads s0.vars x y

theorem Loopless.within {s0 s : State} (h : Loopless s0) (hs : LeadsWithin s0 s) : Loopless s := by
  obtain ⟨-, ρ, hρ⟩ := h
  exact ⟨hs.1, ρ, hρ.mono hs.2⟩

theorem leadsWithin_frame (s0 : State) : Frame (LeadsWithin s0) where
  record s h e he := ⟨tidy_frame.record s h.1 e he, h.2⟩
  world s h w := ⟨tidy_frame.world s h.1 w, h.2⟩
  env s h e := ⟨tidy_frame.env s h.1 e, h.2⟩
  flag s h name hname b :=
    ⟨tidy_frame.flag s h.1 name hname b, fun x y hxy => h.2 x y (leads_assigned_literal rfl hxy)⟩

theorem leadsWithin_values (s0 : State) :
    Values (LeadsWithin s0) (fun _ s => LeadsWithin s0 s) Plain :=
  plain_values (leadsWithin_frame s0) fun _ h => h.1.stored

theorem exists_nesting_bound (vars : List Variable) :
    ∃ k, ∀ v ∈ vars, ∀ t, v.value = some t → t.nesting ≤ k := by
  obtain ⟨k, hk⟩ := exists_rank_bound (fun v : Variable => (v.value.map Term.nesting).getD 0) vars
  refine ⟨k, fun v hv t ht => ?_⟩
  have hlt := hk v hv
  simp only [ht, Option.map_some, Option.getD_some] at hlt
  omega

/-- Without loops, resolving a term comes to an end at some depth, and at every greater one. -/
theorem Loopless.terminates {s : State} (h : Loopless s) (machine : Machine) {t : Term}
    (ht : t.plain) : ∃ N, ∀ depth ≥ N, ∀ s', termResolve machine depth (some t) s ≠
      .error .outOfFuel s' := by
  obtain ⟨htidy, ρ, hρ⟩ := h
  obtain ⟨S, hS⟩ := exists_nesting_bound s.vars
  obtain ⟨r, hr⟩ := exists_rank_bound ρ t.mentions
  have hground : Grounded ρ S s := by
    intro x u hu
    obtain ⟨v, hv, rfl, hval⟩ := mem_of_store hu
    have hplain := htidy.stored v hv
    rw [hval] at hplain
    exact ⟨hplain, fun y hy => hρ v.name y ⟨u, hu, hy⟩, hS v hv u hval⟩
  refine ⟨enoughDepth S r t.nesting, fun depth hdepth s' herror => ?_⟩
  have hbounded : ∀ u, some t = some u → Bounded ρ r t.nesting u := by
    rintro _ ⟨⟩
    exact ⟨ht, hr, Nat.le_refl _⟩
  have hspec := termResolve_terminates machine depth r t.nesting (some t) s hground
    hbounded hdepth
  exact hspec.error herror rfl

/-- An action that closes no loop: if it assigns a term that `setenv` hands back, following the
names in that term does not lead to the variable that is assigned. -/
def ClosesNoLoop (s : State) : Term → Prop
  | .function .assign [.identifier x, t] =>
    ∀ u, HandsBack s.vars t u → ∀ y ∈ u.mentions, ¬ Relation.ReflTransGen (Leads s.vars) y x
  | _ => True

/-- Actions each of which closes no loop in the state that it is run in. -/
def ActionsCloseNoLoop (machine : Machine) (depth : Nat) : List Term → State → Prop
  | [], _ => True
  | t :: rest, s => ClosesNoLoop s t ∧ ∀ v s', runFunction machine depth t s = .ok v s' →
      ActionsCloseNoLoop machine depth rest s'

/-- An input of which every action that is run closes no loop. -/
def InputClosesNoLoop (machine : Machine) (depth : Nat) : Input → State → Prop
  | .statement (.action a), s => ∀ t s1, buildAction machine depth a s = .ok t s1 →
      ActionsCloseNoLoop machine depth [t] s1
  | .statement (.rule condition block), s => ∀ s1 ts s2,
      evalBoolean machine depth condition s = .ok true s1 →
      buildActions machine depth block s1 = .ok ts s2 → ActionsCloseNoLoop machine depth ts s2
  | .start, _ | .syntaxError _, _ | .printResult, _ => True

/-- The step lemma: an assignment that closes no loop leaves none. -/
theorem runFunction_loopless (machine : Machine) (depth : Nat) {t : Term} {s : State}
    (hsafe : ClosesNoLoop s t) (ht : OkAction Plain t) (h : Loopless s) :
    Ensures (runFunction machine depth t) s (fun v s' => Loopless s' ∧ Plain v)
      fun _ s' => Loopless s' := by
  have hwithin : LeadsWithin s s := ⟨h.1, fun _ _ hxy => hxy⟩
  have hV := leadsWithin_values s
  cases ht with
  | call handler ps hop hps =>
    refine (hV.runCall_ensures machine depth hop hps hwithin).mono ?_ fun _ _ he => h.within he
    rintro v s1 ⟨h1, hv⟩
    refine ⟨h.within h1, ?_⟩
    rcases hv with rfl | hv
    · trivial
    · exact hv
  | assign x t hplain =>
    have hrun : Ensures (runFunction machine depth (.function .assign [.identifier x, t])) s
        (fun v s' => Loopless s' ∧ Plain v) fun _ s' => LeadsWithin s s' := by
      refine hV.runAssign_ensures machine depth hplain hwithin fun v s' hs' hv hres => ?_
      refine ⟨⟨hs'.1.assign x hv, ?_⟩, hv⟩
      obtain ⟨-, ρ, hρ⟩ := h
      cases v with
      | none =>
        refine ⟨ρ, hρ.mono fun a b hab => ?_⟩
        rcases leads_assigned hab with ⟨-, u, hu, -⟩ | ⟨-, hleads⟩
        · cases hu
        · exact hs'.2 a b hleads
      | some u =>
        rcases literal_or_handsBack hwithin.1 hplain hres with hlit | hback
        · exact ⟨ρ, hρ.mono fun a b hab => hs'.2 a b (leads_assigned_literal hlit hab)⟩
        · refine hρ.replace (hsafe u hback) fun a b hab => ?_
          rcases leads_assigned hab with ⟨ha, u', hu', hb⟩ | ⟨ha, hleads⟩
          · obtain rfl := Option.some.inj hu'
            exact Or.inl ⟨ha, hb⟩
          · exact Or.inr ⟨ha, hs'.2 a b hleads⟩
    exact hrun.mono (fun _ _ hpost => hpost) fun _ _ he => h.within he

theorem runFunctions_loopless {machine : Machine} {depth : Nat} {ts : List Term}
    (hts : ∀ t ∈ ts, OkAction Plain t) {last : Option Term} (hlast : Plain last) {s : State}
    (hsafe : ActionsCloseNoLoop machine depth ts s) (h : Loopless s) :
    Ensures (runFunctions machine depth last ts) s (fun v s' => Loopless s' ∧ Plain v)
      fun _ s' => Loopless s' := by
  induction ts generalizing s last with
  | nil => exact ⟨h, hlast⟩
  | cons t rest ih =>
    have hrun := runFunction_loopless machine depth hsafe.1 (hts t (by simp)) h
    unfold runFunctions
    rw [ensures_bind]
    unfold Ensures at hrun ⊢
    cases hv : runFunction machine depth t s with
    | ok v s1 =>
      rw [hv] at hrun
      exact ih (fun u hu => hts u (by simp [hu])) hrun.2 (hsafe.2 v s1 hv) hrun.1
    | error e s1 =>
      rw [hv] at hrun
      exact hrun

/-- What a statement leaves, when the actions that it runs close no loop. -/
theorem evalStatement_loopless {machine : Machine} {depth : Nat} {st : StatementSyntax} {s : State}
    (hsafe : InputClosesNoLoop machine depth (.statement st) s) (h : Loopless s) :
    Ensures (evalStatement machine depth st) s (fun v s' => Loopless s' ∧ Plain v)
      fun _ s' => Loopless s' := by
  have hwithin : LeadsWithin s s := ⟨h.1, fun _ _ hxy => hxy⟩
  have hV := leadsWithin_values s
  unfold evalStatement
  cases st with
  | rule condition block =>
    have hcond := hV.evalBoolean_ensures plain_builds machine depth condition condition.calls_true
      hwithin
    rw [ensures_bind]
    unfold Ensures at hcond ⊢
    cases hfires : evalBoolean machine depth condition s with
    | error e s1 =>
      rw [hfires] at hcond
      exact h.within hcond
    | ok fires s1 =>
      rw [hfires] at hcond
      have hbuild := hV.buildActions_ensures plain_builds plain_actions machine depth block
        (fun a _ => a.calls_true) hcond
      change Ensures _ s1 _ _
      rw [ensures_bind]
      unfold Ensures at hbuild ⊢
      cases hts : buildActions machine depth block s1 with
      | error e s2 =>
        rw [hts] at hbuild
        exact h.within hbuild
      | ok ts s2 =>
        rw [hts] at hbuild
        have h2 := h.within hbuild.1
        cases fires with
        | false => exact ⟨h2, trivial⟩
        | true =>
          have hnull : Plain none := trivial
          have hrun := runFunctions_loopless hbuild.2 hnull (hsafe s1 ts s2 hfires hts) h2
          change Ensures ((runFunctions machine depth none ts >>= fun _ => pure ()) >>=
            fun _ => pure none) s2 _ _
          rw [ensures_bind]
          exact hrun.bind fun _ s3 h3 => ⟨h3.1, trivial⟩
  | action a =>
    have hbuild := hV.buildAction_ensures plain_builds plain_actions machine depth a a.calls_true
      hwithin
    rw [ensures_bind]
    unfold Ensures at hbuild ⊢
    cases ht : buildAction machine depth a s with
    | error e s1 =>
      rw [ht] at hbuild
      exact h.within hbuild
    | ok t s1 =>
      rw [ht] at hbuild
      have hnull : Plain none := trivial
      exact runFunctions_loopless (by simpa using hbuild.2) hnull (hsafe t s1 ht)
        (h.within hbuild.1)

theorem evalInput_loopless {machine : Machine} {depth : Nat} {i : Input} {s : State}
    (hsafe : InputClosesNoLoop machine depth i s) (h : Loopless s) :
    (∀ s', evalInput machine depth i s = .ok () s' → Loopless s') ∧
      ∀ s', evalInput machine depth i s = .error .parseError s' → Loopless s' := by
  have hwithin : LeadsWithin s s := ⟨h.1, fun _ _ hxy => hxy⟩
  have hof : ∀ {m : Interp Unit}, Ensures m s (fun _ s' => Loopless s') (fun _ s' => Loopless s') →
      (∀ s', m s = .ok () s' → Loopless s') ∧ ∀ s', m s = .error .parseError s' → Loopless s' :=
    fun hm => ⟨fun s' hok => hm.ok hok, fun s' herror => hm.error herror⟩
  cases i with
  | start =>
    refine ⟨fun s' hok => ?_, fun s' herror => absurd herror (start_not_parseError _ _ _ _)⟩
    obtain ⟨-, rfl⟩ := start_ok hok
    obtain ⟨htidy, ρ, hρ⟩ := h
    refine ⟨htidy.start, ρ, hρ.mono ?_⟩
    rintro x y ⟨t, ht, hy⟩
    change store (copied s.vars []) x = _ at ht
    rw [store_copied htidy.nodup] at ht
    cases hst : store s.vars x with
    | none => simp [hst] at ht
    | some v =>
      have hdupe : dupe v = some t := by simpa [hst] using ht
      have hv : v = some t := by
        rcases v with _ | ⟨name | value | value | value | ⟨handler, ps⟩⟩ <;> simp_all [dupe]
      exact ⟨t, by rw [hst, hv], hy⟩
  | statement st =>
    refine hof ((evalStatement_loopless hsafe h).bind ?_)
    rintro v s1 ⟨⟨htidy, hleads⟩, hv⟩
    exact ⟨⟨htidy.nodup, htidy.stored, hv⟩, hleads⟩
  | syntaxError parts =>
    refine hof (((leadsWithin_values s).evalFragments_ensures plain_builds plain_actions machine depth
      parts (Input.syntaxError parts).calls_true hwithin).mono ?_ ?_)
    · exact fun _ _ h1 => h.within h1
    · exact fun _ _ h1 => h.within h1
  | printResult =>
    refine hof (((leadsWithin_values s).printResult_ensures machine depth hwithin
      (Or.inr h.1.result)).mono ?_ ?_)
    · exact fun _ _ h1 => h.within h1
    · exact fun _ _ h1 => h.within h1

theorem loopless_started {s : State} (h : Started s) : Loopless s := by
  have hempty : Tidy s ∧ ∀ x y, ¬ Leads s.vars x y := by
    refine started_of_assign (I := fun s => Tidy s ∧ ∀ x y, ¬ Leads s.vars x y) (fun _ _ => ?_)
      (fun s hs name t ht => ?_)
      (fun s hs _ => ⟨⟨hs.1.nodup, hs.1.stored, hs.1.result⟩, hs.2⟩) h
    · refine ⟨⟨by simp [State.boot], by simp [State.boot], trivial⟩, ?_⟩
      rintro x y ⟨t, ht, -⟩
      simp [State.boot, store] at ht
    · refine ⟨hs.1.assign name (plain_of_literal ht), fun x y hxy => ?_⟩
      exact hs.2 x y (leads_assigned_literal ht hxy)
  exact ⟨hempty.1, fun _ => 0, fun x y hxy => absurd hxy (hempty.2 x y)⟩

/-- In a run of which no action closes a loop, no variable ever leads back to itself, and resolving
any term comes to an end in every state. -/
theorem resolve_terminates (machine : Machine) {s0 s : State} (h0 : Started s0)
    (hrun : Relation.ReflTransGen (fun s s' => ∃ i depth, InputClosesNoLoop machine depth i s ∧
      (evalInput machine depth i s = .ok () s' ∨ evalInput machine depth i s = .error .parseError s'))
      s0 s) :
    (∀ x, ¬ Relation.TransGen (Leads s.vars) x x) ∧ ∀ t : Term, t.plain →
      ∃ N, ∀ depth ≥ N, ∀ s', termResolve machine depth (some t) s ≠ .error .outOfFuel s' := by
  have h : Loopless s := by
    induction hrun with
    | refl => exact loopless_started h0
    | tail _ hstep ih =>
      obtain ⟨i, depth, hsafe, hok | herror⟩ := hstep
      · exact (evalInput_loopless hsafe ih).1 _ hok
      · exact (evalInput_loopless hsafe ih).2 _ herror
  refine ⟨?_, fun t ht => h.terminates machine ht⟩
  obtain ⟨-, ρ, hρ⟩ := h
  exact hρ.no_cycle

/-- The statement `x = setenv("a", y)`. -/
def assignSetenv : StatementSyntax :=
  .action (.assignment letterX
    (.functionCall (.ofString "setenv") [.string (.ofString "a"), .identifier (.ofString "y")]))

theorem resolve_terminates_setenv :
    let s := stateAfter (evalInput plainMachine 5 (.statement assignSetenv) plainStart)
    (∀ x, ¬ Relation.TransGen (Leads s.vars) x x) ∧ ∀ t : Term, t.plain →
      ∃ N, ∀ depth ≥ N, ∀ s', termResolve plainMachine depth (some t) s ≠ .error .outOfFuel s' := by
  have hsafe : InputClosesNoLoop plainMachine 5 (.statement assignSetenv) plainStart := by
    intro t s1 hbuild
    obtain ⟨rfl, rfl⟩ := EStateM.Result.ok.inj hbuild
    refine ⟨?_, fun _ _ _ => trivial⟩
    rintro u ⟨⟩ y hy hback
    rename_i _ hsecond
    obtain rfl : Term.identifier (.ofString "y") = u := Option.some.inj hsecond
    obtain rfl : y = .ofString "y" := List.mem_singleton.mp hy
    rcases Relation.ReflTransGen.cases_head hback with heq | ⟨z, ⟨t, ht, -⟩, -⟩
    · exact absurd heq (by decide)
    · have hnone : store plainStart.vars (.ofString "y") = none := rfl
      rw [hnone] at ht
      cases ht
  exact resolve_terminates plainMachine started_plainStart
    (.single ⟨.statement assignSetenv, 5, hsafe, Or.inl rfl⟩)

/-- A variable that holds its own name is resolved for ever. -/
theorem termResolve_loop (machine : Machine) {x : CString} {s : State}
    (h : store s.vars x = some (some (.identifier x))) (depth : Nat) :
    termResolve machine depth (some (.identifier x)) s = .error .outOfFuel s := by
  induction depth with
  | zero => rfl
  | succ depth ih =>
    rw [termResolve_identifier, h]
    exact ih

/-- The statement `x = setenv("a", x)`. -/
def assignLoop : StatementSyntax :=
  .action (.assignment letterX
    (.functionCall (.ofString "setenv") [.string (.ofString "a"), .identifier letterX]))

/-- After `x = setenv("a", x)` the variable `x` holds its own name. -/
theorem resolve_loops : ¬ ∀ (machine : Machine) (s0 s : State), Started s0 → Reaches machine s0 s →
    (∀ x, ¬ Relation.TransGen (Leads s.vars) x x) ∧ ∀ t : Term, t.plain →
      ∃ N, ∀ depth ≥ N, ∀ s', termResolve machine depth (some t) s ≠ .error .outOfFuel s' := by
  intro hall
  obtain ⟨-, hterm⟩ := hall plainMachine plainStart
    (stateAfter (evalInput plainMachine 5 (.statement assignLoop) plainStart)) started_plainStart
    (.single ⟨.statement assignLoop, 5, Or.inl rfl⟩)
  obtain ⟨N, hN⟩ := hterm (.identifier (.ofString "x")) rfl
  exact hN N (Nat.le_refl N) _ (termResolve_loop plainMachine rfl N)

end NervesInitramfs
