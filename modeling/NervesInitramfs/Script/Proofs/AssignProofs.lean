import NervesInitramfs.Script.Proofs.StoreProofs
import NervesInitramfs.Script.Proofs.ValueProofs

/-!
# Proofs: what an assignment stores

`function_assign` stores what `term_resolve` returns, which is a literal unless `function_setenv`
has handed back its second parameter unresolved. A literal stays what it is until the variable is
assigned again.
-/

namespace NervesInitramfs

open CLib

/-! ## Terms that are handed back unresolved -/

/-- Resolving the first term ends in a call of `setenv` with the second term, which is not a
literal, as its second parameter. -/
inductive HandsBack (vars : List Variable) : Term → Term → Prop
  | setenv (ps : List Term) (u : Term) (hu : ps[1]? = some u) (hlit : u.isLiteral = false) :
      HandsBack vars (.function .setenv ps) u
  | stored (name : CString) (t u : Term) (ht : store vars name = some (some t))
      (hu : HandsBack vars t u) : HandsBack vars (.identifier name) u

theorem HandsBack.not_literal {vars : List Variable} {t u : Term} (h : HandsBack vars t u) :
    u.isLiteral = false := by
  induction h with
  | setenv _ _ _ hlit => exact hlit
  | stored _ _ _ _ _ ih => exact ih

/-- A term without assignments in it. -/
abbrev Term.plain (t : Term) : Bool := t.every fun handler _ => handler ≠ .assign

/-- A pointer that is `NULL` or to a term without assignments in it. -/
def Plain : Option Term → Prop
  | none => True
  | some t => t.plain

theorem plain_of_literal {t : Term} (h : t.isLiteral) : Plain (some t) := every_literal h

theorem plain_assigned {vars : List Variable} (h : ∀ v ∈ vars, Plain v.value) (name : CString)
    {value : Option Term} (hvalue : Plain value) :
    ∀ v ∈ assigned vars name value, Plain v.value := by
  intro v hv
  rcases mem_assigned hv with hin | rfl
  · exact h v hin
  · exact hvalue

/-- Values without assignments in them, for any property of states that holds of all its stops. -/
theorem plain_values {I : State → Prop} (hI : Frame I)
    (hstored : ∀ s, I s → ∀ v ∈ s.vars, Plain v.value) : Values I (fun _ s => I s) Plain where
  frame := hI
  stored := hstored
  literal t ht := plain_of_literal ht
  operand handler ps h p hp := by
    cases p with
    | none => trivial
    | some t => exact (every_function.mp h).2 t hp
  notAssign ps h := by
    obtain ⟨hne, -⟩ := every_function.mp h
    simp at hne
  void _ _ _ _ := trivial
  null _ s h := h
  inspectable := Or.inl fun s h => h
  ends s h e _ := h

theorem plain_builds : Builds Plain fun _ _ => True where
  identifier name := rfl
  operator handler l r hop hassign hl hr := by
    refine every_function.mpr ⟨by simpa using hassign, fun t ht => ?_⟩
    rcases List.mem_cons.mp ht with rfl | ht
    · exact hl
    · obtain rfl := List.mem_singleton.mp ht
      exact hr
  call id ps handler _ hlookup hps := by
    refine every_function.mpr ⟨?_, hps⟩
    have hop := lookupFunction_identifier id hlookup
    cases handler <;> simp_all [Builtin.isOperator]

theorem plain_actions : BuildsActions Plain fun _ _ => True := by
  intro id ps handler _ _ hps p hp
  cases p with
  | none => trivial
  | some t => exact hps t hp

mutual

theorem TermSyntax.calls_true (t : TermSyntax) : t.Calls fun _ _ => True := by
  match t with
  | .add left right => exact ⟨left.calls_true, right.calls_true⟩
  | .subtract left right => exact ⟨left.calls_true, right.calls_true⟩
  | .neg t => exact t.calls_true
  | .paren t => exact t.calls_true
  | .functionCall _ parameters => exact ⟨trivial, callsIn_true parameters⟩
  | .identifier _ | .string _ | .number _ _ | .boolean _ => trivial

theorem callsIn_true (ts : List TermSyntax) : CallsIn (fun _ _ => True) ts := by
  match ts with
  | [] => trivial
  | t :: rest => exact ⟨t.calls_true, callsIn_true rest⟩

end

theorem BooleanSyntax.calls_true (b : BooleanSyntax) : b.Calls fun _ _ => True := by
  induction b with
  | term t => exact t.calls_true
  | paren b ih => exact ih
  | comparison _ left right => exact ⟨left.calls_true, right.calls_true⟩
  | not b ih => exact ih
  | and l r ihl ihr => exact ⟨ihl, ihr⟩
  | or l r ihl ihr => exact ⟨ihl, ihr⟩

theorem ActionSyntax.calls_true (a : ActionSyntax) : a.Calls (fun _ _ => True) fun _ _ => True := by
  cases a with
  | functionCall _ parameters => exact ⟨trivial, callsIn_true parameters⟩
  | assignment _ value => exact value.calls_true

theorem StatementSyntax.calls_true (st : StatementSyntax) :
    st.Calls (fun _ _ => True) fun _ _ => True := by
  cases st with
  | rule condition block => exact ⟨condition.calls_true, fun a _ => a.calls_true⟩
  | action a => exact a.calls_true

theorem Input.calls_true (i : Input) : i.Calls (fun _ _ => True) fun _ _ => True := by
  cases i with
  | start => trivial
  | printResult => trivial
  | statement st => exact st.calls_true
  | syntaxError parts =>
    intro part _
    cases part with
    | term t => exact t.calls_true
    | boolean b => exact b.calls_true
    | action a => exact a.calls_true

/-! ## Tables without assignments in them -/

/-- No name occurs twice in the table, and nothing in reach has assignments in it. -/
structure Tidy (s : State) : Prop where
  nodup : (s.vars.map (·.name)).Nodup
  stored : ∀ v ∈ s.vars, Plain v.value
  result : Plain s.parserResult

theorem Tidy.assign {s : State} (h : Tidy s) (name : CString) {v : Option Term} (hv : Plain v) :
    Tidy (s.assign name v) :=
  ⟨nodup_assigned h.nodup name v, plain_assigned h.stored name hv, h.result⟩

theorem tidy_frame : Frame Tidy where
  record _ h _ _ := ⟨h.nodup, h.stored, h.result⟩
  world _ h _ := ⟨h.nodup, h.stored, h.result⟩
  env _ h _ := ⟨h.nodup, h.stored, h.result⟩
  flag _ h name _ _ := h.assign name (plain_of_literal rfl)

theorem plain_dupe {v : Option Term} (h : Plain v) : Plain (dupe v) := by
  rcases v with _ | ⟨name | value | value | value | ⟨handler, ps⟩⟩
  all_goals first | exact h | trivial

theorem start_not_parseError (machine : Machine) (depth : Nat) (s s' : State) :
    evalInput machine depth .start s ≠ .error .parseError s' := by
  intro h
  by_cases hsome : ∀ v ∈ s.vars, v.value ≠ none
  · change (termGcHeap >>= fun _ => modify fun s => { s with parserResult := none }) s = _ at h
    rw [bind_of_ok (termGcHeap_eq hsome)] at h
    cases h
  · push Not at hsome
    obtain ⟨s1, hs1⟩ := copyVariables_null hsome { s with vars := [] }
    have hgc : termGcHeap s = .error .nullDereference s1 := hs1
    change (termGcHeap >>= fun _ => modify fun s => { s with parserResult := none }) s = _ at h
    simp only [bind, EStateM.bind, hgc] at h
    cases h

/-- What collecting the heap at the start of a parse makes of the state. -/
theorem start_ok {machine : Machine} {depth : Nat} {s s' : State}
    (h : evalInput machine depth .start s = .ok () s') :
    (∀ v ∈ s.vars, v.value ≠ none) ∧ s' = { s with vars := copied s.vars [], parserResult := none } := by
  obtain ⟨_, s1, hgc, hset⟩ := bind_eq_ok.mp h
  obtain ⟨hsome, rfl⟩ := termGcHeap_ok hgc
  obtain ⟨-, rfl⟩ := EStateM.Result.ok.inj hset
  exact ⟨hsome, rfl⟩

theorem Tidy.start {s : State} (h : Tidy s) :
    Tidy { s with vars := copied s.vars [], parserResult := none } := by
  refine ⟨nodup_copied _ (by simp), fun v hv => ?_, trivial⟩
  rcases mem_copied hv with hin | ⟨u, hu, rfl⟩
  · simp at hin
  · exact plain_dupe (h.stored u hu)

section

variable {I : State → Prop}

/-- A property of tidy states that assignments of terms preserve is preserved by every input but the
start of a parse. -/
theorem plain_language (hI : Frame I) (htidy : ∀ s, I s → Tidy s)
    (hassign : ∀ s, I s → ∀ name v, Plain v → I (s.assign name v))
    (hresult : ∀ s, I s → ∀ v, Plain v → I { s with parserResult := v }) :
    Language I (fun _ s => I s) Plain (fun _ _ => True) fun _ _ => True where
  toValues := plain_values hI fun s h => (htidy s h).stored
  toBuilds := plain_builds
  actions := plain_actions
  assign := hassign
  result s h v hv := by
    rcases hv with rfl | hv
    · exact hresult s h none trivial
    · exact hresult s h v hv
  printed s h := Or.inr (htidy s h).result

/-- The run lemma for such properties. -/
theorem Language.reaches
    (hL : Language I (fun _ s => I s) Plain (fun _ _ => True) fun _ _ => True)
    (hstart : ∀ s, I s → (∀ v ∈ s.vars, v.value ≠ none) →
      I { s with vars := copied s.vars [], parserResult := none })
    {machine : Machine} {s s' : State} (hrun : Reaches machine s s') (h : I s) : I s' := by
  induction hrun with
  | refl => exact h
  | @tail s1 s2 _ hstep ih =>
    obtain ⟨i, depth, heval⟩ := hstep
    by_cases hi : i = .start
    · subst hi
      rcases heval with hok | herror
      · obtain ⟨hsome, rfl⟩ := start_ok hok
        exact hstart s1 ih hsome
      · exact absurd herror (start_not_parseError machine depth s1 s2)
    · have hspec := hL.evalInput_ensures machine depth hi i.calls_true ih
      rcases heval with hok | herror
      · exact hspec.ok hok
      · exact hspec.error herror

/-- The run lemma for a whole text. -/
theorem Language.yyparse_ensures
    (hL : Language I (fun _ s => I s) Plain (fun _ _ => True) fun _ _ => True) (machine : Machine)
    (depth : Nat) (script : Script) {s : State} (h : I s) :
    Ensures (yyparse machine depth script) s (fun _ s' => I s') fun _ _ => True := by
  have hstatements : ∀ (statements : List StatementSyntax) (s : State), I s →
      Ensures (evalStatements machine depth statements) s (fun _ s' => I s') fun _ s' => I s' := by
    intro statements
    induction statements with
    | nil => exact fun s h => h
    | cons st rest ih =>
      intro s h
      refine (hL.toValues.evalStatement_ensures hL.toBuilds hL.actions hL.assign machine depth st
        st.calls_true h).bind ?_
      rintro v s1 ⟨h1, hv⟩
      exact ih _ (hL.result s1 h1 v hv)
  have hscript : ∀ (script : Script) (s : State), I s →
      Ensures (evalScript machine depth script) s (fun _ s' => I s') fun _ s' => I s' := by
    intro script s h
    unfold evalScript
    rw [ensures_bind, ensures_modify]
    refine (hstatements script.statements _ (hL.result s h none (Or.inl rfl))).bind fun _ s1 h1 => ?_
    cases script.error with
    | none => exact h1
    | some parts =>
      exact hL.toValues.evalFragments_ensures hL.toBuilds hL.actions machine depth parts
        (fun part hpart => (Input.syntaxError parts).calls_true part hpart) h1
  unfold yyparse
  rw [ensures_tryCatch, ensures_bind]
  refine (hscript script s h).mono (fun _ s1 h1 => h1) fun e s1 h1 => ?_
  by_cases he : e = .parseError
  · rw [if_pos he]
    exact h1
  · rw [if_neg he]
    trivial

theorem termGcHeap_ensures {s : State} (hgc : I { s with vars := copied s.vars [] }) :
    Ensures termGcHeap s (fun _ s' => I s') fun _ _ => True := by
  unfold Ensures
  cases hrun : termGcHeap s with
  | error e s' => trivial
  | ok u s' =>
    obtain ⟨-, rfl⟩ := termGcHeap_ok hrun
    exact hgc

/-- The run lemma for a file. -/
theorem Language.evalFile_ensures
    (hL : Language I (fun _ s => I s) Plain (fun _ _ => True) fun _ _ => True)
    (hgc : ∀ s, I s → I { s with vars := copied s.vars [] }) (machine : Machine) (depth : Nat)
    (file : Option Script) {s : State} (h : I s) :
    Ensures (evalFile machine depth file) s (fun _ s' => I s') fun _ _ => True := by
  unfold evalFile
  refine (termGcHeap_ensures (hgc s h)).bind fun _ s1 h1 => ?_
  cases file with
  | none => exact h1
  | some script => exact hL.yyparse_ensures machine depth script h1

/-- The run lemma for the lines that are typed. Induction on them. -/
theorem Language.repl_ensures
    (hL : Language I (fun _ s => I s) Plain (fun _ _ => True) fun _ _ => True)
    (hgc : ∀ s, I s → I { s with vars := copied s.vars [] }) (machine : Machine) (depth : Nat)
    (lines : List Script) {s : State} (h : I s) :
    Ensures (repl machine depth lines) s (fun _ s' => I s') fun _ _ => True := by
  induction lines generalizing s with
  | nil => exact h
  | cons line rest ih =>
    have hline : Ensures (evalString machine depth line) s (fun _ s' => I s') fun _ _ => True :=
      (termGcHeap_ensures (hgc s h)).bind fun _ _ h1 => hL.yyparse_ensures machine depth line h1
    unfold repl
    refine hline.bind fun _ s1 h1 => ?_
    have hprinted := (hL.toValues.printResult_ensures machine depth h1 (hL.printed s1 h1)).mono
      (fun _ _ h2 => h2) fun _ _ _ => trivial
    exact hprinted.bind fun _ s2 h2 => ih h2

end

theorem tidy_started {s : State} (h : Started s) : Tidy s :=
  started_of_assign (I := Tidy) (fun _ _ => ⟨by simp [State.boot], by simp [State.boot], trivial⟩)
    (fun _ hs name _ ht => hs.assign name (plain_of_literal ht))
    (fun _ hs _ => ⟨hs.nodup, hs.stored, hs.result⟩) h

theorem tidy_of_reaches {machine : Machine} {s s' : State} (hrun : Reaches machine s s')
    (h : Tidy s) : Tidy s' :=
  (plain_language tidy_frame (fun _ h => h) (fun _ h name _ hv => h.assign name hv)
    fun _ h _ hv => ⟨h.nodup, h.stored, hv⟩).reaches (fun _ h _ => h.start) hrun h

/-! ## What resolving a term returns -/

theorem termResolve_identifier (machine : Machine) (depth : Nat) (name : CString) (s : State) :
    termResolve machine (depth + 1) (some (.identifier name)) s
      = termResolve machine depth ((store s.vars name).getD (some (.string (.ofString "")))) s :=
  bind_of_ok (getVariable_eq name s)

theorem termResolve_literal (machine : Machine) (depth : Nat) {t : Term} (h : t.isLiteral)
    (s : State) : termResolve machine (depth + 1) (some t) s = .ok (some t) s := by
  cases t <;> first | rfl | simp [Term.isLiteral] at h

/-- Resolving a term gives a literal or what `setenv` handed back. -/
theorem literal_or_handsBack {machine : Machine} {depth : Nat} {s s' : State} (hs : Tidy s)
    {t v : Term} (ht : t.plain) (h : termResolve machine depth (some t) s = .ok (some v) s') :
    v.isLiteral ∨ HandsBack s.vars t v := by
  induction depth generalizing t with
  | zero => cases h
  | succ depth ih =>
    cases t with
    | identifier name =>
      rw [termResolve_identifier] at h
      cases hst : store s.vars name with
      | none =>
        rw [hst] at h
        cases depth with
        | zero => cases h
        | succ depth =>
          obtain ⟨hv, -⟩ := EStateM.Result.ok.inj h
          left
          rw [← Option.some.inj hv]
          rfl
      | some u =>
        rw [hst] at h
        cases u with
        | none => cases depth <;> cases h
        | some u =>
          obtain ⟨var, hvar, -, hu⟩ := mem_of_store hst
          have hplain : u.plain := by
            have hplain := hs.stored var hvar
            rwa [hu] at hplain
          rcases ih hplain h with hlit | hback
          · exact Or.inl hlit
          · exact Or.inr (.stored name u v hst hback)
    | function handler ps =>
      have hassign : handler ≠ .assign := by
        have hp := (every_function.mp ht).1
        simpa using hp
      have hret := returned_of_run hassign h
      unfold Returned at hret
      split at hret
      · rename_i hset
        subst hset
        cases hlit : v.isLiteral with
        | true => exact Or.inl rfl
        | false => exact Or.inr (.setenv ps v hret.symm hlit)
      · split at hret
        · cases hret
        · obtain ⟨u, hu, hlit⟩ := hret
          rw [Option.some.inj hu]
          exact Or.inl hlit
    | string value | number value | boolean value =>
      obtain ⟨hv, -⟩ := EStateM.Result.ok.inj h
      left
      rw [← Option.some.inj hv]
      rfl

/-- And what `setenv` hands back is what is returned. -/
theorem HandsBack.eq {machine : Machine} {depth : Nat} {s s' : State} {t u v : Term}
    (hu : HandsBack s.vars t u) (h : termResolve machine depth (some t) s = .ok (some v) s') :
    v = u := by
  induction hu generalizing depth with
  | setenv ps u hu hlit =>
    cases depth with
    | zero => cases h
    | succ depth =>
      have hret : Returned .setenv ps (some v) := returned_of_run (by decide) h
      have hv : some v = ps[1]? := hret
      rw [hu] at hv
      exact Option.some.inj hv
  | stored name t u ht hu ih =>
    cases depth with
    | zero => cases h
    | succ depth =>
      rw [termResolve_identifier, ht] at h
      exact ih h

/-! ## Reading a variable -/

/-- Reading `x` gives the literal `v`, in each of the ways to read a variable, and changes
nothing. -/
structure ReadsAs (machine : Machine) (x : CString) (v : Term) (s : State) : Prop where
  literal : v.isLiteral
  resolve : ∀ depth, termResolve machine (depth + 2) (some (.identifier x)) s = .ok (some v) s
  string : ∀ depth n, ∃ str,
    termToString (termResolve machine (depth + 2)) (n + 1) (some v) s = .ok str s ∧
    termToString (termResolve machine (depth + 2)) (n + 1) (some (.identifier x)) s = .ok str s ∧
    getVariableAsString (termResolve machine (depth + 2)) (n + 1) x s = .ok str s
  number : ∀ depth, ∃ k,
    termToNumber (termResolve machine (depth + 2)) (some v) s = .ok k s ∧
    termToNumber (termResolve machine (depth + 2)) (some (.identifier x)) s = .ok k s ∧
    getVariableAsNumber (termResolve machine (depth + 2)) x s = .ok k s
  boolean : ∀ depth, ∃ b,
    termToBoolean (termResolve machine (depth + 2)) (some v) s = .ok b s ∧
    termToBoolean (termResolve machine (depth + 2)) (some (.identifier x)) s = .ok b s ∧
    getVariableAsBoolean (termResolve machine (depth + 2)) x s = .ok b s

/-- What the coercions make of a literal. -/
def Term.asString : Term → CString
  | .string value => value
  | .number value => .ofBytes (decimalInt value.toInt)
  | .boolean value => .ofString (if value then "true" else "false")
  | .identifier _ | .function _ _ => .ofString ""

def Term.asNumber : Term → Int32
  | .string value => toInt32 (strtoull value 0)
  | .number value => value
  | .boolean value => if value then 1 else 0
  | .identifier _ | .function _ _ => 0

def Term.asBoolean : Term → Bool
  | .string value =>
    !(value.strlen = 0 || strcaseeq value (.ofString "0") || strcaseeq value (.ofString "false"))
  | .number value => value ≠ 0
  | .boolean value => value
  | .identifier _ | .function _ _ => false

section

variable {resolve : Option Term → Interp (Option Term)} {rv : Option Term} {s : State} {v : Term}

theorem termToString_literal (hlit : v.isLiteral) (h : resolve rv s = .ok (some v) s) (n : Nat) :
    termToString resolve (n + 1) rv s = .ok v.asString s := by
  cases v with
  | string value | number value | boolean value => exact bind_of_ok h
  | identifier _ | function _ _ => simp [Term.isLiteral] at hlit

theorem termToNumber_literal (hlit : v.isLiteral) (h : resolve rv s = .ok (some v) s) :
    termToNumber resolve rv s = .ok v.asNumber s := by
  cases v with
  | string value | number value | boolean value => exact bind_of_ok h
  | identifier _ | function _ _ => simp [Term.isLiteral] at hlit

theorem termToBoolean_literal (hlit : v.isLiteral) (h : resolve rv s = .ok (some v) s) :
    termToBoolean resolve rv s = .ok v.asBoolean s := by
  cases v with
  | string value | number value | boolean value => exact bind_of_ok h
  | identifier _ | function _ _ => simp [Term.isLiteral] at hlit

/-- `getenv` hands back the text that the U-Boot environment has for its parameter. -/
theorem functionGetenv_eq {depth : Nat} {p : Term} {name : CString} {s' : State}
    (h : termToString resolve depth (some p) s = .ok name s') :
    functionGetenv resolve depth [p] s = .ok (some (.string
      ((ubootEnvGetenv s'.workingUbootEnv name).getD (.ofString "")))) s' := by
  have hget : (get : Interp State) s' = .ok s' s' := rfl
  rw [functionGetenv, List.head?_cons, bind_of_ok h, bind_of_ok hget]
  cases ubootEnvGetenv s'.workingUbootEnv name with
  | none => rfl
  | some value => rfl

end

/-- A variable that holds a literal reads as that literal. -/
theorem readsAs_of_store (machine : Machine) {x : CString} {v : Term} {s : State}
    (hlit : v.isLiteral) (hstore : store s.vars x = some (some v)) : ReadsAs machine x v s := by
  have hvalue : ∀ depth, termResolve machine (depth + 2) (some v) s = .ok (some v) s :=
    fun depth => termResolve_literal machine (depth + 1) hlit s
  have hid : ∀ depth, termResolve machine (depth + 2) (some (.identifier x)) s
      = .ok (some v) s := by
    intro depth
    rw [termResolve_identifier, hstore]
    exact termResolve_literal machine depth hlit s
  obtain ⟨var, hvar, hval⟩ : ∃ var, getVariableImpl s.vars x = some var ∧ var.value = some v :=
    Option.map_eq_some_iff.mp ((getVariableImpl_value s.vars x).trans hstore)
  have hget : (get : Interp State) s = .ok s s := rfl
  refine ⟨hlit, hid, fun depth n => ?_, fun depth => ?_, fun depth => ?_⟩
  · refine ⟨v.asString, termToString_literal hlit (hvalue depth) n,
      termToString_literal hlit (hid depth) n, ?_⟩
    rw [getVariableAsString, bind_of_ok hget, hvar]
    exact termToString_literal hlit (hval ▸ hvalue depth) n
  · refine ⟨v.asNumber, termToNumber_literal hlit (hvalue depth),
      termToNumber_literal hlit (hid depth), ?_⟩
    rw [getVariableAsNumber, bind_of_ok hget, hvar]
    exact termToNumber_literal hlit (hval ▸ hvalue depth)
  · refine ⟨v.asBoolean, termToBoolean_literal hlit (hvalue depth),
      termToBoolean_literal hlit (hid depth), ?_⟩
    rw [getVariableAsBoolean, bind_of_ok hget, hvar]
    exact termToBoolean_literal hlit (hval ▸ hvalue depth)

/-! ## Keeping a value -/

/-- The state comes after `s0`, and `x` has been assigned since or holds `v`. -/
def KeptSince (s0 : State) (x : CString) (v : Term) (s : State) : Prop :=
  Tidy s ∧ ∃ events, s.log = s0.log ++ events ∧
    (.assigned x ∈ events ∨ store s.vars x = some (some v))

/-- The same for whatever the table says about `x`, also that it is not there. -/
def Kept (s0 : State) (x : CString) (entry : Option (Option Term)) (s : State) : Prop :=
  Tidy s ∧ ∃ events, s.log = s0.log ++ events ∧
    (.assigned x ∈ events ∨ store s.vars x = entry)

theorem Kept.assign {s0 s : State} {x : CString} {entry : Option (Option Term)}
    (h : Kept s0 x entry s) (name : CString) {value : Option Term} (hvalue : Plain value) :
    Kept s0 x entry (s.assign name value) := by
  obtain ⟨htidy, events, hlog, hkept⟩ := h
  refine ⟨htidy.assign name hvalue, events ++ [.assigned name], ?_, ?_⟩
  · simp [State.assign, hlog]
  · by_cases hname : name = x
    · simp [hname]
    · rcases hkept with hassigned | hstore
      · exact Or.inl (by simp [hassigned])
      · refine Or.inr ?_
        rw [← hstore, State.assign, store_assigned, if_neg hname]

theorem kept_frame (s0 : State) (x : CString) (entry : Option (Option Term)) :
    Frame (Kept s0 x entry) where
  record s h e _ := by
    obtain ⟨htidy, events, hlog, hkept⟩ := h
    refine ⟨tidy_frame.record s htidy e ‹_›, events ++ [e], by simp [hlog], ?_⟩
    exact hkept.imp_left fun hin => by simp [hin]
  world s h w := ⟨tidy_frame.world s h.1 w, h.2⟩
  env s h e := ⟨tidy_frame.env s h.1 e, h.2⟩
  flag s h name _ b := h.assign name (plain_of_literal rfl)

theorem kept_language (s0 : State) (x : CString) (entry : Option (Option Term)) :
    Language (Kept s0 x entry) (fun _ s => Kept s0 x entry s) Plain (fun _ _ => True)
      fun _ _ => True :=
  plain_language (kept_frame s0 x entry) (fun _ h => h.1) (fun _ h name _ hv => h.assign name hv)
    fun _ h _ hv => ⟨⟨h.1.nodup, h.1.stored, hv⟩, h.2⟩

/-- Collecting the heap keeps what the table says about `x` unless that is a call. -/
theorem Kept.copied {s0 s : State} {x : CString} {entry : Option (Option Term)}
    (hentry : entry.map dupe = entry) (h : Kept s0 x entry s) :
    Kept s0 x entry { s with vars := copied s.vars [] } := by
  obtain ⟨htidy, events, hlog, hkept⟩ := h
  refine ⟨⟨nodup_copied _ (by simp), htidy.start.stored, htidy.result⟩, events, hlog, ?_⟩
  refine hkept.imp_right fun hstore => ?_
  change store (NervesInitramfs.copied s.vars []) x = _
  rw [store_copied htidy.nodup, hstore, hentry]
  simp

theorem KeptSince.reaches {machine : Machine} {s0 s s' : State} {x : CString} {v : Term}
    (hlit : v.isLiteral) (hrun : Reaches machine s s') (h : KeptSince s0 x v s) :
    KeptSince s0 x v s' := by
  have hdupe : dupe (some v) = some v := by
    cases v <;> first | rfl | simp [Term.isLiteral] at hlit
  refine (kept_language s0 x (some (some v))).reaches (fun s h _ => ?_) hrun h
  have hcopied : Kept s0 x (some (some v)) { s with vars := copied s.vars [] } :=
    h.copied (by rw [Option.map_some, hdupe])
  exact ⟨h.1.start, hcopied.2⟩

/-- The states that follow on `s` in which `x` has not been assigned again. -/
def LaterUnassigned (machine : Machine) (x : CString) (s s' : State) : Prop :=
  Reaches machine s s' ∧ ∃ events, s'.log = s.log ++ events ∧ .assigned x ∉ events

/-- In a run, an assignment whose right-hand side gives a value makes its variable read as that
value until it is assigned again exactly when the value is not one that `setenv` hands back
unresolved. -/
theorem assignment_reads_iff {machine : Machine} {s0 s s1 s2 : State} (h0 : Started s0)
    (hrun : Reaches machine s0 s) {depth depth' : Nat} {syn : TermSyntax} {t v : Term}
    (hbuild : buildTerm machine depth syn s = .ok t s1) {x : CString}
    (hassign : runFunction machine depth' (.function .assign [.identifier x, t]) s1
      = .ok (some v) s2) :
    (∀ s3, LaterUnassigned machine x s2 s3 → ReadsAs machine x v s3) ↔
      ∀ u, ¬ HandsBack s1.vars t u := by
  have htidy := tidy_of_reaches hrun (tidy_started h0)
  have hvalues := plain_values tidy_frame fun _ h => h.stored
  obtain ⟨htidy1, hplain⟩ := (hvalues.buildTerm_ensures plain_builds machine depth syn
    syn.calls_true s htidy).ok hbuild
  obtain ⟨s1', hv, hplainv, hs1', rfl⟩ : ∃ s', termResolve machine depth' (some t) s1 = .ok (some v) s' ∧
      Plain (some v) ∧ Tidy s' ∧ s2 = s'.assign x (some v) := by
    have hspec : Ensures (runFunction machine depth' (.function .assign [.identifier x, t])) s1
        (fun w s2 => ∃ s', termResolve machine depth' (some t) s1 = .ok w s' ∧ Plain w ∧ Tidy s' ∧
          s2 = s'.assign x w) fun _ s => Tidy s :=
      hvalues.runAssign_ensures machine depth' hplain htidy1
        fun w s' hs' hw hres => ⟨s', hres, hw, hs', rfl⟩
    exact hspec.ok hassign
  constructor
  · intro hreads u hu
    have hnow := hreads _ ⟨.refl, [], by simp, by simp⟩
    have hlit := hu.not_literal
    rw [← hu.eq hv, hnow.literal] at hlit
    cases hlit
  · rintro hnone s3 ⟨hlater, events, hlog, hunassigned⟩
    have hlit : v.isLiteral := by
      rcases literal_or_handsBack htidy1 hplain hv with hlit | hback
      · exact hlit
      · exact absurd hback (hnone v)
    have hkept : KeptSince (s1'.assign x (some v)) x v (s1'.assign x (some v)) := by
      refine ⟨hs1'.assign x hplainv, [], by simp, Or.inr ?_⟩
      rw [State.assign, store_assigned, if_pos rfl]
    obtain ⟨-, events', hlog', hassigned | hstore⟩ := hkept.reaches hlit hlater
    · rw [hlog] at hlog'
      rw [List.append_cancel_left hlog'] at hunassigned
      exact absurd hassigned hunassigned
    · exact readsAs_of_store machine hlit hstore

theorem assignment_reads_string :
    ReadsAs plainMachine (.ofString "x") (.string (.ofString "a"))
      (plainStart.assign (.ofString "x") (some (.string (.ofString "a")))) := by
  have hbuild : buildTerm plainMachine 5 (.string (.ofString "a")) plainStart
      = .ok (.string (.ofString "a")) plainStart := rfl
  have hassign : runFunction plainMachine 5
      (.function .assign [.identifier (.ofString "x"), .string (.ofString "a")]) plainStart
      = .ok (some (.string (.ofString "a")))
        (plainStart.assign (.ofString "x") (some (.string (.ofString "a")))) := rfl
  refine (assignment_reads_iff started_plainStart .refl hbuild hassign).mpr ?_ _
    ⟨.refl, [], by simp, by simp⟩
  rintro u ⟨⟩

/-- After `x = setenv("a", y)` the variable `x` holds `y`, not the value of `y`. -/
theorem assignment_reads_setenv : ¬ ∀ (machine : Machine) (s0 s s1 s2 : State) (depth depth' : Nat)
    (syn : TermSyntax) (t v : Term) (x : CString), Started s0 → Reaches machine s0 s →
    buildTerm machine depth syn s = .ok t s1 →
    runFunction machine depth' (.function .assign [.identifier x, t]) s1 = .ok (some v) s2 →
    ∀ s3, LaterUnassigned machine x s2 s3 → ReadsAs machine x v s3 := by
  intro hall
  have hreads := hall plainMachine plainStart plainStart plainStart _ 5 5
    (.functionCall (.ofString "setenv") [.string (.ofString "a"), .identifier (.ofString "y")])
    _ (.identifier (.ofString "y")) (.ofString "x") started_plainStart .refl rfl rfl _
    ⟨.refl, [], by simp, by simp⟩
  exact absurd hreads.literal (by decide)

end NervesInitramfs
