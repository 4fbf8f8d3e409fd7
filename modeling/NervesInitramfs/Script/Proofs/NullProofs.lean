import NervesInitramfs.Script.Proofs.StoreProofs
import NervesInitramfs.Script.Proofs.ValueProofs

/-!
# Proofs: no `NULL` where a value is needed

Several built-in functions return `NULL`, and `term_dupe` makes a `NULL` of a call that a variable
holds. Where a script uses the former for their effect only, and the heap is collected when there is
none of the latter, every value is a term.
-/

namespace NervesInitramfs

open CLib

/-- The numbers of arguments that the function is documented with. -/
def Builtin.documented : Builtin → Nat → Bool
  | .assign, n | .add, n | .subtract, n | .setenv, n => n = 2
  | .getenv, n | .readfile, n | .sleep, n => n = 1
  | .cmd, n | .print, n => 1 ≤ n
  | .ls, n => n ≤ 1
  | .blkid, n | .env, n | .fwupRevert, n | .help, n | .loadenv, n | .poweroff, n | .reboot, n
  | .saveenv, n | .vars, n => n = 0

/-- A call of a function with its documented arguments. -/
def DocumentedCall (id : Identifier) (n : Nat) : Prop :=
  ∀ handler, lookupFunction id.name n = some handler → handler.documented n

/-- A call, with its documented arguments, of a function that does not return `NULL`. -/
def ValueCall (id : Identifier) (n : Nat) : Prop :=
  ∀ handler, lookupFunction id.name n = some handler → handler.documented n ∧ handler.isVoid = false

/-- No variable holds a call. -/
def NoCallStored (s : State) : Prop :=
  ∀ v ∈ s.vars, ∀ handler ps, v.value ≠ some (.function handler ps)

/-- The inputs that keep every value a term: functions that return `NULL` are called for their
effect only, and the heap is collected when no variable holds a call. -/
def KeepsValues (i : Input) (s : State) : Prop :=
  i.Calls ValueCall DocumentedCall ∧ (i = .start → NoCallStored s)

/-! ## Usable terms -/

/-- A call of a function that returns a value, with its documented arguments. -/
def Builtin.usable (handler : Builtin) (n : Nat) : Bool :=
  handler ≠ .assign && !handler.isVoid && handler.documented n

/-- A term whose calls, wherever they stand, have their arguments and return values. -/
abbrev Term.usable (t : Term) : Bool := t.every Builtin.usable

/-- A value that is a term, and a usable one. -/
def Usable (v : Option Term) : Prop := ∃ t, v = some t ∧ t.usable

/-- Every variable holds a usable term, and the result to be printed is one if there is one. -/
def AllUsable (s : State) : Prop :=
  (∀ v ∈ s.vars, Usable v.value) ∧ Result Usable s.parserResult

theorem usable_function {handler : Builtin} {ps : List Term} :
    (Term.function handler ps).usable ↔ handler ≠ .assign ∧ handler.isVoid = false ∧
      handler.documented ps.length ∧ ∀ p ∈ ps, p.usable := by
  simp [every_function, Builtin.usable, and_assoc]

theorem needed_le_of_documented {handler : Builtin} {n : Nat} (h : handler.documented n) :
    handler.needed ≤ n := by
  cases handler <;> simp_all [Builtin.documented, Builtin.needed]

/-- `inspect` knows every function, by a number of parameters that it has. -/
theorem functionInfoByFun_some (handler : Builtin) :
    ∃ info, functionInfoByFun handler = some info ∧
      ∀ n, handler.documented n → info.arity ≤ n := by
  cases handler <;> refine ⟨_, rfl, fun n hn => ?_⟩ <;> simp_all [Builtin.documented]

mutual

theorem inspect_isSome (t : Term) (h : t.usable) : (inspect t).isSome := by
  match t with
  | .identifier _ | .string _ | .number _ | .boolean _ => rfl
  | .function handler ps =>
    obtain ⟨-, -, hdoc, hps⟩ := usable_function.mp h
    obtain ⟨info, hinfo, harity⟩ := functionInfoByFun_some handler
    have hinside := inspectParameters_isSome ps info.arity (harity _ hdoc) hps
    obtain ⟨inside, hsome⟩ := Option.isSome_iff_exists.mp hinside
    simp [inspect, hinfo, hsome]

theorem inspectParameters_isSome (ps : List Term) (n : Nat) (hn : n ≤ ps.length)
    (h : ∀ p ∈ ps, p.usable) : (inspectParameters n ps).isSome := by
  match n, ps with
  | 0, _ => simp [inspectParameters]
  | n + 1, [] => simp at hn
  | n + 1, p :: rest =>
    obtain ⟨first, hfirst⟩ := Option.isSome_iff_exists.mp (inspect_isSome p (h p (by simp)))
    have hrest := inspectParameters_isSome rest n (by simpa using hn) fun q hq => h q (by simp [hq])
    obtain ⟨others, hothers⟩ := Option.isSome_iff_exists.mp hrest
    simp [inspectParameters, hfirst, hothers]

end

/-! ## The language of usable terms -/

theorem usable_assigned {s : State} (h : AllUsable s) (name : CString) {v : Option Term}
    (hv : Usable v) : AllUsable (s.assign name v) := by
  refine ⟨fun u hu => ?_, h.2⟩
  rcases mem_assigned hu with hin | rfl
  · exact h.1 u hin
  · exact hv

theorem usable_of_literal {t : Term} (h : t.isLiteral) : Usable (some t) :=
  ⟨t, rfl, every_literal h⟩

theorem operand_usable {handler : Builtin} {ps : List Term} (hdoc : handler.documented ps.length)
    (hps : ∀ p ∈ ps, Usable (some p)) (p : Option Term) (hp : IsOperand handler ps p) : Usable p := by
  cases p with
  | none =>
    have hneeded := needed_le_of_documented hdoc
    have hfew : ps.length < handler.needed := hp
    omega
  | some p => exact hps p hp

theorem usable_language :
    Language AllUsable (fun e s => e ≠ .nullDereference ∧ AllUsable s) Usable ValueCall
      DocumentedCall where
  frame := {
    record := fun _ h _ _ => h
    world := fun _ h _ => h
    env := fun _ h _ => h
    flag := fun _ h name _ b => usable_assigned h name (usable_of_literal rfl) }
  stored s h := h.1
  literal t ht := usable_of_literal ht
  operand handler ps h := by
    obtain ⟨t, ht, husable⟩ := h
    obtain rfl := Option.some.inj ht
    obtain ⟨-, -, hdoc, hps⟩ := usable_function.mp husable
    exact operand_usable hdoc fun p hp => ⟨p, rfl, hps p hp⟩
  notAssign ps h := by
    obtain ⟨t, ht, husable⟩ := h
    obtain rfl := Option.some.inj ht
    exact (usable_function.mp husable).1 rfl
  void handler ps h hvoid := by
    obtain ⟨t, ht, husable⟩ := h
    obtain rfl := Option.some.inj ht
    simp [(usable_function.mp husable).2.1] at hvoid
  null h := by
    obtain ⟨t, ht, -⟩ := h
    cases ht
  inspectable := by
    right
    intro s h v hv
    obtain ⟨t, ht, husable⟩ := h.1 v hv
    rw [ht]
    exact inspect_isSome t husable
  ends s h e he := ⟨he, h⟩
  identifier name := ⟨_, rfl, rfl⟩
  operator handler l r hop hassign hl hr := by
    obtain ⟨_, hl', hlu⟩ := hl
    obtain ⟨_, hr', hru⟩ := hr
    obtain rfl := Option.some.inj hl'
    obtain rfl := Option.some.inj hr'
    refine ⟨_, rfl, usable_function.mpr ?_⟩
    cases handler <;> simp_all [Builtin.isOperator, Builtin.isVoid, Builtin.documented]
  call id ps handler hcall hlookup hps := by
    obtain ⟨hdoc, hvoid⟩ := hcall handler hlookup
    refine ⟨_, rfl, usable_function.mpr ⟨?_, hvoid, hdoc, fun p hp => ?_⟩⟩
    · rintro rfl
      have hop := lookupFunction_identifier id hlookup
      simp [Builtin.isOperator] at hop
    · obtain ⟨_, ht, hu⟩ := hps p hp
      obtain rfl := Option.some.inj ht
      exact hu
  actions id ps handler hcall hlookup hps := operand_usable (hcall handler hlookup) hps
  assign s h name v hv := usable_assigned h name hv
  result s h v hv := ⟨h.1, hv⟩
  printed s h := h.2

/-! ## Runs -/

theorem start_usable {s : State} (h : AllUsable s) (hcalls : NoCallStored s) (machine : Machine)
    (depth : Nat) : ∃ s', evalInput machine depth .start s = .ok () s' ∧ AllUsable s' := by
  have hsome : ∀ v ∈ s.vars, v.value ≠ none := by
    intro v hv
    obtain ⟨t, ht, -⟩ := h.1 v hv
    simp [ht]
  refine ⟨{ s with vars := copied s.vars [], parserResult := none }, ?_, fun v hv => ?_, Or.inl rfl⟩
  · change (termGcHeap >>= fun _ => modify fun s => { s with parserResult := none }) s = _
    rw [bind_of_ok (termGcHeap_eq hsome)]
    rfl
  · rcases mem_copied hv with hin | ⟨u, hu, rfl⟩
    · simp at hin
    · obtain ⟨t, ht, husable⟩ := h.1 u hu
      have hnot := hcalls u hu
      rw [ht] at hnot ⊢
      cases t with
      | function handler ps => exact absurd rfl (hnot handler ps)
      | _ => exact ⟨_, rfl, husable⟩

/-- The step lemma: an input that keeps values neither meets a `NULL` nor leaves one. -/
theorem evalInput_usable {i : Input} {s : State} (hi : KeepsValues i s) (h : AllUsable s)
    (machine : Machine) (depth : Nat) :
    Ensures (evalInput machine depth i) s (fun _ s' => AllUsable s')
      (fun e s' => e ≠ .nullDereference ∧ AllUsable s') := by
  by_cases hstart : i = .start
  · subst hstart
    obtain ⟨s', heval, h'⟩ := start_usable h (hi.2 rfl) machine depth
    unfold Ensures
    rw [heval]
    exact h'
  · exact usable_language.evalInput_ensures machine depth hstart hi.1 h

theorem started_usable {s : State} (h : Started s) : AllUsable s :=
  started_of_assign (I := AllUsable) (fun _ _ => ⟨by simp [State.boot], Or.inl rfl⟩)
    (fun _ hs name _ ht => usable_assigned hs name (usable_of_literal ht)) (fun _ hs _ => hs) h

theorem Step.usable {machine : Machine} {i : Input} {s s' : State} (hi : KeepsValues i s)
    (h : AllUsable s) (hstep : Step machine i s s') : AllUsable s' := by
  obtain ⟨depth, hok | herror⟩ := hstep
  · exact (evalInput_usable hi h machine depth).ok hok
  · exact ((evalInput_usable hi h machine depth).error herror).2

/-- In a run whose inputs keep values, every variable holds a term in every state, and no input that
keeps values meets a `NULL`. -/
theorem no_null_dereference (machine : Machine) {s0 s : State} (h0 : Started s0)
    (hrun : Relation.ReflTransGen (fun s s' => ∃ i, KeepsValues i s ∧ Step machine i s s') s0 s) :
    (∀ v ∈ s.vars, v.value ≠ none) ∧ ∀ i depth s', KeepsValues i s →
      evalInput machine depth i s ≠ .error .nullDereference s' := by
  have h : AllUsable s := by
    induction hrun with
    | refl => exact started_usable h0
    | tail _ hstep ih =>
      obtain ⟨i, hi, hstep⟩ := hstep
      exact hstep.usable hi ih
  constructor
  · intro v hv
    obtain ⟨t, ht, -⟩ := h.1 v hv
    simp [ht]
  · intro i depth s' hi herror
    exact ((evalInput_usable hi h machine depth).error herror).1 rfl

/-- The statement `x = "a"`. -/
def assignA : StatementSyntax := .action (.assignment letterX (.string (.ofString "a")))

theorem no_null_dereference_assignA :
    (∀ v ∈ (stateAfter (evalInput plainMachine 5 (.statement assignA) plainStart)).vars,
      v.value ≠ none) ∧
    ∀ i depth s', KeepsValues i (stateAfter (evalInput plainMachine 5 (.statement assignA) plainStart)) →
      evalInput plainMachine depth i
        (stateAfter (evalInput plainMachine 5 (.statement assignA) plainStart)) ≠
          .error .nullDereference s' :=
  no_null_dereference plainMachine started_plainStart
    (.single ⟨.statement assignA, ⟨trivial, by simp⟩, 5, Or.inl rfl⟩)

/-- The statement `print(print("a"))`. -/
def printPrint : StatementSyntax :=
  .action (.functionCall namePrint [.functionCall namePrint [.string (.ofString "a")]])

theorem documented_printPrint : printPrint.Calls DocumentedCall DocumentedCall := by
  have hprint : DocumentedCall (.ofString "print") 1 := by
    intro handler h
    obtain rfl := Option.some.inj ((rfl : lookupFunction _ 1 = some .print).symm.trans h)
    rfl
  exact ⟨hprint, ⟨hprint, trivial, trivial⟩, trivial⟩

/-- Documented arguments alone do not keep values: `print` hands its `NULL` to `print`. -/
theorem null_dereference_printPrint : ¬ ∀ (machine : Machine) (s0 s : State), Started s0 →
    Relation.ReflTransGen (fun s s' => ∃ i, i.Calls DocumentedCall DocumentedCall ∧
      Step machine i s s') s0 s →
    (∀ v ∈ s.vars, v.value ≠ none) ∧ ∀ i depth s', i.Calls DocumentedCall DocumentedCall →
      evalInput machine depth i s ≠ .error .nullDereference s' := by
  intro hall
  obtain ⟨-, hnever⟩ := hall plainMachine plainStart plainStart started_plainStart .refl
  exact hnever (.statement printPrint) 5 _ documented_printPrint rfl

end NervesInitramfs
