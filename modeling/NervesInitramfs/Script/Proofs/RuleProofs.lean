import NervesInitramfs.Script.Proofs.AssignProofs

/-!
# Proofs: when the actions of a rule are evaluated

The parser builds the actions of a rule before it is known to fire, and evaluates the operands of
unary minus while it builds them. That makes no difference where these operands are made of literals
only.
-/

namespace NervesInitramfs

open CLib

/-! ## What building a term evaluates -/

/-- A term whose value depends on nothing: no identifier and no call of a function by name. -/
def TermSyntax.inert : TermSyntax → Bool
  | .add left right | .subtract left right => left.inert && right.inert
  | .neg t | .paren t => t.inert
  | .string _ | .number _ _ | .boolean _ => true
  | .identifier _ | .functionCall _ _ => false

mutual

/-- Every operand of a unary minus in the term is inert. -/
def TermSyntax.negsInert : TermSyntax → Bool
  | .add left right | .subtract left right => left.negsInert && right.negsInert
  | .neg t => t.inert
  | .paren t => t.negsInert
  | .functionCall _ parameters => negsInertIn parameters
  | .identifier _ | .string _ | .number _ _ | .boolean _ => true

def negsInertIn : List TermSyntax → Bool
  | [] => true
  | t :: rest => t.negsInert && negsInertIn rest

end

def ActionSyntax.negsInert : ActionSyntax → Bool
  | .functionCall _ parameters => negsInertIn parameters
  | .assignment _ value => value.negsInert

/-- A call of a function that exists. -/
def KnownCall (id : Identifier) (n : Nat) : Prop := (lookupFunction id.name n).isSome

/-- The block as it is meant to be run: every action is built when its turn has come. -/
def runDeferred (machine : Machine) (depth : Nat) : List ActionSyntax → Interp Unit
  | [] => pure ()
  | a :: rest => do
    let t ← buildAction machine depth a
    let _ ← runFunction machine depth t
    runDeferred machine depth rest

/-- From some depth on, a rule with this block does nothing beyond evaluating its condition when
that is false, and runs the deferred actions when it is true. -/
def ActsWhenFired (machine : Machine) (block : List ActionSyntax) : Prop :=
  ∃ N, ∀ depth ≥ N, ∀ condition s fires s',
    evalBoolean machine depth condition s = .ok fires s' →
    evalStatement machine depth (.rule condition block) s =
      if fires then (do runDeferred machine depth block; pure none) s' else .ok none s'

/-! ## Inert operands -/

/-- A term with a number that resolving it gives at every depth from `N` on, in every state. -/
def Evaluates (machine : Machine) (N : Nat) (t : Term) (k : Int32) : Prop :=
  ∀ depth ≥ N, ∀ s, termToNumber (termResolve machine depth) (some t) s = .ok k s

/-- A term that building gives at every depth from `N` on, in every state. -/
def BuildsTo (machine : Machine) (N : Nat) (syn : TermSyntax) (t : Term) : Prop :=
  ∀ depth ≥ N, ∀ s, buildTerm machine depth syn s = .ok t s

section

variable {machine : Machine}

theorem evaluates_literal (machine : Machine) {t : Term} (h : t.isLiteral) :
    Evaluates machine 1 t t.asNumber := by
  intro depth hdepth s
  obtain ⟨depth, rfl⟩ : ∃ d, depth = d + 1 := ⟨depth - 1, by omega⟩
  exact termToNumber_literal h (termResolve_literal machine depth h s)

/-- The operator takes its operands for numbers and gives a number, which is `op` of them. -/
structure Arithmetic (machine : Machine) (handler : Builtin) (op : Int32 → Int32 → Int32) :
    Prop where
  operator : handler.isOperator
  run : ∀ resolve depth l r, handler.run machine resolve depth [l, r] = do
    let a ← termToNumber resolve (some l)
    let b ← termToNumber resolve (some r)
    pure (some (Term.number (op a b)))

theorem arithmetic_add : Arithmetic machine .add (· + ·) := ⟨rfl, fun _ _ _ _ => rfl⟩

theorem arithmetic_subtract : Arithmetic machine .subtract (· - ·) := ⟨rfl, fun _ _ _ _ => rfl⟩

/-- Resolving a call of an operator leaves no trace of its own. -/
theorem Arithmetic.resolve {handler : Builtin} {op : Int32 → Int32 → Int32}
    (ha : Arithmetic machine handler op) (depth : Nat) (l r : Term) (s : State) :
    termResolve machine (depth + 1) (some (.function handler [l, r])) s = (do
      let a ← termToNumber (termResolve machine depth) (some l)
      let b ← termToNumber (termResolve machine depth) (some r)
      pure (some (Term.number (op a b))) : Interp (Option Term)) s := by
  have hcall : recordCall handler s = .ok () s := by
    unfold recordCall
    rw [if_pos ha.operator]
    rfl
  rw [← ha.run]
  exact bind_of_ok hcall

theorem evaluates_operator {handler : Builtin} {op : Int32 → Int32 → Int32}
    (ha : Arithmetic machine handler op) {l r : Term} {N M : Nat} {a b : Int32}
    (hl : Evaluates machine N l a) (hr : Evaluates machine M r b) :
    Evaluates machine (max N M + 1) (.function handler [l, r]) (op a b) := by
  intro depth hdepth s
  obtain ⟨depth, rfl⟩ : ∃ d, depth = d + 1 := ⟨depth - 1, by omega⟩
  refine bind_of_ok (a := some (Term.number (op a b))) ?_
  rw [ha.resolve, bind_of_ok (hl depth (by omega) s), bind_of_ok (hr depth (by omega) s)]
  rfl

theorem Evaluates.mono {N M : Nat} {t : Term} {k : Int32} (h : Evaluates machine N t k)
    (hle : N ≤ M) : Evaluates machine M t k := fun depth hdepth => h depth (by omega)

theorem BuildsTo.mono {N M : Nat} {syn : TermSyntax} {t : Term} (h : BuildsTo machine N syn t)
    (hle : N ≤ M) : BuildsTo machine M syn t := fun depth hdepth => h depth (by omega)

theorem BuildsTo.add {N M : Nat} {left right : TermSyntax} {l r : Term}
    (hl : BuildsTo machine N left l) (hr : BuildsTo machine M right r) :
    BuildsTo machine (max N M) (.add left right) (.function .add [l, r]) := by
  intro depth hdepth s
  unfold buildTerm
  rw [bind_of_ok (hl depth (by omega) s), bind_of_ok (hr depth (by omega) s)]
  rfl

theorem BuildsTo.subtract {N M : Nat} {left right : TermSyntax} {l r : Term}
    (hl : BuildsTo machine N left l) (hr : BuildsTo machine M right r) :
    BuildsTo machine (max N M) (.subtract left right) (.function .subtract [l, r]) := by
  intro depth hdepth s
  unfold buildTerm
  rw [bind_of_ok (hl depth (by omega) s), bind_of_ok (hr depth (by omega) s)]
  rfl

theorem BuildsTo.neg {N : Nat} {operand : TermSyntax} {t : Term} {k : Int32}
    (ht : BuildsTo machine N operand t) (hk : Evaluates machine N t k) :
    BuildsTo machine N (.neg operand) (.number (-k)) := by
  intro depth hdepth s
  unfold buildTerm
  rw [bind_of_ok (ht depth hdepth s), bind_of_ok (hk depth hdepth s)]
  rfl

theorem BuildsTo.paren {N : Nat} {inner : TermSyntax} {t : Term} (ht : BuildsTo machine N inner t) :
    BuildsTo machine N (.paren inner) t := by
  intro depth hdepth s
  unfold buildTerm
  exact ht depth hdepth s

/-- An inert term builds and evaluates without looking at the state. -/
theorem builds_of_inert (machine : Machine) {syn : TermSyntax} (h : syn.inert) :
    ∃ t N k, BuildsTo machine N syn t ∧ Evaluates machine N t k := by
  have hliteral : ∀ {syn : TermSyntax} {t : Term}, t.isLiteral → BuildsTo machine 1 syn t →
      ∃ t N k, BuildsTo machine N syn t ∧ Evaluates machine N t k := by
    intro syn t hlit hbuild
    exact ⟨t, 1, _, hbuild, evaluates_literal machine hlit⟩
  induction syn using TermSyntax.inert.induct with
  | case1 left right ihl ihr =>
    simp only [TermSyntax.inert, Bool.and_eq_true] at h
    obtain ⟨l, N, a, hl, hla⟩ := ihl h.1
    obtain ⟨r, M, b, hr, hrb⟩ := ihr h.2
    exact ⟨_, _, a + b, (hl.add hr).mono (Nat.le_succ _),
      evaluates_operator arithmetic_add hla hrb⟩
  | case2 left right ihl ihr =>
    simp only [TermSyntax.inert, Bool.and_eq_true] at h
    obtain ⟨l, N, a, hl, hla⟩ := ihl h.1
    obtain ⟨r, M, b, hr, hrb⟩ := ihr h.2
    exact ⟨_, _, a - b, (hl.subtract hr).mono (Nat.le_succ _),
      evaluates_operator arithmetic_subtract hla hrb⟩
  | case3 operand ih =>
    obtain ⟨t, N, k, ht, hk⟩ := ih h
    have hvalue := evaluates_literal machine (t := .number (-k)) rfl
    exact ⟨_, max N 1, _, (ht.neg hk).mono (by omega), hvalue.mono (by omega)⟩
  | case4 inner ih =>
    obtain ⟨t, N, k, ht, hk⟩ := ih h
    exact ⟨t, N, k, ht.paren, hk⟩
  | case5 value => exact hliteral (t := .string value) rfl fun _ _ _ => rfl
  | case6 base digits =>
    exact hliteral (t := .number (toInt32 (strtou machine.bits base digits))) rfl fun _ _ _ => rfl
  | case7 value => exact hliteral (t := .boolean value) rfl fun _ _ _ => rfl
  | case8 | case9 => simp [TermSyntax.inert] at h

/-! ## Building without evaluating -/

theorem buildCall_eq {name : CString} {ps : List Term} {handler : Builtin}
    (h : lookupFunction name ps.length = some handler) (s : State) :
    buildCall name ps s = .ok (.function handler ps) s := by
  unfold buildCall termNewFun
  rw [h]
  rfl

mutual

/-- Building a term evaluates nothing when the operands of unary minus are inert. -/
theorem builds_of_negsInert (machine : Machine) (syn : TermSyntax) (hknown : syn.Calls KnownCall)
    (h : syn.negsInert) : ∃ t N, BuildsTo machine N syn t := by
  match syn with
  | .add left right =>
    simp only [TermSyntax.negsInert, Bool.and_eq_true] at h
    obtain ⟨l, N, hl⟩ := builds_of_negsInert machine left hknown.1 h.1
    obtain ⟨r, M, hr⟩ := builds_of_negsInert machine right hknown.2 h.2
    exact ⟨_, _, hl.add hr⟩
  | .subtract left right =>
    simp only [TermSyntax.negsInert, Bool.and_eq_true] at h
    obtain ⟨l, N, hl⟩ := builds_of_negsInert machine left hknown.1 h.1
    obtain ⟨r, M, hr⟩ := builds_of_negsInert machine right hknown.2 h.2
    exact ⟨_, _, hl.subtract hr⟩
  | .neg operand =>
    obtain ⟨t, N, k, ht, hk⟩ := builds_of_inert machine h
    exact ⟨_, N, ht.neg hk⟩
  | .paren inner =>
    obtain ⟨t, N, ht⟩ := builds_of_negsInert machine inner hknown h
    exact ⟨t, N, ht.paren⟩
  | .identifier id => exact ⟨.identifier id.name, 0, fun _ _ _ => rfl⟩
  | .string value => exact ⟨.string value, 0, fun _ _ _ => rfl⟩
  | .number base digits =>
    exact ⟨.number (toInt32 (strtou machine.bits base digits)), 0, fun _ _ _ => rfl⟩
  | .boolean value => exact ⟨.boolean value, 0, fun _ _ _ => rfl⟩
  | .functionCall id parameters =>
    obtain ⟨ps, N, hlen, hps⟩ := builds_list_of_negsInert machine parameters hknown.2 h
    obtain ⟨handler, hlookup⟩ := Option.isSome_iff_exists.mp hknown.1
    refine ⟨.function handler ps, N, fun depth hdepth s => ?_⟩
    unfold buildTerm
    rw [bind_of_ok (hps depth hdepth s)]
    exact buildCall_eq (hlen ▸ hlookup) s

theorem builds_list_of_negsInert (machine : Machine) (syns : List TermSyntax)
    (hknown : CallsIn KnownCall syns) (h : negsInertIn syns) : ∃ ts N, ts.length = syns.length ∧
      ∀ depth ≥ N, ∀ s, buildTerms machine depth syns s = .ok ts s := by
  match syns with
  | [] => exact ⟨[], 0, rfl, fun _ _ _ => rfl⟩
  | syn :: rest =>
    simp only [negsInertIn, Bool.and_eq_true] at h
    obtain ⟨t, N, ht⟩ := builds_of_negsInert machine syn hknown.1 h.1
    obtain ⟨ts, M, hlen, hts⟩ := builds_list_of_negsInert machine rest hknown.2 h.2
    refine ⟨t :: ts, max N M, by simp [hlen], fun depth hdepth s => ?_⟩
    unfold buildTerms
    rw [bind_of_ok (ht depth (by omega) s), bind_of_ok (hts depth (by omega) s)]
    rfl

end

theorem builds_action_of_negsInert (machine : Machine) {a : ActionSyntax} (hknown : a.Calls KnownCall KnownCall)
    (h : a.negsInert) : ∃ t N, ∀ depth ≥ N, ∀ s, buildAction machine depth a s = .ok t s := by
  cases a with
  | functionCall id parameters =>
    obtain ⟨ps, N, hlen, hps⟩ := builds_list_of_negsInert machine parameters hknown.2 h
    obtain ⟨handler, hlookup⟩ := Option.isSome_iff_exists.mp hknown.1
    refine ⟨.function handler ps, N, fun depth hdepth s => ?_⟩
    simp only [buildAction]
    rw [bind_of_ok (hps depth hdepth s)]
    exact buildCall_eq (hlen ▸ hlookup) s
  | assignment id value =>
    obtain ⟨t, N, ht⟩ := builds_of_negsInert machine value hknown h
    refine ⟨.function .assign [.identifier id.name, t], N, fun depth hdepth s => ?_⟩
    simp only [buildAction]
    rw [bind_of_ok (ht depth hdepth s)]
    rfl

/-- Then the actions of a block can as well be built before any of them is run. -/
theorem runs_deferred_of_negsInert (machine : Machine) {block : List ActionSyntax}
    (hknown : ∀ a ∈ block, a.Calls KnownCall KnownCall) (h : ∀ a ∈ block, a.negsInert) :
    ∃ ts N, ∀ depth ≥ N, (∀ s, buildActions machine depth block s = .ok ts s) ∧
      ∀ last s, (do let _ ← runFunctions machine depth last ts; pure () : Interp Unit) s
        = runDeferred machine depth block s := by
  induction block with
  | nil => exact ⟨[], 0, fun _ _ => ⟨fun _ => rfl, fun _ _ => rfl⟩⟩
  | cons a rest ih =>
    obtain ⟨ts, N, hts⟩ := ih (fun b hb => hknown b (by simp [hb])) fun b hb => h b (by simp [hb])
    obtain ⟨t, M, ht⟩ := builds_action_of_negsInert machine (hknown a (by simp))
      (h a (by simp))
    refine ⟨t :: ts, max N M, fun depth hdepth => ?_⟩
    obtain ⟨hbuild, hrun⟩ := hts depth (by omega)
    constructor
    · intro s
      unfold buildActions
      rw [bind_of_ok (ht depth (by omega) s), bind_of_ok (hbuild s)]
      rfl
    · intro last s
      have hstep : ∀ (m : Interp (Option Term)) (s : State),
          ((m >>= fun v => runFunctions machine depth v ts) >>= fun _ => pure ()) s
            = (m >>= fun _ => runDeferred machine depth rest) s := by
        intro m s
        simp only [bind, EStateM.bind] at hrun ⊢
        cases m s with
        | ok v s1 => exact hrun v s1
        | error e s1 => rfl
      unfold runFunctions runDeferred
      rw [hstep, bind_of_ok (ht depth (by omega) s)]

/-! ## Operands that call something -/

/-- The state comes after `s0`, and something has happened in between. -/
def Grown (s0 s : State) : Prop := Tidy s ∧ s0.log.length < s.log.length

theorem grown_frame (s0 : State) : Frame (Grown s0) where
  record s h e he := ⟨tidy_frame.record s h.1 e he, by simpa using Nat.lt_succ_of_lt h.2⟩
  world s h world := ⟨tidy_frame.world s h.1 world, h.2⟩
  env s h env := ⟨tidy_frame.env s h.1 env, h.2⟩
  flag s h name hname b :=
    ⟨tidy_frame.flag s h.1 name hname b, by simpa [State.assign] using Nat.lt_succ_of_lt h.2⟩

theorem grown_values (s0 : State) : Values (Grown s0) (fun _ _ => True) Plain :=
  { plain_values (grown_frame s0) fun _ h => h.1.stored with
    null := fun _ _ _ => trivial
    inspectable := Or.inl fun _ _ => trivial
    ends := fun _ _ _ _ => trivial }

/-- When it returns, something has happened. -/
def Acts {α : Type} (m : Interp α) (s : State) : Prop :=
  Ensures m s (fun _ s' => Grown s s') fun _ _ => True

theorem Acts.bind {α β : Type} {m : Interp α} {f : α → Interp β} {s : State} (hm : Acts m s)
    (hf : ∀ a s', Grown s s' → Ensures (f a) s' (fun _ s2 => Grown s s2) fun _ _ => True) :
    Acts (m >>= f) s := Ensures.bind hm hf

theorem Acts.bind_of_ok {α β : Type} {m : Interp α} {f : α → Interp β} {s : State} {a : α}
    (hm : m s = .ok a s) (hf : Acts (f a) s) : Acts (m >>= f) s := by
  unfold Acts Ensures at hf ⊢
  rwa [CLib.bind_of_ok hm]

/-- A call of a function by name is itself something that happens. -/
theorem resolve_call_acts {handler : Builtin} {ps : List Term} (hop : handler.isOperator = false)
    (hplain : Plain (some (.function handler ps))) (depth : Nat) {s : State} (hs : Tidy s) :
    Acts (termResolve machine depth (some (.function handler ps))) s := by
  cases depth with
  | zero => trivial
  | succ depth =>
    have hassign : handler ≠ .assign := by
      rintro rfl
      simp [Builtin.isOperator] at hop
    have hcalled : recordCall handler s = .ok () { s with log := s.log ++ [.called handler] } := by
      unfold recordCall
      rw [hop]
      rfl
    have hgrown : Grown s { s with log := s.log ++ [.called handler] } :=
      ⟨tidy_frame.record s hs _ (by simp), by simp⟩
    have hV := grown_values s
    have hops := hV.operands (hV.termResolve_ensures machine depth) depth
      (hV.operand handler ps hplain)
    have hrun := (run_ensures hV.frame machine hassign hgrown hops).mono
      (fun _ _ h => h.1) fun _ _ h => h
    unfold Ensures at hrun
    change Ensures (recordCall handler >>= fun _ =>
      handler.run machine (termResolve machine depth) depth ps) s _ _
    unfold Ensures
    rwa [CLib.bind_of_ok hcalled]

/-- A state in which reading the variable calls a function. -/
def Armed (name : CString) (s : State) : Prop :=
  Tidy s ∧ store s.vars name
    = some (some (.function .setenv [.string (.ofString "a"), .string (.ofString "b")]))

theorem resolve_identifier_acts {name : CString} (depth : Nat) {s : State} (hs : Armed name s) :
    Acts (termResolve machine depth (some (.identifier name))) s := by
  cases depth with
  | zero => trivial
  | succ depth =>
    unfold Acts Ensures
    rw [termResolve_identifier, hs.2]
    exact resolve_call_acts rfl (rfl : Term.plain _ = true) depth hs.1

theorem toNumber_acts {depth : Nat} {rv : Option Term} {s : State}
    (h : Acts (termResolve machine depth rv) s) :
    Acts (termToNumber (termResolve machine depth) rv) s := by
  unfold termToNumber
  refine h.bind fun v s' hs' => ?_
  rcases v with _ | ⟨name | value | value | value | ⟨handler, ps⟩⟩
  · trivial
  all_goals exact hs'

/-- Evaluating the term as a number does something wherever the variable is armed. -/
def ActsAsNumber (machine : Machine) (name : CString) (N : Nat) (t : Term) : Prop :=
  ∀ depth ≥ N, ∀ s, Armed name s → Acts (termToNumber (termResolve machine depth) (some t)) s

theorem operator_acts_left {handler : Builtin} {op : Int32 → Int32 → Int32}
    (ha : Arithmetic machine handler op) {name : CString} {N : Nat} {l r : Term}
    (hl : ActsAsNumber machine name N l) (hr : Plain (some r)) :
    ActsAsNumber machine name (N + 1) (.function handler [l, r]) := by
  intro depth hdepth s hs
  obtain ⟨depth, rfl⟩ : ∃ d, depth = d + 1 := ⟨depth - 1, by omega⟩
  refine toNumber_acts ?_
  unfold Acts Ensures
  rw [ha.resolve]
  refine (hl depth (by omega) s hs).bind fun a s1 h1 => ?_
  have hV := grown_values s
  exact (hV.termToNumber_ensures (hV.termResolve_ensures machine depth) hr h1).bind
    fun b s2 h2 => h2

theorem operator_acts_right {handler : Builtin} {op : Int32 → Int32 → Int32}
    (ha : Arithmetic machine handler op) {name : CString} {N M : Nat} {l r : Term} {a : Int32}
    (hl : Evaluates machine N l a) (hr : ActsAsNumber machine name M r) :
    ActsAsNumber machine name (max N M + 1) (.function handler [l, r]) := by
  intro depth hdepth s hs
  obtain ⟨depth, rfl⟩ : ∃ d, depth = d + 1 := ⟨depth - 1, by omega⟩
  refine toNumber_acts ?_
  unfold Acts Ensures
  rw [ha.resolve, CLib.bind_of_ok (hl depth (by omega) s)]
  exact (hr depth (by omega) s hs).bind fun b s1 h1 => h1

theorem ActsAsNumber.mono {name : CString} {N M : Nat} {t : Term}
    (h : ActsAsNumber machine name N t) (hle : N ≤ M) : ActsAsNumber machine name M t :=
  fun depth hdepth => h depth (by omega)

theorem BuildsTo.plain {N : Nat} {syn : TermSyntax} {t : Term} (h : BuildsTo machine N syn t) :
    Plain (some t) := by
  have hboot : Tidy (State.boot [] plainWorld) := ⟨by simp [State.boot], by simp [State.boot], trivial⟩
  exact (((plain_values tidy_frame fun _ h => h.stored).buildTerm_ensures plain_builds machine N syn
    syn.calls_true _ hboot).ok (h N le_rfl _)).2

/-- An operator with an operand that does something. -/
theorem Arithmetic.acts {handler : Builtin} {op : Int32 → Int32 → Int32}
    (ha : Arithmetic machine handler op) {left right : TermSyntax}
    (hright : right.Calls KnownCall) (hnegsr : right.negsInert)
    (ihl : left.inert = false → ∃ name t N, BuildsTo machine N left t ∧
      ActsAsNumber machine name N t)
    (ihr : right.inert = false → ∃ name t N, BuildsTo machine N right t ∧
      ActsAsNumber machine name N t)
    (h : (left.inert && right.inert) = false) :
    ∃ name l r N, BuildsTo machine N left l ∧ BuildsTo machine N right r ∧
      ActsAsNumber machine name N (.function handler [l, r]) := by
  cases hl : left.inert with
  | false =>
    obtain ⟨name, l, N, hbuild, hacts⟩ := ihl hl
    obtain ⟨r, M, hr⟩ := builds_of_negsInert machine right hright hnegsr
    exact ⟨name, l, r, max (N + 1) M, hbuild.mono (by omega), hr.mono (by omega),
      (operator_acts_left ha hacts hr.plain).mono (by omega)⟩
  | true =>
    obtain ⟨l, N, a, hbuild, hk⟩ := builds_of_inert machine hl
    obtain ⟨name, r, M, hr, hacts⟩ := ihr (by simpa [hl] using h)
    exact ⟨name, l, r, max N M + 1, hbuild.mono (by omega), hr.mono (by omega),
      operator_acts_right ha hk hacts⟩

/-- A term that is not inert does something where one of its variables is armed. -/
theorem acts_of_not_inert (machine : Machine) {syn : TermSyntax} (hknown : syn.Calls KnownCall)
    (hnegs : syn.negsInert) (h : syn.inert = false) :
    ∃ name t N, BuildsTo machine N syn t ∧ ActsAsNumber machine name N t := by
  induction syn using TermSyntax.inert.induct with
  | case1 left right ihl ihr =>
    simp only [TermSyntax.negsInert, Bool.and_eq_true] at hnegs
    obtain ⟨name, l, r, N, hl, hr, hacts⟩ := arithmetic_add.acts hknown.2 hnegs.2
      (ihl hknown.1 hnegs.1) (ihr hknown.2 hnegs.2) h
    exact ⟨name, _, N, (hl.add hr).mono (by omega), hacts⟩
  | case2 left right ihl ihr =>
    simp only [TermSyntax.negsInert, Bool.and_eq_true] at hnegs
    obtain ⟨name, l, r, N, hl, hr, hacts⟩ := arithmetic_subtract.acts hknown.2 hnegs.2
      (ihl hknown.1 hnegs.1) (ihr hknown.2 hnegs.2) h
    exact ⟨name, _, N, (hl.subtract hr).mono (by omega), hacts⟩
  | case3 operand ih =>
    have hinert : operand.inert := hnegs
    have hnot : operand.inert = false := h
    rw [hnot] at hinert
    cases hinert
  | case4 inner ih =>
    obtain ⟨name, t, N, ht, hacts⟩ := ih hknown hnegs h
    exact ⟨name, t, N, ht.paren, hacts⟩
  | case5 | case6 | case7 => simp [TermSyntax.inert] at h
  | case8 id =>
    exact ⟨id.name, .identifier id.name, 0, fun _ _ _ => rfl,
      fun depth _ s hs => toNumber_acts (resolve_identifier_acts depth hs)⟩
  | case9 id parameters =>
    obtain ⟨ps, N, hlen, hps⟩ := builds_list_of_negsInert machine parameters hknown.2 hnegs
    obtain ⟨handler, hlookup⟩ := Option.isSome_iff_exists.mp hknown.1
    have hbuild : BuildsTo machine N (.functionCall id parameters) (.function handler ps) := by
      intro depth hdepth s
      unfold buildTerm
      rw [CLib.bind_of_ok (hps depth hdepth s)]
      exact buildCall_eq (hlen ▸ hlookup) s
    have hop := lookupFunction_identifier id hlookup
    exact ⟨.ofString "", .function handler ps, N, hbuild,
      fun depth _ s hs => toNumber_acts (resolve_call_acts hop hbuild.plain depth hs.1)⟩

/-- Running it leaves it at that when something has happened. -/
def Keeps {α : Type} (m : Interp α) : Prop :=
  ∀ s0 s, Grown s0 s → Ensures m s (fun _ s' => Grown s0 s') fun _ _ => True

/-- From some depth on, running it does something where some variable is armed. -/
def ActsWhenArmed {α : Type} (m : Nat → Interp α) : Prop :=
  ∃ name N, ∀ depth ≥ N, ∀ s, Armed name s → Acts (m depth) s

theorem ActsWhenArmed.left {α β : Type} {m : Nat → Interp α} {f : Nat → α → Interp β}
    (hm : ActsWhenArmed m) {Q : α → Prop}
    (hQ : ∀ depth s, Tidy s → Ensures (m depth) s (fun a _ => Q a) fun _ _ => True)
    (hf : ∀ depth a, Q a → Keeps (f depth a)) : ActsWhenArmed fun depth => m depth >>= f depth := by
  obtain ⟨name, N, hm⟩ := hm
  refine ⟨name, N, fun depth hdepth s hs => ?_⟩
  have hboth := (Ensures.and (hm depth hdepth s hs) (hQ depth s hs.1)).mono (fun _ _ h => h)
    fun _ _ _ => trivial
  exact hboth.bind fun a s1 h1 => hf depth a h1.2 s s1 h1.1

theorem ActsWhenArmed.right {α β : Type} {m : Nat → Interp α} {f : Nat → α → Interp β} {a : α}
    {N : Nat} (hm : ∀ depth ≥ N, ∀ s, m depth s = .ok a s)
    (hf : ActsWhenArmed fun depth => f depth a) : ActsWhenArmed fun depth => m depth >>= f depth := by
  obtain ⟨name, M, hf⟩ := hf
  refine ⟨name, max N M, fun depth hdepth s hs => ?_⟩
  exact Acts.bind_of_ok (hm depth (by omega) s) (hf depth (by omega) s hs)

theorem keeps_buildTerm (machine : Machine) (depth : Nat) (syn : TermSyntax) :
    Keeps (buildTerm machine depth syn) := fun s0 s h =>
  ((grown_values s0).buildTerm_ensures plain_builds machine depth syn syn.calls_true s h).mono
    (fun _ _ h => h.1) fun _ _ h => h

theorem keeps_buildTerms (machine : Machine) (depth : Nat) (syns : List TermSyntax) :
    Keeps (buildTerms machine depth syns) := fun s0 s h =>
  ((grown_values s0).buildTerms_ensures plain_builds machine depth syns (callsIn_true syns) s h).mono
    (fun _ _ h => h.1) fun _ _ h => h

theorem keeps_buildCall (name : CString) (ps : List Term) : Keeps (buildCall name ps) :=
  fun s0 _ h => ((grown_values s0).buildCall_ensures h name ps).mono (fun _ _ h => h.1) fun _ _ h => h

theorem buildTerm_plain (machine : Machine) (syn : TermSyntax) (depth : Nat) (s : State)
    (hs : Tidy s) : Ensures (buildTerm machine depth syn) s (fun t _ => Plain (some t))
      fun _ _ => True :=
  ((plain_values tidy_frame fun _ h => h.stored).buildTerm_ensures plain_builds machine depth syn
    syn.calls_true s hs).mono (fun _ _ h => h.2) fun _ _ _ => trivial

/-- Building a pair of operands one of which does something. -/
theorem build_pair_acts {left right : TermSyntax} (hknown : left.Calls KnownCall)
    (ihl : left.negsInert = false → ActsWhenArmed fun depth => buildTerm machine depth left)
    (ihr : right.negsInert = false → ActsWhenArmed fun depth => buildTerm machine depth right)
    (h : (left.negsInert && right.negsInert) = false) (op : CString) :
    ActsWhenArmed fun depth => (do
      let l ← buildTerm machine depth left
      let r ← buildTerm machine depth right
      buildCall op [l, r] : Interp Term) := by
  cases hl : left.negsInert with
  | false =>
    refine (ihl hl).left (buildTerm_plain machine left) fun depth l _ s0 s hs => ?_
    exact (keeps_buildTerm machine depth right s0 s hs).bind fun r => keeps_buildCall op [l, r] s0
  | true =>
    obtain ⟨l, N, hbuild⟩ := builds_of_negsInert machine left hknown hl
    refine .right hbuild ?_
    exact (ihr (by simpa [hl] using h)).left (buildTerm_plain machine right)
      fun depth r _ => keeps_buildCall op [l, r]

mutual

/-- Building a term does something when the operand of a unary minus in it does. -/
theorem build_acts (machine : Machine) (syn : TermSyntax) (hknown : syn.Calls KnownCall)
    (h : syn.negsInert = false) : ActsWhenArmed fun depth => buildTerm machine depth syn := by
  match syn with
  | .add left right =>
    simpa only [buildTerm] using build_pair_acts hknown.1 (build_acts machine left hknown.1)
      (build_acts machine right hknown.2) h (.ofString "+")
  | .subtract left right =>
    simpa only [buildTerm] using build_pair_acts hknown.1 (build_acts machine left hknown.1)
      (build_acts machine right hknown.2) h (.ofString "-")
  | .neg operand =>
    have hinert : operand.inert = false := h
    simp only [buildTerm]
    cases hnegs : operand.negsInert with
    | true =>
      have hoperand : operand.Calls KnownCall := hknown
      obtain ⟨name, t, N, ht, hacts⟩ := acts_of_not_inert machine hoperand hnegs hinert
      refine .right ht ⟨name, N, fun depth hdepth s hs => ?_⟩
      exact (hacts depth hdepth s hs).bind fun k s1 h1 => h1
    | false =>
      refine (build_acts machine operand hknown hnegs).left (buildTerm_plain machine operand) ?_
      intro depth t ht s0 s hs
      have hV := grown_values s0
      exact (hV.termToNumber_ensures (hV.termResolve_ensures machine depth) ht hs).bind
        fun k s1 h1 => h1
  | .paren inner => simpa only [buildTerm] using build_acts machine inner hknown h
  | .identifier _ | .string _ | .number _ _ | .boolean _ => cases h
  | .functionCall id parameters =>
    simp only [buildTerm]
    exact (build_list_acts machine parameters hknown.2 h).left (fun _ _ _ => ensures_true)
      fun depth ps _ => keeps_buildCall id.name ps

theorem build_list_acts (machine : Machine) (syns : List TermSyntax)
    (hknown : CallsIn KnownCall syns) (h : negsInertIn syns = false) :
    ActsWhenArmed fun depth => buildTerms machine depth syns := by
  match syns with
  | [] => cases h
  | syn :: rest =>
    simp only [buildTerms]
    cases hsyn : syn.negsInert with
    | false =>
      refine (build_acts machine syn hknown.1 hsyn).left (buildTerm_plain machine syn) ?_
      intro depth t _ s0 s hs
      exact (keeps_buildTerms machine depth rest s0 s hs).bind fun ts s1 h1 => h1
    | true =>
      obtain ⟨t, N, ht⟩ := builds_of_negsInert machine syn hknown.1 hsyn
      have hrest : negsInertIn rest = false := by simpa [negsInertIn, hsyn] using h
      refine .right ht ?_
      exact (build_list_acts machine rest hknown.2 hrest).left (fun _ _ _ => ensures_true)
        fun depth ts _ s0 s hs => hs

end

theorem build_action_acts {a : ActionSyntax} (hknown : a.Calls KnownCall KnownCall)
    (h : a.negsInert = false) : ActsWhenArmed fun depth => buildAction machine depth a := by
  cases a with
  | functionCall id parameters =>
    simp only [buildAction]
    exact (build_list_acts machine parameters hknown.2 h).left (fun _ _ _ => ensures_true)
      fun depth ps _ => keeps_buildCall id.name ps
  | assignment id value =>
    simp only [buildAction]
    exact (build_acts machine value hknown h).left (buildTerm_plain machine value)
      fun depth t _ => keeps_buildCall _ _

theorem keeps_buildActions (machine : Machine) (depth : Nat) (block : List ActionSyntax) :
    Keeps (buildActions machine depth block) := fun s0 _ h =>
  ((grown_values s0).buildActions_ensures plain_builds plain_actions machine depth block
    (fun a _ => a.calls_true) h).mono (fun _ _ h => h.1) fun _ _ h => h

/-- Building a block does something when the operand of a unary minus in it does. -/
theorem build_actions_acts (machine : Machine) {block : List ActionSyntax}
    (hknown : ∀ a ∈ block, a.Calls KnownCall KnownCall) (h : ¬ ∀ a ∈ block, a.negsInert) :
    ActsWhenArmed fun depth => buildActions machine depth block := by
  induction block with
  | nil => simp at h
  | cons a rest ih =>
    simp only [buildActions]
    have ha := hknown a (by simp)
    cases hnegs : a.negsInert with
    | false =>
      refine (build_action_acts ha hnegs).left (fun _ _ _ => ensures_true) (Q := fun _ => True) ?_
      intro depth t _ s0 s hs
      exact (keeps_buildActions machine depth rest s0 s hs).bind fun ts s1 h1 => h1
    | true =>
      obtain ⟨t, N, ht⟩ := builds_action_of_negsInert machine ha hnegs
      have hrest : ¬ ∀ b ∈ rest, b.negsInert := by simpa [hnegs] using h
      refine .right ht ?_
      exact (ih (fun b hb => hknown b (by simp [hb])) hrest).left (fun _ _ _ => ensures_true)
        (Q := fun _ => True) fun depth ts _ s0 s hs => hs

/-- A rule that the parser accepts acts when it fires, and only then, exactly when the operands of
unary minus in its block are made of literals. -/
theorem rule_acts_when_fired_iff (machine : Machine) (block : List ActionSyntax)
    (hknown : ∀ a ∈ block, a.Calls KnownCall KnownCall) :
    ActsWhenFired machine block ↔ ∀ a ∈ block, a.negsInert := by
  constructor
  · rintro ⟨N, hfired⟩
    by_contra hnot
    obtain ⟨name, M, hacts⟩ := build_actions_acts machine hknown hnot
    -- A condition without effects, in a state where the operand in question is a call.
    let call := Term.function .setenv [.string (.ofString "a"), .string (.ofString "b")]
    let s : State := { State.boot [] plainWorld with vars := [⟨name, some call⟩] }
    have harmed : Armed name s := by
      refine ⟨⟨by simp [s], ?_, trivial⟩, firstMatch_cons ..|>.trans (if_pos rfl)⟩
      intro v hv
      obtain rfl := List.mem_singleton.mp hv
      exact (rfl : call.plain = true)
    have hidle := hfired (max N M + 1) (by omega) (.term (.boolean false)) s false s rfl
    simp only [evalStatement] at hidle
    obtain ⟨_, _, hcond, hrest⟩ := bind_eq_ok.mp hidle
    obtain ⟨rfl, rfl⟩ := EStateM.Result.ok.inj hcond
    obtain ⟨ts, s1, hbuild, hend⟩ := bind_eq_ok.mp hrest
    obtain ⟨-, rfl⟩ := EStateM.Result.ok.inj hend
    have hgrown := (hacts (max N M + 1) (by omega) _ harmed).ok hbuild
    exact lt_irrefl _ hgrown.2
  · intro hnegs
    obtain ⟨ts, N, hts⟩ := runs_deferred_of_negsInert machine hknown hnegs
    refine ⟨N, fun depth hdepth condition s fires s' hcond => ?_⟩
    obtain ⟨hbuild, hrun⟩ := hts depth hdepth
    simp only [evalStatement]
    rw [CLib.bind_of_ok hcond, CLib.bind_of_ok (hbuild s')]
    cases fires with
    | false => rfl
    | true =>
      have hdeferred := hrun none s'
      simp only [if_true, bind, EStateM.bind] at hdeferred ⊢
      rw [hdeferred]

end

/-- The rule `true -> x = -1`. -/
theorem rule_acts_when_fired_minus_one : ActsWhenFired plainMachine
    [.assignment (.ofString "x") (.neg (.number 10 [49]))] :=
  (rule_acts_when_fired_iff plainMachine _ (by
    intro a ha
    obtain rfl := List.mem_singleton.mp ha
    exact trivial)).mpr (by decide)

/-- The rule `false -> x = -setenv("a", "b")` sets the U-Boot variable. -/
theorem rule_acts_unfired : ¬ ∀ (machine : Machine) (block : List ActionSyntax),
    (∀ a ∈ block, a.Calls KnownCall KnownCall) → ActsWhenFired machine block := by
  intro hall
  let block := [ActionSyntax.assignment (.ofString "x") (.neg (.functionCall (.ofString "setenv")
    [.string (.ofString "a"), .string (.ofString "b")]))]
  obtain ⟨N, hfired⟩ := hall plainMachine block (by
    intro a ha
    obtain rfl := List.mem_singleton.mp ha
    exact ⟨rfl, trivial, trivial, trivial⟩)
  have hidle := hfired (N + 5) (by omega) (.term (.boolean false)) plainStart false plainStart rfl
  have henv : 1 = 0 := congrArg (fun r : EStateM.Result Stop State (Option Term) =>
    match r with
    | .ok _ s | .error _ s => s.workingUbootEnv.vars.length) hidle
  exact absurd henv Nat.one_ne_zero

end NervesInitramfs
