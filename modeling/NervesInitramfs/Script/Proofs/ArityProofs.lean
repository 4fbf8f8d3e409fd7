import NervesInitramfs.Script.Proofs.NullProofs

/-!
# Proofs: the arguments of an accepted call

`lookup_function` accepts a call when it has as many arguments as the table asks for. Each handler
goes through its list of parameters on its own, and stops where it follows a pointer that is `NULL`.
-/

namespace NervesInitramfs

open CLib

/-- Every variable holds a literal. -/
def LiteralStore (s : State) : Prop := ∀ v ∈ s.vars, ∃ t, v.value = some t ∧ t.isLiteral

/-- Terms evaluate to literals. Nothing is said about `NULL`. -/
def EvaluatesTerms (resolve : Option Term → Interp (Option Term)) : Prop :=
  ∀ t s, LiteralStore s → Ensures (resolve (some t)) s
    (fun v s' => LiteralStore s' ∧ ∃ u, v = some u ∧ u.isLiteral) fun e _ => e ≠ .nullDereference

/-- The handler follows no pointer that is `NULL` when every term that is there evaluates to a
literal: it does not take a parameter that is not in the list. -/
def UsesOnlyPresent (handler : Builtin) (parameters : List Term) : Prop :=
  ∀ machine resolve depth s, EvaluatesTerms resolve → LiteralStore s →
    Ensures (handler.run machine resolve depth parameters) s (fun _ _ => True)
      fun e _ => e ≠ .nullDereference

/-- A call is rejected, or its handler takes only parameters that are there; and it is rejected when
the handler that the name stands for would take others. -/
structure CheckedCall (name : CString) (parameters : List Term) : Prop where
  accepted : ∀ handler, lookupFunction name parameters.length = some handler →
    UsesOnlyPresent handler parameters
  rejected : ∀ handler n, lookupFunction name n = some handler →
    ¬UsesOnlyPresent handler parameters → ∀ s, buildCall name parameters s = .error .parseError s

section

variable {resolve : Option Term → Interp (Option Term)} {s : State}

theorem literalStore_frame : Frame LiteralStore where
  record _ h _ _ := h
  world _ h _ := h
  env _ h _ := h
  flag s h name _ b := by
    intro v hv
    rcases mem_assigned hv with hin | rfl
    · exact h v hin
    · exact ⟨.boolean b, rfl, rfl⟩

theorem termToString_present (hres : EvaluatesTerms resolve) (depth : Nat) (t : Term)
    (h : LiteralStore s) : Ensures (termToString resolve depth (some t)) s
      (fun _ s' => LiteralStore s') fun e _ => e ≠ .nullDereference := by
  cases depth with
  | zero =>
    show Stop.outOfFuel ≠ .nullDereference
    simp
  | succ depth =>
    unfold termToString
    refine (hres t s h).bind fun v s1 hv => ?_
    obtain ⟨h1, u, rfl, hu⟩ := hv
    cases u with
    | identifier _ | function _ _ => exact absurd hu Bool.false_ne_true
    | string _ | number _ | boolean _ => exact h1

theorem termToNumber_present (hres : EvaluatesTerms resolve) (t : Term) (h : LiteralStore s) :
    Ensures (termToNumber resolve (some t)) s (fun _ s' => LiteralStore s')
      fun e _ => e ≠ .nullDereference := by
  unfold termToNumber
  refine (hres t s h).bind fun v s1 hv => ?_
  obtain ⟨h1, u, rfl, hu⟩ := hv
  cases u with
  | identifier _ | function _ _ => exact nomatch hu
  | string _ | number _ | boolean _ => exact h1

theorem inspect_literal {t : Term} (h : t.isLiteral) : (inspect t).isSome := by
  cases t with
  | identifier _ | function _ _ => exact nomatch h
  | string _ | number _ | boolean _ => rfl

theorem operands_present (hres : EvaluatesTerms resolve) (depth : Nat) {handler : Builtin}
    {ps : List Term} (hneeded : handler.needed ≤ ps.length) :
    Operands LiteralStore (fun e _ => e ≠ .nullDereference) resolve depth handler ps where
  string p hp s h := by
    cases p with
    | none => exact absurd hneeded (Nat.not_le.mpr hp)
    | some t => exact termToString_present hres depth t h
  number p hp s h := by
    cases p with
    | none => exact absurd hneeded (Nat.not_le.mpr hp)
    | some t => exact termToNumber_present hres t h
  stringSetting _ name _ s h := by
    unfold getVariableAsString
    rw [ensures_bind, ensures_get]
    cases hv : getVariableImpl s.vars name with
    | none => exact h
    | some v =>
      obtain ⟨t, ht, -⟩ := h v (getVariableImpl_mem hv)
      show Ensures (termToString resolve depth v.value) s _ _
      rw [ht]
      exact termToString_present hres depth t h
  numberSetting _ name _ s h := by
    unfold getVariableAsNumber
    rw [ensures_bind, ensures_get]
    cases hv : getVariableImpl s.vars name with
    | none => exact h
    | some v =>
      obtain ⟨t, ht, -⟩ := h v (getVariableImpl_mem hv)
      show Ensures (termToNumber resolve v.value) s _ _
      rw [ht]
      exact termToNumber_present hres t h
  few hfew := absurd hneeded (Nat.not_le.mpr hfew)
  inspectable _ := by
    right
    intro s h v hv
    obtain ⟨t, ht, hlit⟩ := h v hv
    rw [ht]
    exact inspect_literal hlit
  ends s h := ⟨by simp, by simp⟩

end

theorem functionAssign_present {ps : List Term} (hneeded : 2 ≤ ps.length) :
    UsesOnlyPresent .assign ps := by
  intro machine resolve depth s hres h
  obtain ⟨p, q, rest, rfl⟩ : ∃ p q rest, ps = p :: q :: rest := by
    rcases ps with _ | ⟨p, _ | ⟨q, rest⟩⟩
    · exact absurd hneeded (by simp)
    · exact absurd hneeded (by simp)
    · exact ⟨p, q, rest, rfl⟩
  show Ensures (functionAssign resolve (p :: q :: rest)) s _ _
  unfold functionAssign
  refine (hres q s h).bind fun v s1 hv => ?_
  cases p with
  | identifier name => trivial
  | string _ | number _ | boolean _ | function _ _ =>
    show Stop.undefined ≠ .nullDereference
    simp

/-- A handler that has what it needs takes nothing else. -/
theorem usesOnlyPresent_of_needed {handler : Builtin} {ps : List Term}
    (hneeded : handler.needed ≤ ps.length) : UsesOnlyPresent handler ps := by
  by_cases hassign : handler = .assign
  · subst hassign
    exact functionAssign_present hneeded
  · intro machine resolve depth s hres h
    have hops := operands_present hres depth hneeded
    exact (run_ensures literalStore_frame machine hassign h hops).mono (fun _ _ _ => trivial)
      fun _ _ he => he

/-- Without arguments `sleep` takes its first one. -/
theorem sleep_takes_first : ¬UsesOnlyPresent .sleep [] := by
  intro h
  let resolve : Option Term → Interp (Option Term) := fun rv =>
    rv.elim (throw .nullDereference) fun _ => pure (some (.boolean true))
  have hres : EvaluatesTerms resolve := fun t s hs => ⟨hs, .boolean true, rfl, rfl⟩
  have hstore : LiteralStore (State.boot [] plainWorld) := by
    intro v hv
    exact absurd hv List.not_mem_nil
  exact h plainMachine resolve 0 (State.boot [] plainWorld) hres hstore rfl

/-! ## The table -/

/-- The table asks for what the handlers need, except for `sleep`. -/
theorem table_arity : ∀ entry ∈ functionTable,
    entry.handler.needed ≤ entry.arity ∨
      (entry.name = .ofString "sleep" ∧ entry.handler.needed = 1) := by decide

/-- A name stands for one handler. -/
theorem lookupFunction_entry {name : CString} {n : Nat} {handler : Builtin}
    (h : lookupFunction name n = some handler) :
    ∃ entry ∈ functionTable, entry.name = name ∧ entry.handler = handler ∧ entry.arity ≤ n := by
  obtain ⟨entry, hfind, rfl⟩ := Option.map_eq_some_iff.mp h
  have hmatch := List.find?_some hfind
  simp only [decide_eq_true_eq] at hmatch
  exact ⟨entry, List.mem_of_find?_eq_some hfind, strcmp_eq_zero.mp hmatch.1, rfl, hmatch.2⟩

theorem table_handler : ∀ entry ∈ functionTable, ∀ entry' ∈ functionTable,
    entry.name = entry'.name → entry.handler = entry'.handler := by decide

theorem lookupFunction_sleep : lookupFunction (.ofString "sleep") 0 = some .sleep := rfl

theorem accepted_present {name : CString} {ps : List Term} (h : ¬(name = .ofString "sleep" ∧ ps = []))
    {handler : Builtin} (hlookup : lookupFunction name ps.length = some handler) :
    UsesOnlyPresent handler ps := by
  apply usesOnlyPresent_of_needed
  obtain ⟨entry, hmem, rfl, rfl, harity⟩ := lookupFunction_entry hlookup
  rcases table_arity entry hmem with hneeded | ⟨hsleep, hneeded⟩
  · exact Nat.le_trans hneeded harity
  · rw [hneeded]
    apply List.length_pos_iff.mpr
    rintro rfl
    exact h ⟨hsleep, rfl⟩

/-- A call has the arguments that its handler takes, or is rejected, unless it is `sleep()`. -/
theorem call_checked_iff (name : CString) (parameters : List Term) :
    CheckedCall name parameters ↔ ¬(name = .ofString "sleep" ∧ parameters = []) := by
  constructor
  · rintro h ⟨rfl, rfl⟩
    exact sleep_takes_first (h.accepted .sleep lookupFunction_sleep)
  · intro h
    refine ⟨fun handler hlookup => accepted_present h hlookup, fun handler n hlookup hnot s => ?_⟩
    unfold buildCall termNewFun
    cases hcall : lookupFunction name parameters.length with
    | none => rfl
    | some handler' =>
      obtain ⟨entry, hmem, hname, rfl, -⟩ := lookupFunction_entry hlookup
      obtain ⟨entry', hmem', hname', rfl, -⟩ := lookupFunction_entry hcall
      rw [table_handler entry hmem entry' hmem' (hname.trans hname'.symm)] at hnot
      exact absurd (accepted_present h hcall) hnot

/-- `sleep()` is accepted. -/
theorem call_unchecked : ¬ ∀ (name : CString) (parameters : List Term), CheckedCall name parameters := by
  intro hall
  have hchecked := hall (.ofString "sleep") []
  exact sleep_takes_first (hchecked.accepted .sleep lookupFunction_sleep)

end NervesInitramfs
