import NervesInitramfs.CLib.Assoc
import NervesInitramfs.CLib.Proofs.CStringProofs
import NervesInitramfs.CLib.Wp
import NervesInitramfs.Script.Main
import NervesInitramfs.Script.Proofs.HandlerProofs
import NervesInitramfs.Uboot.Proofs.RoundTripProofs

/-!
# Proofs: the table of variables

The list of variables stands for a map from names to values, which `setVariable` changes at one
name. Collecting the heap rebuilds the list; a value survives it unless it is a call.
-/

namespace NervesInitramfs

open CLib

/-- The map that a list of variables stands for. -/
abbrev store (vars : List Variable) (name : CString) : Option (Option Term) :=
  firstMatch Variable.name Variable.value vars name

theorem getVariableImpl_eq (vars : List Variable) (name : CString) :
    getVariableImpl vars name = vars.find? fun v => v.name = name := by
  simp only [getVariableImpl, strcmp_eq_zero]

theorem getVariableImpl_value (vars : List Variable) (name : CString) :
    (getVariableImpl vars name).map (·.value) = store vars name := by
  rw [getVariableImpl_eq]
  rfl

theorem getVariable_eq (name : CString) (s : State) : getVariable name s
    = .ok ((store s.vars name).getD (some (.string (.ofString "")))) s := by
  rw [← getVariableImpl_value]
  have hget : (get : Interp State) s = .ok s s := rfl
  rw [getVariable, bind_of_ok hget]
  cases getVariableImpl s.vars name <;> rfl

theorem mem_of_store {vars : List Variable} {name : CString} {v : Option Term}
    (h : store vars name = some v) : ∃ u ∈ vars, u.name = name ∧ u.value = v := firstMatch_mem h

theorem replaceVariable_eq (name : CString) (value : Option Term) (vars : List Variable) :
    replaceVariable name value vars
      = replaceFirst (·.name) (fun v => { v with value := value }) name vars := by
  induction vars with
  | nil => rfl
  | cons v rest ih => simp only [replaceVariable, replaceFirst, strcmp_eq_zero, ih]

/-- `set_variable` changes the value of the one name. -/
theorem store_assigned (vars : List Variable) (name : CString) (value : Option Term) (k : CString) :
    store (assigned vars name value) k = if name = k then some value else store vars k := by
  unfold assigned
  rw [replaceVariable_eq]
  cases h : replaceFirst (·.name) (fun v : Variable => { v with value := value }) name vars with
  | none => simp [store]
  | some vars' => exact firstMatch_replaceFirst h (fun _ => rfl) (fun _ => rfl) k

theorem mem_assigned {vars : List Variable} {name : CString} {value : Option Term} {v : Variable}
    (h : v ∈ assigned vars name value) : v ∈ vars ∨ v = ⟨name, value⟩ := by
  unfold assigned at h
  rw [replaceVariable_eq] at h
  cases hr : replaceFirst (·.name) (fun v : Variable => { v with value := value }) name vars with
  | none =>
    rw [hr] at h
    exact (List.mem_cons.mp h).symm
  | some vars' =>
    rw [hr] at h
    rcases (replaceFirst_some hr fun _ => rfl).2.2 v h with hin | ⟨u, -, rfl, rfl⟩
    · exact Or.inl hin
    · exact Or.inr rfl

theorem nodup_assigned {vars : List Variable} (h : (vars.map (·.name)).Nodup) (name : CString)
    (value : Option Term) : ((assigned vars name value).map (·.name)).Nodup := by
  unfold assigned
  rw [replaceVariable_eq]
  cases hr : replaceFirst (·.name) (fun v : Variable => { v with value := value }) name vars with
  | none =>
    have hne := replaceFirst_eq_none.mp hr
    simpa [h] using hne
  | some vars' =>
    rw [(replaceFirst_some hr fun _ => rfl).1]
    exact h

/-! ## Collecting the heap -/

/-- The copy of a value. -/
def dupe : Option Term → Option Term
  | some (.function _ _) => none
  | v => v

theorem termDupe_eq {v : Option Term} (h : v ≠ none) (s : State) : termDupe v s = .ok (dupe v) s := by
  rcases v with _ | ⟨name | value | value | value | ⟨handler, ps⟩⟩
  · exact absurd rfl h
  all_goals rfl

/-- The variables after the loop of `term_gc_heap`, from those that it has built already. -/
def copied (vars : List Variable) : List Variable → List Variable :=
  vars.foldl fun built v => assigned built v.name (dupe v.value)

theorem copyVariables_eq {vars : List Variable} (h : ∀ v ∈ vars, v.value ≠ none) (s : State) :
    copyVariables vars s = .ok () { s with vars := copied vars s.vars } := by
  induction vars generalizing s with
  | nil => rfl
  | cons v rest ih =>
    have hrest := ih fun u hu => h u (by simp [hu])
    unfold copyVariables
    rw [bind_of_ok (termDupe_eq (h v (by simp)) s)]
    exact hrest { s with vars := assigned s.vars v.name (dupe v.value) }

/-- `term_gc_heap` gets through when there is no `NULL` among the values. -/
theorem termGcHeap_eq {s : State} (h : ∀ v ∈ s.vars, v.value ≠ none) :
    termGcHeap s = .ok () { s with vars := copied s.vars [] } :=
  copyVariables_eq h { s with vars := [] }

theorem copyVariables_null {vars : List Variable} (h : ∃ v ∈ vars, v.value = none) (s : State) :
    ∃ s', copyVariables vars s = .error .nullDereference s' := by
  induction vars generalizing s with
  | nil => simp at h
  | cons v rest ih =>
    by_cases hv : v.value = none
    · exact ⟨s, by simp only [copyVariables, hv]; rfl⟩
    · obtain ⟨u, hu, hnull⟩ := h
      have hu' : u ∈ rest := by
        rcases List.mem_cons.mp hu with rfl | hu
        · exact absurd hnull hv
        · exact hu
      unfold copyVariables
      rw [bind_of_ok (termDupe_eq hv s)]
      exact ih ⟨u, hu', hnull⟩ { s with vars := assigned s.vars v.name (dupe v.value) }

/-- And only then. -/
theorem termGcHeap_ok {s s' : State} (h : termGcHeap s = .ok () s') :
    (∀ v ∈ s.vars, v.value ≠ none) ∧ s' = { s with vars := copied s.vars [] } := by
  have hsome : ∀ v ∈ s.vars, v.value ≠ none := by
    intro v hv hnull
    obtain ⟨s1, hs1⟩ := copyVariables_null ⟨v, hv, hnull⟩ { s with vars := [] }
    have hgc : termGcHeap s = .error .nullDereference s1 := hs1
    rw [hgc] at h
    cases h
  rw [termGcHeap_eq hsome] at h
  obtain ⟨-, rfl⟩ := EStateM.Result.ok.inj h
  exact ⟨hsome, rfl⟩

theorem mem_copied {vars built : List Variable} {v : Variable} (h : v ∈ copied vars built) :
    v ∈ built ∨ ∃ u ∈ vars, v = ⟨u.name, dupe u.value⟩ := by
  induction vars generalizing built with
  | nil => exact Or.inl h
  | cons u rest ih =>
    rcases ih h with hin | ⟨u', hu', rfl⟩
    · rcases mem_assigned hin with hin | rfl
      · exact Or.inl hin
      · exact Or.inr ⟨u, by simp, rfl⟩
    · exact Or.inr ⟨u', by simp [hu'], rfl⟩

theorem nodup_copied (vars : List Variable) {built : List Variable}
    (h : (built.map (·.name)).Nodup) : ((copied vars built).map (·.name)).Nodup := by
  induction vars generalizing built with
  | nil => exact h
  | cons v rest ih => exact ih (nodup_assigned h v.name (dupe v.value))

/-- When no name occurs twice, every name keeps its value. -/
theorem store_copied {vars : List Variable} (h : (vars.map (·.name)).Nodup)
    (built : List Variable) (k : CString) :
    store (copied vars built) k = ((store vars k).map dupe).or (store built k) := by
  induction vars generalizing built with
  | nil => simp [copied, store]
  | cons v rest ih =>
    obtain ⟨hv, hrest⟩ := List.nodup_cons.mp (by simpa using h : (v.name :: rest.map (·.name)).Nodup)
    change store (copied rest (assigned built v.name (dupe v.value))) k = _
    rw [ih hrest, store_assigned]
    by_cases hk : v.name = k
    · have hnone : store rest k = none := firstMatch_eq_none.mpr fun u hu hu' =>
        hv (List.mem_map.mpr ⟨u, hu, hu'.trans hk.symm⟩)
      simp [hk, hnone]
    · simp [hk]

/-! ## The start -/

section

variable {I : State → Prop} {s : State}

theorem setParameter_ensures
    (hassign : ∀ s, I s → ∀ name (t : Term), t.isLiteral → I (s.assign name (some t)))
    (arg : CString) (h : I s) :
    Ensures (setParameter arg) s (fun _ s' => I s') fun _ _ => False := by
  unfold setParameter
  split
  · exact h
  · split <;> exact hassign s h _ _ rfl

/-- A turn of the loop over the command line, when `argv[i]` is there. -/
theorem scanParameter_eq {before rest : List CString} {arg : CString}
    (hargv : s.argv = before ++ arg :: rest) :
    scanParameter before.length s
      = setParameter arg { s with argv := before ++ parameterAfter arg :: rest } := by
  have hat : s.argv[before.length]? = some arg := by simp [hargv]
  have hset : s.argv.set before.length (parameterAfter arg)
      = before ++ parameterAfter arg :: rest := by simp [hargv]
  unfold scanParameter
  rw [bind_of_ok (show (get : Interp State) s = .ok s s from rfl), hat]
  rw [← hset]
  rfl

/-- The loop sets the variables that the arguments name, and cuts the arguments off. -/
theorem setParameters_ensures
    (hassign : ∀ s, I s → ∀ name (t : Term), t.isLiteral → I (s.assign name (some t)))
    (hcut : ∀ s, I s → ∀ argv, I { s with argv := argv }) {before args : List CString} (h : I s)
    (hargv : s.argv = before ++ args) :
    Ensures (setParameters args.length before.length) s
      (fun _ s' => I s' ∧ s'.argv = before ++ args.map parameterAfter) fun _ _ => False := by
  induction args generalizing s before with
  | nil => exact ⟨h, hargv⟩
  | cons arg rest ih =>
    rw [List.length_cons, setParameters]
    have hturn : Ensures (scanParameter before.length) s
        (fun _ s1 => I s1 ∧ s1.argv = (before ++ [parameterAfter arg]) ++ rest) fun _ _ => False := by
      refine Ensures.of_eq ?_ (scanParameter_eq hargv)
      refine setParameter_ensures (I := fun s1 => I s1 ∧
        s1.argv = (before ++ [parameterAfter arg]) ++ rest) ?_ arg ⟨hcut s h _, by simp⟩
      exact fun s1 h1 name t ht => ⟨hassign s1 h1.1 name t ht, h1.2⟩
    refine hturn.bind ?_
    rintro _ s1 ⟨h1, hargv1⟩
    have hrest := ih h1 hargv1
    rw [List.length_append, List.length_singleton] at hrest
    refine hrest.imp ?_
    rintro _ s2 ⟨h2, hargv2⟩
    exact ⟨h2, by rw [hargv2, List.map_cons, List.append_assoc, List.singleton_append]⟩

/-- The start always succeeds. What holds of the empty table and survives the assignment of literals
holds then, and the command line has been cut off. -/
theorem initializeScriptDefaults_ensures (argv : List CString) (world : World)
    (hboot : I { State.boot argv world with workingUbootEnv := ubootEnvInit })
    (hassign : ∀ s, I s → ∀ name (t : Term), t.isLiteral → I (s.assign name (some t)))
    (hcut : ∀ s, I s → ∀ argv, I { s with argv := argv }) :
    Ensures initializeScriptDefaults (State.boot argv world)
      (fun _ s' => I s' ∧ s'.argv = argvAfter argv) fun _ _ => False := by
  have hset : ∀ name (t : Term) s, t.isLiteral → I s ∧ s.argv = argv →
      Ensures (setVariable name (some t)) s (fun _ s' => I s' ∧ s'.argv = argv) fun _ _ => False :=
    fun name t s ht hs => ⟨hassign s hs.1 name t ht, hs.2⟩
  unfold initializeScriptDefaults
  have hgc : Ensures termGcHeap (State.boot argv world) (fun _ s1 => s1 = State.boot argv world)
      fun _ _ => False := rfl
  refine hgc.bind ?_
  rintro _ _ rfl
  rw [ensures_bind, ensures_modify]
  refine (hset _ (.string _) _ rfl ⟨hboot, rfl⟩).bind fun _ _ h => ?_
  refine (hset _ (.string _) _ rfl h).bind fun _ _ h => ?_
  refine (hset _ (.boolean _) _ rfl h).bind fun _ _ h => ?_
  refine (hset _ (.string _) _ rfl h).bind fun _ _ h => ?_
  refine (hset _ (.string _) _ rfl h).bind fun _ _ h => ?_
  refine (hset _ (.string _) _ rfl h).bind fun _ _ h => ?_
  refine (hset _ (.boolean _) _ rfl h).bind fun _ _ h => ?_
  refine (hset _ (.boolean _) _ rfl h).bind fun _ _ h => ?_
  refine (hset _ (.number _) _ rfl h).bind fun _ _ h => ?_
  refine (hset _ (.number _) _ rfl h).bind fun _ _ h => ?_
  refine (hset _ (.boolean _) _ rfl h).bind ?_
  rintro _ s1 ⟨h1, hargv⟩
  rw [ensures_bind, ensures_get, hargv]
  cases argv with
  | nil => exact ⟨h1, hargv⟩
  | cons program args =>
    exact setParameters_ensures hassign hcut h1 (hargv.trans (List.singleton_append).symm)

theorem started_of_assign
    (hboot : ∀ argv world, I { State.boot argv world with workingUbootEnv := ubootEnvInit })
    (hassign : ∀ s, I s → ∀ name (t : Term), t.isLiteral → I (s.assign name (some t)))
    (hcut : ∀ s, I s → ∀ argv, I { s with argv := argv }) (h : Started s) : I s := by
  obtain ⟨argv, world, h⟩ := h
  exact ((initializeScriptDefaults_ensures argv world (hboot argv world) hassign hcut).ok h).1

end

/-- The state after a computation. -/
def stateAfter (r : EStateM.Result Stop State Unit) : State :=
  match r with
  | .ok _ s | .error _ s => s

theorem started_stateAfter (argv : List CString) (world : World) :
    Started (stateAfter (initializeScriptDefaults (State.boot argv world))) := by
  refine ⟨argv, world, ?_⟩
  have hsucceeds := initializeScriptDefaults_ensures (I := fun _ => True) argv world trivial
    (fun _ _ _ _ _ => trivial) fun _ _ _ => trivial
  cases hinit : initializeScriptDefaults (State.boot argv world) with
  | ok u s => rfl
  | error e s => exact absurd (hsucceeds.error hinit) id

/-- A machine with 64-bit addresses and a stable `qsort`. -/
def plainMachine : Machine := ⟨64, by decide, stableSort, fun _ => 0, fun _ => 0⟩

/-- A world in which every system call fails. -/
def plainWorld : World := ⟨[], fun _ _ => 0⟩

/-- The start without a command line. -/
def plainStart : State := stateAfter (initializeScriptDefaults (State.boot [] plainWorld))

/-- The identifiers `x` and `print`. -/
def letterX : Identifier := .ofString "x"
def namePrint : Identifier := .ofString "print"

theorem started_plainStart : Started plainStart := started_stateAfter [] plainWorld

end NervesInitramfs
