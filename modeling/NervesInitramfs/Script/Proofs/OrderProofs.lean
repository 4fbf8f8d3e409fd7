import NervesInitramfs.CLib.Agree
import NervesInitramfs.Script.Proofs.StoreProofs
import NervesInitramfs.Script.Sequence

/-!
# Proofs: the order of the variables does not matter

Two states with the same variables in different orders stay alike whatever a script does: nothing
looks at the order but `vars`, which prints it.
-/

namespace NervesInitramfs

open CLib

/-- States with the same effects, in which no name occurs twice among the variables. -/
structure Alike (s s' : State) : Prop where
  effects : SameEffects s s'
  names : (s.vars.map Variable.name).Nodup
  names' : (s'.vars.map Variable.name).Nodup

/-- A computation that does not look at the order of the variables, and is not a parser that gives
up. -/
abbrev Orderless {α : Type} (m : Interp α) : Prop := Agree Alike (· ≠ .parseError) m

/-! ## What the handlers are made of -/

section

variable {α : Type}

theorem orderless_pure (a : α) : Orderless (pure a) := agree_pure a

theorem orderless_throw {e : Stop} (he : e ≠ .parseError) : Orderless (throw e : Interp α) :=
  agree_throw he

theorem orderless_record (e : Event) : Orderless (record e) := by
  refine agree_modify fun s s' h => ⟨⟨h.effects.vars, h.effects.env, h.effects.world, ?_⟩, h.names,
    h.names'⟩
  exact .event e h.effects.log

theorem orderless_info (message : List UInt8) : Orderless (info message) := orderless_record _

theorem orderless_reply : Orderless reply := by
  refine agree_get_bind fun s s' h => ?_
  rw [← h.effects.world]
  cases s.world.replies with
  | nil => exact ⟨s', rfl, h⟩
  | cons r rest =>
    exact ⟨_, rfl, ⟨⟨h.effects.vars, h.effects.env, rfl, h.effects.log⟩, h.names, h.names'⟩⟩

theorem orderless_openBlockDevice (spec : CString) : Orderless (openBlockDevice spec) :=
  orderless_reply.bind fun _ => orderless_pure _

theorem orderless_lseek (offset : Int) : Orderless (lseek offset) :=
  orderless_reply.bind fun _ => orderless_pure _

theorem orderless_readDevice (path : CString) (offset length : Nat) :
    Orderless (readDevice path offset length) := by
  refine (orderless_record _).bind fun _ => orderless_reply.bind fun r => ?_
  refine agree_get_bind fun s s' h => ?_
  rw [h.effects.world]
  exact ⟨s', rfl, h⟩

theorem orderless_writeDevice (path : CString) (offset : Nat) (data : List UInt8) :
    Orderless (writeDevice path offset data) := by
  refine (orderless_record _).bind fun _ => orderless_reply.bind fun r => ?_
  split
  · refine (agree_modify fun s s' h => ?_).bind fun _ => orderless_pure _
    refine ⟨⟨h.effects.vars, h.effects.env, ?_, h.effects.log⟩, h.names, h.names'⟩
    show s.world.store _ _ _ = s'.world.store _ _ _
    rw [h.effects.world]
  · exact orderless_pure _

theorem orderless_setVariable (name : CString) (value : Option Term) :
    Orderless (setVariable name value) := by
  refine (orderless_record _).bind fun _ => agree_modify fun s s' h => ?_
  refine ⟨⟨fun k => ?_, h.effects.env, h.effects.world, h.effects.log⟩,
    nodup_assigned h.names name value, nodup_assigned h.names' name value⟩
  show store (assigned s.vars name value) k = store (assigned s'.vars name value) k
  rw [store_assigned, store_assigned]
  exact congrArg (fun v => if name = k then some value else v) (h.effects.vars k)

theorem orderless_setBooleanVariable (name : CString) (value : Bool) :
    Orderless (setBooleanVariable name value) := orderless_setVariable _ _

theorem orderless_getVariable (name : CString) : Orderless (getVariable name) := by
  intro s s' h
  rw [getVariable_eq, getVariable_eq, show store s'.vars name = store s.vars name from
    (h.effects.vars name).symm]
  exact ⟨s', rfl, h⟩

/-- What is done with the value of a variable, if there is one. -/
theorem orderless_lookup {found : Option Term → Interp α} {missing : Interp α} (name : CString)
    (hfound : ∀ value, Orderless (found value)) (hmissing : Orderless missing) :
    Orderless (do
      match getVariableImpl (← get).vars name with
      | some v => found v.value
      | none => missing) := by
  refine agree_get_bind fun s s' h => ?_
  have hsame : (getVariableImpl s.vars name).map Variable.value =
      (getVariableImpl s'.vars name).map Variable.value := by
    rw [getVariableImpl_value, getVariableImpl_value]
    exact h.effects.vars name
  cases hs : getVariableImpl s.vars name with
  | none =>
    rw [hs, Option.map_none] at hsame
    rw [Option.map_eq_none_iff.mp hsame.symm]
    exact hmissing s s' h
  | some v =>
    rw [hs, Option.map_some] at hsame
    obtain ⟨v', hs', hvalue⟩ := Option.map_eq_some_iff.mp hsame.symm
    rw [hs']
    show Related _ _ (found v.value s) (found v'.value s')
    rw [hvalue]
    exact hfound v.value s s' h

/-- What looks at nothing but the U-Boot environment. -/
theorem orderless_env {f : State → Interp α}
    (hsame : ∀ s s', s.workingUbootEnv = s'.workingUbootEnv → f s = f s')
    (hf : ∀ s, Orderless (f s)) : Orderless (get >>= f) := by
  refine agree_get_bind fun s s' h => ?_
  rw [← hsame s s' h.effects.env]
  exact hf s s s' h

theorem orderless_setEnv (f : UbootEnv → UbootEnv) :
    Orderless (modify fun s => { s with workingUbootEnv := f s.workingUbootEnv }) := by
  refine agree_modify fun s s' h => ⟨⟨h.effects.vars, ?_, h.effects.world, h.effects.log⟩, h.names,
    h.names'⟩
  show f s.workingUbootEnv = f s'.workingUbootEnv
  rw [h.effects.env]

theorem orderless_printLines (lines : List (List UInt8)) : Orderless (printLines lines) := by
  induction lines with
  | nil => exact orderless_pure _
  | cons line rest ih => exact (orderless_record _).bind fun _ => ih

theorem orderless_next (ps : List Term) : Orderless (next ps) := by
  cases ps with
  | nil => exact orderless_throw (by simp)
  | cons p rest => exact orderless_pure _

end

/-! ## Coercions and handlers -/

section

variable {resolve : Option Term → Interp (Option Term)}

theorem orderless_termToBoolean (hres : ∀ rv, Orderless (resolve rv)) (rv : Option Term) :
    Orderless (termToBoolean resolve rv) := by
  refine (hres rv).bind fun v => ?_
  rcases v with _ | ⟨name | value | value | value | ⟨handler, ps⟩⟩
  · exact orderless_throw (by simp)
  all_goals exact orderless_pure _

theorem orderless_termToNumber (hres : ∀ rv, Orderless (resolve rv)) (rv : Option Term) :
    Orderless (termToNumber resolve rv) := by
  refine (hres rv).bind fun v => ?_
  rcases v with _ | ⟨name | value | value | value | ⟨handler, ps⟩⟩
  · exact orderless_throw (by simp)
  all_goals exact orderless_pure _

theorem orderless_termToString (hres : ∀ rv, Orderless (resolve rv)) (depth : Nat)
    (rv : Option Term) : Orderless (termToString resolve depth rv) := by
  induction depth generalizing rv with
  | zero => exact orderless_throw (by simp)
  | succ depth ih =>
    refine (hres rv).bind fun v => ?_
    rcases v with _ | ⟨name | value | value | value | ⟨handler, ps⟩⟩
    · exact orderless_throw (by simp)
    · exact (orderless_getVariable name).bind ih
    all_goals exact orderless_pure _

theorem orderless_termCompare (machine : Machine) (hres : ∀ rv, Orderless (resolve rv))
    (left right : Option Term) : Orderless (termCompare machine resolve left right) := by
  refine (hres left).bind fun l => (hres right).bind fun r => ?_
  rcases l with _ | ⟨name | value | value | value | ⟨handler, ps⟩⟩
  · exact orderless_throw (by simp)
  · exact orderless_pure _
  all_goals
    rcases r with _ | ⟨name' | value' | value' | value' | ⟨handler', ps'⟩⟩
    all_goals first | exact orderless_pure _ | exact orderless_throw (by simp)

theorem orderless_getVariableAsString (hres : ∀ rv, Orderless (resolve rv)) (depth : Nat)
    (name : CString) : Orderless (getVariableAsString resolve depth name) :=
  orderless_lookup name (orderless_termToString hres depth) (orderless_pure _)

theorem orderless_getVariableAsNumber (hres : ∀ rv, Orderless (resolve rv)) (name : CString) :
    Orderless (getVariableAsNumber resolve name) :=
  orderless_lookup name (orderless_termToNumber hres) (orderless_pure _)

theorem orderless_functionAssign (hres : ∀ rv, Orderless (resolve rv)) (ps : List Term) :
    Orderless (functionAssign resolve ps) := by
  refine (orderless_next ps).bind fun rest => (hres rest.head?).bind fun value => ?_
  cases ps with
  | nil => exact orderless_throw (by simp)
  | cons p rest =>
    cases p with
    | identifier name => exact (orderless_setVariable name value).bind fun _ => orderless_pure _
    | string _ | number _ | boolean _ | function _ _ => exact orderless_throw (by simp)

/-- `+` and `-`. -/
theorem orderless_operator (hres : ∀ rv, Orderless (resolve rv)) (ps : List Term)
    (combine : Int32 → Int32 → Option Term) :
    Orderless (do
      let a ← termToNumber resolve ps.head?
      let b ← termToNumber resolve (← next ps).head?
      pure (combine a b)) := by
  refine (orderless_termToNumber hres ps.head?).bind fun a => (orderless_next ps).bind fun rest => ?_
  exact (orderless_termToNumber hres rest.head?).bind fun b => orderless_pure _

theorem orderless_printParameters (hres : ∀ rv, Orderless (resolve rv)) (depth : Nat)
    (ps : List Term) : Orderless (printParameters resolve depth ps) := by
  induction ps with
  | nil => exact orderless_pure _
  | cons p rest ih =>
    refine (orderless_termToString hres depth (some p)).bind fun str => ?_
    exact (orderless_record _).bind fun _ => ih

theorem orderless_cmdArguments (hres : ∀ rv, Orderless (resolve rv)) (depth n : Nat)
    (ps : List Term) : Orderless (cmdArguments resolve depth n ps) := by
  induction ps generalizing n with
  | nil => cases n <;> exact orderless_pure _
  | cons p rest ih =>
    cases n with
    | zero => exact orderless_pure _
    | succ n =>
      refine (orderless_termToString hres depth (some p)).bind fun str => ?_
      exact (ih n).bind fun others => orderless_pure _

theorem orderless_functionSetenv (hres : ∀ rv, Orderless (resolve rv)) (depth : Nat)
    (ps : List Term) : Orderless (functionSetenv resolve depth ps) := by
  refine (orderless_termToString hres depth ps.head?).bind fun name => ?_
  refine (orderless_next ps).bind fun rest => ?_
  refine (orderless_termToString hres depth rest.head?).bind fun value => ?_
  refine orderless_env (fun s s' h => by simp only [h]) fun s => ?_
  obtain ⟨rc, env⟩ := ubootEnvSetenv s.workingUbootEnv name value
  refine Agree.bind ?_ fun _ => orderless_pure _
  by_cases hrc : rc < 0
  · rw [if_pos hrc]
    exact orderless_info _
  · rw [if_neg hrc]
    exact (orderless_setEnv fun _ => env).bind fun _ => orderless_setBooleanVariable _ _

theorem orderless_functionGetenv (hres : ∀ rv, Orderless (resolve rv)) (depth : Nat)
    (ps : List Term) : Orderless (functionGetenv resolve depth ps) := by
  refine (orderless_termToString hres depth ps.head?).bind fun name => ?_
  refine orderless_env (fun s s' h => by simp only [h]) fun s => ?_
  cases ubootEnvGetenv s.workingUbootEnv name with
  | none => exact orderless_pure _
  | some value => exact orderless_pure _

theorem orderless_functionCmd (hres : ∀ rv, Orderless (resolve rv)) (depth : Nat)
    (ps : List Term) : Orderless (functionCmd resolve depth ps) := by
  refine (orderless_cmdArguments hres depth 15 ps).bind fun argv => ?_
  refine (orderless_record _).bind fun _ => orderless_reply.bind fun r => ?_
  refine Agree.bind ?_ fun _ => ?_
  · split
    · exact orderless_pure _
    · exact orderless_info _
  · cases trimStringInPlace r.stray (outputBuffer r) with
    | none => exact orderless_throw (by simp)
    | some output => exact orderless_pure _

theorem orderless_functionFwupRevert (hres : ∀ rv, Orderless (resolve rv)) (depth : Nat)
    (ps : List Term) : Orderless (functionFwupRevert resolve depth ps) := by
  refine (orderless_getVariableAsString hres depth _).bind fun spec => ?_
  refine (orderless_openBlockDevice spec).bind fun devpath => ?_
  cases devpath with
  | none => exact (orderless_info _).bind fun _ => orderless_pure _
  | some devpath =>
    refine (orderless_record _).bind fun _ => orderless_reply.bind fun r => ?_
    split
    · exact (orderless_record _).bind fun _ => orderless_throw (by simp)
    · exact (orderless_info _).bind fun _ => orderless_pure _

theorem orderless_functionReadfile (hres : ∀ rv, Orderless (resolve rv)) (depth : Nat)
    (ps : List Term) : Orderless (functionReadfile resolve depth ps) := by
  refine (orderless_termToString hres depth ps.head?).bind fun path => ?_
  refine orderless_reply.bind fun r => ?_
  split
  · exact orderless_pure _
  · exact (orderless_info _).bind fun _ => orderless_pure _

theorem orderless_functionLs (hres : ∀ rv, Orderless (resolve rv)) (depth : Nat)
    (ps : List Term) : Orderless (functionLs resolve depth ps) := by
  refine Agree.bind ?_ fun _ => orderless_reply.bind fun r =>
    (orderless_printLines _).bind fun _ => orderless_pure _
  unfold lsPath
  cases ps.head? with
  | none => exact orderless_pure _
  | some p => exact orderless_termToString hres depth (some p)

theorem orderless_readBlocks (machine : Machine) (path : CString) (offset size : Nat) :
    Orderless (readBlocks machine path offset size) := by
  unfold readBlocks
  cases malloc machine.bits size with
  | none => exact orderless_pure _
  | some buffer =>
    refine (orderless_readDevice path offset size).bind fun got => ?_
    cases got <;> exact orderless_pure _

/-- The settings that `loadenv` and `saveenv` begin with. -/
theorem orderless_settings {α : Type} {machine : Machine}
    (hres : ∀ rv, Orderless (resolve rv)) (depth : Nat)
    {f : CString → Int32 → Int32 → Interp α} (hf : ∀ spec block count, Orderless (f spec block count)) :
    Orderless (do
      let spec ← getVariableAsString resolve depth (.ofString "uboot_env.path")
      let block ← getVariableAsNumber resolve (.ofString "uboot_env.start")
      let count ← getVariableAsNumber resolve (.ofString "uboot_env.count")
      let size := sizeOfBlocks machine count
      modify fun s => { s with workingUbootEnv := { s.workingUbootEnv with envSize := size } }
      f spec block count) := by
  refine (orderless_getVariableAsString hres depth _).bind fun spec => ?_
  refine (orderless_getVariableAsNumber hres _).bind fun block => ?_
  refine (orderless_getVariableAsNumber hres _).bind fun count => ?_
  exact (orderless_setEnv fun env => { env with envSize := sizeOfBlocks machine count }).bind
    fun _ => hf spec block count

theorem orderless_functionLoadenv (machine : Machine) (hres : ∀ rv, Orderless (resolve rv))
    (depth : Nat) (ps : List Term) : Orderless (functionLoadenv machine resolve depth ps) := by
  refine orderless_settings hres depth fun spec block count => ?_
  refine (orderless_openBlockDevice spec).bind fun devpath => ?_
  cases devpath with
  | none => exact (orderless_info _).bind fun _ => orderless_pure _
  | some devpath =>
    refine (orderless_lseek _).bind fun sought => ?_
    cases sought with
    | false => exact (orderless_info _).bind fun _ => orderless_pure _
    | true =>
      refine (orderless_readBlocks machine _ _ _).bind fun buffer => ?_
      cases buffer with
      | none => exact (orderless_info _).bind fun _ => orderless_pure _
      | some buffer =>
        refine (orderless_setBooleanVariable _ _).bind fun _ => ?_
        refine (orderless_setBooleanVariable _ _).bind fun _ => ?_
        refine orderless_env (fun s s' h => by simp only [h]) fun s => ?_
        cases ubootEnvRead s.workingUbootEnv buffer with
        | none => exact orderless_throw (by simp)
        | some result =>
          refine (orderless_setEnv fun _ => result.2).bind fun _ => ?_
          split
          · exact orderless_pure _
          · exact (orderless_setBooleanVariable _ _).bind fun _ => orderless_pure _

theorem orderless_functionSaveenv (machine : Machine) (hres : ∀ rv, Orderless (resolve rv))
    (depth : Nat) (ps : List Term) : Orderless (functionSaveenv machine resolve depth ps) := by
  refine orderless_settings hres depth fun spec block count => ?_
  refine (orderless_openBlockDevice spec).bind fun devpath => ?_
  cases devpath with
  | none => exact (orderless_info _).bind fun _ => orderless_pure _
  | some devpath =>
    refine (orderless_lseek _).bind fun sought => ?_
    cases sought with
    | false => exact (orderless_info _).bind fun _ => orderless_pure _
    | true =>
      rw [if_neg (show ¬(!true) = true from nofun)]
      cases malloc machine.bits (sizeOfBlocks machine count) with
      | none => exact orderless_throw (by simp)
      | some buffer =>
        refine orderless_env (fun s s' h => by simp only [h]) fun s => ?_
        cases ubootEnvWrite machine.qsort s.workingUbootEnv buffer with
        | none => exact orderless_throw (by simp)
        | some result =>
          obtain ⟨rc, env', written⟩ := result
          refine (orderless_setEnv fun _ => env').bind fun _ => ?_
          split
          · exact orderless_pure _
          · refine (orderless_writeDevice _ _ _).bind fun amount => ?_
            split
            · exact (orderless_info _).bind fun _ => orderless_pure _
            · exact (orderless_setBooleanVariable _ _).bind fun _ => orderless_pure _

/-! ## Calls -/

/-- `vars` prints some lines, and stops at a value that it cannot print. -/
theorem inspectVariables_eq (vars : List Variable) (s : State) :
    ∃ p : List Event, p.all Event.isPrinted ∧ inspectVariables vars s =
      if vars.all fun v => (v.value.bind inspect).isSome then .ok () { s with log := s.log ++ p }
      else .error .nullDereference { s with log := s.log ++ p } := by
  induction vars generalizing s with
  | nil =>
    refine ⟨[], rfl, ?_⟩
    rw [List.append_nil]
    rfl
  | cons v rest ih =>
    cases hv : v.value.bind inspect with
    | none =>
      refine ⟨[], rfl, ?_⟩
      rw [inspectVariables, hv, List.append_nil, List.all_cons, hv]
      rfl
    | some bytes =>
      let e : Event := .printed (v.name.bytes ++ text "=" ++ bytes ++ text "\n")
      obtain ⟨p, hp, heq⟩ := ih { s with log := s.log ++ [e] }
      refine ⟨e :: p, by simp [e, Event.isPrinted, hp], ?_⟩
      rw [inspectVariables, hv, List.all_cons, hv]
      refine Eq.trans (b := inspectVariables rest { s with log := s.log ++ [e] }) rfl ?_
      rw [heq, List.append_assoc]
      rfl

/-- Whether all values can be printed does not depend on the order. -/
theorem inspectable_of_same {vars vars' : List Variable} (hnodup : (vars'.map Variable.name).Nodup)
    (hsame : ∀ name, store vars name = store vars' name)
    (hall : (vars.all fun v => (v.value.bind inspect).isSome) = true) :
    (vars'.all fun v => (v.value.bind inspect).isSome) = true := by
  rw [List.all_eq_true] at hall ⊢
  intro v' hv'
  have hfound : store vars' v'.name = some v'.value :=
    (unambiguous_of_nodup hnodup).firstMatch_eq hv'
  rw [← hsame v'.name] at hfound
  obtain ⟨v, hv, -, hvalue⟩ := mem_of_store hfound
  rw [← hvalue]
  exact hall v hv

theorem orderless_vars (ps : List Term) : Orderless (do
    recordCall .vars
    functionVars ps) := by
  intro s s' h
  show Related _ _
    ((inspectVariables s.vars >>= fun _ => pure none) { s with log := s.log ++ [.called .vars] })
    ((inspectVariables s'.vars >>= fun _ => pure none) { s' with log := s'.log ++ [.called .vars] })
  refine related_bind ?_ fun _ => orderless_pure none
  obtain ⟨p, hp, hs⟩ := inspectVariables_eq s.vars { s with log := s.log ++ [.called .vars] }
  obtain ⟨p', hp', hs'⟩ := inspectVariables_eq s'.vars { s' with log := s'.log ++ [.called .vars] }
  have halike : Alike { s with log := s.log ++ [.called .vars] ++ p }
      { s' with log := s'.log ++ [.called .vars] ++ p' } := by
    refine ⟨⟨h.effects.vars, h.effects.env, h.effects.world, ?_⟩, h.names, h.names'⟩
    show SameLog (s.log ++ [.called .vars] ++ p) (s'.log ++ [.called .vars] ++ p')
    rw [List.append_assoc, List.append_assoc]
    exact .listed h.effects.log hp hp'
  rw [hs, hs']
  by_cases hall : (s.vars.all fun v => (v.value.bind inspect).isSome) = true
  · rw [if_pos hall, if_pos (inspectable_of_same h.names' h.effects.vars hall)]
    exact ⟨_, rfl, halike⟩
  · have hall' : ¬(s'.vars.all fun v => (v.value.bind inspect).isSome) = true := fun hall' =>
      hall (inspectable_of_same h.names (fun k => (h.effects.vars k).symm) hall')
    rw [if_neg hall, if_neg hall']
    exact ⟨_, rfl, by simp, halike⟩

theorem orderless_recordCall (handler : Builtin) : Orderless (recordCall handler) := by
  unfold recordCall
  split
  · exact orderless_pure _
  · exact orderless_record _

/-- A call of any function does the same in any order of the variables. -/
theorem orderless_run (machine : Machine) (hres : ∀ rv, Orderless (resolve rv)) (depth : Nat)
    (handler : Builtin) (ps : List Term) : Orderless (do
      recordCall handler
      handler.run machine resolve depth ps) := by
  by_cases hvars : handler = .vars
  · subst hvars
    exact orderless_vars ps
  refine (orderless_recordCall handler).bind fun _ => ?_
  cases handler with
  | vars => exact absurd rfl hvars
  | assign => exact orderless_functionAssign hres ps
  | add => exact orderless_operator hres ps fun a b => some (.number (a + b))
  | subtract => exact orderless_operator hres ps fun a b => some (.number (a - b))
  | blkid =>
    exact orderless_reply.bind fun r => (orderless_printLines _).bind fun _ => orderless_pure _
  | cmd => exact orderless_functionCmd hres depth ps
  | env =>
    refine orderless_env (fun s s' h => by simp only [h]) fun s => ?_
    exact (orderless_printLines _).bind fun _ => orderless_pure _
  | fwupRevert => exact orderless_functionFwupRevert hres depth ps
  | getenv => exact orderless_functionGetenv hres depth ps
  | help =>
    refine (orderless_printLines _).bind fun _ => ?_
    exact (orderless_record _).bind fun _ => orderless_pure _
  | loadenv => exact orderless_functionLoadenv machine hres depth ps
  | ls => exact orderless_functionLs hres depth ps
  | poweroff => exact (orderless_record _).bind fun _ => orderless_throw (by simp)
  | print =>
    refine (orderless_printParameters hres depth ps).bind fun _ => ?_
    exact (orderless_record _).bind fun _ => orderless_pure _
  | readfile => exact orderless_functionReadfile hres depth ps
  | reboot => exact (orderless_record _).bind fun _ => orderless_throw (by simp)
  | saveenv => exact orderless_functionSaveenv machine hres depth ps
  | setenv => exact orderless_functionSetenv hres depth ps
  | sleep =>
    refine (orderless_termToNumber hres ps.head?).bind fun milliseconds => ?_
    exact (orderless_record _).bind fun _ => orderless_pure _

end

theorem orderless_termResolve (machine : Machine) (depth : Nat) (rv : Option Term) :
    Orderless (termResolve machine depth rv) := by
  induction depth generalizing rv with
  | zero => exact orderless_throw (by simp)
  | succ depth ih =>
    rcases rv with _ | ⟨name | value | value | value | ⟨handler, ps⟩⟩
    · exact orderless_throw (by simp)
    · exact (orderless_getVariable name).bind ih
    · exact orderless_pure _
    · exact orderless_pure _
    · exact orderless_pure _
    · exact orderless_run machine ih depth handler ps

theorem orderless_runFunctions (machine : Machine) (depth : Nat) (last : Option Term)
    (rvs : List Term) : Orderless (runFunctions machine depth last rvs) := by
  induction rvs generalizing last with
  | nil => exact orderless_pure _
  | cons rv rest ih =>
    refine Agree.bind ?_ fun result => ih result
    cases rv with
    | function handler ps =>
      exact orderless_run machine (orderless_termResolve machine depth) depth handler ps
    | identifier _ | string _ | number _ | boolean _ => exact orderless_throw (by simp)

end NervesInitramfs
