import NervesInitramfs.Script.Heap.Proofs.SoundProofs

/-!
# Proofs: evaluation keeps the heap sound

Every handler, every action of the grammar and every input keeps the invariant, so that it holds in
all the states that the interpreter can come to.
-/

namespace NervesInitramfs.TermHeap

open CLib

/-! ## Coercions -/

/-- Resolving a term of the heap comes to a term of the heap. -/
def Resolves (machine : Machine) (resolve : Option Ptr → HeapInterp (Option Ptr)) : Prop :=
  ∀ s p, Sound machine s → Value s p → Safe machine (resolve p) s fun r s' => Value s' r

section

variable {machine : Machine} {resolve : Option Ptr → HeapInterp (Option Ptr)} {s : HeapState}
  {p : Option Ptr} (hresolve : Resolves machine resolve) (hs : Sound machine s) (depth : Nat)

include hresolve hs

theorem safe_termToBoolean (hp : Value s p) :
    Safe machine (termToBoolean resolve p) s fun _ _ => True := by
  unfold termToBoolean
  refine (hresolve s p hs hp).bind ?_
  intro r s1 hs1 _ _
  refine (safe_deref hs1 r).bind ?_
  rintro t _ - - ⟨rfl, -⟩
  cases t.data with
  | string q =>
    refine (safe_textAt hs1 q).bind ?_
    rintro str _ - - ⟨rfl, -⟩
    exact safe_pure hs1 trivial
  | number _ | boolean _ | identifier _ | function _ _ | var _ _ => exact safe_pure hs1 trivial

theorem safe_termToNumber (hp : Value s p) :
    Safe machine (termToNumber resolve p) s fun _ _ => True := by
  unfold termToNumber
  refine (hresolve s p hs hp).bind ?_
  intro r s1 hs1 _ _
  refine (safe_deref hs1 r).bind ?_
  rintro t _ - - ⟨rfl, -⟩
  cases t.data with
  | string q =>
    refine (safe_textAt hs1 q).bind ?_
    rintro str _ - - ⟨rfl, -⟩
    exact safe_pure hs1 trivial
  | number _ | boolean _ | identifier _ | function _ _ | var _ _ => exact safe_pure hs1 trivial

omit hresolve in
theorem safe_newText (value : CString) :
    Safe machine (termToString.newText machine value) s fun _ _ => True := by
  unfold termToString.newText
  refine (safe_termNewString hs value).bind ?_
  intro rv s1 hs1 _ _
  refine (safe_deref hs1 (some rv)).bind ?_
  rintro t _ - - ⟨rfl, -⟩
  cases t.data with
  | string q => exact safe_pure hs1 trivial
  | number _ | boolean _ | identifier _ | function _ _ | var _ _ => exact safe_throw hs1

theorem safe_termToString (hp : Value s p) (n : Nat) :
    Safe machine (termToString machine resolve depth n p) s fun _ _ => True := by
  induction n generalizing s p with
  | zero => exact safe_throw hs
  | succ n ih =>
    rw [termToString]
    refine (hresolve s p hs hp).bind ?_
    intro r s1 hs1 _ _
    refine (safe_deref hs1 r).bind ?_
    rintro t _ - - ⟨rfl, -⟩
    cases t.data with
    | identifier q =>
      refine (safe_textAt hs1 q).bind ?_
      rintro name _ - - ⟨rfl, -⟩
      refine (safe_getVariable hs1 depth name).bind ?_
      intro value s2 hs2 _ hvalue
      exact ih hs2 hvalue
    | string q => exact safe_pure hs1 trivial
    | number _ | boolean _ | function _ _ | var _ _ => exact safe_newText hs1 _

theorem safe_stringOf (hp : Value s p) :
    Safe machine (stringOf machine resolve depth p) s fun _ _ => True := by
  unfold stringOf
  refine (safe_termToString hresolve hs depth hp depth).bind ?_
  intro q s1 hs1 _ _
  exact (safe_textAt hs1 q).mono fun _ _ _ => trivial

theorem safe_getVariableAsString (name : CString) :
    Safe machine (getVariableAsString machine resolve depth name) s fun _ _ => True := by
  unfold getVariableAsString
  refine (safe_getVariableImpl hs depth name).bind ?_
  rintro r s1 hs1 - ⟨rfl, hvalue⟩
  cases r with
  | some v => exact safe_stringOf hresolve hs1 depth (hvalue v.1 v.2 rfl)
  | none => exact safe_pure hs1 trivial

theorem safe_getVariableAsNumber (name : CString) :
    Safe machine (getVariableAsNumber resolve depth name) s fun _ _ => True := by
  unfold getVariableAsNumber
  refine (safe_getVariableImpl hs depth name).bind ?_
  rintro r s1 hs1 - ⟨rfl, hvalue⟩
  cases r with
  | some v => exact safe_termToNumber hresolve hs1 (hvalue v.1 v.2 rfl)
  | none => exact safe_pure hs1 trivial

omit hresolve in
theorem safe_contentOf (data : TermData) : Safe machine (contentOf data) s fun _ _ => True := by
  cases data with
  | identifier q | string q =>
    refine (safe_textAt hs q).bind ?_
    rintro text _ - - ⟨rfl, -⟩
    exact safe_pure hs trivial
  | number _ | boolean _ | function _ _ => exact safe_pure hs trivial
  | var _ _ => exact safe_throw hs

theorem safe_termCompare {q : Option Ptr} (hp : Value s p) (hq : Value s q) :
    Safe machine (termCompare machine resolve p q) s fun _ _ => True := by
  unfold termCompare
  refine (hresolve s p hs hp).bind ?_
  intro left s1 hs1 hext1 _
  refine (hresolve s1 q hs1 (hq.extend hext1)).bind ?_
  intro right s2 hs2 _ _
  refine (safe_deref hs2 left).bind ?_
  rintro t _ - - ⟨rfl, -⟩
  cases t.data with
  | string a =>
    refine (safe_deref hs2 right).bind ?_
    rintro u _ - - ⟨rfl, -⟩
    cases u.data with
    | string b =>
      refine (safe_textAt hs2 a).bind ?_
      rintro x _ - - ⟨rfl, -⟩
      refine (safe_textAt hs2 b).bind ?_
      rintro y _ - - ⟨rfl, -⟩
      exact safe_pure hs2 trivial
    | number _ | boolean _ | identifier _ | function _ _ | var _ _ => exact safe_throw hs2
  | number a =>
    refine (safe_deref hs2 right).bind ?_
    rintro u _ - - ⟨rfl, -⟩
    exact (safe_contentOf hs2 u.data).bind fun _ _ hs3 _ _ => safe_pure hs3 trivial
  | boolean a =>
    refine (safe_deref hs2 right).bind ?_
    rintro u _ - - ⟨rfl, -⟩
    exact (safe_contentOf hs2 u.data).bind fun _ _ hs3 _ _ => safe_pure hs3 trivial
  | identifier _ | function _ _ | var _ _ => exact safe_pure hs2 trivial

/-! ## The handlers -/

theorem safe_functionAssign (hp : Value s p) :
    Safe machine (functionAssign machine resolve depth p) s fun r s' => Value s' r := by
  unfold functionAssign
  refine (safe_nextOf hs hp).bind ?_
  rintro next _ - - ⟨rfl, hnext⟩
  refine (hresolve _ next hs hnext).bind ?_
  intro value s1 hs1 _ hvalue
  refine (safe_deref hs1 p).bind ?_
  rintro t _ - - ⟨rfl, -⟩
  cases t.data with
  | identifier q =>
    refine (safe_textAt hs1 q).bind ?_
    rintro name _ - - ⟨rfl, -⟩
    refine (safe_setVariable hs1 hvalue depth name).bind ?_
    intro _ s2 hs2 hext _
    exact safe_pure hs2 (hvalue.extend hext)
  | string _ | number _ | boolean _ | function _ _ | var _ _ => exact safe_throw hs1

theorem safe_functionAdd (hp : Value s p) :
    Safe machine (functionAdd machine resolve p) s fun r s' => Value s' r := by
  unfold functionAdd
  refine (safe_termToNumber hresolve hs hp).bind ?_
  intro a s1 hs1 hext1 _
  refine (safe_nextOf hs1 (hp.extend hext1)).bind ?_
  rintro next _ - - ⟨rfl, hnext⟩
  refine (safe_termToNumber hresolve hs1 hnext).bind ?_
  intro b s2 hs2 _ _
  refine (safe_termNewNumber hs2 (a + b)).bind ?_
  intro q s3 hs3 _ hq
  exact safe_pure hs3 (value_some hq)

theorem safe_functionSubtract (hp : Value s p) :
    Safe machine (functionSubtract machine resolve p) s fun r s' => Value s' r := by
  unfold functionSubtract
  refine (safe_termToNumber hresolve hs hp).bind ?_
  intro a s1 hs1 hext1 _
  refine (safe_nextOf hs1 (hp.extend hext1)).bind ?_
  rintro next _ - - ⟨rfl, hnext⟩
  refine (safe_termToNumber hresolve hs1 hnext).bind ?_
  intro b s2 hs2 _ _
  refine (safe_termNewNumber hs2 (a - b)).bind ?_
  intro q s3 hs3 _ hq
  exact safe_pure hs3 (value_some hq)

omit hresolve in
/-- A handler that ends with something outside the heap. -/
theorem safe_outside_none {α : Type} (m : Interp α) :
    Safe machine (outside m >>= fun _ => pure (none : Option Ptr)) s fun r s' => Value s' r := by
  refine (safe_outside hs m).bind ?_
  intro _ s1 hs1 _ _
  exact safe_pure hs1 value_none

theorem safe_printParameters (hp : Value s p) (n : Nat) :
    Safe machine (printParameters machine resolve depth n p) s fun _ _ => True := by
  induction n generalizing s p with
  | zero =>
    cases p with
    | none => exact safe_pure hs trivial
    | some q => exact safe_throw hs
  | succ n ih =>
    cases p with
    | none => exact safe_pure hs trivial
    | some q =>
      rw [printParameters]
      refine (safe_stringOf hresolve hs depth hp).bind ?_
      intro str s1 hs1 hext1 _
      refine (safe_outside hs1 _).bind ?_
      intro _ s2 hs2 hext2 _
      refine (safe_nextOf hs2 ((hp.extend hext1).extend hext2)).bind ?_
      rintro next _ - - ⟨rfl, hnext⟩
      exact ih hs2 hnext

theorem safe_functionPrint (hp : Value s p) :
    Safe machine (functionPrint machine resolve depth p) s fun r s' => Value s' r := by
  unfold functionPrint
  refine (safe_printParameters hresolve hs depth hp depth).bind ?_
  intro _ s1 hs1 _ _
  exact safe_outside_none hs1 _

theorem safe_functionLs (hp : Value s p) :
    Safe machine (functionLs machine resolve depth p) s fun r s' => Value s' r := by
  unfold functionLs
  cases p with
  | none => exact safe_outside_none hs _
  | some q =>
    refine (safe_stringOf hresolve hs depth hp).bind ?_
    intro _ s1 hs1 _ _
    exact safe_outside_none hs1 _

theorem safe_functionLoadenv :
    Safe machine (functionLoadenv machine resolve depth p) s fun r s' => Value s' r := by
  unfold functionLoadenv
  refine (safe_getVariableAsString hresolve hs depth _).bind ?_
  intro devpathspec s1 hs1 _ _
  refine (safe_getVariableAsNumber hresolve hs1 depth _).bind ?_
  intro block s2 hs2 _ _
  refine (safe_getVariableAsNumber hresolve hs2 depth _).bind ?_
  intro blockCount s3 hs3 _ _
  refine (safe_outside hs3 _).bind ?_
  intro _ s4 hs4 _ _
  refine (safe_outside hs4 _).bind ?_
  intro device s5 hs5 _ _
  cases device with
  | none => exact safe_outside_none hs5 _
  | some devpath =>
    refine (safe_outside hs5 _).bind ?_
    intro sought s6 hs6 _ _
    cases sought with
    | false => exact safe_outside_none hs6 _
    | true =>
      refine (safe_outside hs6 _).bind ?_
      intro buffer s7 hs7 _ _
      cases buffer with
      | none => exact safe_outside_none hs7 _
      | some buffer =>
        refine (safe_setBooleanVariable hs7 depth _ false).bind ?_
        intro _ s8 hs8 _ _
        refine (safe_setBooleanVariable hs8 depth _ false).bind ?_
        intro _ s9 hs9 _ _
        refine safe_get_bind ?_
        cases ubootEnvRead _ buffer with
        | none => exact safe_throw hs9
        | some env =>
          refine (safe_outside hs9 _).bind ?_
          intro _ s10 hs10 _ _
          by_cases hrc : env.1 < 0
          · simp only [hrc, if_true]
            exact safe_pure hs10 value_none
          · simp only [hrc, if_false]
            refine (safe_setBooleanVariable hs10 depth _ true).bind ?_
            intro _ s11 hs11 _ _
            exact safe_pure hs11 value_none

theorem safe_functionSetenv (hp : Value s p) :
    Safe machine (functionSetenv machine resolve depth p) s fun r s' => Value s' r := by
  unfold functionSetenv
  refine (safe_stringOf hresolve hs depth hp).bind ?_
  intro name s1 hs1 hext1 _
  have hp1 := hp.extend hext1
  refine (safe_nextOf hs1 hp1).bind ?_
  rintro rest _ - - ⟨rfl, hrest⟩
  refine (safe_stringOf hresolve hs1 depth hrest).bind ?_
  intro value s2 hs2 hext2 _
  have hp2 := hp1.extend hext2
  refine safe_get_bind ?_
  have hset : Safe machine (if (ubootEnvSetenv s2.outside.workingUbootEnv name value).1 < 0 then
      outside (info (text "Error setting uboot environment variable '" ++ name.bytes ++
        text "' to '" ++ value.bytes ++ text "'"))
    else do
      outside (modify fun s =>
        { s with workingUbootEnv := (ubootEnvSetenv s2.outside.workingUbootEnv name value).2 })
      setBooleanVariable machine depth (.ofString "uboot_env.modified") true) s2 fun _ _ => True := by
    split
    · exact (safe_outside hs2 _).mono fun _ _ _ => trivial
    · refine (safe_outside hs2 _).bind ?_
      intro _ s3 hs3 _ _
      exact safe_setBooleanVariable hs3 depth _ true
  refine hset.bind ?_
  intro _ s3 hs3 hext3 _
  exact (safe_nextOf hs3 (hp2.extend hext3)).mono fun _ _ h => h.2

theorem safe_functionGetenv (hp : Value s p) :
    Safe machine (functionGetenv machine resolve depth p) s fun r s' => Value s' r := by
  unfold functionGetenv
  refine (safe_stringOf hresolve hs depth hp).bind ?_
  intro name s1 hs1 _ _
  refine safe_get_bind ?_
  refine (safe_termNewString hs1 _).bind ?_
  intro q s2 hs2 _ hq
  exact safe_pure hs2 (value_some hq)

theorem safe_functionSaveenv :
    Safe machine (functionSaveenv machine resolve depth p) s fun r s' => Value s' r := by
  unfold functionSaveenv
  refine (safe_getVariableAsString hresolve hs depth _).bind ?_
  intro devpathspec s1 hs1 _ _
  refine (safe_getVariableAsNumber hresolve hs1 depth _).bind ?_
  intro block s2 hs2 _ _
  refine (safe_getVariableAsNumber hresolve hs2 depth _).bind ?_
  intro blockCount s3 hs3 _ _
  refine (safe_outside hs3 _).bind ?_
  intro _ s4 hs4 _ _
  refine (safe_outside hs4 _).bind ?_
  intro device s5 hs5 _ _
  cases device with
  | none => exact safe_outside_none hs5 _
  | some devpath =>
    refine (safe_outside hs5 _).bind ?_
    intro sought s6 hs6 _ _
    cases sought with
    | false => exact safe_outside_none hs6 _
    | true =>
      simp only [Bool.not_true, Bool.false_eq_true, if_false]
      cases malloc machine.bits (sizeOfBlocks machine blockCount) with
      | none => exact safe_throw hs6
      | some buffer =>
        refine safe_get_bind ?_
        cases ubootEnvWrite machine.qsort s6.outside.workingUbootEnv buffer with
        | none => exact safe_throw hs6
        | some result =>
          refine (safe_outside hs6 _).bind ?_
          intro _ s7 hs7 _ _
          by_cases hrc : result.1 < 0
          · simp only [hrc, if_true]
            exact safe_pure hs7 value_none
          · simp only [hrc, if_false]
            refine (safe_outside hs7 _).bind ?_
            intro amountWritten s8 hs8 _ _
            by_cases hamount : amountWritten ≠ some (sizeOfBlocks machine blockCount)
            · rw [if_pos hamount]
              exact safe_outside_none hs8 _
            · rw [if_neg hamount]
              refine (safe_setBooleanVariable hs8 depth _ false).bind ?_
              intro _ s9 hs9 _ _
              exact safe_pure hs9 value_none

theorem safe_cmdArguments (hp : Value s p) (n : Nat) :
    Safe machine (cmdArguments machine resolve depth n p) s fun _ _ => True := by
  induction n generalizing s p with
  | zero => exact safe_pure hs trivial
  | succ n ih =>
    cases p with
    | none => exact safe_pure hs trivial
    | some q =>
      rw [cmdArguments]
      refine (safe_stringOf hresolve hs depth hp).bind ?_
      intro str s1 hs1 hext1 _
      refine (safe_nextOf hs1 (hp.extend hext1)).bind ?_
      rintro next _ - - ⟨rfl, hnext⟩
      refine (ih hs1 hnext).bind ?_
      intro others s2 hs2 _ _
      exact safe_pure hs2 trivial

theorem safe_functionCmd (hp : Value s p) :
    Safe machine (functionCmd machine resolve depth p) s fun r s' => Value s' r := by
  unfold functionCmd
  refine (safe_cmdArguments hresolve hs depth hp 15).bind ?_
  intro argv s1 hs1 _ _
  refine (safe_outside hs1 _).bind ?_
  intro output s2 hs2 _ _
  refine (safe_termNewString hs2 output).bind ?_
  intro q s3 hs3 _ hq
  exact safe_pure hs3 (value_some hq)

theorem safe_functionFwupRevert :
    Safe machine (functionFwupRevert machine resolve depth p) s fun r s' => Value s' r := by
  unfold functionFwupRevert
  refine (safe_getVariableAsString hresolve hs depth _).bind ?_
  intro devpathspec s1 hs1 _ _
  refine (safe_outside hs1 _).bind ?_
  intro _ s2 hs2 _ _
  refine (safe_termNewBoolean hs2 false).bind ?_
  intro q s3 hs3 _ hq
  exact safe_pure hs3 (value_some hq)

theorem safe_functionSleep (hp : Value s p) :
    Safe machine (functionSleep resolve p) s fun r s' => Value s' r := by
  unfold functionSleep
  refine (safe_termToNumber hresolve hs hp).bind ?_
  intro milliseconds s1 hs1 _ _
  exact safe_outside_none hs1 _

theorem safe_functionReadfile (hp : Value s p) :
    Safe machine (functionReadfile machine resolve depth p) s fun r s' => Value s' r := by
  unfold functionReadfile
  refine (safe_stringOf hresolve hs depth hp).bind ?_
  intro path s1 hs1 _ _
  refine (safe_outside hs1 _).bind ?_
  intro contents s2 hs2 _ _
  refine (safe_termNewString hs2 contents).bind ?_
  intro q s3 hs3 _ hq
  exact safe_pure hs3 (value_some hq)

omit hresolve in
/-- Looking at a term, and at those in it, changes nothing. -/
theorem safe_inspectParameters {n : Nat}
    (hinspect : ∀ p, Safe machine (inspect n p) s fun _ s' => s' = s) (count : Nat) (p : Option Ptr) :
    Safe machine (inspect.inspectParameters n count p) s fun _ s' => s' = s := by
  induction count generalizing p with
  | zero =>
    rw [inspect.inspectParameters]
    exact safe_pure hs rfl
  | succ count ih =>
    rw [inspect.inspectParameters]
    refine (hinspect p).bind ?_
    rintro first _ - - rfl
    refine (safe_readNext hs p).bind ?_
    rintro rest _ - - rfl
    refine (ih rest).bind ?_
    rintro others _ - - rfl
    exact safe_pure hs rfl

omit hresolve in
theorem safe_inspect (n : Nat) (p : Option Ptr) :
    Safe machine (inspect n p) s fun _ s' => s' = s := by
  induction n generalizing p with
  | zero =>
    rw [inspect]
    exact safe_throw hs
  | succ n ih =>
    rw [inspect]
    refine (safe_deref hs p).bind ?_
    rintro t _ - - ⟨rfl, -⟩
    cases t.data with
    | identifier q =>
      refine (safe_textAt hs q).bind ?_
      rintro str _ - - ⟨rfl, -⟩
      exact safe_pure hs rfl
    | string q =>
      refine (safe_textAt hs q).bind ?_
      rintro str _ - - ⟨rfl, -⟩
      exact safe_pure hs rfl
    | number _ | boolean _ => exact safe_pure hs rfl
    | function handler parameters =>
      simp only
      cases functionInfoByFun handler with
      | none => exact safe_throw hs
      | some info =>
        refine (safe_inspectParameters hs ih info.arity parameters).bind ?_
        rintro inside _ - - rfl
        exact safe_pure hs rfl
    | var name value =>
      refine (ih value).bind ?_
      rintro inside _ - - rfl
      refine (safe_textAt hs name).bind ?_
      rintro str _ - - ⟨rfl, -⟩
      exact safe_pure hs rfl

omit hresolve in
theorem safe_inspectVariables (n : Nat) (p : Option Ptr) :
    Safe machine (inspectVariables depth n p) s fun _ _ => True := by
  induction n generalizing s p with
  | zero =>
    cases p with
    | none => exact safe_pure hs trivial
    | some q => exact safe_throw hs
  | succ n ih =>
    cases p with
    | none => exact safe_pure hs trivial
    | some q =>
      rw [inspectVariables]
      refine (safe_inspect hs depth (some q)).bind ?_
      rintro bytes _ - - rfl
      refine (safe_outside hs _).bind ?_
      intro _ s1 hs1 _ _
      refine (safe_readNext hs1 (some q)).bind ?_
      rintro next _ - - rfl
      exact ih hs1 next

/-- Every handler returns a term of the heap. -/
theorem safe_run (handler : Builtin) (hp : Value s p) :
    Safe machine (run machine resolve depth handler p) s fun r s' => Value s' r := by
  cases handler with
  | assign => exact safe_functionAssign hresolve hs depth hp
  | add => exact safe_functionAdd hresolve hs hp
  | subtract => exact safe_functionSubtract hresolve hs hp
  | blkid | env | help | poweroff | reboot => exact safe_outside_none hs _
  | cmd => exact safe_functionCmd hresolve hs depth hp
  | fwupRevert => exact safe_functionFwupRevert (p := p) hresolve hs depth
  | getenv => exact safe_functionGetenv hresolve hs depth hp
  | loadenv => exact safe_functionLoadenv (p := p) hresolve hs depth
  | ls => exact safe_functionLs hresolve hs depth hp
  | print => exact safe_functionPrint hresolve hs depth hp
  | readfile => exact safe_functionReadfile hresolve hs depth hp
  | saveenv => exact safe_functionSaveenv (p := p) hresolve hs depth
  | setenv => exact safe_functionSetenv hresolve hs depth hp
  | sleep => exact safe_functionSleep hresolve hs hp
  | vars =>
    refine safe_get_bind ?_
    refine (safe_inspectVariables hs depth depth s.vars).bind ?_
    intro _ s1 hs1 _ _
    exact safe_pure hs1 value_none

end

/-! ## Resolving -/

section

variable {machine : Machine} {s : HeapState} {p : Option Ptr}

theorem Sound.parametersOf (hs : Sound machine s) {q : Ptr} {t : HeapTerm} (hq : PlainAt s q)
    (ht : s.cells q = some (.term t)) {handler : Builtin} {ps : Option Ptr}
    (hdata : t.data = .function handler ps) : Value s ps :=
  hs.parameters q t handler ps hq.1 ht hdata

theorem resolves_termResolve (machine : Machine) (depth : Nat) :
    Resolves machine (termResolve machine depth) := by
  induction depth with
  | zero =>
    intro s p hs _
    exact safe_throw hs
  | succ depth ih =>
    intro s p hs hp
    rw [termResolve]
    refine (safe_deref hs p).bind ?_
    rintro t _ - - ⟨rfl, q, rfl, ht⟩
    cases hdata : t.data with
    | identifier identifier =>
      refine (safe_textAt hs identifier).bind ?_
      rintro name _ - - ⟨rfl, -⟩
      refine (safe_getVariable hs depth name).bind ?_
      intro value s1 hs1 _ hvalue
      exact ih s1 value hs1 hvalue
    | function handler parameters =>
      have hparameters := hs.parametersOf (hp q rfl) ht hdata
      refine (safe_outside hs _).bind ?_
      intro _ s1 hs1 hext1 _
      exact safe_run ih hs1 depth handler (hparameters.extend hext1)
    | string _ | number _ | boolean _ | var _ _ => exact safe_pure hs hp

theorem safe_runFunction (hs : Sound machine s) (depth : Nat) (hp : Value s p) :
    Safe machine (runFunction machine depth p) s fun r s' => Value s' r := by
  unfold runFunction
  refine (safe_deref hs p).bind ?_
  rintro t _ - - ⟨rfl, q, rfl, ht⟩
  cases hdata : t.data with
  | function handler parameters =>
    have hparameters := hs.parametersOf (hp q rfl) ht hdata
    refine (safe_outside hs _).bind ?_
    intro _ s1 hs1 hext1 _
    exact safe_run (resolves_termResolve machine depth) hs1 depth handler (hparameters.extend hext1)
  | identifier _ | string _ | number _ | boolean _ | var _ _ => exact safe_throw hs

theorem safe_runFunctions (hs : Sound machine s) (depth n : Nat) {last : Option Ptr}
    (hlast : Value s last) (hp : Value s p) :
    Safe machine (runFunctions machine depth n last p) s fun r s' => Value s' r := by
  induction n generalizing s last p with
  | zero =>
    cases p with
    | none => exact safe_pure hs hlast
    | some q => exact safe_throw hs
  | succ n ih =>
    cases p with
    | none => exact safe_pure hs hlast
    | some q =>
      rw [runFunctions]
      refine (safe_runFunction hs depth hp).bind ?_
      intro result s1 hs1 hext1 hresult
      refine (safe_nextOf hs1 (hp.extend hext1)).bind ?_
      rintro next _ - - ⟨rfl, hnext⟩
      exact ih hs1 hresult hnext

end

/-! ## The actions of the grammar -/

section

variable {machine : Machine} {s : HeapState} (depth : Nat)

theorem safe_buildCall (hs : Sound machine s) (name : CString) {parameters : Option Ptr}
    (hparameters : Value s parameters) :
    Safe machine (buildCall machine depth name parameters) s fun p s' => PlainAt s' p := by
  unfold buildCall
  refine (safe_termNewFun hs depth name hparameters).bind ?_
  intro r s1 hs1 _ hr
  cases r with
  | some rc => exact safe_pure hs1 (hr rc rfl)
  | none => exact safe_throw hs1

theorem safe_callNamed (hs : Sound machine s) (id : Ptr) {parameters : Option Ptr}
    (hparameters : Value s parameters) :
    Safe machine (callNamed machine depth id parameters) s fun p s' => PlainAt s' p := by
  unfold callNamed
  refine (safe_deref hs (some id)).bind ?_
  rintro t _ - - ⟨rfl, -⟩
  cases t.data with
  | identifier identifier =>
    refine (safe_termReverse hs depth value_none hparameters).bind ?_
    intro reversed s1 hs1 _ hreversed
    refine (safe_textAt hs1 identifier).bind ?_
    rintro name _ - - ⟨rfl, -⟩
    exact safe_buildCall depth hs1 name hreversed
  | string _ | number _ | boolean _ | function _ _ | var _ _ => exact safe_throw hs

/-- Two terms become the parameters of a call. -/
theorem safe_linkCall (hs : Sound machine s) (name : CString) {l r : Ptr} (hl : PlainAt s l)
    (hr : PlainAt s r) :
    Safe machine (do setNext l (some r); buildCall machine depth name (some l)) s
      fun p s' => PlainAt s' p := by
  refine (safe_setNext hs hl (value_some hr)).bind ?_
  intro _ s1 hs1 hext1 _
  exact safe_buildCall depth hs1 name (value_some (hext1.terms l hl))

mutual

theorem safe_buildTerm (t : TermSyntax) {s : HeapState} (hs : Sound machine s) :
    Safe machine (buildTerm machine depth t) s fun p s' => PlainAt s' p := by
  cases t with
  | add left right | subtract left right =>
    rw [buildTerm]
    refine (safe_buildTerm left hs).bind ?_
    intro l s1 hs1 _ hl
    refine (safe_buildTerm right hs1).bind ?_
    intro r s2 hs2 hext2 hr
    exact safe_linkCall depth hs2 _ (hext2.terms l hl) hr
  | neg operand =>
    rw [buildTerm]
    refine (safe_buildTerm operand hs).bind ?_
    intro p s1 hs1 _ hp
    refine (safe_termToNumber (resolves_termResolve machine depth) hs1 (value_some hp)).bind ?_
    intro value s2 hs2 _ _
    exact safe_termNewNumber hs2 (-value)
  | paren inner =>
    rw [buildTerm]
    exact safe_buildTerm inner hs
  | identifier id =>
    rw [buildTerm]
    exact safe_termNewIdentifier hs id.name
  | string value =>
    rw [buildTerm]
    exact safe_termNewQstring hs value
  | number base digits =>
    rw [buildTerm]
    exact safe_termNewNumber hs _
  | boolean value =>
    rw [buildTerm]
    exact safe_termNewBoolean hs value
  | functionCall id parameters =>
    rw [buildTerm]
    refine (safe_termNewIdentifier hs id.name).bind ?_
    intro name s1 hs1 _ _
    refine (safe_buildParameters parameters hs1 value_none).bind ?_
    intro ps s2 hs2 _ hps
    exact safe_callNamed depth hs2 name hps

theorem safe_buildParameters (parameters : List TermSyntax) {s : HeapState} (hs : Sound machine s)
    {before : Option Ptr} (hbefore : Value s before) :
    Safe machine (buildParameters machine depth before parameters) s fun p s' => Value s' p := by
  cases parameters with
  | nil =>
    rw [buildParameters]
    exact safe_pure hs hbefore
  | cons t rest =>
    rw [buildParameters]
    refine (safe_buildTerm t hs).bind ?_
    intro p s1 hs1 hext1 hp
    refine (safe_setNext hs1 hp (hbefore.extend hext1)).bind ?_
    intro _ s2 hs2 hext2 _
    exact safe_buildParameters rest hs2 (value_some (hext2.terms p hp))

end

theorem safe_evalBoolean (b : BooleanSyntax) (hs : Sound machine s) :
    Safe machine (evalBoolean machine depth b) s fun _ _ => True := by
  have hresolve := resolves_termResolve machine depth
  induction b generalizing s with
  | term t =>
    rw [evalBoolean]
    refine (safe_buildTerm depth t hs).bind ?_
    intro p s1 hs1 _ hp
    exact safe_termToBoolean hresolve hs1 (value_some hp)
  | paren inner ih => exact ih hs
  | comparison relation left right =>
    rw [evalBoolean]
    refine (safe_buildTerm depth left hs).bind ?_
    intro l s1 hs1 _ hl
    refine (safe_buildTerm depth right hs1).bind ?_
    intro r s2 hs2 hext2 hr
    refine (safe_termCompare hresolve hs2 (value_some (hext2.terms l hl)) (value_some hr)).bind ?_
    intro n s3 hs3 _ _
    exact safe_pure hs3 trivial
  | not inner ih =>
    rw [evalBoolean]
    refine (ih hs).bind ?_
    intro value s1 hs1 _ _
    exact safe_pure hs1 trivial
  | and left right ihl ihr | or left right ihl ihr =>
    rw [evalBoolean]
    refine (ihl hs).bind ?_
    intro l s1 hs1 _ _
    refine (ihr hs1).bind ?_
    intro r s2 hs2 _ _
    exact safe_pure hs2 trivial

theorem safe_buildAction (a : ActionSyntax) (hs : Sound machine s) :
    Safe machine (buildAction machine depth a) s fun p s' => PlainAt s' p := by
  cases a with
  | functionCall id parameters =>
    refine (safe_termNewIdentifier hs id.name).bind ?_
    intro name s1 hs1 _ _
    refine (safe_buildParameters depth parameters hs1 value_none).bind ?_
    intro ps s2 hs2 _ hps
    exact safe_callNamed depth hs2 name hps
  | assignment id value =>
    refine (safe_termNewIdentifier hs id.name).bind ?_
    intro name s1 hs1 _ hname
    refine (safe_buildTerm depth value hs1).bind ?_
    intro t s2 hs2 hext2 ht
    exact safe_linkCall depth hs2 _ (hext2.terms name hname) ht

theorem safe_buildActions (actions : List ActionSyntax) (hs : Sound machine s) {before : Option Ptr}
    (hbefore : Value s before) :
    Safe machine (buildActions machine depth before actions) s fun p s' => Value s' p := by
  induction actions generalizing s before with
  | nil => exact safe_pure hs hbefore
  | cons a rest ih =>
    rw [buildActions]
    refine (safe_buildAction depth a hs).bind ?_
    intro p s1 hs1 hext1 hp
    refine (safe_setNext hs1 hp (hbefore.extend hext1)).bind ?_
    intro _ s2 hs2 hext2 _
    exact ih hs2 (value_some (hext2.terms p hp))

theorem safe_evalStatement (statement : StatementSyntax) (hs : Sound machine s) :
    Safe machine (evalStatement machine depth statement) s fun r s' => Value s' r := by
  cases statement with
  | rule condition block =>
    rw [evalStatement]
    refine (safe_evalBoolean depth condition hs).bind ?_
    intro fires s1 hs1 _ _
    refine (safe_buildActions depth block hs1 value_none).bind ?_
    intro actions s2 hs2 _ hactions
    refine (safe_termReverse hs2 depth value_none hactions).bind ?_
    intro reversed s3 hs3 _ hreversed
    have hrun : Safe machine (if fires then do
        let _ ← runFunctions machine depth depth none reversed
      else pure ()) s3 fun _ _ => True := by
      split
      · refine (safe_runFunctions hs3 depth depth value_none hreversed).bind ?_
        intro _ s4 hs4 _ _
        exact safe_pure hs4 trivial
      · exact safe_pure hs3 trivial
    refine hrun.bind ?_
    intro _ s4 hs4 _ _
    exact safe_pure hs4 value_none
  | action a =>
    rw [evalStatement]
    refine (safe_buildAction depth a hs).bind ?_
    intro p s1 hs1 _ hp
    exact safe_runFunctions hs1 depth depth value_none (value_some hp)

theorem safe_evalFragment (part : Fragment) (hs : Sound machine s) :
    Safe machine (evalFragment machine depth part) s fun _ _ => True := by
  cases part with
  | term t =>
    refine (safe_buildTerm depth t hs).bind ?_
    intro _ s1 hs1 _ _
    exact safe_pure hs1 trivial
  | boolean b =>
    refine (safe_evalBoolean depth b hs).bind ?_
    intro _ s1 hs1 _ _
    exact safe_pure hs1 trivial
  | action a =>
    refine (safe_buildAction depth a hs).bind ?_
    intro _ s1 hs1 _ _
    exact safe_pure hs1 trivial

theorem safe_evalFragments (parts : List Fragment) (hs : Sound machine s) :
    Safe machine (evalFragments machine depth parts) s fun _ _ => True := by
  induction parts generalizing s with
  | nil => exact safe_throw hs
  | cons part rest ih =>
    rw [evalFragments]
    refine (safe_evalFragment depth part hs).bind ?_
    intro _ s1 hs1 _ _
    exact ih hs1

/-! ## Runs -/

/-- Between two inputs the result of the parser is in the heap too. -/
structure Ready (machine : Machine) (s : HeapState) : Prop extends Sound machine s where
  result : Value s s.parserResult

theorem Ready.extend {s' : HeapState} (h : Ready machine s) (hs' : Sound machine s')
    (hext : Extends s s') : Ready machine s' :=
  ⟨hs', hext.result ▸ h.result.extend hext⟩

theorem ready_of_safe {α : Type} {m : HeapInterp α} {post : α → HeapState → Prop}
    (hm : Safe machine m s post) (h : Ready machine s) :
    Ensures m s (fun _ s' => Ready machine s')
      fun e s' => e = .stop .parseError → Ready machine s' :=
  Ensures.mono hm (fun _ _ hs' => h.extend hs'.1 hs'.2.1)
    fun _ _ hs' he => h.extend (hs' he).1 (hs' he).2

theorem ready_evalInput (i : Input) (h : Ready machine s) :
    Ensures (evalInput machine depth i) s (fun _ s' => Ready machine s')
      fun e s' => e = .stop .parseError → Ready machine s' := by
  have hs := h.toSound
  cases i with
  | start =>
    refine ensures_bind.mpr ((sound_termGcHeap hs.live depth).mono ?_ fun _ _ he h => absurd h he)
    rintro _ s1 ⟨hs1, -⟩
    exact ⟨hs1.congr s1.outside none, value_none⟩
  | statement statement =>
    refine ensures_bind.mpr (Ensures.mono (safe_evalStatement depth statement hs) ?_ ?_)
    · rintro result s1 ⟨hs1, -, hresult⟩
      exact ⟨hs1.congr s1.outside result, hresult⟩
    · exact fun _ _ hs' he => h.extend (hs' he).1 (hs' he).2
  | syntaxError parts => exact ready_of_safe (safe_evalFragments depth parts hs) h
  | printResult =>
    have hprint : Safe machine (evalInput machine depth .printResult) s fun _ _ => True := by
      refine safe_get_bind ?_
      cases hr : s.parserResult with
      | none => exact safe_pure hs trivial
      | some r =>
        have hvalue : Value s (some r) := hr ▸ h.result
        refine (safe_stringOf (resolves_termResolve machine depth) hs depth hvalue).bind ?_
        intro str s1 hs1 _ _
        exact (safe_outside hs1 _).mono fun _ _ _ => trivial
    exact ready_of_safe hprint h

theorem Step.ready {i : Input} {s' : HeapState} (h : Step machine i s s') (hs : Ready machine s) :
    Ready machine s' := by
  obtain ⟨depth, hok | herror⟩ := h
  · exact (ready_evalInput depth i hs).ok hok
  · exact (ready_evalInput depth i hs).error herror rfl

end

/-! ## Booting -/

section

variable {machine : Machine} {s : HeapState}

theorem safe_setParameter (depth : Nat) (arg : CString) (hs : Sound machine s) :
    Safe machine (setParameter machine depth arg) s fun _ _ => True := by
  unfold setParameter
  split
  · exact safe_pure hs trivial
  · simp only
    split
    · exact safe_setBooleanVariable hs depth _ true
    · exact safe_setStringVariable hs depth _ _

theorem safe_setParameters (depth turns i : Nat) (hs : Sound machine s) :
    Safe machine (setParameters machine depth turns i) s fun _ _ => True := by
  induction turns generalizing s i with
  | zero => exact safe_pure hs trivial
  | succ turns ih =>
    have hturn : Safe machine (scanParameter machine depth i) s fun _ _ => True := by
      unfold scanParameter
      refine safe_get_bind ?_
      cases s.outside.argv[i]? with
      | none => exact safe_throw hs
      | some arg =>
        refine (safe_outside hs _).bind ?_
        intro _ s1 hs1 _ _
        exact safe_setParameter depth arg hs1
    rw [setParameters]
    refine hturn.bind ?_
    intro _ s1 hs1 _ _
    exact ih (i + 1) hs1

theorem live_boot (argv : List CString) (world : World) : Live (.boot argv world) := ⟨nofun, nofun⟩

theorem Started.ready (h : Started machine s) : Ready machine s := by
  obtain ⟨depth, argv, world, hinit⟩ := h
  obtain ⟨_, s0, hgc, hinit⟩ := bind_eq_ok.mp hinit
  obtain ⟨hs0, hresult⟩ := (sound_termGcHeap (live_boot argv world) depth).ok hgc
  have hready : Ready machine s0 := ⟨hs0, by rw [hresult]; exact value_none⟩
  refine (ready_of_safe (?_ : Safe machine _ s0 fun _ _ => True) hready).ok hinit
  refine (safe_outside hs0 _).bind ?_
  intro _ s1 hs1 _ _
  refine (safe_setStringVariable hs1 depth _ _).bind ?_
  intro _ s2 hs2 _ _
  refine (safe_setStringVariable hs2 depth _ _).bind ?_
  intro _ s3 hs3 _ _
  refine (safe_setBooleanVariable hs3 depth _ _).bind ?_
  intro _ s4 hs4 _ _
  refine (safe_setStringVariable hs4 depth _ _).bind ?_
  intro _ s5 hs5 _ _
  refine (safe_setStringVariable hs5 depth _ _).bind ?_
  intro _ s6 hs6 _ _
  refine (safe_setStringVariable hs6 depth _ _).bind ?_
  intro _ s7 hs7 _ _
  refine (safe_setBooleanVariable hs7 depth _ _).bind ?_
  intro _ s8 hs8 _ _
  refine (safe_setBooleanVariable hs8 depth _ _).bind ?_
  intro _ s9 hs9 _ _
  refine (safe_setNumberVariable hs9 depth _ _).bind ?_
  intro _ s10 hs10 _ _
  refine (safe_setNumberVariable hs10 depth _ _).bind ?_
  intro _ s11 hs11 _ _
  refine (safe_setBooleanVariable hs11 depth _ _).bind ?_
  intro _ s12 hs12 _ _
  refine safe_get_bind ?_
  exact safe_setParameters depth _ 1 hs12

/-- The invariant holds in whatever state the interpreter comes to. -/
theorem Reachable.ready (h : Reachable machine s) : Ready machine s := by
  obtain ⟨s0, hstart, hrun⟩ := h
  induction hrun with
  | refl => exact hstart.ready
  | tail _ hstep ih =>
    obtain ⟨i, hstep⟩ := hstep
    exact hstep.ready ih

end

end NervesInitramfs.TermHeap
