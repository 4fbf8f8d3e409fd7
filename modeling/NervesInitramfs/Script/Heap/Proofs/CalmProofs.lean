import NervesInitramfs.Script.Heap.Proofs.SoundProofs

/-!
# Proofs: evaluation leaves the terms alone

Whatever is evaluated, the terms that are in the heap stay as they are: new ones are put behind them,
and only variables are changed.
-/

namespace NervesInitramfs.TermHeap

open CLib

/-! ## What is kept -/

/-- Strings and terms are kept, but for the `next` of the given nodes, and variables are kept as
variables. -/
structure Keeps (nodes : List Ptr) (cells cells' : Ptr → Option Cell) : Prop where
  texts : ∀ p str, cells p = some (.text str) → cells' p = some (.text str)
  terms : ∀ p t, cells p = some (.term t) → t.data.isVar = false →
    ∃ next, cells' p = some (.term ⟨t.data, next⟩) ∧ (p ∉ nodes → next = t.next)
  taken : ∀ p, cells' p = none → cells p = none

/-- The heap goes on from the one state to the other. -/
structure Grows (machine : Machine) (nodes : List Ptr) (s s' : HeapState) : Prop where
  heap : s'.heap = s.heap
  packed : Packed machine s'
  keeps : Keeps nodes s.cells s'.cells

section

variable {machine : Machine} {nodes nodes' : List Ptr} {cells cells' cells'' : Ptr → Option Cell}
  {s s' s'' : HeapState} {h : Nat}

theorem Keeps.refl (nodes : List Ptr) (cells : Ptr → Option Cell) : Keeps nodes cells cells :=
  ⟨fun _ _ hp => hp, fun _ t hp _ => ⟨t.next, hp, fun _ => rfl⟩, fun _ hp => hp⟩

theorem Keeps.trans (hk : Keeps nodes cells cells') (hk' : Keeps nodes cells' cells'') :
    Keeps nodes cells cells'' := by
  refine ⟨fun p str hp => hk'.texts p str (hk.texts p str hp), fun p t hp hplain => ?_,
    fun p hp => hk.taken p (hk'.taken p hp)⟩
  obtain ⟨next, hp', hnext⟩ := hk.terms p t hp hplain
  obtain ⟨next', hp'', hnext'⟩ := hk'.terms p ⟨t.data, next⟩ hp' hplain
  exact ⟨next', hp'', fun hnot => (hnext' hnot).trans (hnext hnot)⟩

theorem Keeps.mono (hk : Keeps nodes cells cells') (hsub : ∀ p ∈ nodes, p ∈ nodes') :
    Keeps nodes' cells cells' := by
  refine ⟨hk.texts, fun p t hp hplain => ?_, hk.taken⟩
  obtain ⟨next, hp', hnext⟩ := hk.terms p t hp hplain
  exact ⟨next, hp', fun hnot => hnext fun hin => hnot (hsub p hin)⟩

/-- A term that is not one of the nodes stays the same. -/
theorem Keeps.same (hk : Keeps nodes cells cells') {p : Ptr} {t : HeapTerm}
    (hp : cells p = some (.term t)) (hplain : t.data.isVar = false) (hnot : p ∉ nodes) :
    cells' p = some (.term t) := by
  obtain ⟨next, hp', hnext⟩ := hk.terms p t hp hplain
  rwa [hnext hnot] at hp'

theorem Grows.refl (hp : Packed machine s) : Grows machine nodes s s := ⟨rfl, hp, .refl ..⟩

theorem Grows.trans (hg : Grows machine nodes s s') (hg' : Grows machine nodes s' s'') :
    Grows machine nodes s s'' :=
  ⟨hg'.heap.trans hg.heap, hg'.packed, hg.keeps.trans hg'.keeps⟩

theorem Grows.mono (hg : Grows machine nodes s s') (hsub : ∀ p ∈ nodes, p ∈ nodes') :
    Grows machine nodes' s s' := ⟨hg.heap, hg.packed, hg.keeps.mono hsub⟩

theorem Grows.isSome (hg : Grows machine nodes s s') (hh : s.heap.isSome) : s'.heap.isSome :=
  hg.heap ▸ hh

/-- Only the memory matters. -/
theorem Grows.congr (hg : Grows machine nodes s s') (o : State) (vars : Option Ptr) :
    Grows machine nodes s { s' with outside := o, vars := vars } :=
  ⟨hg.heap, ⟨hg.packed.aligned, hg.packed.full, hg.packed.bounded, hg.packed.apart⟩, hg.keeps⟩

theorem keeps_of_kept (hkept : ∀ p c, cells p = some c → cells' p = some c) :
    Keeps nodes cells cells' := by
  refine ⟨fun p str hp => hkept p _ hp, fun p t hp _ => ⟨t.next, hkept p _ hp, fun _ => rfl⟩,
    fun p hp => ?_⟩
  cases hc : cells p with
  | none => rfl
  | some c =>
    rw [hkept p c hc] at hp
    exact nomatch hp

theorem grows_push (hp : Packed machine s) (hh : s.heap = some h) {c : Cell}
    (hroom : s.heapIndex + c.size machine ≤ heapSize) :
    Grows machine nodes s (s.push machine h c) :=
  ⟨rfl, hp.push hroom, keeps_of_kept fun _ _ hd => hp.push_kept hh hd⟩

theorem grows_pushText (hp : Packed machine s) (hh : s.heap = some h) {t : HeapTerm} {str : CString}
    (hroom : s.heapIndex + termSize machine + textSize str ≤ heapSize) :
    Grows machine nodes s (s.pushText machine h t str) :=
  ⟨rfl, hp.pushText hroom, keeps_of_kept fun _ _ hd =>
    hp.pushText_kept hh (Nat.le_trans (Nat.le_add_right _ _) hroom) hd⟩

/-- Another `next` for a node. -/
theorem grows_setNext (hp : Packed machine s) {p : Ptr} {t : HeapTerm}
    (ht : s.cells p = some (.term t)) (next : Option Ptr) :
    Grows machine [p] s (s.put p { t with next := next }) := by
  refine ⟨rfl, hp.put ht, fun q str hq => put_text ht hq, fun q u hq _ => ?_, fun q hq => ?_⟩
  · by_cases hqp : q = p
    · subst hqp
      obtain rfl : t = u := Cell.term.inj (Option.some.inj (ht.symm.trans hq))
      exact ⟨next, put_same, fun hnot => absurd List.mem_cons_self hnot⟩
    · exact ⟨u.next, (put_other hqp).trans hq, fun _ => rfl⟩
  · by_cases hqp : q = p
    · subst hqp
      rw [put_same] at hq
      exact nomatch hq
    · exact (put_other hqp).symm.trans hq

/-- Another value for a variable. -/
theorem grows_setValue (hp : Packed machine s) {p : Ptr} {t u : HeapTerm}
    (ht : s.cells p = some (.term t)) (hvar : t.data.isVar = true) :
    Grows machine nodes s (s.put p u) := by
  refine ⟨rfl, hp.put ht, fun q str hq => put_text ht hq, fun q v hq hplain => ?_, fun q hq => ?_⟩
  · refine ⟨v.next, (put_other ?_).trans hq, fun _ => rfl⟩
    rintro rfl
    obtain rfl : t = v := Cell.term.inj (Option.some.inj (ht.symm.trans hq))
    rw [hvar] at hplain
    exact nomatch hplain
  · by_cases hqp : q = p
    · subst hqp
      rw [put_same] at hq
      exact nomatch hq
    · exact (put_other hqp).symm.trans hq

end

/-! ## Calm computations -/

/-- A computation leaves the terms alone. -/
def Calm {α : Type} (machine : Machine) (m : HeapInterp α) : Prop :=
  ∀ s, Packed machine s → s.heap.isSome →
    Ensures m s (fun _ s' => Grows machine [] s s') fun _ _ => True

section

variable {α β : Type} {machine : Machine} {m : HeapInterp α} {f : α → HeapInterp β}

theorem Calm.bind (hm : Calm machine m) (hf : ∀ a, Calm machine (f a)) : Calm machine (m >>= f) := by
  intro s hp hh
  refine (hm s hp hh).bind fun a s1 hg => ?_
  exact (hf a s1 hg.packed (hg.isSome hh)).mono (fun _ _ hg' => hg.trans hg') fun _ _ h => h

theorem calm_pure (a : α) : Calm machine (pure a : HeapInterp α) := fun _ hp _ => .refl hp

theorem calm_throw (e : HeapStop) : Calm machine (throw e : HeapInterp α) := fun _ _ _ => trivial

theorem calm_get : Calm machine (get : HeapInterp HeapState) := fun _ hp _ => .refl hp

theorem calm_outside (m : Interp α) : Calm machine (outside m) := by
  intro s hp _
  unfold Ensures outside
  cases m s.outside with
  | ok a o => exact (Grows.refl hp).congr o s.vars
  | error e o => trivial

theorem calm_deref (p : Option Ptr) : Calm machine (deref p) := by
  cases p with
  | none => exact calm_throw _
  | some q =>
    refine calm_get.bind fun s => ?_
    split
    · exact calm_pure _
    · exact calm_throw _

theorem calm_textAt (p : Ptr) : Calm machine (textAt p) := by
  refine calm_get.bind fun s => ?_
  split
  · exact calm_pure _
  · exact calm_throw _

theorem calm_nextOf (p : Option Ptr) : Calm machine (nextOf p) :=
  (calm_deref p).bind fun t => calm_pure t.next

theorem calm_allocTerm (data : TermData) : Calm machine (allocTerm machine data) := by
  intro s hp hh
  obtain ⟨h, hh⟩ := Option.isSome_iff_exists.mp hh
  exact allocTerm_ensures hp hh (fun hroom => grows_push hp hh hroom) fun _ => trivial

theorem calm_allocTextTerm (data : Ptr → TermData) (str : CString) :
    Calm machine (allocTextTerm machine data (allocString machine str)) := by
  intro s hp hh
  obtain ⟨h, hh⟩ := Option.isSome_iff_exists.mp hh
  exact allocTextTerm_ensures hp hh (fun hroom => grows_pushText hp hh hroom) fun _ _ => trivial

/-! ## Variables -/

theorem calm_findVariable (name : CString) (steps : Nat) (p : Option Ptr) :
    Calm machine (findVariable name steps p) := by
  induction steps generalizing p with
  | zero =>
    cases p with
    | none => exact calm_pure _
    | some v => exact calm_throw _
  | succ steps ih =>
    cases p with
    | none => exact calm_pure _
    | some v =>
      rw [findVariable]
      refine (calm_deref _).bind fun t => ?_
      cases t.data with
      | var q value =>
        refine (calm_textAt q).bind fun str => ?_
        split
        · exact calm_pure _
        · exact ih t.next
      | identifier _ | string _ | number _ | boolean _ | function _ _ => exact calm_throw _

theorem calm_getVariableImpl (steps : Nat) (name : CString) :
    Calm machine (getVariableImpl steps name) :=
  calm_get.bind fun s => calm_findVariable name steps s.vars

theorem deref_ensures (s : HeapState) (p : Ptr) :
    Ensures (deref (some p)) s (fun t s' => s' = s ∧ s.cells p = some (.term t))
      fun _ _ => True := by
  have hget : (get : HeapInterp HeapState) s = .ok s s := rfl
  rw [deref, ensures_bind_of_ok hget]
  split
  next t heq => exact ⟨rfl, heq⟩
  next => trivial

theorem calm_setValue (v : Ptr) (value : Option Ptr) : Calm machine (setValue v value) := by
  intro s hp hh
  refine (deref_ensures s v).bind ?_
  rintro ⟨data, next⟩ _ ⟨rfl, ht⟩
  cases data with
  | var name old => exact grows_setValue hp ht rfl
  | identifier _ | string _ | number _ | boolean _ | function _ _ => trivial

theorem calm_addVariable (name : CString) (value : Option Ptr) :
    Calm machine (addVariable machine name value) := by
  intro s hp hh
  obtain ⟨h, hh⟩ := Option.isSome_iff_exists.mp hh
  unfold addVariable
  rw [ensures_bind]
  refine allocTextTerm_ensures hp hh (fun hroom => ?_) fun _ _ => trivial
  have hnext : setNext ⟨h, s.heapIndex⟩ s.vars
      (s.pushText machine h ⟨.var ⟨h, s.heapIndex + termSize machine⟩ value, none⟩ name) =
      .ok () (s.pushText machine h
        ⟨.var ⟨h, s.heapIndex + termSize machine⟩ value, s.vars⟩ name) := by
    rw [setNext, bind_of_ok (deref_eq pushText_term)]
    exact congrArg (EStateM.Result.ok ()) (pushText_replace _)
  have hget : ∀ s1 : HeapState, (get : HeapInterp HeapState) s1 = .ok s1 s1 := fun _ => rfl
  refine (ensures_bind_of_ok (hget _)).mpr ((ensures_bind_of_ok hnext).mpr ?_)
  exact (grows_pushText hp hh hroom).congr s.outside (some ⟨h, s.heapIndex⟩)

theorem calm_setVariable (steps : Nat) (name : CString) (value : Option Ptr) :
    Calm machine (setVariable machine steps name value) := by
  refine (calm_getVariableImpl steps name).bind fun found => ?_
  cases found with
  | some v => exact calm_setValue v.1 value
  | none => exact calm_addVariable name value

theorem calm_getVariable (steps : Nat) (name : CString) :
    Calm machine (getVariable machine steps name) := by
  refine (calm_getVariableImpl steps name).bind fun found => ?_
  cases found with
  | some v => exact calm_pure v.2
  | none => exact (calm_allocTextTerm _ _).bind fun p => calm_pure (some p)

theorem calm_setBooleanVariable (steps : Nat) (name : CString) (value : Bool) :
    Calm machine (setBooleanVariable machine steps name value) :=
  (calm_allocTerm _).bind fun p => calm_setVariable steps name (some p)

end

/-! ## Coercions -/

section

variable {machine : Machine} {resolve : Option Ptr → HeapInterp (Option Ptr)}
  (hresolve : ∀ p, Calm machine (resolve p)) (depth : Nat)

include hresolve

theorem calm_termToNumber (p : Option Ptr) : Calm machine (termToNumber resolve p) := by
  refine (hresolve p).bind fun r => (calm_deref r).bind fun t => ?_
  cases t.data with
  | string q => exact (calm_textAt q).bind fun _ => calm_pure _
  | number _ | boolean _ | identifier _ | function _ _ | var _ _ => exact calm_pure _

omit hresolve in
theorem calm_newText (value : CString) : Calm machine (termToString.newText machine value) := by
  refine (calm_allocTextTerm _ _).bind fun rv => (calm_deref _).bind fun t => ?_
  cases t.data with
  | string q => exact calm_pure q
  | number _ | boolean _ | identifier _ | function _ _ | var _ _ => exact calm_throw _

theorem calm_termToString (n : Nat) (p : Option Ptr) :
    Calm machine (termToString machine resolve depth n p) := by
  induction n generalizing p with
  | zero => exact calm_throw _
  | succ n ih =>
    rw [termToString]
    refine (hresolve p).bind fun r => (calm_deref r).bind fun t => ?_
    cases t.data with
    | identifier q =>
      exact (calm_textAt q).bind fun name => (calm_getVariable depth name).bind fun value => ih value
    | string q => exact calm_pure q
    | number _ | boolean _ | function _ _ | var _ _ => exact calm_newText _

theorem calm_stringOf (p : Option Ptr) : Calm machine (stringOf machine resolve depth p) :=
  (calm_termToString hresolve depth depth p).bind fun q => calm_textAt q

theorem calm_getVariableAsString (name : CString) :
    Calm machine (getVariableAsString machine resolve depth name) := by
  refine (calm_getVariableImpl depth name).bind fun found => ?_
  cases found with
  | some v => exact calm_stringOf hresolve depth v.2
  | none => exact calm_pure _

theorem calm_getVariableAsNumber (name : CString) :
    Calm machine (getVariableAsNumber resolve depth name) := by
  refine (calm_getVariableImpl depth name).bind fun found => ?_
  cases found with
  | some v => exact calm_termToNumber hresolve v.2
  | none => exact calm_pure _

/-! ## The handlers -/

theorem calm_functionAssign (p : Option Ptr) :
    Calm machine (functionAssign machine resolve depth p) := by
  refine (calm_nextOf p).bind fun next => (hresolve next).bind fun value => ?_
  refine (calm_deref p).bind fun t => ?_
  cases t.data with
  | identifier q =>
    refine (calm_textAt q).bind fun name => ?_
    exact (calm_setVariable depth name value).bind fun _ => calm_pure value
  | string _ | number _ | boolean _ | function _ _ | var _ _ => exact calm_throw _

theorem calm_functionAdd (p : Option Ptr) : Calm machine (functionAdd machine resolve p) := by
  refine (calm_termToNumber hresolve p).bind fun a => (calm_nextOf p).bind fun next => ?_
  refine (calm_termToNumber hresolve next).bind fun b => ?_
  exact (calm_allocTerm _).bind fun q => calm_pure (some q)

theorem calm_functionSubtract (p : Option Ptr) :
    Calm machine (functionSubtract machine resolve p) := by
  refine (calm_termToNumber hresolve p).bind fun a => (calm_nextOf p).bind fun next => ?_
  refine (calm_termToNumber hresolve next).bind fun b => ?_
  exact (calm_allocTerm _).bind fun q => calm_pure (some q)

omit hresolve in
theorem calm_outside_none {α : Type} (m : Interp α) :
    Calm machine (outside m >>= fun _ => pure (none : Option Ptr)) :=
  (calm_outside m).bind fun _ => calm_pure none

theorem calm_printParameters (n : Nat) (p : Option Ptr) :
    Calm machine (printParameters machine resolve depth n p) := by
  induction n generalizing p with
  | zero =>
    cases p with
    | none => exact calm_pure _
    | some q => exact calm_throw _
  | succ n ih =>
    cases p with
    | none => exact calm_pure _
    | some q =>
      rw [printParameters]
      refine (calm_stringOf hresolve depth _).bind fun str => (calm_outside _).bind fun _ => ?_
      exact (calm_nextOf _).bind fun next => ih next

theorem calm_functionLs (p : Option Ptr) : Calm machine (functionLs machine resolve depth p) := by
  cases p with
  | none => exact calm_outside_none _
  | some q => exact (calm_stringOf hresolve depth _).bind fun _ => calm_outside_none _

theorem calm_functionLoadenv (p : Option Ptr) :
    Calm machine (functionLoadenv machine resolve depth p) := by
  unfold functionLoadenv
  refine (calm_getVariableAsString hresolve depth _).bind fun devpathspec => ?_
  refine (calm_getVariableAsNumber hresolve depth _).bind fun block => ?_
  refine (calm_getVariableAsNumber hresolve depth _).bind fun blockCount => ?_
  refine (calm_outside _).bind fun _ => (calm_outside _).bind fun device => ?_
  cases device with
  | none => exact calm_outside_none _
  | some devpath =>
    refine (calm_outside _).bind fun sought => ?_
    cases sought with
    | false => exact calm_outside_none _
    | true =>
      refine (calm_outside _).bind fun buffer => ?_
      cases buffer with
      | none => exact calm_outside_none _
      | some buffer =>
        refine (calm_setBooleanVariable depth _ false).bind fun _ => ?_
        refine (calm_setBooleanVariable depth _ false).bind fun _ => calm_get.bind fun s => ?_
        cases ubootEnvRead s.outside.workingUbootEnv buffer with
        | none => exact calm_throw _
        | some env =>
          refine (calm_outside _).bind fun _ => ?_
          by_cases hrc : env.1 < 0
          · simp only [hrc, if_true]
            exact calm_pure none
          · simp only [hrc, if_false]
            exact (calm_setBooleanVariable depth _ true).bind fun _ => calm_pure none

theorem calm_functionSetenv (p : Option Ptr) :
    Calm machine (functionSetenv machine resolve depth p) := by
  unfold functionSetenv
  refine (calm_stringOf hresolve depth p).bind fun name => (calm_nextOf p).bind fun rest => ?_
  refine (calm_stringOf hresolve depth rest).bind fun value => calm_get.bind fun s => ?_
  by_cases hrc : (ubootEnvSetenv s.outside.workingUbootEnv name value).1 < 0
  · simp only [hrc, if_true]
    exact (calm_outside _).bind fun _ => calm_nextOf p
  · simp only [hrc, if_false]
    refine Calm.bind ?_ fun _ => calm_nextOf p
    exact (calm_outside _).bind fun _ => calm_setBooleanVariable depth _ true

theorem calm_functionGetenv (p : Option Ptr) :
    Calm machine (functionGetenv machine resolve depth p) := by
  refine (calm_stringOf hresolve depth p).bind fun name => calm_get.bind fun s => ?_
  exact (calm_allocTextTerm _ _).bind fun q => calm_pure (some q)

theorem calm_functionSaveenv (p : Option Ptr) :
    Calm machine (functionSaveenv machine resolve depth p) := by
  unfold functionSaveenv
  refine (calm_getVariableAsString hresolve depth _).bind fun devpathspec => ?_
  refine (calm_getVariableAsNumber hresolve depth _).bind fun block => ?_
  refine (calm_getVariableAsNumber hresolve depth _).bind fun blockCount => ?_
  refine (calm_outside _).bind fun _ => (calm_outside _).bind fun device => ?_
  cases device with
  | none => exact calm_outside_none _
  | some devpath =>
    refine (calm_outside _).bind fun sought => ?_
    cases sought with
    | false => exact calm_outside_none _
    | true =>
      simp only [Bool.not_true, Bool.false_eq_true, if_false]
      cases malloc machine.bits (sizeOfBlocks machine blockCount) with
      | none => exact calm_throw _
      | some buffer =>
        refine calm_get.bind fun s => ?_
        cases ubootEnvWrite machine.qsort s.outside.workingUbootEnv buffer with
        | none => exact calm_throw _
        | some result =>
          refine (calm_outside _).bind fun _ => ?_
          by_cases hrc : result.1 < 0
          · simp only [hrc, if_true]
            exact calm_pure none
          · simp only [hrc, if_false]
            refine (calm_outside _).bind fun amountWritten => ?_
            by_cases hamount : amountWritten ≠ some (sizeOfBlocks machine blockCount)
            · rw [if_pos hamount]
              exact calm_outside_none _
            · rw [if_neg hamount]
              exact (calm_setBooleanVariable depth _ false).bind fun _ => calm_pure none

theorem calm_cmdArguments (n : Nat) (p : Option Ptr) :
    Calm machine (cmdArguments machine resolve depth n p) := by
  induction n generalizing p with
  | zero => exact calm_pure _
  | succ n ih =>
    cases p with
    | none => exact calm_pure _
    | some q =>
      rw [cmdArguments]
      refine (calm_stringOf hresolve depth _).bind fun str => (calm_nextOf _).bind fun next => ?_
      exact (ih next).bind fun others => calm_pure _

theorem calm_functionCmd (p : Option Ptr) : Calm machine (functionCmd machine resolve depth p) := by
  refine (calm_cmdArguments hresolve depth 15 p).bind fun argv => ?_
  refine (calm_outside _).bind fun output => ?_
  exact (calm_allocTextTerm _ _).bind fun q => calm_pure (some q)

theorem calm_functionFwupRevert (p : Option Ptr) :
    Calm machine (functionFwupRevert machine resolve depth p) := by
  refine (calm_getVariableAsString hresolve depth _).bind fun devpathspec => ?_
  refine (calm_outside _).bind fun _ => ?_
  exact (calm_allocTerm _).bind fun q => calm_pure (some q)

theorem calm_functionSleep (p : Option Ptr) : Calm machine (functionSleep resolve p) :=
  (calm_termToNumber hresolve p).bind fun _ => calm_outside_none _

theorem calm_functionReadfile (p : Option Ptr) :
    Calm machine (functionReadfile machine resolve depth p) := by
  refine (calm_stringOf hresolve depth p).bind fun path => (calm_outside _).bind fun contents => ?_
  exact (calm_allocTextTerm _ _).bind fun q => calm_pure (some q)

omit hresolve in
theorem calm_inspectParameters {n : Nat} (hinspect : ∀ p, Calm machine (inspect n p)) (count : Nat)
    (p : Option Ptr) : Calm machine (inspect.inspectParameters n count p) := by
  induction count generalizing p with
  | zero =>
    rw [inspect.inspectParameters]
    exact calm_pure _
  | succ count ih =>
    rw [inspect.inspectParameters]
    refine (hinspect p).bind fun first => (calm_nextOf p).bind fun rest => ?_
    exact (ih rest).bind fun others => calm_pure _

omit hresolve in
theorem calm_inspect (n : Nat) (p : Option Ptr) : Calm machine (inspect n p) := by
  induction n generalizing p with
  | zero =>
    rw [inspect]
    exact calm_throw _
  | succ n ih =>
    rw [inspect]
    refine (calm_deref p).bind fun t => ?_
    cases t.data with
    | identifier q | string q => exact (calm_textAt q).bind fun str => calm_pure _
    | number _ | boolean _ => exact calm_pure _
    | function handler parameters =>
      simp only
      cases functionInfoByFun handler with
      | none => exact calm_throw _
      | some info => exact (calm_inspectParameters ih info.arity parameters).bind fun _ => calm_pure _
    | var name value => exact (ih value).bind fun _ => (calm_textAt name).bind fun _ => calm_pure _

omit hresolve in
theorem calm_inspectVariables (n : Nat) (p : Option Ptr) :
    Calm machine (inspectVariables depth n p) := by
  induction n generalizing p with
  | zero =>
    cases p with
    | none => exact calm_pure _
    | some q => exact calm_throw _
  | succ n ih =>
    cases p with
    | none => exact calm_pure _
    | some q =>
      rw [inspectVariables]
      refine (calm_inspect depth _).bind fun bytes => (calm_outside _).bind fun _ => ?_
      exact (calm_nextOf _).bind fun next => ih next

theorem calm_run (handler : Builtin) (p : Option Ptr) :
    Calm machine (run machine resolve depth handler p) := by
  cases handler with
  | assign => exact calm_functionAssign hresolve depth p
  | add => exact calm_functionAdd hresolve p
  | subtract => exact calm_functionSubtract hresolve p
  | blkid | env | help | poweroff | reboot => exact calm_outside_none _
  | cmd => exact calm_functionCmd hresolve depth p
  | fwupRevert => exact calm_functionFwupRevert hresolve depth p
  | getenv => exact calm_functionGetenv hresolve depth p
  | loadenv => exact calm_functionLoadenv hresolve depth p
  | ls => exact calm_functionLs hresolve depth p
  | print => exact (calm_printParameters hresolve depth depth p).bind fun _ => calm_outside_none _
  | readfile => exact calm_functionReadfile hresolve depth p
  | saveenv => exact calm_functionSaveenv hresolve depth p
  | setenv => exact calm_functionSetenv hresolve depth p
  | sleep => exact calm_functionSleep hresolve p
  | vars =>
    refine calm_get.bind fun s => ?_
    exact (calm_inspectVariables depth depth s.vars).bind fun _ => calm_pure none

end

/-! ## Resolving -/

theorem calm_termResolve (machine : Machine) (depth : Nat) (p : Option Ptr) :
    Calm machine (termResolve machine depth p) := by
  induction depth generalizing p with
  | zero => exact calm_throw _
  | succ depth ih =>
    rw [termResolve]
    refine (calm_deref p).bind fun t => ?_
    cases t.data with
    | identifier identifier =>
      refine (calm_textAt identifier).bind fun name => ?_
      exact (calm_getVariable depth name).bind fun value => ih value
    | function handler parameters =>
      exact (calm_outside _).bind fun _ => calm_run ih depth handler parameters
    | string _ | number _ | boolean _ | var _ _ => exact calm_pure p

theorem calm_runFunction (machine : Machine) (depth : Nat) (p : Option Ptr) :
    Calm machine (runFunction machine depth p) := by
  refine (calm_deref p).bind fun t => ?_
  cases t.data with
  | function handler parameters =>
    refine (calm_outside _).bind fun _ => ?_
    exact calm_run (calm_termResolve machine depth) depth handler parameters
  | identifier _ | string _ | number _ | boolean _ | var _ _ => exact calm_throw _

end NervesInitramfs.TermHeap
