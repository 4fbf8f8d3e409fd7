import NervesInitramfs.Script.Heap.Proofs.FollowProofs

/-!
# Proofs: calls on the heap follow calls on trees

The other handlers, and with them resolving itself: a call is followed to any depth, because what it
resolves is followed to the depth below.
-/

namespace NervesInitramfs.TermHeap

open CLib

/-! ## Showing variables -/

section

variable {machine : Machine} {nodes : List Ptr} {h : HeapState} {s : State}

/-- What showing a term comes to on both sides. -/
def Shows {α : Type} (h : HeapState) (m : HeapInterp α) (shown : Option α) : Prop :=
  Ensures m h (fun a h' => h' = h ∧ shown = some a)
    fun e h' => Excused e ∨ e = .stop .nullDereference ∧ h' = h ∧ shown = none

theorem Shows.bind {α β : Type} {m : HeapInterp α} {shown : Option α} {f : α → HeapInterp β}
    {g : α → Option β} (hm : Shows h m shown) (hf : ∀ a, Shows h (f a) (g a)) :
    Shows h (m >>= f) (shown >>= g) := by
  refine ensures_bind.mpr (Ensures.mono hm ?_ ?_)
  · rintro a h ⟨rfl, rfl⟩
    exact hf a
  · rintro e h' (he | ⟨he, hh, hnone⟩)
    · exact Or.inl he
    · exact Or.inr ⟨he, hh, by rw [hnone]; rfl⟩

theorem shows_left {α β : Type} {m : HeapInterp α} {f : α → HeapInterp β} {shown : Option β} {a : α}
    (hm : m h = .ok a h) (hf : Shows h (f a) shown) : Shows h (m >>= f) shown :=
  (ensures_bind_of_ok hm).mpr hf

theorem shows_pure {α : Type} {a : α} : Shows h (pure a) (some a) := ⟨rfl, rfl⟩

theorem shows_null {β : Type} {f : HeapTerm → HeapInterp β} : Shows h (deref none >>= f) none :=
  Or.inr ⟨rfl, rfl, rfl⟩

theorem DenotesList.isNone {cells : Ptr → Option Cell} {p : Option Ptr} {ts : List Term}
    (hp : DenotesList nodes cells p ts) : p.isNone = ts.isEmpty := by
  cases hp with
  | nil => rfl
  | cons _ _ _ _ => rfl

theorem inspectParameters_shows {n : Nat}
    (hinspect : ∀ p t, ValueDenotes nodes h.cells p t →
      Shows h (inspect n p) (t.bind NervesInitramfs.inspect)) (count : Nat) {p : Option Ptr}
    {ts : List Term} (hp : DenotesList nodes h.cells p ts) :
    Shows h (inspect.inspectParameters n count p) (NervesInitramfs.inspectParameters count ts) := by
  induction count generalizing p ts with
  | zero =>
    rw [inspect.inspectParameters, NervesInitramfs.inspectParameters]
    exact shows_pure
  | succ count ih =>
    rw [inspect.inspectParameters]
    cases hp with
    | nil =>
      rw [NervesInitramfs.inspectParameters]
      exact (hinspect none none .null).bind fun _ => Or.inr ⟨rfl, rfl, rfl⟩
    | @cons q u t rest node _ head tail =>
      rw [NervesInitramfs.inspectParameters]
      refine (hinspect _ _ (.term head)).bind fun first => shows_left (nextOf_eq node) ?_
      refine (ih tail).bind fun others => ?_
      rw [tail.isNone]
      exact shows_pure

theorem inspect_shows (n : Nat) {p : Option Ptr} {t : Option Term}
    (hp : ValueDenotes nodes h.cells p t) :
    Shows h (inspect n p) (t.bind NervesInitramfs.inspect) := by
  induction n generalizing p t with
  | zero =>
    rw [inspect]
    exact Or.inl (Or.inr rfl)
  | succ n ih =>
    rw [inspect]
    cases hp with
    | null => exact shows_null
    | term hd =>
      rw [Option.bind_some]
      cases hd with
      | identifier node text =>
        exact shows_left (deref_eq node) (shows_left (textAt_eq text) shows_pure)
      | string node text =>
        exact shows_left (deref_eq node) (shows_left (textAt_eq text) shows_pure)
      | number node => exact shows_left (deref_eq node) shows_pure
      | boolean node => exact shows_left (deref_eq node) shows_pure
      | @function _ _ _ handler ts node list =>
        refine shows_left (deref_eq node) ?_
        rw [NervesInitramfs.inspect]
        simp only
        cases functionInfoByFun handler with
        | none => exact Or.inr ⟨rfl, rfl, rfl⟩
        | some info =>
          exact (inspectParameters_shows (fun _ _ hq => ih hq) info.arity list).bind
            fun _ => shows_pure

/-- The state after something has been noted. -/
def State.noted (s : State) (e : Event) : State := { s with log := s.log ++ [e] }

def HeapState.noted (h : HeapState) (e : Event) : HeapState :=
  { h with outside := State.noted h.outside e }

theorem Represents.noted (hr : Represents machine nodes h s) (e : Event) :
    Represents machine nodes (h.noted e) (State.noted s e) := by
  obtain ⟨_, s', hs', -, ha, -, -⟩ := (indifferent_record e h.outside s hr.outside).ok rfl
  obtain ⟨-, rfl⟩ := EStateM.Result.ok.inj hs'
  exact hr.congr rfl rfl ha

/-- Note something on both sides. -/
theorem follows_record {β β' : Type} (e : Event)
    {f : HeapInterp β} {f' : Interp β'} {post : β → HeapState → β' → Prop}
    (hf : Follows machine nodes f f' (h.noted e) (State.noted s e) post) :
    Follows machine nodes (do outside (record e); f) (do record e; f') h s post := by
  have hleft : outside (record e) h = .ok () (h.noted e) := rfl
  have hright : record e s = .ok () (State.noted s e) := rfl
  refine refines_bind_left hleft (refines_bind_right hright ?_)
  refine Refines.mono hf ?_ fun _ _ _ _ h => h
  rintro a h2 a' s2 ⟨hr2, hg2, hpost⟩
  exact ⟨hr2, ⟨hg2.heap, hg2.packed, hg2.keeps⟩, hpost⟩

/-- The line about a variable. -/
theorem inspect_variable_shows (depth : Nat) {q namePtr : Ptr} {name : CString}
    {value next : Option Ptr} {v : Variable}
    (node : h.cells q = some (.term ⟨.var namePtr value, next⟩))
    (htext : h.cells namePtr = some (.text name))
    (hv : EntryDenotes nodes h.cells ⟨q, namePtr, name, value⟩ v) :
    Shows h (inspect depth (some q)) ((v.value.bind NervesInitramfs.inspect).map fun bytes =>
      v.name.bytes ++ text "=" ++ bytes) := by
  cases depth with
  | zero =>
    rw [inspect]
    exact Or.inl (Or.inr rfl)
  | succ depth =>
    have hname : name = v.name := hv.name
    rw [inspect, Option.map_eq_bind]
    refine shows_left (deref_eq node) ?_
    refine (inspect_shows depth hv.value).bind fun bytes => shows_left (textAt_eq htext) ?_
    rw [hname]
    exact shows_pure

theorem follows_inspectVariables (depth n : Nat) {h : HeapState} {s : State}
    (hr : Represents machine nodes h s) {p : Option Ptr} {l : List Entry} {vars : List Variable}
    (hl : Table h.cells p l) (hentries : List.Forall₂ (EntryDenotes nodes h.cells) l vars) :
    Follows machine nodes (inspectVariables depth n p) (NervesInitramfs.inspectVariables vars) h s
      fun _ _ _ => True := by
  induction n generalizing h s p l vars with
  | zero =>
    cases hl with
    | nil =>
      cases hentries
      exact follows_pure hr trivial
    | cons _ _ _ => exact follows_outOfFuel
  | succ n ih =>
    cases hl with
    | nil =>
      cases hentries
      exact follows_pure hr trivial
    | @cons q namePtr name value next rest node htext more =>
      obtain _ | @⟨_, v, _, others, hhead, htail⟩ := hentries
      have hshows := inspect_variable_shows depth node htext hhead
      rw [inspectVariables, NervesInitramfs.inspectVariables]
      cases hbytes : v.value.bind NervesInitramfs.inspect with
      | none =>
        rw [hbytes] at hshows
        refine ensures_bind.mpr (hshows.mono ?_ ?_)
        · rintro bytes h' ⟨-, hsome⟩
          cases hsome
        · rintro e h' (he | ⟨rfl, rfl, -⟩)
          · exact Or.inl he
          · exact Or.inr ⟨_, s, rfl, hr.fails⟩
      | some bytes =>
        rw [hbytes] at hshows
        refine Refines.bind_ensures (hshows.mono (fun _ _ hok => hok) ?_) ?_
        · rintro e h' (he | ⟨-, -, hnone⟩)
          · exact he
          · cases hnone
        · rintro shown h ⟨rfl, hshown⟩
          obtain rfl := Option.some.inj hshown
          refine follows_record _ (follows_left (nextOf_eq (h := h.noted _) node) ?_)
          exact ih (hr.noted _) more htail

theorem follows_functionVars (depth : Nat) (hr : Represents machine nodes h s) (p : Option Ptr)
    (ts : List Term) :
    Follows machine nodes (functionVars depth p) (NervesInitramfs.functionVars ts) h s
      fun q h' u => ValueDenotes nodes h'.cells q u := by
  obtain ⟨l, htable, -, hentries⟩ := hr.table
  have hget : (get : HeapInterp HeapState) h = .ok h h := rfl
  have hget' : (get : Interp State) s = .ok s s := rfl
  refine follows_left hget (follows_right hget' ?_)
  refine (follows_inspectVariables depth depth hr htable hentries).bind ?_
  intro _ h1 _ s1 hr1 _ _
  exact follows_pure hr1 .null

end

/-! ## Outside the heap -/

section

theorem indifferent_readDevice (path : CString) (offset length : Nat) :
    Indifferent (readDevice path offset length) := by
  refine (indifferent_record _).bind fun _ => indifferent_reply.bind fun r o s ha => ?_
  have hbytes : o.world.bytesAt path offset = s.world.bytesAt path offset := by rw [ha.world]
  exact ⟨_, s, rfl, by rw [hbytes], ha, rfl, rfl⟩

theorem indifferent_readBlocks (machine : Machine) (path : CString) (offset size : Nat) :
    Indifferent (readBlocks machine path offset size) := by
  unfold readBlocks
  cases malloc machine.bits size with
  | none => exact indifferent_pure _
  | some buffer =>
    refine (indifferent_readDevice path offset size).bind fun got => ?_
    cases got with
    | none => exact indifferent_pure _
    | some got => exact indifferent_pure _

theorem indifferent_store (path : CString) (offset : Nat) (data : List UInt8) :
    Indifferent (modify fun s => { s with world := s.world.store path offset data } :
      Interp PUnit) := by
  refine indifferent_modify (fun o s ha => ⟨ha.env, ?_, ha.log, ha.argv⟩) (fun _ => rfl) fun _ => rfl
  change o.world.store path offset data = s.world.store path offset data
  rw [ha.world]

theorem indifferent_writeDevice (path : CString) (offset : Nat) (data : List UInt8) :
    Indifferent (writeDevice path offset data) := by
  refine (indifferent_record _).bind fun _ => indifferent_reply.bind fun r => ?_
  cases r.ok with
  | false => exact indifferent_pure _
  | true => exact (indifferent_store path offset _).bind fun _ => indifferent_pure _

theorem indifferent_setEnv (env : UbootEnv) :
    Indifferent (modify fun s => { s with workingUbootEnv := env } : Interp PUnit) :=
  indifferent_modify (fun _ _ ha => ⟨rfl, ha.world, ha.log, ha.argv⟩) (fun _ => rfl) fun _ => rfl

theorem indifferent_setSize (size : Nat) : Indifferent
    (modify fun s => { s with workingUbootEnv := { s.workingUbootEnv with envSize := size } } :
      Interp PUnit) := by
  refine indifferent_modify (fun o s ha => ⟨?_, ha.world, ha.log, ha.argv⟩) (fun _ => rfl) fun _ => rfl
  change { o.workingUbootEnv with envSize := size } = { s.workingUbootEnv with envSize := size }
  rw [ha.env]

theorem indifferent_cmdOutput (argv : List CString) : Indifferent (cmdOutput argv) := by
  refine (indifferent_record _).bind fun _ => indifferent_reply.bind fun r => ?_
  refine Indifferent.bind ?_ fun _ => ?_
  · split
    · exact indifferent_pure _
    · exact indifferent_info _
  · cases trimStringInPlace r.stray (outputBuffer r) with
    | none => exact indifferent_throw (by decide)
    | some output => exact indifferent_pure _

theorem indifferent_fwupRevert (spec : CString) : Indifferent (fwupRevert spec) := by
  refine (indifferent_openBlockDevice spec).bind fun devpath => ?_
  cases devpath with
  | none => exact indifferent_info _
  | some devpath =>
    refine (indifferent_record _).bind fun _ => indifferent_reply.bind fun r => ?_
    cases r.ok with
    | false => exact indifferent_info _
    | true => exact (indifferent_record _).bind fun _ => indifferent_throw (by decide)

theorem indifferent_fileContents (path : CString) : Indifferent (fileContents path) := by
  refine indifferent_reply.bind fun r => ?_
  cases r.ok with
  | false => exact (indifferent_info _).bind fun _ => indifferent_pure _
  | true => exact indifferent_pure _

theorem indifferent_functionBlkid : Indifferent (functionBlkid []) :=
  indifferent_reply.bind fun _ => (indifferent_printLines _).bind fun _ => indifferent_pure _

theorem indifferent_functionEnv : Indifferent (functionEnv []) := by
  intro o s ha
  have hget : (get : Interp State) s = .ok s s := rfl
  have hget' : (get : Interp State) o = .ok o o := rfl
  refine refines_bind_left hget' (refines_bind_right hget ?_)
  rw [ha.env]
  exact ((indifferent_printLines _).bind fun _ => indifferent_pure _) o s ha

theorem indifferent_functionHelp : Indifferent (functionHelp []) :=
  (indifferent_printLines _).bind fun _ => (indifferent_printed _).bind fun _ => indifferent_pure _

theorem indifferent_functionReboot : Indifferent (functionReboot []) :=
  (indifferent_record _).bind fun _ => indifferent_throw (by decide)

theorem indifferent_functionPoweroff : Indifferent (functionPoweroff []) :=
  (indifferent_record _).bind fun _ => indifferent_throw (by decide)

end

section

variable {machine : Machine} {nodes : List Ptr} {h : HeapState} {s : State}

/-- A handler that does everything outside the heap. -/
theorem follows_functionOutside (hr : Represents machine nodes h s)
    {handler : List Term → Interp (Option Term)} (hout : Indifferent (handler []))
    (p : Option Ptr) (ts : List Term)
    (hnone : handler ts = do let _ ← handler []; pure none) :
    Follows machine nodes (functionOutside handler p) (handler ts) h s
      fun q h' u => ValueDenotes nodes h'.cells q u := by
  rw [hnone]
  refine (follows_outside hout hr).bind ?_
  intro _ h1 _ s1 hr1 _ _
  exact follows_pure hr1 .null

end

section

variable {machine : Machine} {resolve : Option Ptr → HeapInterp (Option Ptr)}
  {resolve' : Option Term → Interp (Option Term)} (hres : FollowsResolve machine resolve resolve')
  {nodes : List Ptr} {h : HeapState} {s : State} (depth : Nat) {p : Option Ptr} {ts : List Term}

include hres

theorem follows_functionLs (hr : Represents machine nodes h s)
    (hp : DenotesList nodes h.cells p ts) :
    Follows machine nodes (functionLs machine resolve depth p)
      (NervesInitramfs.functionLs resolve' depth ts) h s
      fun q h' u => ValueDenotes nodes h'.cells q u := by
  unfold functionLs NervesInitramfs.functionLs
  rw [← bind_assoc reply]
  cases hp with
  | nil =>
    refine (follows_outside (indifferent_reply.bind fun r => indifferent_printLines _) hr).bind ?_
    intro _ h2 _ s2 hr2 _ _
    exact follows_pure hr2 .null
  | cons _ _ head _ =>
    refine (follows_stringOf hres depth hr (.term head)).bind ?_
    intro _ h1 _ s1 hr1 _ _
    refine (follows_outside (indifferent_reply.bind fun r => indifferent_printLines _) hr1).bind ?_
    intro _ h2 _ s2 hr2 _ _
    exact follows_pure hr2 .null

/-! ## The U-Boot environment -/

theorem follows_functionLoadenv (hr : Represents machine nodes h s) (p : Option Ptr)
    (ts : List Term) :
    Follows machine nodes (functionLoadenv machine resolve depth p)
      (NervesInitramfs.functionLoadenv machine resolve' depth ts) h s
      fun q h' u => ValueDenotes nodes h'.cells q u := by
  unfold functionLoadenv NervesInitramfs.functionLoadenv
  refine (follows_getVariableAsString hres depth hr _).bind ?_
  rintro spec h1 _ s1 hr1 - rfl
  refine (follows_getVariableAsNumber hres depth hr1 _).bind ?_
  rintro block h2 _ s2 hr2 - rfl
  refine (follows_getVariableAsNumber hres depth hr2 _).bind ?_
  rintro blockCount h3 _ s3 hr3 - rfl
  refine (follows_outside (indifferent_setSize _) hr3).bind ?_
  rintro _ h4 _ s4 hr4 - -
  refine (follows_outside (indifferent_openBlockDevice spec) hr4).bind ?_
  rintro devpath h5 _ s5 hr5 - rfl
  cases devpath with
  | none =>
    refine (follows_outside (indifferent_info _) hr5).bind ?_
    rintro _ h6 _ s6 hr6 - -
    exact follows_pure hr6 .null
  | some devpath =>
    refine (follows_outside (indifferent_lseek _) hr5).bind ?_
    rintro sought h6 _ s6 hr6 - rfl
    cases sought with
    | false =>
      refine (follows_outside (indifferent_info _) hr6).bind ?_
      rintro _ h7 _ s7 hr7 - -
      exact follows_pure hr7 .null
    | true =>
      refine (follows_outside (indifferent_readBlocks machine spec _ _) hr6).bind ?_
      rintro buffer h7 _ s7 hr7 - rfl
      cases buffer with
      | none =>
        refine (follows_outside (indifferent_info _) hr7).bind ?_
        rintro _ h8 _ s8 hr8 - -
        exact follows_pure hr8 .null
      | some buffer =>
        refine (follows_setBooleanVariable hr7 depth _ _).bind ?_
        rintro _ h8 _ s8 hr8 - -
        refine (follows_setBooleanVariable hr8 depth _ _).bind ?_
        rintro _ h9 _ s9 hr9 - -
        refine follows_left (a := h9) rfl (follows_right (v := s9) rfl ?_)
        rw [hr9.outside.env]
        cases ubootEnvRead s9.workingUbootEnv buffer with
        | none => exact follows_throw hr9 _
        | some read =>
          obtain ⟨rc, env⟩ := read
          refine (follows_outside (indifferent_setEnv env) hr9).bind ?_
          rintro _ h10 _ s10 hr10 - -
          split
          · exact follows_pure hr10 .null
          · refine (follows_setBooleanVariable hr10 depth _ _).bind ?_
            rintro _ h11 _ s11 hr11 - -
            exact follows_pure hr11 .null

theorem follows_functionSetenv (hr : Represents machine nodes h s)
    (hp : DenotesList nodes h.cells p ts) :
    Follows machine nodes (functionSetenv machine resolve depth p)
      (NervesInitramfs.functionSetenv resolve' depth ts) h s
      fun q h' u => ValueDenotes nodes h'.cells q u := by
  unfold functionSetenv NervesInitramfs.functionSetenv
  refine (follows_stringOf hres depth hr hp.head).bind ?_
  rintro name h1 _ s1 hr1 hg1 rfl
  have hlist := hp.keep hg1.keeps
  have hlist1 := hlist
  cases hlist1 with
  | nil => exact Or.inr ⟨_, s1, rfl, hr1.fails⟩
  | @cons q u t rest node apart head tail =>
    refine follows_left (nextOf_eq node) (follows_right (v := rest) rfl ?_)
    refine (follows_stringOf hres depth hr1 tail.head).bind ?_
    rintro value h2 _ s2 hr2 hg2 rfl
    -- The second parameter is read again from the list, which has not changed.
    have hback : ∀ h3 s3, Represents machine nodes h3 s3 → Grows machine [] h2 h3 →
        Follows machine nodes (nextOf (some q)) (pure rest.head? : Interp (Option Term)) h3 s3
          fun q h' u => ValueDenotes nodes h'.cells q u := by
      intro h3 s3 hr3 hg3
      have hlist3 := (hlist.keep hg2.keeps).keep hg3.keeps
      cases hlist3 with
      | cons node3 _ _ tail3 =>
        rw [← bind_pure (nextOf (some q))]
        exact follows_left (nextOf_eq node3) (follows_pure hr3 tail3.head)
    refine follows_left (a := h2) rfl (follows_right (v := s2) rfl ?_)
    rw [hr2.outside.env]
    obtain ⟨rc, env⟩ := ubootEnvSetenv s2.workingUbootEnv name value
    simp only
    split
    · refine (follows_outside (indifferent_info _) hr2).bind ?_
      exact fun _ h3 _ s3 hr3 hg3 _ => hback h3 s3 hr3 hg3
    · rw [bind_assoc, bind_assoc]
      refine (follows_outside (indifferent_setEnv env) hr2).bind ?_
      rintro _ h3 _ s3 hr3 hg3 -
      refine (follows_setBooleanVariable hr3 depth _ _).bind ?_
      exact fun _ h4 _ s4 hr4 hg4 _ => hback h4 s4 hr4 (hg3.trans hg4)

theorem follows_functionGetenv (hr : Represents machine nodes h s)
    (hp : DenotesList nodes h.cells p ts) :
    Follows machine nodes (functionGetenv machine resolve depth p)
      (NervesInitramfs.functionGetenv resolve' depth ts) h s
      fun q h' u => ValueDenotes nodes h'.cells q u := by
  unfold functionGetenv NervesInitramfs.functionGetenv
  refine (follows_stringOf hres depth hr hp.head).bind ?_
  rintro name h1 _ s1 hr1 - rfl
  refine follows_left (a := h1) rfl (follows_right (v := s1) rfl ?_)
  rw [hr1.outside.env]
  cases ubootEnvGetenv s1.workingUbootEnv name with
  | none => exact follows_newTerm hr1 (newString_denotes hr1 _)
  | some value => exact follows_newTerm hr1 (newString_denotes hr1 _)

theorem follows_functionSaveenv (hr : Represents machine nodes h s) (p : Option Ptr)
    (ts : List Term) :
    Follows machine nodes (functionSaveenv machine resolve depth p)
      (NervesInitramfs.functionSaveenv machine resolve' depth ts) h s
      fun q h' u => ValueDenotes nodes h'.cells q u := by
  unfold functionSaveenv NervesInitramfs.functionSaveenv
  refine (follows_getVariableAsString hres depth hr _).bind ?_
  rintro spec h1 _ s1 hr1 - rfl
  refine (follows_getVariableAsNumber hres depth hr1 _).bind ?_
  rintro block h2 _ s2 hr2 - rfl
  refine (follows_getVariableAsNumber hres depth hr2 _).bind ?_
  rintro blockCount h3 _ s3 hr3 - rfl
  refine (follows_outside (indifferent_setSize _) hr3).bind ?_
  rintro _ h4 _ s4 hr4 - -
  refine (follows_outside (indifferent_openBlockDevice spec) hr4).bind ?_
  rintro devpath h5 _ s5 hr5 - rfl
  cases devpath with
  | none =>
    refine (follows_outside (indifferent_info _) hr5).bind ?_
    rintro _ h6 _ s6 hr6 - -
    exact follows_pure hr6 .null
  | some devpath =>
    refine (follows_outside (indifferent_lseek _) hr5).bind ?_
    rintro sought h6 _ s6 hr6 - rfl
    cases sought with
    | false =>
      refine (follows_outside (indifferent_info _) hr6).bind ?_
      rintro _ h7 _ s7 hr7 - -
      exact follows_pure hr7 .null
    | true =>
      cases malloc machine.bits (sizeOfBlocks machine blockCount) with
      | none => exact follows_throw hr6 _
      | some buffer =>
        refine follows_left (a := h6) rfl (follows_right (v := s6) rfl ?_)
        rw [hr6.outside.env]
        cases ubootEnvWrite machine.qsort s6.workingUbootEnv buffer with
        | none => exact follows_throw hr6 _
        | some wrote =>
          obtain ⟨rc, env, buffer⟩ := wrote
          refine (follows_outside (indifferent_setEnv env) hr6).bind ?_
          rintro _ h7 _ s7 hr7 - -
          split
          · exact follows_pure hr7 .null
          · refine (follows_outside (indifferent_writeDevice spec _ _) hr7).bind ?_
            rintro amountWritten h8 _ s8 hr8 - rfl
            split
            · refine (follows_outside (indifferent_info _) hr8).bind ?_
              rintro _ h9 _ s9 hr9 - -
              exact follows_pure hr9 .null
            · refine (follows_setBooleanVariable hr8 depth _ _).bind ?_
              rintro _ h9 _ s9 hr9 - -
              exact follows_pure hr9 .null

/-! ## Commands, files and the power switch -/

theorem follows_cmdArguments (n : Nat) {h : HeapState} {s : State} (hr : Represents machine nodes h s)
    {p : Option Ptr} {ts : List Term} (hp : DenotesList nodes h.cells p ts) :
    Follows machine nodes (cmdArguments machine resolve depth n p)
      (NervesInitramfs.cmdArguments resolve' depth n ts) h s fun argv _ argv' => argv = argv' := by
  induction n generalizing h s p ts with
  | zero => exact follows_pure hr rfl
  | succ n ih =>
    have hlist := hp
    cases hp with
    | nil => exact follows_pure hr rfl
    | cons node apart head tail =>
      refine (follows_stringOf hres depth hr (.term head)).bind ?_
      rintro str h1 _ s1 hr1 hg1 rfl
      have hlist1 := hlist.keep hg1.keeps
      cases hlist1 with
      | cons node1 _ _ tail1 =>
        refine follows_left (nextOf_eq node1) ((ih hr1 tail1).bind ?_)
        rintro others h2 _ s2 hr2 - rfl
        exact follows_pure hr2 rfl

omit hres in
theorem functionCmd_eq (ts : List Term) : NervesInitramfs.functionCmd resolve' depth ts = (do
    let argv ← NervesInitramfs.cmdArguments resolve' depth 15 ts
    let output ← cmdOutput argv
    pure (some (.string output))) := by
  unfold NervesInitramfs.functionCmd cmdOutput
  simp only [bind_assoc]
  congr 1
  funext argv
  congr 1
  funext _
  congr 1
  funext r
  congr 1
  funext _
  cases trimStringInPlace r.stray (outputBuffer r) with
  | none => rfl
  | some output => rfl

theorem follows_functionCmd (hr : Represents machine nodes h s)
    (hp : DenotesList nodes h.cells p ts) :
    Follows machine nodes (functionCmd machine resolve depth p)
      (NervesInitramfs.functionCmd resolve' depth ts) h s
      fun q h' u => ValueDenotes nodes h'.cells q u := by
  rw [functionCmd_eq]
  refine (follows_cmdArguments hres depth 15 hr hp).bind ?_
  rintro argv h1 _ s1 hr1 - rfl
  refine (follows_outside (indifferent_cmdOutput argv) hr1).bind ?_
  rintro output h2 _ s2 hr2 - rfl
  exact follows_newTerm hr2 (newString_denotes hr2 _)

omit hres in
theorem functionFwupRevert_eq (ts : List Term) :
    NervesInitramfs.functionFwupRevert resolve' depth ts = (do
      let spec ← NervesInitramfs.getVariableAsString resolve' depth (.ofString "uboot_env.path")
      fwupRevert spec
      pure (some (.boolean false))) := by
  unfold NervesInitramfs.functionFwupRevert fwupRevert
  simp only [bind_assoc]
  congr 1
  funext spec
  congr 1
  funext devpath
  cases devpath with
  | none => rfl
  | some devpath =>
    simp only [bind_assoc]
    congr 1
    funext _
    congr 1
    funext r
    cases r.ok with
    | false => rfl
    | true => rfl

theorem follows_functionFwupRevert (hr : Represents machine nodes h s) (p : Option Ptr)
    (ts : List Term) :
    Follows machine nodes (functionFwupRevert machine resolve depth p)
      (NervesInitramfs.functionFwupRevert resolve' depth ts) h s
      fun q h' u => ValueDenotes nodes h'.cells q u := by
  rw [functionFwupRevert_eq]
  refine (follows_getVariableAsString hres depth hr _).bind ?_
  rintro spec h1 _ s1 hr1 - rfl
  refine (follows_outside (indifferent_fwupRevert spec) hr1).bind ?_
  rintro _ h2 _ s2 hr2 - -
  exact follows_newTerm hr2 (newBoolean_denotes hr2 _)

theorem follows_functionSleep (hr : Represents machine nodes h s)
    (hp : DenotesList nodes h.cells p ts) :
    Follows machine nodes (functionSleep resolve p) (NervesInitramfs.functionSleep resolve' ts) h s
      fun q h' u => ValueDenotes nodes h'.cells q u := by
  refine (follows_termToNumber hres hr hp.head).bind ?_
  rintro milliseconds h1 _ s1 hr1 - rfl
  refine (follows_outside (indifferent_record _) hr1).bind ?_
  rintro _ h2 _ s2 hr2 - -
  exact follows_pure hr2 .null

omit hres in
theorem functionReadfile_eq (ts : List Term) :
    NervesInitramfs.functionReadfile resolve' depth ts = (do
      let path ← NervesInitramfs.termToString resolve' depth ts.head?
      let contents ← fileContents path
      pure (some (.string contents))) := by
  unfold NervesInitramfs.functionReadfile fileContents
  simp only [bind_assoc]
  congr 1
  funext path
  congr 1
  funext r
  cases r.ok with
  | false => rfl
  | true => rfl

theorem follows_functionReadfile (hr : Represents machine nodes h s)
    (hp : DenotesList nodes h.cells p ts) :
    Follows machine nodes (functionReadfile machine resolve depth p)
      (NervesInitramfs.functionReadfile resolve' depth ts) h s
      fun q h' u => ValueDenotes nodes h'.cells q u := by
  rw [functionReadfile_eq]
  refine (follows_stringOf hres depth hr hp.head).bind ?_
  rintro path h1 _ s1 hr1 - rfl
  refine (follows_outside (indifferent_fileContents path) hr1).bind ?_
  rintro contents h2 _ s2 hr2 - rfl
  exact follows_newTerm hr2 (newString_denotes hr2 _)

/-! ## Calls -/

theorem follows_run (handler : Builtin) (hr : Represents machine nodes h s)
    (hp : DenotesList nodes h.cells p ts) :
    Follows machine nodes (run machine resolve depth handler p)
      (handler.run machine resolve' depth ts) h s
      fun q h' u => ValueDenotes nodes h'.cells q u := by
  cases handler with
  | assign => exact follows_functionAssign hres depth hr hp
  | add => exact follows_operands hres hr hp
  | subtract => exact follows_operands hres hr hp
  | blkid =>
    refine follows_functionOutside hr indifferent_functionBlkid p ts ?_
    simp only [NervesInitramfs.functionBlkid, bind_assoc, pure_bind]
  | cmd => exact follows_functionCmd hres depth hr hp
  | env =>
    refine follows_functionOutside hr indifferent_functionEnv p ts ?_
    simp only [NervesInitramfs.functionEnv, bind_assoc, pure_bind]
  | fwupRevert => exact follows_functionFwupRevert hres depth hr p ts
  | getenv => exact follows_functionGetenv hres depth hr hp
  | help => exact follows_functionOutside hr indifferent_functionHelp p ts rfl
  | loadenv => exact follows_functionLoadenv hres depth hr p ts
  | ls => exact follows_functionLs hres depth hr hp
  | poweroff => exact follows_functionOutside hr indifferent_functionPoweroff p ts rfl
  | print => exact follows_functionPrint hres depth hr hp
  | readfile => exact follows_functionReadfile hres depth hr hp
  | reboot => exact follows_functionOutside hr indifferent_functionReboot p ts rfl
  | saveenv => exact follows_functionSaveenv hres depth hr p ts
  | setenv => exact follows_functionSetenv hres depth hr hp
  | sleep => exact follows_functionSleep hres hr hp
  | vars => exact follows_functionVars depth hr p ts

end

section

variable {machine : Machine} {nodes : List Ptr} {h : HeapState} {s : State}

/-- The call of a function that is on both sides. -/
theorem follows_call {resolve : Option Ptr → HeapInterp (Option Ptr)}
    {resolve' : Option Term → Interp (Option Term)} (hres : FollowsResolve machine resolve resolve')
    (depth : Nat) (handler : Builtin) (hr : Represents machine nodes h s) {p : Option Ptr}
    {ts : List Term} (hp : DenotesList nodes h.cells p ts) :
    Follows machine nodes (do
        outside (recordCall handler)
        run machine resolve depth handler p)
      (do
        recordCall handler
        handler.run machine resolve' depth ts) h s
      fun q h' u => ValueDenotes nodes h'.cells q u := by
  refine (follows_outside (indifferent_recordCall handler) hr).bind ?_
  intro _ h1 _ s1 hr1 hg1 _
  exact follows_run hres depth handler hr1 (hp.keep hg1.keeps)

theorem follows_termResolve (machine : Machine) (depth : Nat) :
    FollowsResolve machine (termResolve machine depth)
      (NervesInitramfs.termResolve machine depth) := by
  induction depth with
  | zero => exact fun _ _ _ _ _ _ _ => follows_outOfFuel
  | succ depth ih =>
    intro nodes h s p t hr hp
    rw [termResolve]
    cases hp with
    | null => exact follows_null hr
    | term hd =>
      have hself := hd
      cases hd with
      | identifier node text =>
        refine follows_left (deref_eq node) (follows_left (textAt_eq text) ?_)
        refine (follows_getVariable hr depth _).bind ?_
        intro v h1 w s1 hr1 _ hv
        exact ih _ _ _ _ _ hr1 hv
      | string node _ => exact follows_left (deref_eq node) (follows_pure hr (.term hself))
      | number node => exact follows_left (deref_eq node) (follows_pure hr (.term hself))
      | boolean node => exact follows_left (deref_eq node) (follows_pure hr (.term hself))
      | function node list =>
        exact follows_left (deref_eq node) (follows_call ih depth _ hr list)

theorem follows_runFunction (depth : Nat) (hr : Represents machine nodes h s) {p : Ptr} {t : Term}
    (hp : Denotes nodes h.cells p t) :
    Follows machine nodes (runFunction machine depth (some p))
      (NervesInitramfs.runFunction machine depth t) h s
      fun q h' u => ValueDenotes nodes h'.cells q u := by
  rw [runFunction]
  cases hp with
  | function node list =>
    exact follows_left (deref_eq node)
      (follows_call (follows_termResolve machine depth) depth _ hr list)
  | identifier node _ | string node _ | number node | boolean node =>
    exact follows_left (deref_eq node) (follows_throw hr _)

/-- The functions of a block are run in the same order. -/
theorem follows_runFunctions (depth n : Nat) {h : HeapState} {s : State}
    (hr : Represents machine nodes h s) {last p : Option Ptr} {last' : Option Term} {ts : List Term}
    (hlast : ValueDenotes nodes h.cells last last') (hp : DenotesList nodes h.cells p ts) :
    Follows machine nodes (runFunctions machine depth n last p)
      (NervesInitramfs.runFunctions machine depth last' ts) h s
      fun q h' u => ValueDenotes nodes h'.cells q u := by
  induction n generalizing h s last p last' ts with
  | zero =>
    cases hp with
    | nil => exact follows_pure hr hlast
    | cons _ _ _ _ => exact follows_outOfFuel
  | succ n ih =>
    have hlist := hp
    cases hp with
    | nil => exact follows_pure hr hlast
    | cons node apart head tail =>
      refine (follows_runFunction depth hr head).bind ?_
      intro q h1 u s1 hr1 hg1 hq
      have hlist1 := hlist.keep hg1.keeps
      cases hlist1 with
      | cons node1 _ _ tail1 => exact follows_left (nextOf_eq node1) (ih hr1 hq tail1)

end

end NervesInitramfs.TermHeap
