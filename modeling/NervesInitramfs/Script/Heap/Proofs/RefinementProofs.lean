import NervesInitramfs.Script.Heap.Refinement
import NervesInitramfs.Script.Proofs.StoreProofs

/-!
# Proofs: what a state in the heap represents

New blocks and new links leave alone what a term stands for, as long as only nodes are linked that
are in no list yet. So what a state represents changes with the variables only, and those change in
the same way on both sides.
-/

namespace NervesInitramfs.TermHeap

open CLib

/-! ## What stays -/

section

variable {nodes nodes' touched : List Ptr} {cells cells' : Ptr → Option Cell}

theorem Denotes.not_var {p : Ptr} {t : Term} {u : HeapTerm} (h : Denotes nodes cells p t)
    (hp : cells p = some (.term u)) : u.data.isVar = false := by
  have hdata : ∀ {v : HeapTerm}, cells p = some (.term v) → v.data.isVar = false →
      u.data.isVar = false := by
    intro v hv hvar
    obtain rfl : u = v := Cell.term.inj (Option.some.inj (hp.symm.trans hv))
    exact hvar
  cases h with
  | identifier node _ | string node _ | number node | boolean node | function node _ =>
    exact hdata node rfl

mutual

/-- What a term stands for outlives new links of nodes that are in none of its lists. -/
theorem Denotes.move {p : Ptr} {t : Term} (h : Denotes nodes cells p t)
    (hk : Keeps touched cells cells') (htouched : ∀ q ∈ touched, q ∈ nodes)
    (hapart : ∀ q, cells q ≠ none → q ∉ nodes → q ∉ nodes') : Denotes nodes' cells' p t := by
  cases h with
  | identifier node text =>
    obtain ⟨_, node', -⟩ := hk.terms p _ node rfl
    exact .identifier node' (hk.texts _ _ text)
  | string node text =>
    obtain ⟨_, node', -⟩ := hk.terms p _ node rfl
    exact .string node' (hk.texts _ _ text)
  | number node =>
    obtain ⟨_, node', -⟩ := hk.terms p _ node rfl
    exact .number node'
  | boolean node =>
    obtain ⟨_, node', -⟩ := hk.terms p _ node rfl
    exact .boolean node'
  | function node list =>
    obtain ⟨_, node', -⟩ := hk.terms p _ node rfl
    exact .function node' (list.move hk htouched hapart)

theorem DenotesList.move {p : Option Ptr} {ts : List Term} (h : DenotesList nodes cells p ts)
    (hk : Keeps touched cells cells') (htouched : ∀ q ∈ touched, q ∈ nodes)
    (hapart : ∀ q, cells q ≠ none → q ∉ nodes → q ∉ nodes') : DenotesList nodes' cells' p ts := by
  cases h with
  | nil => exact .nil
  | @cons p u t rest node apart head tail =>
    have hplain : u.data.isVar = false := head.not_var node
    have hnot : p ∉ touched := fun hin => apart (htouched p hin)
    refine .cons (hk.same node hplain hnot) (hapart p ?_ apart) (head.move hk htouched hapart)
      (tail.move hk htouched hapart)
    rw [node]
    exact Option.some_ne_none _

end

theorem ValueDenotes.move {p : Option Ptr} {t : Option Term} (h : ValueDenotes nodes cells p t)
    (hk : Keeps touched cells cells') (htouched : ∀ q ∈ touched, q ∈ nodes)
    (hapart : ∀ q, cells q ≠ none → q ∉ nodes → q ∉ nodes') : ValueDenotes nodes' cells' p t := by
  cases h with
  | null => exact .null
  | term h => exact .term (h.move hk htouched hapart)

theorem EntryDenotes.move {e : Entry} {v : Variable} (h : EntryDenotes nodes cells e v)
    (hk : Keeps touched cells cells') (htouched : ∀ q ∈ touched, q ∈ nodes)
    (hapart : ∀ q, cells q ≠ none → q ∉ nodes → q ∉ nodes') : EntryDenotes nodes' cells' e v :=
  ⟨h.name, h.value.move hk htouched hapart⟩

theorem Denotes.keep {p : Ptr} {t : Term} (h : Denotes nodes cells p t)
    (hk : Keeps [] cells cells') : Denotes nodes cells' p t :=
  h.move hk (List.forall_mem_nil _) fun _ _ hq => hq

theorem DenotesList.keep {p : Option Ptr} {ts : List Term} (h : DenotesList nodes cells p ts)
    (hk : Keeps [] cells cells') : DenotesList nodes cells' p ts :=
  h.move hk (List.forall_mem_nil _) fun _ _ hq => hq

theorem ValueDenotes.keep {p : Option Ptr} {t : Option Term} (h : ValueDenotes nodes cells p t)
    (hk : Keeps [] cells cells') : ValueDenotes nodes cells' p t :=
  h.move hk (List.forall_mem_nil _) fun _ _ hq => hq

/-- At an address that has been free so far there is no node of a list. -/
theorem Denotes.fresh {p q : Ptr} {t : Term} (h : Denotes nodes cells p t) (hq : cells q = none) :
    Denotes (q :: nodes) cells p t := by
  refine h.move (.refl [] cells) (List.forall_mem_nil _) fun r hr hnot hin => ?_
  rcases List.mem_cons.mp hin with rfl | hin
  · exact hr hq
  · exact hnot hin

theorem Denotes.weaken {p : Ptr} {t : Term} (h : Denotes nodes cells p t)
    (hsub : ∀ q ∈ nodes', q ∈ nodes) : Denotes nodes' cells p t :=
  h.move (.refl [] cells) (List.forall_mem_nil _) fun q _ hq hin => hq (hsub q hin)

end

/-! ## States -/

section

variable {machine : Machine} {nodes nodes' touched : List Ptr} {h h' : HeapState} {s s' o : State}

theorem Alike.refl (s : State) : Alike s s := ⟨rfl, rfl, rfl, rfl⟩

/-- Only what can be seen from outside matters. -/
theorem Alike.congr (ha : Alike o s) (henv : s'.workingUbootEnv = s.workingUbootEnv)
    (hworld : s'.world = s.world) (hlog : visible s'.log = visible s.log)
    (hargv : s'.argv = s.argv) : Alike o s' :=
  ⟨ha.env.trans henv.symm, ha.world.trans hworld.symm, ha.log.trans hlog.symm,
    ha.argv.trans hargv.symm⟩

/-- Blocks that are added, and new links of nodes that are in no list yet. -/
theorem Represents.move (hr : Represents machine nodes h s) (hpacked : Packed machine h')
    (hk : Keeps touched h.cells h'.cells) (htouched : ∀ q ∈ touched, q ∈ nodes)
    (hapart : ∀ q, h.cells q ≠ none → q ∉ nodes → q ∉ nodes')
    (hvar : ∀ q c, h.cells q = some c → (∀ t, c = .term t → t.data.isVar) → h'.cells q = some c)
    (hheap : h'.heap = h.heap) (hvars : h'.vars = h.vars) (hresult : h'.parserResult = h.parserResult)
    (houtside : h'.outside = h.outside) : Represents machine nodes' h' s := by
  obtain ⟨l, htable, hnames, hentries⟩ := hr.table
  refine ⟨⟨hheap ▸ hr.heap, hpacked, ⟨l, ?_, hnames, ?_⟩, houtside ▸ hr.outside⟩, ?_⟩
  · rw [hvars]
    exact htable.congr hvar
  · exact hentries.imp fun e v he => he.move hk htouched hapart
  · rw [hresult]
    exact hr.result.move hk htouched hapart

theorem Represents.weaken (hr : Represents machine nodes h s) (hsub : ∀ q ∈ nodes', q ∈ nodes) :
    Represents machine nodes' h s :=
  hr.move hr.packed (.refl [] h.cells) (List.forall_mem_nil _) (fun q _ hq hin => hq (hsub q hin))
    (fun _ _ hq _ => hq) rfl rfl rfl rfl

theorem Represents.fresh (hr : Represents machine nodes h s) {p : Ptr} (hp : h.cells p = none) :
    Represents machine (p :: nodes) h s := by
  refine hr.move hr.packed (.refl [] h.cells) (List.forall_mem_nil _) (fun r hnone hnot hin => ?_)
    (fun _ _ hq _ => hq) rfl rfl rfl rfl
  rcases List.mem_cons.mp hin with rfl | hin
  · exact hnone hp
  · exact hnot hin

/-- Only the variables and what can be seen from outside matter of a tree state. -/
theorem Represents.congr (hr : Represents machine nodes h s) (hvars : s'.vars = s.vars)
    (hresult : s'.parserResult = s.parserResult) (ha : Alike o s') :
    Represents machine nodes { h with outside := o } s' := by
  obtain ⟨l, htable, hnames, hentries⟩ := hr.table
  exact ⟨⟨hr.heap, ⟨hr.packed.aligned, hr.packed.full, hr.packed.bounded, hr.packed.apart⟩,
    ⟨l, htable, hnames, hvars ▸ hentries⟩, ha⟩, hresult ▸ hr.result⟩

theorem Represents.fails {e : Stop} (hr : Represents machine nodes h s) :
    Fails machine (.stop e) h e s := ⟨rfl, hr.outside, fun _ => hr.weaken (List.forall_mem_nil _)⟩

end

/-! ## Allocation -/

/-- There are more blocks than before. -/
structure Allocates (machine : Machine) (h h' : HeapState) : Prop where
  heap : h'.heap = h.heap
  packed : Packed machine h'
  kept : ∀ p c, h.cells p = some c → h'.cells p = some c
  vars : h'.vars = h.vars
  result : h'.parserResult = h.parserResult
  outside : h'.outside = h.outside

section

variable {machine : Machine} {nodes : List Ptr} {h h' : HeapState} {s : State}

theorem Allocates.refl (hp : Packed machine h) : Allocates machine h h :=
  ⟨rfl, hp, fun _ _ hc => hc, rfl, rfl, rfl⟩

theorem Allocates.grows (ha : Allocates machine h h') : Grows machine [] h h' :=
  ⟨ha.heap, ha.packed, keeps_of_kept ha.kept⟩

theorem Represents.alloc (hr : Represents machine nodes h s) (ha : Allocates machine h h') :
    Represents machine nodes h' s :=
  hr.move ha.packed (keeps_of_kept ha.kept : Keeps [] h.cells h'.cells) (List.forall_mem_nil _) (fun _ _ hq => hq)
    (fun q c hq _ => ha.kept q c hq) ha.heap ha.vars ha.result ha.outside

theorem allocTerm_allocates (hheap : h.heap.isSome) (hp : Packed machine h) (data : TermData) :
    Ensures (allocTerm machine data) h
      (fun p h' => Allocates machine h h' ∧ h.cells p = none ∧
        h'.cells p = some (.term ⟨data, none⟩)) fun e _ => Excused e := by
  obtain ⟨k, hk⟩ := Option.isSome_iff_exists.mp hheap
  refine allocTerm_ensures hp hk (fun hroom => ?_) fun _ => Or.inl rfl
  have hg : Grows machine [] h (h.push machine k (.term ⟨data, none⟩)) := grows_push hp hk hroom
  exact ⟨⟨rfl, hg.packed, fun _ _ hc => hp.push_kept hk hc, rfl, rfl, rfl⟩,
    hp.fresh hk (Nat.le_refl _), push_same _⟩

theorem allocTextTerm_allocates (hheap : h.heap.isSome) (hp : Packed machine h)
    (data : Ptr → TermData) (str : CString) :
    Ensures (allocTextTerm machine data (allocString machine str)) h
      (fun p h' => Allocates machine h h' ∧ h.cells p = none ∧
        ∃ q, h'.cells p = some (.term ⟨data q, none⟩) ∧ h'.cells q = some (.text str))
      fun e _ => Excused e := by
  obtain ⟨k, hk⟩ := Option.isSome_iff_exists.mp hheap
  refine allocTextTerm_ensures hp hk (fun hroom => ?_) fun _ _ => Or.inl rfl
  have hless := Nat.le_trans (Nat.le_add_right _ _) hroom
  exact ⟨⟨rfl, hp.pushText hroom, fun _ _ hc => hp.pushText_kept hk hless hc, rfl, rfl, rfl⟩,
    hp.fresh hk (Nat.le_refl _), _, pushText_term, pushText_text⟩

end

/-! ## One after the other -/

section

variable {α α' β β' : Type} {machine : Machine} {nodes : List Ptr} {h : HeapState} {s : State}
  {m : HeapInterp α} {m' : Interp α'} {mid : α → HeapState → α' → Prop}
  {post : β → HeapState → β' → Prop}

theorem Follows.bind {f : α → HeapInterp β} {f' : α' → Interp β'}
    (hm : Follows machine nodes m m' h s mid)
    (hf : ∀ a h1 a' s1, Represents machine nodes h1 s1 → Grows machine [] h h1 → mid a h1 a' →
      Follows machine nodes (f a) (f' a') h1 s1 post) :
    Follows machine nodes (m >>= f) (m' >>= f') h s post := by
  refine Refines.bind hm ?_
  rintro a h1 a' s1 ⟨hr1, hg1, hmid⟩
  refine (hf a h1 a' s1 hr1 hg1 hmid).mono ?_ fun _ _ _ _ h => h
  rintro b h2 b' s2 ⟨hr2, hg2, hpost⟩
  exact ⟨hr2, hg1.trans hg2, hpost⟩

theorem Follows.mono {mid' : α → HeapState → α' → Prop} (hm : Follows machine nodes m m' h s mid)
    (hmid : ∀ a h1 a', Grows machine [] h h1 → mid a h1 a' → mid' a h1 a') :
    Follows machine nodes m m' h s mid' :=
  Refines.mono hm (fun a h1 a' _ h => ⟨h.1, h.2.1, hmid a h1 a' h.2.1 h.2.2⟩) fun _ _ _ _ h => h

theorem follows_pure (hr : Represents machine nodes h s) {b : β} {b' : β'} (hpost : post b h b') :
    Follows machine nodes (pure b) (pure b') h s post := refines_pure ⟨hr, .refl hr.packed, hpost⟩

theorem follows_throw (hr : Represents machine nodes h s) (e : Stop) :
    Follows machine nodes (throw (.stop e)) (throw e) h s post := refines_throw hr.fails

theorem follows_outOfFuel {m' : Interp β'} :
    Follows machine nodes (throw (.stop .outOfFuel)) m' h s post := refines_excused (Or.inr rfl)

/-- What only reads, on the one side. -/
theorem follows_left {f : α → HeapInterp β} {m' : Interp β'} {a : α} (hm : m h = .ok a h)
    (hf : Follows machine nodes (f a) m' h s post) : Follows machine nodes (m >>= f) m' h s post :=
  refines_bind_left hm hf

/-- On the other side. -/
theorem follows_right {m : HeapInterp β} {f' : α' → Interp β'} {v : α'} (hm' : m' s = .ok v s)
    (hf : Follows machine nodes m (f' v) h s post) : Follows machine nodes m (m' >>= f') h s post :=
  refines_bind_right hm' hf

/-- Following `NULL`. -/
theorem follows_null (hr : Represents machine nodes h s) {f : HeapTerm → HeapInterp β} :
    Follows machine nodes (deref none >>= f) (throw .nullDereference : Interp β') h s post :=
  Or.inr ⟨_, s, rfl, hr.fails⟩

theorem Follows.alloc {f : α → HeapInterp β} {m' : Interp β'} {mid : α → HeapState → Prop}
    (hr : Represents machine nodes h s)
    (hm : Ensures m h (fun a h1 => Allocates machine h h1 ∧ mid a h1) fun e _ => Excused e)
    (hf : ∀ a h1, Represents machine nodes h1 s → Allocates machine h h1 → mid a h1 →
      Follows machine nodes (f a) m' h1 s post) :
    Follows machine nodes (m >>= f) m' h s post := by
  refine Refines.bind_ensures hm ?_
  rintro a h1 ⟨ha, hmid⟩
  refine Refines.mono (hf a h1 (hr.alloc ha) ha hmid) ?_ fun _ _ _ _ h => h
  rintro b h2 b' s2 ⟨hr2, hg2, hpost⟩
  exact ⟨hr2, ha.grows.trans hg2, hpost⟩

/-- What is done outside the heap. -/
theorem follows_outside {m : Interp α} (hm : Indifferent m) (hr : Represents machine nodes h s) :
    Follows machine nodes (outside m) m h s fun a _ a' => a = a' := by
  have hout := hm h.outside s hr.outside
  unfold Follows Refines Ensures outside
  cases hrun : m h.outside with
  | ok a o =>
    obtain ⟨a', s', hm', rfl, ha, hvars, hresult⟩ := hout.ok hrun
    exact ⟨a, s', hm', hr.congr hvars hresult ha, (Grows.refl hr.packed).congr o h.vars, rfl⟩
  | error e o =>
    rcases hout.error hrun with hfalse | ⟨e', s', hm', rfl, hne, ha⟩
    · exact hfalse.elim
    · exact Or.inr ⟨e, s', hm', rfl, ha, fun heq => absurd heq hne⟩

end

/-! ## Outside the heap -/

section

variable {α β : Type}

theorem Indifferent.bind {m : Interp α} {f : α → Interp β} (hm : Indifferent m)
    (hf : ∀ a, Indifferent (f a)) : Indifferent (m >>= f) := by
  intro o s ha
  refine (hm o s ha).bind ?_
  rintro a o1 _ s1 ⟨rfl, ha1, hvars, hresult⟩
  refine (hf a o1 s1 ha1).mono ?_ fun _ _ _ _ h => h
  rintro b o2 b' s2 ⟨hb, ha2, hvars2, hresult2⟩
  exact ⟨hb, ha2, hvars2.trans hvars, hresult2.trans hresult⟩

theorem indifferent_pure (a : α) : Indifferent (pure a : Interp α) :=
  fun _ _ ha => refines_pure ⟨rfl, ha, rfl, rfl⟩

theorem indifferent_throw {e : Stop} (he : e ≠ .parseError) :
    Indifferent (throw e : Interp α) := fun _ _ ha => refines_throw ⟨rfl, he, ha⟩

theorem indifferent_record (e : Event) : Indifferent (record e) := by
  intro o s ha
  refine ⟨(), { s with log := s.log ++ [e] }, rfl, rfl, ⟨ha.env, ha.world, ?_, ha.argv⟩, rfl, rfl⟩
  change visible (o.log ++ [e]) = visible (s.log ++ [e])
  have hlog := ha.log
  unfold visible at hlog ⊢
  rw [List.filter_append, List.filter_append, hlog]

theorem indifferent_reply : Indifferent reply := by
  intro o s ha
  have hworld := ha.world
  unfold Refines Ensures reply
  have hget : ∀ t : State, (get : Interp State) t = .ok t t := fun _ => rfl
  rw [bind_of_ok (hget o), bind_of_ok (hget s), hworld]
  cases s.world.replies with
  | nil => exact ⟨_, s, rfl, rfl, ha, rfl, rfl⟩
  | cons r rest => exact ⟨_, _, rfl, rfl, ⟨ha.env, rfl, ha.log, ha.argv⟩, rfl, rfl⟩

/-- A change of what can be seen from outside. -/
theorem indifferent_modify {f : State → State}
    (hf : ∀ o s, Alike o s → Alike (f o) (f s)) (hvars : ∀ s, (f s).vars = s.vars)
    (hresult : ∀ s, (f s).parserResult = s.parserResult) :
    Indifferent (modify f : Interp PUnit) :=
  fun o s ha => ⟨⟨⟩, f s, rfl, rfl, hf o s ha, hvars s, hresult s⟩

theorem indifferent_info (message : List UInt8) : Indifferent (info message) :=
  indifferent_record _

theorem indifferent_printed (str : String) : Indifferent (printed str) := indifferent_record _

theorem indifferent_recordCall (handler : Builtin) : Indifferent (recordCall handler) := by
  unfold recordCall
  split
  · exact indifferent_pure ()
  · exact indifferent_record _

theorem indifferent_openBlockDevice (spec : CString) : Indifferent (openBlockDevice spec) :=
  indifferent_reply.bind fun _ => indifferent_pure _

theorem indifferent_lseek (offset : Int) : Indifferent (lseek offset) :=
  indifferent_reply.bind fun _ => indifferent_pure _

theorem indifferent_printLines (lines : List (List UInt8)) : Indifferent (printLines lines) := by
  induction lines with
  | nil => exact indifferent_pure ()
  | cons line rest ih => exact (indifferent_record _).bind fun _ => ih

end

/-! ## Variables -/

/-- What looking for a name comes to on both sides. -/
inductive LookedUp (nodes : List Ptr) (cells : Ptr → Option Cell) (l : List Entry)
    (vars : List Variable) (name : CString) : Option (Ptr × Option Ptr) → Prop
  | found {e : Entry} {v : Variable} (he : e ∈ l) (hname : e.name = name)
      (hv : NervesInitramfs.getVariableImpl vars name = some v)
      (value : ValueDenotes nodes cells e.value v.value) :
      LookedUp nodes cells l vars name (some (e.node, e.value))
  | missing (hname : name ∉ l.map Entry.name)
      (hv : NervesInitramfs.getVariableImpl vars name = none) :
      LookedUp nodes cells l vars name none

section

variable {machine : Machine} {nodes : List Ptr} {h : HeapState} {s : State} {l : List Entry}
  {vars : List Variable} {name : CString} {value : Option Ptr} {value' : Option Term}

theorem findVariable_lookedUp {p : Option Ptr} (hl : Table h.cells p l)
    (hentries : List.Forall₂ (EntryDenotes nodes h.cells) l vars) (name : CString) (steps : Nat) :
    Ensures (findVariable name steps p) h
      (fun r h' => h' = h ∧ LookedUp nodes h.cells l vars name r) fun e _ => Excused e := by
  induction hl generalizing steps vars with
  | nil =>
    cases hentries
    cases steps
    · exact ⟨rfl, .missing List.not_mem_nil rfl⟩
    · exact ⟨rfl, .missing List.not_mem_nil rfl⟩
  | @cons q namePtr str value next rest node text more ih =>
    obtain _ | @⟨_, v, _, others, hhead, htail⟩ := hentries
    cases steps with
    | zero => exact Or.inr rfl
    | succ steps =>
      rw [findVariable, ensures_bind_of_ok (deref_eq node)]
      simp only
      rw [ensures_bind_of_ok (textAt_eq text)]
      have hname : str = v.name := hhead.name
      by_cases heq : strcmp str name = 0
      · rw [if_pos heq]
        have hfound : NervesInitramfs.getVariableImpl (v :: others) name = some v := by
          rw [NervesInitramfs.getVariableImpl, List.find?_cons_of_pos]
          simpa [← hname] using heq
        exact ⟨rfl, .found List.mem_cons_self (strcmp_eq_zero.mp heq) hfound hhead.value⟩
      · rw [if_neg heq]
        have hskip : NervesInitramfs.getVariableImpl (v :: others) name =
            NervesInitramfs.getVariableImpl others name := by
          rw [NervesInitramfs.getVariableImpl, List.find?_cons_of_neg]
          · rfl
          · simpa [← hname] using heq
        refine (ih htail steps).mono ?_ fun _ _ h => h
        rintro r _ ⟨rfl, hr⟩
        refine ⟨rfl, ?_⟩
        cases hr with
        | found he hn hv hvalue =>
          exact .found (List.mem_cons_of_mem _ he) hn (hskip.trans hv) hvalue
        | missing hn hv =>
          refine .missing (fun hmem => ?_) (hskip.trans hv)
          rcases List.mem_cons.mp hmem with hhere | hmem
          · exact heq (strcmp_eq_zero.mpr hhere.symm)
          · exact hn hmem

theorem getVariableImpl_lookedUp (hl : Table h.cells h.vars l)
    (hentries : List.Forall₂ (EntryDenotes nodes h.cells) l vars) (steps : Nat) (name : CString) :
    Ensures (getVariableImpl steps name) h
      (fun r h' => h' = h ∧ LookedUp nodes h.cells l vars name r) fun e _ => Excused e := by
  have hget : (get : HeapInterp HeapState) h = .ok h h := rfl
  rw [getVariableImpl, ensures_bind_of_ok hget]
  exact findVariable_lookedUp hl hentries name steps

theorem names_denote {cells : Ptr → Option Cell}
    (hentries : List.Forall₂ (EntryDenotes nodes cells) l vars) :
    l.map Entry.name = vars.map Variable.name := by
  induction hentries with
  | nil => rfl
  | cons hhead _ ih => rw [List.map_cons, List.map_cons, hhead.name, ih]

/-- A name that is new goes in front. -/
theorem assigned_missing (hname : name ∉ vars.map Variable.name) :
    assigned vars name value' = ⟨name, value'⟩ :: vars := by
  have hnone : replaceVariable name value' vars = none := by
    rw [replaceVariable_eq]
    exact replaceFirst_eq_none.mpr fun v hv heq => hname (List.mem_map.mpr ⟨v, hv, heq⟩)
  rw [assigned, hnone]

/-- The variable with the name gets the value, on both sides. -/
theorem replaceVariable_denotes {cells : Ptr → Option Cell} {v : Ptr}
    (hentries : List.Forall₂ (EntryDenotes nodes cells) l vars) (hnames : (l.map Entry.name).Nodup)
    (hin : name ∈ l.map Entry.name) (hnode : ∀ e ∈ l, e.node = v ↔ e.name = name)
    (hvalue : ValueDenotes nodes cells value value') :
    ∃ vars', replaceVariable name value' vars = some vars' ∧
      List.Forall₂ (EntryDenotes nodes cells) (l.map (assignEntry v value)) vars' := by
  induction hentries with
  | nil => exact absurd hin List.not_mem_nil
  | @cons e x es xs hhead htail ih =>
    rw [List.map_cons, List.nodup_cons] at hnames
    have hes : ∀ e' ∈ es, e'.node = v ↔ e'.name = name := fun e' he' =>
      hnode e' (List.mem_cons_of_mem _ he')
    by_cases hname : e.name = name
    · have hx : strcmp x.name name = 0 := strcmp_eq_zero.mpr (hhead.name ▸ hname)
      refine ⟨⟨x.name, value'⟩ :: xs, by rw [replaceVariable, if_pos hx], ?_⟩
      have hhere : e.node = v := (hnode e List.mem_cons_self).mpr hname
      have hothers : es.map (assignEntry v value) = es := by
        refine (List.map_congr_left fun e' he' => ?_).trans (List.map_id es)
        refine if_neg fun heq => hnames.1 ?_
        rw [hname, ← (hes e' he').mp heq]
        exact List.mem_map_of_mem he'
      rw [List.map_cons, assignEntry, if_pos hhere, hothers]
      exact .cons ⟨hhead.name, hvalue⟩ htail
    · have hx : strcmp x.name name ≠ 0 := fun heq =>
        hname (hhead.name.trans (strcmp_eq_zero.mp heq))
      have hmore : name ∈ es.map Entry.name := by
        rcases List.mem_cons.mp hin with heq | hmem
        · exact absurd heq.symm hname
        · exact hmem
      obtain ⟨xs', hreplace, hdenote⟩ := ih hnames.2 hmore hes
      have hhere : e.node ≠ v := fun heq => hname ((hnode e List.mem_cons_self).mp heq)
      refine ⟨x :: xs', by rw [replaceVariable, if_neg hx, hreplace]; rfl, ?_⟩
      rw [List.map_cons, assignEntry, if_neg hhere]
      exact .cons hhead hdenote

/-- A node of the table is the variable with its name. -/
theorem Table.node_iff {p : Option Ptr} {cells : Ptr → Option Cell} (hl : Table cells p l)
    (hnames : (l.map Entry.name).Nodup) {e : Entry} (he : e ∈ l) :
    ∀ e' ∈ l, e'.node = e.node ↔ e'.name = e.name := by
  intro e' he'
  constructor
  · intro heq
    obtain ⟨next, hnode⟩ := hl.node_eq he
    obtain ⟨next', hnode'⟩ := hl.node_eq he'
    rw [heq, hnode] at hnode'
    injection hnode' with hcell
    injection hcell with hterm
    injection hterm with hdata
    injection hdata with hptr
    have htext := hl.text_eq he
    rw [hptr, hl.text_eq he'] at htext
    injection htext with hcell
    injection hcell
  · intro heq
    rw [List.inj_on_of_nodup_map hnames he' he heq]

/-- A variable with a new name goes in front, and nothing else changes. -/
theorem addVariable_represents (hr : Represents machine nodes h s)
    (hvalue : ValueDenotes nodes h.cells value value') (hname : name ∉ s.vars.map Variable.name) :
    Ensures (addVariable machine name value) h
      (fun _ h' => Represents machine nodes h' { s with vars := ⟨name, value'⟩ :: s.vars } ∧
        Grows machine [] h h' ∧ ∀ q c, h.cells q = some c → h'.cells q = some c)
      fun e _ => Excused e := by
  obtain ⟨l, htable, hnames, hentries⟩ := hr.table
  obtain ⟨k, hk⟩ := Option.isSome_iff_exists.mp hr.heap
  rw [addVariable, ensures_bind]
  refine allocTextTerm_ensures hr.packed hk (fun hroom => ?_) fun _ _ => Or.inl rfl
  let q : Ptr := ⟨k, h.heapIndex + termSize machine⟩
  let h1 : HeapState := h.pushText machine k ⟨.var q value, none⟩ name
  let h2 : HeapState := h.pushText machine k ⟨.var q value, h.vars⟩ name
  have hg : Grows machine [] h h2 := grows_pushText hr.packed hk hroom
  have hnext : setNext ⟨k, h.heapIndex⟩ h.vars h1 = .ok () h2 := by
    rw [setNext, bind_of_ok (deref_eq pushText_term)]
    exact congrArg (EStateM.Result.ok ()) (pushText_replace _)
  have hget : (get : HeapInterp HeapState) h1 = .ok h1 h1 := rfl
  refine (ensures_bind_of_ok hget).mpr ((ensures_bind_of_ok hnext).mpr ?_)
  rw [ensures_modify]
  have hless := Nat.le_trans (Nat.le_add_right _ _) hroom
  have hkept : ∀ p c, h.cells p = some c → h2.cells p = some c := fun _ _ hp =>
    hr.packed.pushText_kept hk hless hp
  have hold : Table h2.cells h.vars l := htable.congr fun _ _ hq _ => hkept _ _ hq
  have hpacked : Packed machine { h2 with vars := some ⟨k, h.heapIndex⟩ } :=
    ⟨hg.packed.aligned, hg.packed.full, hg.packed.bounded, hg.packed.apart⟩
  refine ⟨⟨⟨hr.heap, hpacked, ⟨⟨⟨k, h.heapIndex⟩, q, name, value⟩ :: l,
      .cons pushText_term pushText_text hold, List.nodup_cons.mpr ⟨?_, hnames⟩, ?_⟩,
    hr.outside.congr rfl rfl rfl rfl⟩, hr.result.keep hg.keeps⟩, ⟨hg.heap, hpacked, hg.keeps⟩, hkept⟩
  · exact names_denote hentries ▸ hname
  · exact .cons ⟨rfl, hvalue.keep hg.keeps⟩
      (hentries.imp fun _ _ hd => hd.move hg.keeps (List.forall_mem_nil _) fun _ _ hq => hq)

/-- `set_variable` on both sides. -/
theorem setVariable_represents (hr : Represents machine nodes h s)
    (hvalue : ValueDenotes nodes h.cells value value') (steps : Nat) (name : CString) :
    Ensures (setVariable machine steps name value) h
      (fun _ h' => Represents machine nodes h' { s with vars := assigned s.vars name value' } ∧
        Grows machine [] h h') fun e _ => Excused e := by
  obtain ⟨l, htable, hnames, hentries⟩ := hr.table
  rw [setVariable, ensures_bind]
  refine (getVariableImpl_lookedUp htable hentries steps name).mono ?_ fun _ _ h => h
  rintro r h ⟨rfl, hlook⟩
  cases hlook with
  | @found e v he hname hv hfound =>
    obtain ⟨next, hnode⟩ := htable.node_eq he
    have hiff := htable.node_iff hnames he
    rw [hname] at hiff
    have hg : Grows machine [] h (h.put e.node ⟨.var e.namePtr value, next⟩) :=
      grows_setValue hr.packed hnode rfl
    obtain ⟨vars', hreplace, hdenote⟩ := replaceVariable_denotes hentries hnames
      (hname ▸ List.mem_map_of_mem he) hiff hvalue
    have hassigned : assigned s.vars name value' = vars' := by rw [assigned, hreplace]
    change Ensures (setValue e.node value) h _ _
    rw [setValue, ensures_bind_of_ok (deref_eq hnode), hassigned]
    refine ⟨⟨⟨hr.heap, hg.packed, ⟨_, htable.assign hnode, ?_, ?_⟩, hr.outside.congr rfl rfl rfl rfl⟩,
      hr.result.keep hg.keeps⟩, hg⟩
    · rw [List.map_map]
      exact (List.map_congr_left fun e' _ => assignEntry_name e.node value e').symm ▸ hnames
    · exact hdenote.imp fun _ _ hd => hd.move hg.keeps (List.forall_mem_nil _) fun _ _ hq => hq
  | missing hname hv =>
    have hnew : name ∉ s.vars.map Variable.name := names_denote hentries ▸ hname
    rw [assigned_missing hnew]
    exact (addVariable_represents hr hvalue hnew).mono (fun _ _ hr' => ⟨hr'.1, hr'.2.1⟩)
      fun _ _ he => he

/-- `set_variable` of a name that is new. -/
theorem setVariable_adds (hr : Represents machine nodes h s)
    (hvalue : ValueDenotes nodes h.cells value value') (hname : name ∉ s.vars.map Variable.name)
    (steps : Nat) :
    Ensures (setVariable machine steps name value) h
      (fun _ h' => Represents machine nodes h' { s with vars := assigned s.vars name value' } ∧
        Grows machine [] h h' ∧ ∀ q c, h.cells q = some c → h'.cells q = some c)
      fun e _ => Excused e := by
  obtain ⟨l, htable, -, hentries⟩ := hr.table
  rw [setVariable, ensures_bind, assigned_missing hname]
  refine (getVariableImpl_lookedUp htable hentries steps name).mono ?_ fun _ _ h => h
  rintro r h ⟨rfl, hlook⟩
  cases hlook with
  | found he hfound _ _ =>
    refine absurd ?_ hname
    rw [← names_denote hentries, ← hfound]
    exact List.mem_map_of_mem he
  | missing _ _ => exact addVariable_represents hr hvalue hname

theorem follows_setVariable (hr : Represents machine nodes h s)
    (hvalue : ValueDenotes nodes h.cells value value') (steps : Nat) (name : CString) :
    Follows machine nodes (setVariable machine steps name value)
      (NervesInitramfs.setVariable name value') h s fun _ _ _ => True := by
  refine (setVariable_represents hr hvalue steps name).mono ?_ fun _ _ he => Or.inl he
  rintro _ h' ⟨hr', hg⟩
  have hlog : visible (s.log ++ [.assigned name]) = visible s.log := by
    rw [visible, List.filter_append]
    exact List.append_nil _
  have hs : Represents machine nodes h'
      { s with log := s.log ++ [.assigned name], vars := assigned s.vars name value' } :=
    hr'.congr rfl rfl (hr'.outside.congr rfl rfl hlog rfl)
  exact ⟨(), _, rfl, hs, hg, trivial⟩

/-- A new term for a value. -/
theorem follows_newTerm (hr : Represents machine nodes h s) {alloc : HeapInterp Ptr} {t : Term}
    (halloc : Ensures alloc h
      (fun p h' => Allocates machine h h' ∧ Denotes nodes h'.cells p t) fun e _ => Excused e) :
    Follows machine nodes (do let p ← alloc; pure (some p)) (pure (some t) : Interp (Option Term))
      h s fun p h' t => ValueDenotes nodes h'.cells p t := by
  refine Follows.alloc hr halloc ?_
  intro p h' hr' _ hp
  exact follows_pure hr' (.term hp)

theorem newString_denotes (hr : Represents machine nodes h s) (value : CString) :
    Ensures (termNewString machine value) h
      (fun p h' => Allocates machine h h' ∧ Denotes nodes h'.cells p (.string value))
      fun e _ => Excused e := by
  refine (allocTextTerm_allocates hr.heap hr.packed .string value).mono ?_ fun _ _ he => he
  rintro p h' ⟨ha, -, q, hnode, htext⟩
  exact ⟨ha, .string hnode htext⟩

theorem newNumber_denotes (hr : Represents machine nodes h s) (value : Int32) :
    Ensures (termNewNumber machine value) h
      (fun p h' => Allocates machine h h' ∧ Denotes nodes h'.cells p (.number value))
      fun e _ => Excused e := by
  refine (allocTerm_allocates hr.heap hr.packed (.number value)).mono ?_ fun _ _ he => he
  rintro p h' ⟨ha, -, hnode⟩
  exact ⟨ha, .number hnode⟩

theorem newBoolean_denotes (hr : Represents machine nodes h s) (value : Bool) :
    Ensures (termNewBoolean machine value) h
      (fun p h' => Allocates machine h h' ∧ Denotes nodes h'.cells p (.boolean value))
      fun e _ => Excused e := by
  refine (allocTerm_allocates hr.heap hr.packed (.boolean value)).mono ?_ fun _ _ he => he
  rintro p h' ⟨ha, -, hnode⟩
  exact ⟨ha, .boolean hnode⟩

/-- A variable is set to a new term. -/
theorem follows_setNew (hr : Represents machine nodes h s) {alloc : HeapInterp Ptr} {t : Term}
    (halloc : Ensures alloc h
      (fun p h' => Allocates machine h h' ∧ Denotes nodes h'.cells p t) fun e _ => Excused e)
    (steps : Nat) (name : CString) :
    Follows machine nodes (do let p ← alloc; setVariable machine steps name (some p))
      (NervesInitramfs.setVariable name (some t)) h s fun _ _ _ => True := by
  refine Follows.alloc hr halloc ?_
  intro p h' hr' _ hp
  exact follows_setVariable hr' (.term hp) steps name

theorem follows_setBooleanVariable (hr : Represents machine nodes h s) (steps : Nat)
    (name : CString) (value : Bool) :
    Follows machine nodes (setBooleanVariable machine steps name value)
      (NervesInitramfs.setBooleanVariable name value) h s fun _ _ _ => True :=
  follows_setNew hr (newBoolean_denotes hr value) steps name

theorem follows_setStringVariable (hr : Represents machine nodes h s) (steps : Nat)
    (name value : CString) :
    Follows machine nodes (setStringVariable machine steps name value)
      (NervesInitramfs.setStringVariable name value) h s fun _ _ _ => True :=
  follows_setNew hr (newString_denotes hr value) steps name

theorem follows_setNumberVariable (hr : Represents machine nodes h s) (steps : Nat)
    (name : CString) (value : Int32) :
    Follows machine nodes (setNumberVariable machine steps name value)
      (NervesInitramfs.setNumberVariable name value) h s fun _ _ _ => True :=
  follows_setNew hr (newNumber_denotes hr value) steps name

/-- `get_variable` on both sides. -/
theorem follows_getVariable (hr : Represents machine nodes h s) (steps : Nat) (name : CString) :
    Follows machine nodes (getVariable machine steps name) (NervesInitramfs.getVariable name) h s
      fun p h' t => ValueDenotes nodes h'.cells p t := by
  obtain ⟨l, htable, -, hentries⟩ := hr.table
  have hget : (get : Interp State) s = .ok s s := rfl
  rw [getVariable, NervesInitramfs.getVariable]
  refine follows_right hget (Refines.bind_ensures (getVariableImpl_lookedUp htable hentries steps name) ?_)
  rintro r h ⟨rfl, hlook⟩
  cases hlook with
  | found he hname hv hvalue =>
    rw [hv]
    exact follows_pure hr hvalue
  | missing hname hv =>
    rw [hv]
    exact follows_newTerm hr (newString_denotes hr _)

end

end NervesInitramfs.TermHeap
