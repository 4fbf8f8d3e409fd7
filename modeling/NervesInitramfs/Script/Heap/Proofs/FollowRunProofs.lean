import NervesInitramfs.Script.Heap.Proofs.FollowBuildProofs

/-!
# Proofs: whole runs on the heap follow runs on trees

A statement is followed by the same statement, collecting the heap by copying the variables, and any
sequence of inputs since the program has been started by the same sequence.
-/

namespace NervesInitramfs.TermHeap

open CLib

section

variable {machine : Machine} {h : HeapState} {s : State} (depth : Nat)

/-! ## Statements -/

theorem follows_evalStatement (statement : StatementSyntax) (hr : Represents machine [] h s) :
    Follows machine [] (evalStatement machine depth statement)
      (NervesInitramfs.evalStatement machine depth statement) h s
      fun q h' u => ValueDenotes [] h'.cells q u := by
  cases statement with
  | rule condition block =>
    refine (follows_evalBoolean depth condition hr).bind ?_
    rintro fires h1 _ s1 hr1 - rfl
    have hrow : Row machine [] h1 none [] h1 [] s1 :=
      ⟨hr1, .refl hr1.packed, (List.forall_mem_nil _), List.nodup_nil, rfl, .nil⟩
    refine Refines.bind (follows_buildActions depth block hrow inUse_nil) ?_
    rintro first h2 us s2 ⟨row, hrow2⟩
    refine Refines.bind_ensures (hrow2.reverse depth) ?_
    rintro reversed h3 ⟨hrow3, -⟩
    rw [List.append_nil, List.reverse_reverse] at hrow3
    have hr3 := hrow3.represents_nodes
    have hblock : Follows machine []
        (if fires then do let _ ← runFunctions machine depth depth none reversed else pure ())
        (if fires then do let _ ← NervesInitramfs.runFunctions machine depth none us else pure ())
        h3 s2 fun _ _ _ => True := by
      cases fires with
      | false => exact follows_pure hr3 trivial
      | true =>
        refine (follows_runFunctions depth depth hr3 .null (hrow3.denotesList inUse_nil)).bind ?_
        intro q h4 u s4 hr4 hg4 hq
        exact follows_pure hr4 trivial
    refine Refines.bind hblock ?_
    rintro _ h4 _ s4 ⟨hr4, hg4, -⟩
    exact refines_pure ⟨hr4, hrow3.grows.trans hg4, .null⟩
  | action a =>
    refine Refines.bind (follows_buildAction depth a hr inUse_nil) ?_
    intro p h1 t s1 hp
    have hlist := hp.denotesList inUse_nil
    refine Refines.mono (follows_runFunctions depth depth hp.represents_nodes .null hlist) ?_
      fun _ _ _ _ hf => hf
    rintro q h2 u s2 ⟨hr2, hg2, hq⟩
    exact ⟨hr2, hp.grows.trans hg2, hq⟩

theorem follows_evalFragment (part : Fragment) (hr : Represents machine [] h s) :
    Follows machine [] (evalFragment machine depth part)
      (NervesInitramfs.evalFragment machine depth part) h s fun _ _ _ => True := by
  have hbuild : ∀ {m : HeapInterp Ptr} {m' : Interp Term}, FollowsBuild machine [] m m' h s →
      Follows machine [] (do let _ ← m) (do let _ ← m') h s fun _ _ _ => True := fun hm =>
    Refines.bind hm fun _ _ _ _ hp => refines_pure ⟨hp.represents_nodes, hp.grows, trivial⟩
  cases part with
  | term t => exact hbuild (follows_buildTerm depth t hr inUse_nil)
  | boolean b =>
    refine (follows_evalBoolean depth b hr).bind ?_
    intro _ h1 _ s1 hr1 _ _
    exact follows_pure hr1 trivial
  | action a => exact hbuild (follows_buildAction depth a hr inUse_nil)

theorem follows_evalFragments (parts : List Fragment) (hr : Represents machine [] h s) :
    Follows machine [] (evalFragments machine depth parts)
      (NervesInitramfs.evalFragments machine depth parts) h s fun _ _ _ => True := by
  induction parts generalizing h s with
  | nil => exact follows_throw hr _
  | cons part rest ih =>
    refine (follows_evalFragment depth part hr).bind ?_
    intro _ h1 _ s1 hr1 _ _
    exact ih hr1

/-! ## Collecting -/

/-- `term_dupe` on both sides. It adds blocks only. -/
theorem follows_termDupe (hr : Represents machine [] h s) {p : Option Ptr} {t : Option Term}
    (hp : ValueDenotes [] h.cells p t) :
    Refines Excused (termDupe machine p) h (NervesInitramfs.termDupe t) s
      (fun q h' u s' => s' = s ∧ Allocates machine h h' ∧ ValueDenotes [] h'.cells q u)
      (Fails machine) := by
  have hnew : ∀ {alloc : HeapInterp Ptr} {u : Term}, Ensures alloc h
      (fun q h' => Allocates machine h h' ∧ Denotes [] h'.cells q u) (fun e _ => Excused e) →
      Refines Excused (do let q ← alloc; pure (some q)) h (pure (some u)) s
        (fun q h' u s' => s' = s ∧ Allocates machine h h' ∧ ValueDenotes [] h'.cells q u)
        (Fails machine) := by
    intro alloc u halloc
    refine Refines.bind_ensures halloc ?_
    rintro q h' ⟨ha, hd⟩
    exact refines_pure ⟨rfl, ha, .term hd⟩
  cases hp with
  | null => exact Or.inr ⟨_, s, rfl, hr.fails⟩
  | term hd =>
    cases hd with
    | identifier node text =>
      refine refines_bind_left (deref_eq node) (refines_bind_left (textAt_eq text) (hnew ?_))
      refine (allocTextTerm_allocates hr.heap hr.packed .identifier _).mono ?_ fun _ _ he => he
      rintro q h' ⟨ha, -, r, hnode, htext⟩
      exact ⟨ha, .identifier hnode htext⟩
    | string node text =>
      exact refines_bind_left (deref_eq node)
        (refines_bind_left (textAt_eq text) (hnew (newString_denotes hr _)))
    | number node => exact refines_bind_left (deref_eq node) (hnew (newNumber_denotes hr _))
    | boolean node => exact refines_bind_left (deref_eq node) (hnew (newBoolean_denotes hr _))
    | function node _ =>
      exact refines_bind_left (deref_eq node) (refines_pure ⟨rfl, .refl hr.packed, .null⟩)

/-- The loop of `term_gc_heap`, which reads the old variables while it makes new ones. -/
theorem follows_copyVariables {cells : Ptr → Option Cell} {p : Option Ptr} {l : List Entry}
    {vars : List Variable} (hl : Table cells p l)
    (hentries : List.Forall₂ (EntryDenotes [] cells) l vars) (hnames : (l.map Entry.name).Nodup)
    {h : HeapState} {s : State} (hr : Represents machine [] h s)
    (hkept : ∀ q c, cells q = some c → h.cells q = some c)
    (hnew : ∀ v ∈ vars, v.name ∉ s.vars.map Variable.name) (steps n : Nat) :
    Refines Excused (copyVariables machine steps n p) h (NervesInitramfs.copyVariables vars) s
      (fun _ h' _ s' => Represents machine [] h' s') (Fails machine) := by
  induction hl generalizing vars h s n with
  | nil =>
    cases hentries
    cases n
    · exact refines_pure hr
    · exact refines_pure hr
  | @cons q namePtr name value next rest node text more ih =>
    obtain _ | @⟨_, v, _, others, hhead, htail⟩ := hentries
    rw [List.map_cons, List.nodup_cons] at hnames
    cases n with
    | zero => exact refines_excused (Or.inr rfl)
    | succ n =>
      refine refines_bind_left (deref_eq (hkept _ _ node)) ?_
      have hvalue : ValueDenotes [] h.cells value v.value := hhead.value.keep (keeps_of_kept hkept)
      refine Refines.bind (follows_termDupe hr hvalue) ?_
      rintro dupe h1 u s1 ⟨rfl, ha, hdupe⟩
      have hkept1 : ∀ q c, cells q = some c → h1.cells q = some c := fun q c hq =>
        ha.kept q c (hkept q c hq)
      refine refines_bind_left (textAt_eq (hkept1 _ _ text)) ?_
      have hname : name = v.name := hhead.name
      subst hname
      have hadd := setVariable_adds (hr.alloc ha) hdupe (hnew v List.mem_cons_self) steps
      refine Refines.bind_ensures hadd ?_
      rintro _ h2 ⟨hr2, hg2, hkept2⟩
      have hkept3 : ∀ q c, cells q = some c → h2.cells q = some c := fun q c hq =>
        hkept2 q c (hkept1 q c hq)
      refine refines_bind_left (deref_eq (hkept3 _ _ node)) ?_
      refine refines_bind_right (v := ⟨⟩) (u := { s1 with vars := assigned s1.vars v.name u }) rfl ?_
      refine ih htail hnames.2 hr2 hkept3 (fun w hw => ?_) n
      rw [assigned_missing (hnew v List.mem_cons_self)]
      intro hmem
      rcases List.mem_cons.mp hmem with heq | hmem
      · refine hnames.1 ?_
        rw [names_denote htail, ← heq]
        exact List.mem_map_of_mem hw
      · exact hnew w (List.mem_cons_of_mem _ hw) hmem

end

section

variable {machine : Machine} {nodes : List Ptr} {h : HeapState} {cells : Ptr → Option Cell}

mutual

/-- A term of the current heap has nothing from another heap in it. -/
theorem Denotes.restrict {p : Ptr} {t : Term} (hd : Denotes nodes h.cells p t)
    (hs : SoundCells machine h) (hp : h.heap = some p.heap)
    (hsame : ∀ q, h.heap = some q.heap → cells q = h.cells q) : Denotes nodes cells p t := by
  cases hd with
  | @identifier _ q _ _ node text =>
    have hq := (hs.texts p _ q hp node rfl).1
    exact .identifier ((hsame p hp).trans node) ((hsame q hq).trans text)
  | @string _ q _ _ node text =>
    have hq := (hs.texts p _ q hp node rfl).1
    exact .string ((hsame p hp).trans node) ((hsame q hq).trans text)
  | number node => exact .number ((hsame p hp).trans node)
  | boolean node => exact .boolean ((hsame p hp).trans node)
  | function node list =>
    exact .function ((hsame p hp).trans node)
      (list.restrict hs (hs.parameters p _ _ _ hp node rfl) hsame)

theorem DenotesList.restrict {p : Option Ptr} {ts : List Term} (hd : DenotesList nodes h.cells p ts)
    (hs : SoundCells machine h) (hp : Value h p)
    (hsame : ∀ q, h.heap = some q.heap → cells q = h.cells q) : DenotesList nodes cells p ts := by
  cases hd with
  | nil => exact .nil
  | @cons q u t rest node apart head tail =>
    have hq := (hp q rfl).1
    exact .cons ((hsame q hq).trans node) apart (head.restrict hs hq hsame)
      (tail.restrict hs (hs.nexts q u hq node (head.not_var node)) hsame)

end

theorem ValueDenotes.restrict {p : Option Ptr} {t : Option Term}
    (hd : ValueDenotes nodes h.cells p t) (hs : SoundCells machine h) (hp : Value h p)
    (hsame : ∀ q, h.heap = some q.heap → cells q = h.cells q) : ValueDenotes nodes cells p t := by
  cases hd with
  | null => exact .null
  | @term q t hd => exact .term (hd.restrict hs (hp q rfl).1 hsame)

theorem entries_restrict {l : List Entry} {vars : List Variable}
    (hentries : List.Forall₂ (EntryDenotes nodes h.cells) l vars) (hs : SoundCells machine h)
    (hvalues : ∀ e ∈ l, Value h e.value) (hsame : ∀ q, h.heap = some q.heap → cells q = h.cells q) :
    List.Forall₂ (EntryDenotes nodes cells) l vars := by
  induction hentries with
  | nil => exact .nil
  | cons hhead _ ih =>
    exact .cons ⟨hhead.name, hhead.value.restrict hs (hvalues _ List.mem_cons_self) hsame⟩
      (ih fun e he => hvalues e (List.mem_cons_of_mem _ he))

/-- The old heap is freed. Nothing but the last result of the parser can still point there. -/
theorem Represents.freeHeap {s : State} (hr : Represents machine nodes h s) (hs : Sound machine h)
    {old : Nat} (hold : h.heap ≠ some old) :
    Holding machine nodes { h with cells := fun p => if p.heap = old then none else h.cells p } s := by
  obtain ⟨l, htable, hnames, hentries⟩ := hr.table
  obtain ⟨l', hl⟩ := hs.vars
  obtain rfl := htable.unique hl.table
  obtain ⟨k, hk⟩ := Option.isSome_iff_exists.mp hr.heap
  have hsame : ∀ q : Ptr, h.heap = some q.heap →
      (if q.heap = old then none else h.cells q) = h.cells q := by
    intro q hq
    rw [if_neg]
    rintro rfl
    exact hold hq
  refine ⟨hr.heap, (hs.freeHeap hold).packed, ⟨l', ?_, hnames, ?_⟩, hr.outside⟩
  · refine htable.restrict (hl.inside hs.toSoundCells hk) fun q hq => hsame q ?_
    rw [hk, hq]
  · exact entries_restrict hentries hs.toSoundCells hl.values hsame

/-- `term_gc_heap` on both sides, also when there has been no heap yet. -/
theorem follows_termGcHeap {s : State} {l : List Entry} (hlive : Live h)
    (htable : Table h.cells (if h.heap.isSome then h.vars else none) l)
    (hnames : (l.map Entry.name).Nodup)
    (hentries : List.Forall₂ (EntryDenotes [] h.cells) l s.vars) (houtside : Alike h.outside s)
    (hresult : ValueDenotes [] h.cells h.parserResult s.parserResult) (steps : Nat) :
    Refines Excused (termGcHeap machine steps) h NervesInitramfs.termGcHeap s
      (fun _ h' _ s' => Holding machine [] h' s' ∧ (h.heap = none → Represents machine [] h' s'))
      (Fails machine) := by
  let h0 : HeapState :=
    { h with mallocs := h.mallocs + 1, heap := some h.mallocs, heapIndex := 0, vars := none }
  have hget : (get : HeapInterp HeapState) h = .ok h h := rfl
  have hset : (set h0 : HeapInterp PUnit) h = .ok ⟨⟩ h0 := rfl
  have hget' : (get : Interp State) s = .ok s s := rfl
  have hset' : (set { s with vars := [] } : Interp PUnit) s = .ok ⟨⟩ { s with vars := [] } := rfl
  have hfresh : Sound machine h0 := sound_fresh hlive
  have hr : Represents machine [] h0 { s with vars := [] } :=
    ⟨⟨rfl, hfresh.packed, ⟨[], .nil, .nil, .nil⟩, houtside.congr rfl rfl rfl rfl⟩, hresult⟩
  rw [termGcHeap, NervesInitramfs.termGcHeap]
  refine refines_bind_left hget (refines_bind_left hset ?_)
  refine refines_bind_right hget' (refines_bind_right hset' ?_)
  have hcopy := follows_copyVariables htable hentries hnames hr (fun _ _ hq => hq)
    (fun _ _ => List.not_mem_nil) steps steps
  rw [← bind_pure (NervesInitramfs.copyVariables s.vars)]
  refine Refines.bind (hcopy.and_ensures (safe_copyVariables hfresh steps steps _)) ?_
  rintro _ h1 _ s1 ⟨hr1, hs1, hext, -⟩
  cases hheap : h.heap with
  | none => exact refines_pure ⟨hr1.toHolding, fun _ => hr1⟩
  | some old =>
    refine ⟨_, s1, rfl, hr1.freeHeap hs1 ?_, fun hnone => absurd hnone (Option.some_ne_none old)⟩
    rw [hext.heap]
    intro heq
    exact Nat.lt_irrefl _ ((Option.some.inj heq) ▸ hlive.heap old hheap)

end

/-! ## Runs -/

section

variable {machine : Machine} {h h' : HeapState} {s : State} (depth : Nat)

theorem Holding.withResult {nodes : List Ptr} (hr : Holding machine nodes h s) {p : Option Ptr}
    {t : Option Term} (hp : ValueDenotes nodes h.cells p t) :
    Represents machine nodes { h with parserResult := p } { s with parserResult := t } :=
  ⟨⟨hr.heap, ⟨hr.packed.aligned, hr.packed.full, hr.packed.bounded, hr.packed.apart⟩, hr.table,
    hr.outside.congr rfl rfl rfl rfl⟩, hp⟩

theorem Follows.represents {α β : Type} {m : HeapInterp α} {m' : Interp β}
    {post : α → HeapState → β → Prop} (hm : Follows machine [] m m' h s post) :
    Refines Excused m h m' s (fun _ h' _ s' => Represents machine [] h' s') (Fails machine) :=
  Refines.mono hm (fun _ _ _ _ hp => hp.1) fun _ _ _ _ hf => hf

/-- `term_gc_heap` on both sides, when there is a heap. -/
theorem Represents.termGcHeap (hr : Represents machine [] h s) (hs : Sound machine h) (steps : Nat) :
    Refines Excused (termGcHeap machine steps) h NervesInitramfs.termGcHeap s
      (fun _ h' _ s' => Holding machine [] h' s') (Fails machine) := by
  obtain ⟨l, htable, hnames, hentries⟩ := hr.table
  have hvars : Table h.cells (if h.heap.isSome then h.vars else none) l := by
    rwa [if_pos hr.heap]
  exact (follows_termGcHeap hs.live hvars hnames hentries hr.outside hr.result steps).mono
    (fun _ _ _ _ hh => hh.1) fun _ _ _ _ hf => hf

/-- An input on the one side is followed by the same on the other. -/
theorem follows_evalInput (i : Input) (hr : Represents machine [] h s) (hs : Sound machine h) :
    Refines Excused (evalInput machine depth i) h (NervesInitramfs.evalInput machine depth i) s
      (fun _ h' _ s' => Represents machine [] h' s') (Fails machine) := by
  cases i with
  | start =>
    refine Refines.bind (hr.termGcHeap hs depth) ?_
    intro _ h1 _ s1 hh1
    exact ⟨(), _, rfl, hh1.withResult .null⟩
  | statement statement =>
    refine Refines.bind (follows_evalStatement depth statement hr) ?_
    rintro p h1 t s1 ⟨hr1, -, hp⟩
    exact ⟨(), _, rfl, hr1.toHolding.withResult hp⟩
  | syntaxError parts =>
    exact (follows_evalFragments depth parts hr).represents
  | printResult =>
    have hprint : Follows machine [] (evalInput machine depth .printResult)
        (NervesInitramfs.evalInput machine depth .printResult) h s fun _ _ _ => True := by
      refine follows_left (a := h) rfl (follows_right (v := s) rfl ?_)
      have hresult := hr.result
      generalize h.parserResult = p at hresult
      generalize s.parserResult = t at hresult
      cases hresult with
      | null => exact follows_pure hr trivial
      | term hd =>
        refine (follows_stringOf (follows_termResolve machine depth) depth hr (.term hd)).bind ?_
        rintro str h1 _ s1 hr1 - rfl
        exact (follows_outside (indifferent_record _) hr1).mono fun _ _ _ _ _ => trivial
    exact hprint.represents

theorem Step.simulated {i : Input} (hstep : Step machine i h h') (hr : Represents machine [] h s)
    (hs : Ready machine h) :
    ∃ s', NervesInitramfs.Step machine i s s' ∧ Represents machine [] h' s' ∧ Ready machine h' := by
  have hready := hstep.ready hs
  obtain ⟨depth, hok | herror⟩ := hstep
  · obtain ⟨_, s', hrun, hr'⟩ := (follows_evalInput depth i hr hs.toSound).ok hok
    exact ⟨s', ⟨depth, .inl hrun⟩, hr', hready⟩
  · rcases (follows_evalInput depth i hr hs.toSound).error herror with hexcused | hfails
    · rcases hexcused with heq | heq
      · cases heq
      · cases heq
    · obtain ⟨e, s', hrun, hf⟩ := hfails
      obtain rfl : e = .parseError := (HeapStop.stop.inj hf.stop).symm
      exact ⟨s', ⟨depth, .inr hrun⟩, hf.goesOn rfl, hready⟩

/-! ## Booting -/

theorem follows_setParameter (arg : CString) (hr : Represents machine [] h s) :
    Follows machine [] (setParameter machine depth arg) (NervesInitramfs.setParameter arg) h s
      fun _ _ _ => True := by
  unfold setParameter NervesInitramfs.setParameter
  split
  · exact follows_pure hr trivial
  · simp only
    cases arg.bytes.dropWhile (· ≠ 61) with
    | nil => exact follows_setBooleanVariable hr depth _ true
    | cons _ value => exact follows_setStringVariable hr depth _ _

theorem indifferent_setArgv (i : Nat) (arg : CString) :
    Indifferent (modify fun s => { s with argv := s.argv.set i arg } : Interp PUnit) :=
  indifferent_modify (fun _ _ ha => ⟨ha.env, ha.world, ha.log, congrArg (·.set i arg) ha.argv⟩)
    (fun _ => rfl) fun _ => rfl

theorem follows_setParameters (turns i : Nat) (hr : Represents machine [] h s) :
    Follows machine [] (setParameters machine depth turns i)
      (NervesInitramfs.setParameters turns i) h s fun _ _ _ => True := by
  induction turns generalizing h s i with
  | zero => exact follows_pure hr trivial
  | succ turns ih =>
    have hturn : Follows machine [] (scanParameter machine depth i)
        (NervesInitramfs.scanParameter i) h s fun _ _ _ => True := by
      unfold scanParameter NervesInitramfs.scanParameter
      refine follows_left rfl ?_
      refine follows_right (show (get : Interp State) s = .ok s s from rfl) ?_
      rw [hr.outside.argv]
      cases s.argv[i]? with
      | none => exact follows_throw hr .nullDereference
      | some arg =>
        refine (follows_outside (indifferent_setArgv i (parameterAfter arg)) hr).bind ?_
        intro _ h1 _ s1 hr1 _ _
        exact follows_setParameter depth arg hr1
    refine hturn.bind ?_
    intro _ h1 _ s1 hr1 _ _
    exact ih (i + 1) hr1

theorem follows_initializeScriptDefaults (argv : List CString) (world : World) :
    Refines Excused (initializeScriptDefaults machine depth) (.boot argv world)
      NervesInitramfs.initializeScriptDefaults (State.boot argv world)
      (fun _ h' _ s' => Represents machine [] h' s') (Fails machine) := by
  refine Refines.bind (follows_termGcHeap (live_boot argv world) .nil List.nodup_nil .nil
    (Alike.refl (State.boot argv world)) .null depth) ?_
  rintro _ h0 _ s0 ⟨-, hr⟩
  have hr0 := hr rfl
  refine Follows.represents (?_ : Follows machine [] _ _ h0 s0 fun _ _ _ => True)
  have henv : Indifferent (modify fun s => { s with workingUbootEnv := ubootEnvInit } : Interp Unit) :=
    indifferent_setEnv ubootEnvInit
  refine (follows_outside henv hr0).bind ?_
  intro _ h1 _ s1 hr1 _ _
  refine (follows_setStringVariable hr1 depth _ _).bind ?_
  intro _ h2 _ s2 hr2 _ _
  refine (follows_setStringVariable hr2 depth _ _).bind ?_
  intro _ h3 _ s3 hr3 _ _
  refine (follows_setBooleanVariable hr3 depth _ _).bind ?_
  intro _ h4 _ s4 hr4 _ _
  refine (follows_setStringVariable hr4 depth _ _).bind ?_
  intro _ h5 _ s5 hr5 _ _
  refine (follows_setStringVariable hr5 depth _ _).bind ?_
  intro _ h6 _ s6 hr6 _ _
  refine (follows_setStringVariable hr6 depth _ _).bind ?_
  intro _ h7 _ s7 hr7 _ _
  refine (follows_setBooleanVariable hr7 depth _ _).bind ?_
  intro _ h8 _ s8 hr8 _ _
  refine (follows_setBooleanVariable hr8 depth _ _).bind ?_
  intro _ h9 _ s9 hr9 _ _
  refine (follows_setNumberVariable hr9 depth _ _).bind ?_
  intro _ h10 _ s10 hr10 _ _
  refine (follows_setNumberVariable hr10 depth _ _).bind ?_
  intro _ h11 _ s11 hr11 _ _
  refine (follows_setBooleanVariable hr11 depth _ _).bind ?_
  intro _ h12 _ s12 hr12 _ _
  refine follows_left rfl ?_
  refine follows_right (show (get : Interp State) _ = .ok _ _ from rfl) ?_
  rw [hr12.outside.argv]
  exact follows_setParameters depth _ 1 hr12

end

theorem runsTo_of_evalInputs {machine : Machine} {depth : Nat} {inputs : List Input}
    {h h' : HeapState} (hrun : evalInputs machine depth inputs h = .ok () h') :
    RunsTo (Step machine) h inputs h' := by
  induction inputs generalizing h with
  | nil =>
    cases hrun
    exact .nil _
  | cons i rest ih =>
    obtain ⟨_, h1, hstep, hrest⟩ := bind_eq_ok.mp hrun
    exact .cons ⟨depth, Or.inl hstep⟩ (ih hrest)

/-- Whether a computation returns. -/
def returns {α : Type} (m : HeapInterp α) (h : HeapState) : Bool :=
  match m h with
  | .ok _ _ => true
  | .error _ _ => false

theorem ok_of_returns {α : Type} {m : HeapInterp α} {h : HeapState} (hm : returns m h = true) :
    ∃ a h', m h = .ok a h' := by
  unfold returns at hm
  cases hrun : m h with
  | ok a h' => exact ⟨a, h', rfl⟩
  | error e h' =>
    rw [hrun] at hm
    cases hm

/-- Variables are set, one of them to a sum, and the heap is collected. -/
def followedScript : List Input :=
  [.statement (.action (.assignment letterX (.number 10 (text "1")))), .printResult, .start,
    .statement (.action (.assignment letterU (.add (.identifier letterX) (.number 10 (text "2"))))),
    .start]

end NervesInitramfs.TermHeap
