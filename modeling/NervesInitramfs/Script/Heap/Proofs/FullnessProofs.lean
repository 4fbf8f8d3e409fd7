import NervesInitramfs.CLib.Blocks
import NervesInitramfs.Script.Heap.Proofs.RunProofs
import NervesInitramfs.Script.Proofs.StoreProofs

/-!
# Proofs: how full the heap is after collecting

The variables, their names, their values and the strings of those are in blocks of their own. As
long as no two variables have the same term for their value, the copies of these blocks need no more
than the blocks themselves.
-/

namespace NervesInitramfs.TermHeap

open CLib

/-! ## Blocks of the heap -/

/-- The size of the block at an address. -/
def sizeAt (machine : Machine) (cells : Ptr → Option Cell) (p : Ptr) : Nat :=
  match cells p with
  | some c => c.size machine
  | none => 0

/-- The string that the term at an address owns. -/
def textOf (cells : Ptr → Option Cell) (p : Ptr) : Option Ptr :=
  match cells p with
  | some (.term t) => t.data.text?
  | _ => none

/-- A term and the string that it owns. -/
def blocksOf (cells : Ptr → Option Cell) (p : Ptr) : List Ptr := p :: (textOf cells p).toList

/-- There is a term at the address in the current heap. -/
def TermAt (s : HeapState) (p : Ptr) : Prop :=
  s.heap = some p.heap ∧ ∃ t, s.cells p = some (.term t)

/-- What a term takes up with its string. -/
def weight (machine : Machine) (cells : Ptr → Option Cell) (p : Ptr) : Nat :=
  ((blocksOf cells p).map (sizeAt machine cells)).sum

section

variable {machine : Machine} {s : HeapState}

/-- Different blocks of the heap take up no more than what is allocated. -/
theorem Packed.sum_sizeAt_le (hp : Packed machine s) {l : List Ptr} (hl : l.Nodup)
    (hin : ∀ p ∈ l, s.heap = some p.heap ∧ ∃ c, s.cells p = some c) :
    (l.map (sizeAt machine s.cells)).sum ≤ s.heapIndex := by
  have hsize : ∀ {p c}, s.cells p = some c → sizeAt machine s.cells p = c.size machine := by
    intro p c hc
    rw [sizeAt, hc]
  have hapart : l.Pairwise (Apart Ptr.offset (sizeAt machine s.cells)) := by
    refine hl.imp_of_mem fun {p q} hpl hql hne => ?_
    obtain ⟨hph, c, hc⟩ := hin p hpl
    obtain ⟨hqh, d, hd⟩ := hin q hql
    unfold Apart
    rw [hsize hc, hsize hd]
    rcases Nat.lt_trichotomy p.offset q.offset with hlt | heq | hlt
    · exact Or.inl (hp.apart p q c d hc hd hph.symm hqh.symm hlt)
    · have hheap : p.heap = q.heap := Option.some.inj (hph.symm.trans hqh)
      refine absurd ?_ hne
      cases p
      cases q
      simp only at heq hheap
      rw [heq, hheap]
    · exact Or.inr (hp.apart q p d c hd hc hqh.symm hph.symm hlt)
  refine sum_size_le hapart fun p hpl => ?_
  obtain ⟨hph, c, hc⟩ := hin p hpl
  rw [hsize hc]
  exact hp.bounded p c hc hph.symm

theorem textOf_eq {p : Ptr} {t : HeapTerm} (h : s.cells p = some (.term t)) :
    textOf s.cells p = t.data.text? := by
  rw [textOf, h]

/-- What the blocks of a term are. -/
theorem SoundCells.mem_blocksOf (hs : SoundCells machine s) {p q : Ptr} (hp : TermAt s p)
    (hq : q ∈ blocksOf s.cells p) : q = p ∨ textOf s.cells p = some q ∧
      s.heap = some q.heap ∧ ∃ str, s.cells q = some (.text str) := by
  obtain ⟨hheap, t, ht⟩ := hp
  rcases List.mem_cons.mp hq with rfl | hq
  · exact Or.inl rfl
  · rw [Option.mem_toList] at hq
    have htext : textOf s.cells p = some q := hq
    refine Or.inr ⟨htext, hs.texts p t q hheap ht ?_⟩
    rw [← textOf_eq ht, htext]

/-- Two terms share no block. -/
theorem SoundCells.disjoint_blocksOf (hs : SoundCells machine s) {p p' : Ptr} (hp : TermAt s p)
    (hp' : TermAt s p') (hne : p ≠ p') : (blocksOf s.cells p).Disjoint (blocksOf s.cells p') := by
  intro q hq hq'
  obtain ⟨hheap, t, ht⟩ := hp
  obtain ⟨hheap', t', ht'⟩ := hp'
  rcases hs.mem_blocksOf ⟨hheap, t, ht⟩ hq with rfl | ⟨htext, -, str, hstr⟩
  · rcases hs.mem_blocksOf ⟨hheap', t', ht'⟩ hq' with rfl | ⟨-, -, str, hstr⟩
    · exact hne rfl
    · rw [ht] at hstr
      cases hstr
  · rcases hs.mem_blocksOf ⟨hheap', t', ht'⟩ hq' with rfl | ⟨htext', -, -⟩
    · rw [ht'] at hstr
      cases hstr
    · rw [textOf_eq ht] at htext
      rw [textOf_eq ht'] at htext'
      exact hne (hs.owned p p' t t' q hheap hheap' ht ht' htext htext')

theorem SoundCells.nodup_blocksOf (hs : SoundCells machine s) {p : Ptr} (hp : TermAt s p) :
    (blocksOf s.cells p).Nodup := by
  have hnodup : (textOf s.cells p).toList.Nodup := by
    cases textOf s.cells p with
    | none => exact List.nodup_nil
    | some q => exact List.nodup_singleton q
  refine List.nodup_cons.mpr ⟨fun hmem => ?_, hnodup⟩
  rw [Option.mem_toList] at hmem
  obtain ⟨hheap, t, ht⟩ := hp
  have htext : t.data.text? = some p := (textOf_eq ht).symm.trans hmem
  obtain ⟨-, str, hstr⟩ := hs.texts p t p hheap ht htext
  rw [ht] at hstr
  cases hstr

theorem sum_weight (l : List Ptr) : (l.map (weight machine s.cells)).sum =
    ((l.flatMap (blocksOf s.cells)).map (sizeAt machine s.cells)).sum := by
  induction l with
  | nil => rfl
  | cons p l ih =>
    rw [List.flatMap_cons, List.map_append, List.sum_append, List.map_cons, List.sum_cons, ih]
    rfl

/-- Different terms take up no more than what is allocated. -/
theorem SoundCells.sum_weight_le (hs : SoundCells machine s) {l : List Ptr} (hl : l.Nodup)
    (hterms : ∀ p ∈ l, TermAt s p) : (l.map (weight machine s.cells)).sum ≤ s.heapIndex := by
  have hnodup : (l.flatMap (blocksOf s.cells)).Nodup := by
    rw [List.nodup_flatMap]
    refine ⟨fun p hp => hs.nodup_blocksOf (hterms p hp), ?_⟩
    exact hl.imp_of_mem fun hp hq hne =>
      hs.disjoint_blocksOf (hterms _ hp) (hterms _ hq) hne
  rw [sum_weight]
  refine hs.packed.sum_sizeAt_le hnodup fun q hq => ?_
  obtain ⟨p, hp, hq⟩ := List.mem_flatMap.mp hq
  rcases hs.mem_blocksOf (hterms p hp) hq with rfl | ⟨-, hheap, str, hstr⟩
  · obtain ⟨hheap, t, ht⟩ := hterms q hp
    exact ⟨hheap, _, ht⟩
  · exact ⟨hheap, _, hstr⟩

theorem weight_owner {p q : Ptr} {t : HeapTerm} {str : CString} (ht : s.cells p = some (.term t))
    (htext : t.data.text? = some q) (hstr : s.cells q = some (.text str)) :
    weight machine s.cells p = termSize machine + textSize str := by
  have hblocks : blocksOf s.cells p = [p, q] := by
    rw [blocksOf, textOf_eq ht, htext]
    rfl
  have hp : sizeAt machine s.cells p = termSize machine := by
    rw [sizeAt, ht]
    rfl
  have hq : sizeAt machine s.cells q = textSize str := by
    rw [sizeAt, hstr]
    rfl
  rw [weight, hblocks, List.map_cons, List.map_cons, List.map_nil, hp, hq]
  rfl

theorem termSize_le_weight {p : Ptr} {t : HeapTerm} (ht : s.cells p = some (.term t)) :
    termSize machine ≤ weight machine s.cells p := by
  have hp : sizeAt machine s.cells p = termSize machine := by
    rw [sizeAt, ht]
    rfl
  rw [weight, blocksOf, List.map_cons, List.sum_cons, hp]
  exact Nat.le_add_right _ _

end

/-! ## Variables and their values -/

section

variable {machine : Machine} {s : HeapState} {l : List Entry}

/-- A copy of a term takes up no more than the term. -/
theorem SoundCells.copySize_le (hs : SoundCells machine s) {p : Ptr} (hp : TermAt s p) :
    copySize machine (contentAt s.cells p) ≤ weight machine s.cells p := by
  obtain ⟨hheap, t, ht⟩ := hp
  rw [contentAt_eq ht]
  cases hdata : t.data with
  | identifier q | string q =>
    have htext : t.data.text? = some q := by
      rw [hdata]
      rfl
    obtain ⟨-, str, hstr⟩ := hs.texts p t q hheap ht htext
    rw [weight_owner ht htext hstr, TermData.content, stringAt_eq.mpr hstr]
    exact Nat.le_refl _
  | number _ | boolean _ => exact termSize_le_weight ht
  | function _ _ | var _ _ => exact Nat.zero_le _

/-- No variable is `NULL`, and no two variables have the same term for their value. -/
def Unshared (s : HeapState) : Prop :=
  ∀ l, Table s.cells s.vars l → (∀ e ∈ l, e.value ≠ none) ∧ (l.map Entry.value).Nodup

/-- The variables and their values, each counted once. -/
def owners (l : List Entry) : List Ptr := l.map Entry.node ++ l.filterMap Entry.value

theorem Variables.node_term (hl : Variables s l) {e : Entry} (he : e ∈ l) :
    ∃ t, s.cells e.node = some (.term t) ∧ t.data = .var e.namePtr e.value := by
  obtain ⟨next, hnode⟩ := hl.table.node_eq he
  exact ⟨_, hnode, rfl⟩

theorem Variables.nodup_nodes (hl : Variables s l) : (l.map Entry.node).Nodup := by
  rw [List.Nodup, List.pairwise_map]
  have hnames := hl.names
  rw [List.Nodup, List.pairwise_map] at hnames
  refine hnames.imp_of_mem fun {e e'} he he' hne heq => hne ?_
  -- A variable is where its name is, so two variables at one address have one name.
  obtain ⟨t, ht, hdata⟩ := hl.node_term he
  obtain ⟨t', ht', hdata'⟩ := hl.node_term he'
  rw [heq, ht'] at ht
  obtain rfl := Cell.term.inj (Option.some.inj ht)
  have hptr : e'.namePtr = e.namePtr := (TermData.var.inj (hdata'.symm.trans hdata)).1
  have htext := hl.table.text_eq he
  rw [← hptr, hl.table.text_eq he'] at htext
  exact (Cell.text.inj (Option.some.inj htext)).symm

theorem Variables.owners_nodup (hl : Variables s l) (hvalues : (l.map Entry.value).Nodup) :
    (owners l).Nodup := by
  have hvalues' : (l.filterMap Entry.value).Nodup := by
    have hmap : l.filterMap Entry.value = (l.map Entry.value).filterMap id := by
      rw [List.filterMap_map]
      rfl
    rw [hmap]
    refine hvalues.filterMap ?_
    rintro v v' p rfl rfl
    rfl
  refine List.nodup_append.mpr ⟨hl.nodup_nodes, hvalues', ?_⟩
  rintro _ hp q hq rfl
  obtain ⟨e, he, rfl⟩ := List.mem_map.mp hp
  obtain ⟨e', he', hvalue⟩ := List.mem_filterMap.mp hq
  obtain ⟨t, ht, hdata⟩ := hl.node_term he
  obtain ⟨-, u, hu, hplain⟩ := hl.values e' he' _ hvalue
  rw [ht] at hu
  obtain rfl := Cell.term.inj (Option.some.inj hu)
  rw [hdata] at hplain
  cases hplain

theorem Variables.owners_terms (hl : Variables s l) : ∀ p ∈ owners l, TermAt s p := by
  intro p hp
  rcases List.mem_append.mp hp with hp | hp
  · obtain ⟨e, he, rfl⟩ := List.mem_map.mp hp
    obtain ⟨t, ht, -⟩ := hl.node_term he
    exact ⟨hl.nodes e he, t, ht⟩
  · obtain ⟨e, he, hvalue⟩ := List.mem_filterMap.mp hp
    obtain ⟨hheap, t, ht, -⟩ := hl.values e he p hvalue
    exact ⟨hheap, t, ht⟩

theorem Variables.sum_entrySize_le (hs : SoundCells machine s) (hl : Variables s l) :
    ((l.map (Entry.content s.cells)).map (entrySize machine)).sum ≤
      ((owners l).map (weight machine s.cells)).sum := by
  have hnode : ∀ e ∈ l, weight machine s.cells e.node = termSize machine + textSize e.name := by
    intro e he
    obtain ⟨t, ht, hdata⟩ := hl.node_term he
    exact weight_owner ht (by rw [hdata]; rfl) (hl.table.text_eq he)
  have hvalue : ∀ e ∈ l, ∀ p, e.value = some p →
      copySize machine (contentAt s.cells p) ≤ weight machine s.cells p := by
    intro e he p hp
    obtain ⟨hheap, t, ht, -⟩ := hl.values e he p hp
    exact hs.copySize_le ⟨hheap, t, ht⟩
  clear hl
  unfold owners
  rw [List.map_append, List.sum_append]
  induction l with
  | nil => exact Nat.le_refl _
  | cons e l ih =>
    have hrest := ih (fun e' he' => hnode e' (List.mem_cons_of_mem _ he'))
      fun e' he' => hvalue e' (List.mem_cons_of_mem _ he')
    have hhead := hnode e List.mem_cons_self
    have hentry : entrySize machine (e.content s.cells) = termSize machine + textSize e.name +
        copySize machine (e.value.bind (contentAt s.cells)) := rfl
    simp only [List.map_cons, List.sum_cons, hentry]
    cases hv : e.value with
    | none =>
      rw [List.filterMap_cons_none hv, hhead]
      have hzero : copySize machine ((none : Option Ptr).bind (contentAt s.cells)) = 0 := rfl
      omega
    | some p =>
      have hcopy := hvalue e List.mem_cons_self p hv
      have hbind : copySize machine ((some p).bind (contentAt s.cells)) =
          copySize machine (contentAt s.cells p) := rfl
      rw [List.filterMap_cons_some hv, List.map_cons, List.sum_cons, hhead, hbind]
      omega

/-- What is copied fits in the place of what is there. -/
theorem Sound.contents_fit (hs : Sound machine s) (hl : Variables s l)
    (hvalues : (l.map Entry.value).Nodup) :
    ((l.map (Entry.content s.cells)).map (entrySize machine)).sum ≤ s.heapIndex :=
  Nat.le_trans (hl.sum_entrySize_le hs.toSoundCells)
    (hs.toSoundCells.sum_weight_le (hl.owners_nodup hvalues) hl.owners_terms)

theorem Variables.readable (hs : SoundCells machine s) (hl : Variables s l)
    (hset : ∀ e ∈ l, e.value ≠ none) : ∀ e ∈ l, e.Readable s.cells := by
  intro e he
  obtain ⟨p, hp⟩ := Option.ne_none_iff_exists'.mp (hset e he)
  obtain ⟨hheap, t, ht, -⟩ := hl.values e he p hp
  refine ⟨p, t, hp, ht, fun q hq => ?_⟩
  exact (hs.texts p t q hheap ht (TermData.text?_of_string? hq)).2

/-! ## Collecting -/

/-- Wherever the interpreter comes to, the heap is collected and gets no fuller, if no variable is
`NULL` and no two variables share their value. -/
theorem collecting_makes_room (hs : Reachable machine s) (hunshared : Unshared s) :
    ∃ n, ∀ steps ≥ n, ∃ s1, termGcHeap machine steps s = .ok () s1 ∧ s1.heapIndex ≤ s.heapIndex := by
  have hsound := hs.ready.toSound
  obtain ⟨l, hl⟩ := hsound.vars
  obtain ⟨hset, hvalues⟩ := hunshared l hl.table
  have hfit := hsound.contents_fit hl hvalues
  refine ⟨l.length, fun steps hsteps => ?_⟩
  have hgc := termGcHeap_ensures machine hsound.heap hsound.live hl.table
    (hl.readable hsound.toSoundCells hset) hl.names hsteps
  cases hrun : termGcHeap machine steps s with
  | ok u s1 =>
    refine ⟨s1, rfl, ?_⟩
    rw [(hgc.ok hrun).index]
    exact hfit
  | error e s1 =>
    obtain ⟨-, hfull⟩ := hgc.error hrun
    have := hsound.packed.full
    omega

end

/-! ## Scripts -/

/-- The inputs one after the other. -/
def evalInputs (machine : Machine) (depth : Nat) : List Input → HeapInterp Unit
  | [] => pure ()
  | i :: rest => do
    evalInput machine depth i
    evalInputs machine depth rest

theorem run_of_evalInputs {machine : Machine} {depth : Nat} {inputs : List Input} {s s' : HeapState}
    (h : evalInputs machine depth inputs s = .ok () s') :
    Relation.ReflTransGen (fun s s' => ∃ i, Step machine i s s') s s' := by
  induction inputs generalizing s with
  | nil =>
    cases h
    exact .refl
  | cons i rest ih =>
    obtain ⟨_, s1, hstep, hrest⟩ := bind_eq_ok.mp h
    exact .head ⟨i, depth, Or.inl hstep⟩ (ih hrest)

/-- The variables that a pointer leads to, if they are a list of at most this length. -/
def tableOf (cells : Ptr → Option Cell) : Nat → Option Ptr → Option (List Entry)
  | _, none => some []
  | 0, some _ => none
  | n + 1, some p =>
    match cells p with
    | some (.term ⟨.var namePtr value, next⟩) =>
      match cells namePtr with
      | some (.text name) => (tableOf cells n next).map (⟨p, namePtr, name, value⟩ :: ·)
      | _ => none
    | _ => none

theorem table_of_tableOf {cells : Ptr → Option Cell} {n : Nat} {p : Option Ptr} {l : List Entry}
    (h : tableOf cells n p = some l) : Table cells p l := by
  induction n generalizing p l with
  | zero =>
    cases p with
    | none =>
      obtain rfl := Option.some.inj h
      exact .nil
    | some q => cases h
  | succ n ih =>
    cases p with
    | none =>
      obtain rfl := Option.some.inj h
      exact .nil
    | some q =>
      rw [tableOf] at h
      split at h
      · rename_i namePtr value next hnode
        split at h
        · rename_i name htext
          obtain ⟨rest, hrest, rfl⟩ := Option.map_eq_some_iff.mp h
          exact .cons hnode htext (ih hrest)
        · cases h
      · cases h

theorem Table.unique {cells : Ptr → Option Cell} {p : Option Ptr} {l l' : List Entry}
    (h : Table cells p l) (h' : Table cells p l') : l' = l := by
  induction h generalizing l' with
  | nil =>
    cases h'
    rfl
  | cons node text _ ih =>
    cases h' with
    | cons node' text' more' =>
      rw [node] at node'
      injection node' with hcell
      injection hcell with hterm
      injection hterm with hdata hnext
      injection hdata with hname hvalue
      subst hname hvalue hnext
      rw [text] at text'
      injection text' with hcell
      injection hcell with hname
      rw [hname, ih more']

/-- A test of the heap and the variables after the inputs. -/
def checkRun (world : World) (inputs : List Input) (test : HeapState → List Entry → Bool) : Bool :=
  match (initializeScriptDefaults plainMachine 40 >>= fun _ => evalInputs plainMachine 40 inputs)
      (.boot [] world) with
  | .ok _ s => ((tableOf s.cells 20 s.vars).map (test s)).getD false
  | .error _ _ => false

theorem exists_of_checkRun {world : World} {inputs : List Input} {test : HeapState → List Entry → Bool}
    (h : checkRun world inputs test = true) :
    ∃ s l, Reachable plainMachine s ∧ Table s.cells s.vars l ∧ test s l = true := by
  unfold checkRun at h
  cases hrun : (initializeScriptDefaults plainMachine 40 >>= fun _ =>
      evalInputs plainMachine 40 inputs) (.boot [] world) with
  | error e s =>
    rw [hrun] at h
    cases h
  | ok u s =>
    rw [hrun] at h
    obtain ⟨_, s0, hinit, hinputs⟩ := bind_eq_ok.mp hrun
    cases htable : tableOf s.cells 20 s.vars with
    | none =>
      simp only [htable] at h
      cases h
    | some l =>
      simp only [htable, Option.map_some, Option.getD_some] at h
      exact ⟨s, l, ⟨s0, ⟨40, [], world, hinit⟩, run_of_evalInputs hinputs⟩,
        table_of_tableOf htable, h⟩

theorem collecting_makes_room_started :
    ∃ s, Reachable plainMachine s ∧ ∃ n, ∀ steps ≥ n, ∃ s1,
      termGcHeap plainMachine steps s = .ok () s1 ∧ s1.heapIndex ≤ s.heapIndex := by
  have hcheck : checkRun plainWorld [.statement (.action (.assignment letterX (.boolean true)))]
      (fun _ l => decide ((∀ e ∈ l, e.value ≠ none) ∧ (l.map Entry.value).Nodup)) = true := by
    decide +kernel
  obtain ⟨s, l, hs, hl, htest⟩ := exists_of_checkRun hcheck
  refine ⟨s, hs, collecting_makes_room hs fun l' hl' => ?_⟩
  rw [hl.unique hl']
  exact of_decide_eq_true htest

/-- The identifiers `u`, `v`, `w` and `readfile`. -/
def letterU : Identifier := .ofString "u"
def letterV : Identifier := .ofString "v"
def letterW : Identifier := .ofString "w"
def wordReadfile : Identifier := .ofString "readfile"

/-- A world with a file of four kilobytes. -/
def fileWorld : World := ⟨[⟨true, 0, List.replicate 4133 97, [], [], 0⟩], fun _ _ => 0⟩

/-- A file is read into a variable, which is assigned to three others. -/
def sharingScript : List Input :=
  [.start,
    .statement (.action (.assignment letterX (.functionCall wordReadfile [.string (.ofString "/f")]))),
    .statement (.action (.assignment letterU (.identifier letterX))),
    .statement (.action (.assignment letterV (.identifier letterX))),
    .statement (.action (.assignment letterW (.identifier letterX)))]

/-- The four copies of the file do not fit in a heap, in which the four variables fitted. -/
theorem collecting_runs_out :
    (∃ s, Reachable plainMachine s ∧ ∃ n, ∀ steps ≥ n, ∃ s1,
        termGcHeap plainMachine steps s = .error .outOfHeap s1) ∧
      ¬ ∀ s, Reachable plainMachine s → ∃ n, ∀ steps ≥ n, ∃ s1,
        termGcHeap plainMachine steps s = .ok () s1 ∧ s1.heapIndex ≤ s.heapIndex := by
  have hcheck : checkRun fileWorld sharingScript (fun s l => decide ((∀ e ∈ l, e.value ≠ none) ∧
      heapSize < ((l.map (Entry.content s.cells)).map (entrySize plainMachine)).sum)) = true := by
    decide +kernel
  obtain ⟨s, l, hs, hl, htest⟩ := exists_of_checkRun hcheck
  obtain ⟨hset, hfull⟩ := of_decide_eq_true htest
  have hsound := hs.ready.toSound
  obtain ⟨l', hl'⟩ := hsound.vars
  obtain rfl := hl.unique hl'.table
  have hfails : ∀ steps ≥ l'.length, ∃ s1, termGcHeap plainMachine steps s = .error .outOfHeap s1 := by
    intro steps hsteps
    have hgc := termGcHeap_ensures plainMachine hsound.heap hsound.live hl
      (hl'.readable hsound.toSoundCells hset) hl'.names hsteps
    cases hrun : termGcHeap plainMachine steps s with
    | ok u s1 =>
      have hfits := (hgc.ok hrun).packed.full
      rw [(hgc.ok hrun).index] at hfits
      exact absurd hfits (Nat.not_le.mpr hfull)
    | error e s1 =>
      obtain ⟨rfl, -⟩ := hgc.error hrun
      exact ⟨s1, rfl⟩
  refine ⟨⟨s, hs, l'.length, hfails⟩, fun hall => ?_⟩
  obtain ⟨n, hn⟩ := hall s hs
  obtain ⟨s1, hok, -⟩ := hn (max n l'.length) (Nat.le_max_left ..)
  obtain ⟨s2, herror⟩ := hfails (max n l'.length) (Nat.le_max_right ..)
  rw [hok] at herror
  cases herror

end NervesInitramfs.TermHeap
