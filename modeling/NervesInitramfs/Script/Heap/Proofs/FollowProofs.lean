import NervesInitramfs.Script.Heap.Proofs.RefinementProofs

/-!
# Proofs: the functions on the heap follow those on trees

One lemma for each function, along the calls: a handler follows its counterpart if resolving a
parameter does.
-/

namespace NervesInitramfs.TermHeap

open CLib

/-- Resolving on the one side follows resolving on the other. -/
def FollowsResolve (machine : Machine) (resolve : Option Ptr → HeapInterp (Option Ptr))
    (resolve' : Option Term → Interp (Option Term)) : Prop :=
  ∀ nodes h s p t, Represents machine nodes h s → ValueDenotes nodes h.cells p t →
    Follows machine nodes (resolve p) (resolve' t) h s fun q h' u => ValueDenotes nodes h'.cells q u

section

variable {machine : Machine} {resolve : Option Ptr → HeapInterp (Option Ptr)}
  {resolve' : Option Term → Interp (Option Term)} (hres : FollowsResolve machine resolve resolve')
  {nodes : List Ptr} {h : HeapState} {s : State} (depth : Nat)

include hres

/-! ## Coercions -/

theorem follows_termToBoolean (hr : Represents machine nodes h s) {p : Option Ptr} {t : Option Term}
    (hp : ValueDenotes nodes h.cells p t) :
    Follows machine nodes (termToBoolean resolve p) (NervesInitramfs.termToBoolean resolve' t) h s
      fun b _ b' => b = b' := by
  refine (hres _ _ _ _ _ hr hp).bind ?_
  intro q h1 u s1 hr1 _ hq
  cases hq with
  | null => exact follows_null hr1
  | term hd =>
    cases hd with
    | string node text =>
      exact follows_left (deref_eq node) (follows_left (textAt_eq text) (follows_pure hr1 rfl))
    | identifier node _ | number node | boolean node | function node _ =>
      exact follows_left (deref_eq node) (follows_pure hr1 rfl)

theorem follows_termToNumber (hr : Represents machine nodes h s) {p : Option Ptr} {t : Option Term}
    (hp : ValueDenotes nodes h.cells p t) :
    Follows machine nodes (termToNumber resolve p) (NervesInitramfs.termToNumber resolve' t) h s
      fun n _ n' => n = n' := by
  refine (hres _ _ _ _ _ hr hp).bind ?_
  intro q h1 u s1 hr1 _ hq
  cases hq with
  | null => exact follows_null hr1
  | term hd =>
    cases hd with
    | string node text =>
      exact follows_left (deref_eq node) (follows_left (textAt_eq text) (follows_pure hr1 rfl))
    | identifier node _ | number node | boolean node | function node _ =>
      exact follows_left (deref_eq node) (follows_pure hr1 rfl)

omit hres in
theorem follows_newText (hr : Represents machine nodes h s) (value : CString) :
    Follows machine nodes (termToString.newText machine value) (pure value : Interp CString) h s
      fun p h' str => h'.cells p = some (.text str) := by
  refine Follows.alloc hr (allocTextTerm_allocates hr.heap hr.packed .string value) ?_
  rintro p h1 hr1 - ⟨-, q, hnode, htext⟩
  exact follows_left (deref_eq hnode) (follows_pure hr1 htext)

theorem follows_termToString (n : Nat) {h : HeapState} {s : State} (hr : Represents machine nodes h s)
    {p : Option Ptr} {t : Option Term} (hp : ValueDenotes nodes h.cells p t) :
    Follows machine nodes (termToString machine resolve depth n p)
      (NervesInitramfs.termToString resolve' n t) h s
      fun p h' str => h'.cells p = some (.text str) := by
  induction n generalizing h s p t with
  | zero => exact follows_outOfFuel
  | succ n ih =>
    refine (hres _ _ _ _ _ hr hp).bind ?_
    intro q h1 u s1 hr1 _ hq
    cases hq with
    | null => exact follows_null hr1
    | term hd =>
      cases hd with
      | string node text => exact follows_left (deref_eq node) (follows_pure hr1 text)
      | identifier node text =>
        refine follows_left (deref_eq node) (follows_left (textAt_eq text) ?_)
        refine (follows_getVariable hr1 depth _).bind ?_
        intro v h2 w s2 hr2 _ hv
        exact ih hr2 hv
      | number node => exact follows_left (deref_eq node) (follows_newText hr1 _)
      | boolean node => exact follows_left (deref_eq node) (follows_newText hr1 _)
      | function node _ => exact follows_left (deref_eq node) (follows_newText hr1 _)

theorem follows_stringOf (hr : Represents machine nodes h s) {p : Option Ptr} {t : Option Term}
    (hp : ValueDenotes nodes h.cells p t) :
    Follows machine nodes (stringOf machine resolve depth p)
      (NervesInitramfs.termToString resolve' depth t) h s fun str _ str' => str = str' := by
  rw [← bind_pure (NervesInitramfs.termToString resolve' depth t)]
  refine (follows_termToString hres depth depth hr hp).bind ?_
  intro q h1 str s1 hr1 _ hq
  rw [← bind_pure (textAt q)]
  exact follows_left (textAt_eq hq) (follows_pure hr1 rfl)

omit hres in
/-- A variable is looked up and its value used. -/
theorem follows_lookup {β β' : Type} (hr : Represents machine nodes h s) (name : CString)
    {found : Option Ptr → HeapInterp β} {found' : Option Term → Interp β'} {missing : HeapInterp β}
    {missing' : Interp β'} {post : β → HeapState → β' → Prop}
    (hfound : ∀ p t, ValueDenotes nodes h.cells p t →
      Follows machine nodes (found p) (found' t) h s post)
    (hmissing : Follows machine nodes missing missing' h s post) :
    Follows machine nodes (do
        match ← getVariableImpl depth name with
        | some (_, value) => found value
        | none => missing)
      (do
        match NervesInitramfs.getVariableImpl (← get).vars name with
        | some v => found' v.value
        | none => missing') h s post := by
  obtain ⟨l, htable, -, hentries⟩ := hr.table
  have hget : (get : Interp State) s = .ok s s := rfl
  refine follows_right hget
    (Refines.bind_ensures (getVariableImpl_lookedUp htable hentries depth name) ?_)
  rintro r h ⟨rfl, hlook⟩
  cases hlook with
  | found _ _ hv hvalue =>
    rw [hv]
    exact hfound _ _ hvalue
  | missing _ hv =>
    rw [hv]
    exact hmissing

theorem follows_getVariableAsString (hr : Represents machine nodes h s) (name : CString) :
    Follows machine nodes (getVariableAsString machine resolve depth name)
      (NervesInitramfs.getVariableAsString resolve' depth name) h s fun str _ str' => str = str' :=
  follows_lookup depth hr name (fun _ _ hp => follows_stringOf hres depth hr hp)
    (follows_pure hr rfl)

theorem follows_getVariableAsNumber (hr : Represents machine nodes h s) (name : CString) :
    Follows machine nodes (getVariableAsNumber resolve depth name)
      (NervesInitramfs.getVariableAsNumber resolve' name) h s fun n _ n' => n = n' :=
  follows_lookup depth hr name (fun _ _ hp => follows_termToNumber hres hr hp) (follows_pure hr rfl)

omit hres in
/-- The union holds the same on both sides. -/
theorem contentOf_eq {p : Ptr} {t : Term} (hp : Denotes nodes h.cells p t) :
    ∃ u, h.cells p = some (.term u) ∧ contentOf u.data h = .ok t.content h := by
  cases hp with
  | identifier node text | string node text =>
    exact ⟨_, node, bind_of_ok (textAt_eq text)⟩
  | number node | boolean node => exact ⟨_, node, rfl⟩
  | function node _ => exact ⟨_, node, rfl⟩

/-- Both operands are resolved, and then their kinds are looked at. -/
theorem follows_termCompare (hr : Represents machine nodes h s) {p q : Option Ptr}
    {t u : Option Term} (hp : ValueDenotes nodes h.cells p t) (hq : ValueDenotes nodes h.cells q u) :
    Follows machine nodes (termCompare machine resolve p q)
      (NervesInitramfs.termCompare machine resolve' t u) h s
      fun n _ n' => n = n' := by
  refine (hres _ _ _ _ _ hr hp).bind ?_
  intro p1 h1 t1 s1 hr1 hg1 hp1
  refine (hres _ _ _ _ _ hr1 (hq.keep hg1.keeps)).bind ?_
  intro q2 h2 u2 s2 hr2 hg2 hq2
  have hp2 := hp1.keep hg2.keeps
  cases hp2 with
  | null => exact follows_null hr2
  | term hd =>
    cases hd with
    | identifier node _ => exact follows_left (deref_eq node) (follows_pure hr2 rfl)
    | function node _ => exact follows_left (deref_eq node) (follows_pure hr2 rfl)
    | string node text =>
      refine follows_left (deref_eq node) ?_
      cases hq2 with
      | null => exact follows_null hr2
      | term hd' =>
        cases hd' with
        | string node' text' =>
          exact follows_left (deref_eq node') (follows_left (textAt_eq text)
            (follows_left (textAt_eq text') (follows_pure hr2 rfl)))
        | identifier node' _ | number node' | boolean node' | function node' _ =>
          exact follows_left (deref_eq node') (follows_throw hr2 _)
    | number node =>
      refine follows_left (deref_eq node) ?_
      cases hq2 with
      | null => exact follows_null hr2
      | term hd' =>
        obtain ⟨u, node', hcontent⟩ := contentOf_eq hd'
        exact follows_left (deref_eq node') (follows_left hcontent (follows_pure hr2 rfl))
    | boolean node =>
      refine follows_left (deref_eq node) ?_
      cases hq2 with
      | null => exact follows_null hr2
      | term hd' =>
        obtain ⟨u, node', hcontent⟩ := contentOf_eq hd'
        exact follows_left (deref_eq node') (follows_left hcontent (follows_pure hr2 rfl))

end

/-! ## Operators -/

section

variable {nodes : List Ptr} {cells : Ptr → Option Cell} {p : Option Ptr} {ts : List Term}

theorem DenotesList.head (hp : DenotesList nodes cells p ts) :
    ValueDenotes nodes cells p ts.head? := by
  cases hp with
  | nil => exact .null
  | cons _ _ head _ => exact .term head

theorem nextOf_eq {h : HeapState} {q : Ptr} {u : HeapTerm} (hq : h.cells q = some (.term u)) :
    nextOf (some q) h = .ok u.next h := by
  rw [nextOf, bind_of_ok (deref_eq hq)]
  rfl

/-- `parameters->next` -/
theorem follows_nextOf {machine : Machine} {h : HeapState} {s : State}
    (hr : Represents machine nodes h s) (hp : DenotesList nodes h.cells p ts) :
    Follows machine nodes (nextOf p) (next ts) h s fun q h' us => DenotesList nodes h'.cells q us := by
  cases hp with
  | nil => exact follows_null hr
  | cons node _ _ tail => exact follows_left (deref_eq node) (follows_pure hr tail)

end

section

variable {machine : Machine} {resolve : Option Ptr → HeapInterp (Option Ptr)}
  {resolve' : Option Term → Interp (Option Term)} (hres : FollowsResolve machine resolve resolve')
  {nodes : List Ptr} {h : HeapState} {s : State} (depth : Nat) {p : Option Ptr} {ts : List Term}

include hres

theorem follows_functionAssign (hr : Represents machine nodes h s)
    (hp : DenotesList nodes h.cells p ts) :
    Follows machine nodes (functionAssign machine resolve depth p)
      (NervesInitramfs.functionAssign resolve' ts) h s
      fun q h' u => ValueDenotes nodes h'.cells q u := by
  refine (follows_nextOf hr hp).bind ?_
  intro rest h1 us s1 hr1 hg1 hrest
  refine (hres _ _ _ _ _ hr1 hrest.head).bind ?_
  intro value h2 u s2 hr2 hg2 hvalue
  have hp2 := (hp.keep hg1.keeps).keep hg2.keeps
  cases hp2 with
  | nil => exact follows_null hr2
  | cons _ _ head _ =>
    cases head with
    | identifier node text =>
      refine follows_left (deref_eq node) (follows_left (textAt_eq text) ?_)
      refine (follows_setVariable hr2 hvalue depth _).bind ?_
      intro _ h3 _ s3 hr3 hg3 _
      exact follows_pure hr3 (hvalue.keep hg3.keeps)
    | string node _ | number node | boolean node | function node _ =>
      exact follows_left (deref_eq node) (follows_throw hr2 _)

/-- The operands of a sum or a difference. -/
theorem follows_operands (hr : Represents machine nodes h s) (hp : DenotesList nodes h.cells p ts)
    {make : Int32 → Int32 → Int32} :
    Follows machine nodes (do
        let a ← termToNumber resolve p
        let b ← termToNumber resolve (← nextOf p)
        let q ← termNewNumber machine (make a b)
        pure (some q))
      (do
        let a ← NervesInitramfs.termToNumber resolve' ts.head?
        let b ← NervesInitramfs.termToNumber resolve' (← next ts).head?
        pure (some (.number (make a b)))) h s fun q h' u => ValueDenotes nodes h'.cells q u := by
  refine (follows_termToNumber hres hr hp.head).bind ?_
  rintro a h1 _ s1 hr1 hg1 rfl
  refine (follows_nextOf hr1 (hp.keep hg1.keeps)).bind ?_
  intro rest h2 us s2 hr2 _ hrest
  refine (follows_termToNumber hres hr2 hrest.head).bind ?_
  rintro b h3 _ s3 hr3 _ rfl
  exact follows_newTerm hr3 (newNumber_denotes hr3 _)

/-! ## Printing -/

theorem follows_printParameters (n : Nat) {h : HeapState} {s : State}
    (hr : Represents machine nodes h s) {p : Option Ptr} {ts : List Term}
    (hp : DenotesList nodes h.cells p ts) :
    Follows machine nodes (printParameters machine resolve depth n p)
      (NervesInitramfs.printParameters resolve' depth ts) h s fun _ _ _ => True := by
  induction n generalizing h s p ts with
  | zero =>
    cases hp with
    | nil => exact follows_pure hr trivial
    | cons _ _ _ _ => exact follows_outOfFuel
  | succ n ih =>
    have hlist := hp
    cases hp with
    | nil => exact follows_pure hr trivial
    | cons node apart head tail =>
      refine (follows_stringOf hres depth hr (.term head)).bind ?_
      rintro str h1 _ s1 hr1 hg1 rfl
      refine (follows_outside (indifferent_record _) hr1).bind ?_
      intro _ h2 _ s2 hr2 hg2 _
      have hlist2 := (hlist.keep hg1.keeps).keep hg2.keeps
      cases hlist2 with
      | cons node2 _ _ tail2 => exact follows_left (nextOf_eq node2) (ih hr2 tail2)

theorem follows_functionPrint (hr : Represents machine nodes h s)
    (hp : DenotesList nodes h.cells p ts) :
    Follows machine nodes (functionPrint machine resolve depth p)
      (NervesInitramfs.functionPrint resolve' depth ts) h s
      fun q h' u => ValueDenotes nodes h'.cells q u := by
  refine (follows_printParameters hres depth depth hr hp).bind ?_
  intro _ h1 _ s1 hr1 _ _
  refine (follows_outside (indifferent_printed _) hr1).bind ?_
  intro _ h2 _ s2 hr2 _ _
  exact follows_pure hr2 .null

end

end NervesInitramfs.TermHeap
