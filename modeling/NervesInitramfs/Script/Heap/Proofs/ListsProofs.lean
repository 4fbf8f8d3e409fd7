import NervesInitramfs.Script.Heap.Lists
import NervesInitramfs.Script.Heap.Proofs.CalmProofs
import NervesInitramfs.Script.Heap.Proofs.FullnessProofs
import NervesInitramfs.Script.Proofs.StoreProofs

/-!
# Proofs: the lists of terms

Every node that the actions of the grammar link into a list is new, and its `next` is `NULL` until it
is linked. So a list ends, no node is in two lists, and storing a `next` changes one list only.
-/

namespace NervesInitramfs.TermHeap

open CLib

/-! ## New nodes -/

/-- At the address is a term that is no variable. -/
def NodeAt (cells : Ptr → Option Cell) (p : Ptr) : Prop :=
  ∃ t, cells p = some (.term t) ∧ t.data.isVar = false

/-- The nodes have come into the heap on the way from `s` to `s'`, and no two of them are the same. -/
structure New (machine : Machine) (s s' : HeapState) (nodes : List Ptr) : Prop where
  grows : Grows machine [] s s'
  nodup : nodes.Nodup
  fresh : ∀ p ∈ nodes, s.cells p = none
  there : ∀ p ∈ nodes, NodeAt s'.cells p

/-- A new list, and the new lists in it: all of them end, and no node is in two of them. -/
structure Lists (machine : Machine) (s s' : HeapState) (first : Option Ptr) (nodes : List Ptr)
    (lists : List (List Ptr)) : Prop where
  chain : Chain s'.cells first nodes
  new : New machine s s' (nodes ++ lists.flatten)

section

variable {machine : Machine} {s s1 s2 s3 : HeapState} {nodes nodes' : List Ptr} {p : Ptr}
  {cells cells' : Ptr → Option Cell}

theorem Keeps.node (hk : Keeps nodes cells cells') (h : NodeAt cells p) : NodeAt cells' p := by
  obtain ⟨t, ht, hplain⟩ := h
  obtain ⟨next, ht', -⟩ := hk.terms p t ht hplain
  exact ⟨_, ht', hplain⟩

theorem New.nil (hg : Grows machine [] s s1) : New machine s s1 [] := ⟨hg, .nil, nofun, nofun⟩

theorem New.append (h : New machine s s1 nodes) (h' : New machine s1 s2 nodes') :
    New machine s s2 (nodes ++ nodes') := by
  refine ⟨h.grows.trans h'.grows, List.nodup_append.mpr ⟨h.nodup, h'.nodup, ?_⟩, ?_, ?_⟩
  · rintro a ha _ hb rfl
    obtain ⟨t, ht, -⟩ := h.there a ha
    rw [h'.fresh a hb] at ht
    exact nomatch ht
  · intro a ha
    rcases List.mem_append.mp ha with ha | ha
    · exact h.fresh a ha
    · exact h.grows.keeps.taken a (h'.fresh a ha)
  · intro a ha
    rcases List.mem_append.mp ha with ha | ha
    · exact h'.grows.keeps.node (h.there a ha)
    · exact h'.there a ha

theorem New.perm (h : New machine s s1 nodes) (hperm : nodes.Perm nodes') :
    New machine s s1 nodes' :=
  ⟨h.grows, hperm.nodup_iff.mp h.nodup, fun a ha => h.fresh a (hperm.mem_iff.mpr ha),
    fun a ha => h.there a (hperm.mem_iff.mpr ha)⟩

/-- Linking new nodes changes no old one. -/
theorem New.link (h : New machine s s1 nodes) (hg : Grows machine nodes' s1 s2)
    (hsub : ∀ a ∈ nodes', a ∈ nodes) : New machine s s2 nodes := by
  have hkeeps := h.grows.keeps
  refine ⟨⟨hg.heap.trans h.grows.heap, hg.packed, ⟨fun a str ha => ?_, fun a t ha hplain => ?_,
    fun a ha => hkeeps.taken a (hg.keeps.taken a ha)⟩⟩, h.nodup, h.fresh,
    fun a ha => hg.keeps.node (h.there a ha)⟩
  · exact hg.keeps.texts a str (hkeeps.texts a str ha)
  · have hnot : a ∉ nodes' := by
      intro hin
      rw [h.fresh a (hsub a hin)] at ha
      exact nomatch ha
    exact ⟨t.next, hg.keeps.same (hkeeps.same ha hplain List.not_mem_nil) hplain hnot, fun _ => rfl⟩

/-! ## Chains -/

theorem Chain.keep {first : Option Ptr} (hchain : Chain cells first nodes)
    (hk : Keeps nodes' cells cells') (hin : ∀ q ∈ nodes, NodeAt cells q ∧ q ∉ nodes') :
    Chain cells' first nodes := by
  induction nodes generalizing first with
  | nil => exact hchain
  | cons q rest ih =>
    obtain ⟨rfl, t, ht, hrest⟩ := hchain
    obtain ⟨⟨u, hu, hplain⟩, hnot⟩ := hin q List.mem_cons_self
    obtain rfl : u = t := Cell.term.inj (Option.some.inj (hu.symm.trans ht))
    exact ⟨rfl, u, hk.same ht hplain hnot,
      ih hrest fun q' hq' => hin q' (List.mem_cons_of_mem _ hq')⟩

/-- A node that is not in a list is put in front of it. -/
theorem setNext_chain (hp : Packed machine s) (hnode : NodeAt s.cells p) {next : Option Ptr}
    (hchain : Chain s.cells next nodes) (hin : ∀ q ∈ nodes, NodeAt s.cells q) (hnot : p ∉ nodes) :
    ∃ s', setNext p next s = .ok () s' ∧ Grows machine [p] s s' ∧
      Chain s'.cells (some p) (p :: nodes) := by
  obtain ⟨t, ht, -⟩ := hnode
  have hg := grows_setNext hp ht next
  refine ⟨s.put p { t with next := next }, ?_, hg, rfl, _, put_same, ?_⟩
  · rw [setNext, bind_of_ok (deref_eq ht)]
    rfl
  · refine hchain.keep hg.keeps fun q hq => ⟨hin q hq, fun hqp => ?_⟩
    obtain rfl := List.mem_singleton.mp hqp
    exact hnot hq

/-- The nodes come out in the reverse order, in front of those that have been reversed before. -/
theorem termReverse_ensures {done : List Ptr} {prev rv : Option Ptr} (steps : Nat)
    (hp : Packed machine s) (hrv : Chain s.cells rv nodes) (hprev : Chain s.cells prev done)
    (hnodup : (nodes ++ done).Nodup) (hin : ∀ q ∈ nodes ++ done, NodeAt s.cells q) :
    Ensures (termReverse steps prev rv) s
      (fun r s' => Grows machine nodes s s' ∧ Chain s'.cells r (nodes.reverse ++ done))
      fun e _ => e = .stop .outOfFuel ∧ steps < nodes.length := by
  induction nodes generalizing s prev rv done steps with
  | nil =>
    obtain rfl : rv = none := hrv
    cases steps
    · exact ⟨.refl hp, hprev⟩
    · exact ⟨.refl hp, hprev⟩
  | cons q rest ih =>
    obtain ⟨rfl, t, ht, hrest⟩ := hrv
    cases steps with
    | zero => exact ⟨rfl, Nat.succ_pos _⟩
    | succ steps =>
      rw [List.cons_append, List.nodup_cons] at hnodup
      obtain ⟨hq, hnodup⟩ := hnodup
      have hindone : ∀ a ∈ done, NodeAt s.cells a := fun a ha => hin a (by simp [ha])
      have hinrest : ∀ a ∈ rest, NodeAt s.cells a := fun a ha => hin a (by simp [ha])
      have hqrest : q ∉ rest := fun h => hq (List.mem_append_left _ h)
      obtain ⟨s1, hset, hg, hchain⟩ := setNext_chain hp (hin q List.mem_cons_self) hprev hindone
        fun h => hq (List.mem_append_right _ h)
      rw [termReverse, ensures_bind_of_ok (deref_eq ht), ensures_bind_of_ok hset]
      have hrest1 : Chain s1.cells t.next rest := by
        refine hrest.keep hg.keeps fun a ha => ⟨hinrest a ha, fun haq => ?_⟩
        obtain rfl := List.mem_singleton.mp haq
        exact hqrest ha
      have hnodup1 : (rest ++ q :: done).Nodup :=
        List.perm_middle.nodup_iff.mpr (List.nodup_cons.mpr ⟨hq, hnodup⟩)
      have hin1 : ∀ a ∈ rest ++ q :: done, NodeAt s1.cells a := fun a ha =>
        hg.keeps.node (hin a (List.perm_middle.mem_iff.mp ha))
      refine (ih steps hg.packed hrest1 hchain hnodup1 hin1).mono ?_ ?_
      · rintro r s2 ⟨hg2, hr⟩
        refine ⟨(hg.mono ?_).trans (hg2.mono fun a ha => List.mem_cons_of_mem _ ha), ?_⟩
        · rintro a ha
          obtain rfl := List.mem_singleton.mp ha
          exact List.mem_cons_self
        · rwa [List.reverse_cons, List.append_assoc]
      · rintro e s2 ⟨rfl, hlt⟩
        exact ⟨rfl, Nat.succ_lt_succ hlt⟩

theorem countParameters_ensures {first : Option Ptr} (steps : Nat)
    (hchain : Chain s.cells first nodes) :
    Ensures (countParameters steps first) s (fun n s' => s' = s ∧ n = nodes.length)
      fun e _ => e = .stop .outOfFuel ∧ steps < nodes.length := by
  induction nodes generalizing first steps with
  | nil =>
    obtain rfl : first = none := hchain
    cases steps
    · exact ⟨rfl, rfl⟩
    · exact ⟨rfl, rfl⟩
  | cons q rest ih =>
    obtain ⟨rfl, t, ht, hrest⟩ := hchain
    cases steps with
    | zero => exact ⟨rfl, Nat.succ_pos _⟩
    | succ steps =>
      rw [countParameters, ensures_bind_of_ok (deref_eq ht), ensures_bind]
      refine (ih steps hrest).mono ?_ ?_
      · rintro n _ ⟨rfl, rfl⟩
        exact ⟨rfl, rfl⟩
      · rintro e _ ⟨rfl, hlt⟩
        exact ⟨rfl, Nat.succ_lt_succ hlt⟩

end

/-! ## What was built stays -/

section

variable {machine : Machine} {cells cells' : Ptr → Option Cell} {nodes : List Ptr}

theorem CallAt.keep {p : Ptr} {name : CString} {arity : Nat} {args : List Ptr}
    (h : CallAt cells p name arity args) (hk : Keeps nodes cells cells')
    (hin : ∀ q ∈ args, NodeAt cells q ∧ q ∉ nodes) :
    CallAt cells' p name arity args := by
  obtain ⟨handler, first, next, hfound, hp, hchain⟩ := h
  obtain ⟨next', hp', -⟩ := hk.terms p _ hp rfl
  exact ⟨handler, first, next', hfound, hp', hchain.keep hk hin⟩

/-- The nodes of all the lists are terms, and none is linked again. -/
def Untouched (cells : Ptr → Option Cell) (nodes : List Ptr) (lists : List (List Ptr)) : Prop :=
  ∀ q ∈ lists.flatten, NodeAt cells q ∧ q ∉ nodes

theorem untouched_cons {l : List Ptr} {lists : List (List Ptr)} :
    Untouched cells nodes (l :: lists) ↔
      (∀ q ∈ l, NodeAt cells q ∧ q ∉ nodes) ∧ Untouched cells nodes lists := by
  unfold Untouched
  rw [List.flatten_cons]
  exact List.forall_mem_append

theorem untouched_append {lists lists' : List (List Ptr)} :
    Untouched cells nodes (lists ++ lists') ↔
      Untouched cells nodes lists ∧ Untouched cells nodes lists' := by
  unfold Untouched
  rw [List.flatten_append]
  exact List.forall_mem_append

mutual

theorem BuiltTerm.keep {t : TermDerivation} {p : Ptr} {lists : List (List Ptr)}
    (h : BuiltTerm machine cells t p lists) (hk : Keeps nodes cells cells')
    (hin : Untouched cells nodes lists) :
    BuiltTerm machine cells' t p lists := by
  cases h with
  | add hl hr call =>
    obtain ⟨hargs, hin⟩ := untouched_cons.mp hin
    obtain ⟨hinl, hinr⟩ := untouched_append.mp hin
    exact .add (hl.keep hk hinl) (hr.keep hk hinr) (call.keep hk hargs)
  | subtract hl hr call =>
    obtain ⟨hargs, hin⟩ := untouched_cons.mp hin
    obtain ⟨hinl, hinr⟩ := untouched_append.mp hin
    exact .subtract (hl.keep hk hinl) (hr.keep hk hinr) (call.keep hk hargs)
  | negate ht alone number =>
    obtain ⟨hq, hin⟩ := untouched_cons.mp hin
    obtain ⟨next', number', -⟩ := hk.terms p _ number rfl
    exact .negate (ht.keep hk hin) (alone.keep hk hq) number'
  | paren ht => exact .paren (ht.keep hk hin)
  | identifier node text =>
    obtain ⟨next', node', -⟩ := hk.terms p _ node rfl
    exact .identifier node' (hk.texts _ _ text)
  | string node text =>
    obtain ⟨next', node', -⟩ := hk.terms p _ node rfl
    exact .string node' (hk.texts _ _ text)
  | number node =>
    obtain ⟨next', node', -⟩ := hk.terms p _ node rfl
    exact .number node'
  | boolean node =>
    obtain ⟨next', node', -⟩ := hk.terms p _ node rfl
    exact .boolean node'
  | functionCall hps call =>
    obtain ⟨hargs, hin⟩ := untouched_cons.mp hin
    exact .functionCall (hps.keep hk hin) (call.keep hk hargs)

theorem BuiltParameters.keep {ps : ParametersDerivation} {args : List Ptr} {lists : List (List Ptr)}
    (h : BuiltParameters machine cells ps args lists) (hk : Keeps nodes cells cells')
    (hin : Untouched cells nodes lists) :
    BuiltParameters machine cells' ps args lists := by
  cases h with
  | noParameters => exact .noParameters
  | moreParameters hps ht =>
    obtain ⟨hinps, hint⟩ := untouched_append.mp hin
    exact .moreParameters (hps.keep hk hinps) (ht.keep hk hint)
  | oneParameter ht => exact .oneParameter (ht.keep hk hin)

end

theorem BuiltAction.keep {a : ActionDerivation} {p : Ptr} {lists : List (List Ptr)}
    (h : BuiltAction machine cells a p lists) (hk : Keeps nodes cells cells')
    (hin : Untouched cells nodes lists) :
    BuiltAction machine cells' a p lists := by
  cases h with
  | functionCall hps call =>
    obtain ⟨hargs, hin⟩ := untouched_cons.mp hin
    exact .functionCall (hps.keep hk hin) (call.keep hk hargs)
  | assignment node text ht call =>
    obtain ⟨hargs, hin⟩ := untouched_cons.mp hin
    obtain ⟨next', node', -⟩ := hk.terms _ _ node rfl
    exact .assignment node' (hk.texts _ _ text) (ht.keep hk hin) (call.keep hk hargs)

theorem BuiltActions.keep {actions : ActionsDerivation} {args : List Ptr} {lists : List (List Ptr)}
    (h : BuiltActions machine cells actions args lists) (hk : Keeps nodes cells cells')
    (hin : Untouched cells nodes lists) :
    BuiltActions machine cells' actions args lists := by
  induction h with
  | noActions => exact .noActions
  | moreActions hactions ha ih =>
    obtain ⟨hinactions, hina⟩ := untouched_append.mp hin
    exact .moreActions (ih hinactions) (ha.keep hk hina)

end

theorem BuiltParameters.length_eq {machine : Machine} {cells : Ptr → Option Cell}
    {ps : ParametersDerivation} {nodes : List Ptr} {lists : List (List Ptr)}
    (h : BuiltParameters machine cells ps nodes lists) : nodes.length = ps.terms.length := by
  cases h with
  | noParameters => rfl
  | moreParameters hps ht =>
    rw [ParametersDerivation.terms, List.length_append, List.length_append, hps.length_eq]
    rfl
  | oneParameter ht => rfl

/-! ## Why the actions stop -/

/-- The heap is full, there is no function for the number of the arguments that were written, a list
is longer than the bound on the steps, or the evaluation of an operand of a unary minus stops. -/
inductive GivesUp (machine : Machine) (depth : Nat) (calls : List (CString × Nat))
    (lengths : List Nat) (negated : List TermDerivation) : HeapStop → Prop
  | full : GivesUp machine depth calls lengths negated .outOfHeap
  | unknown {name : CString} {arity : Nat} (h : (name, arity) ∈ calls)
      (hnone : lookupFunction name arity = none) :
      GivesUp machine depth calls lengths negated (.stop .parseError)
  | long {n : Nat} (h : n ∈ lengths) (hlong : depth < n) :
      GivesUp machine depth calls lengths negated (.stop .outOfFuel)
  | evaluation {t : TermDerivation} {s s' : HeapState} {p : Ptr} {lists : List (List Ptr)}
      {e : HeapStop} (h : t ∈ negated) (hp : Packed machine s)
      (ht : BuiltTerm machine s.cells t p lists)
      (hstop : termToNumber (termResolve machine depth) (some p) s = .error e s') :
      GivesUp machine depth calls lengths negated e

theorem GivesUp.mono {machine : Machine} {depth : Nat} {calls calls' : List (CString × Nat)}
    {lengths lengths' : List Nat} {negated negated' : List TermDerivation} {e : HeapStop}
    (h : GivesUp machine depth calls lengths negated e) (hcalls : calls ⊆ calls')
    (hlengths : lengths ⊆ lengths') (hnegated : negated ⊆ negated') :
    GivesUp machine depth calls' lengths' negated' e := by
  cases h with
  | full => exact .full
  | unknown h hnone => exact .unknown (hcalls h) hnone
  | long h hlong => exact .long (hlengths h) hlong
  | evaluation h hp ht hstop => exact .evaluation (hnegated h) hp ht hstop

/-- The actions of a derivation, with the lengths of its calls. -/
abbrev GivesUpAt (machine : Machine) (depth : Nat) (calls : List (CString × Nat))
    (negated : List TermDerivation) : HeapStop → Prop :=
  GivesUp machine depth calls (calls.map Prod.snd) negated

theorem GivesUp.mono_at {machine : Machine} {depth : Nat} {calls calls' : List (CString × Nat)}
    {negated negated' : List TermDerivation} {e : HeapStop}
    (h : GivesUpAt machine depth calls negated e) (hcalls : calls ⊆ calls')
    (hnegated : negated ⊆ negated') : GivesUpAt machine depth calls' negated' e :=
  h.mono hcalls (List.map_subset Prod.snd hcalls) hnegated

/-! ## Linking -/

section

variable {machine : Machine} {depth : Nat} {s s1 s2 : HeapState}

theorem Lists.packed {first : Option Ptr} {nodes : List Ptr} {lists : List (List Ptr)}
    (h : Lists machine s s1 first nodes lists) : Packed machine s1 := h.new.grows.packed

theorem Lists.untouched {first : Option Ptr} {nodes : List Ptr} {lists : List (List Ptr)}
    (h : Lists machine s s1 first nodes lists) : Untouched s1.cells nodes lists := by
  intro q hq
  refine ⟨h.new.there q (List.mem_append_right _ hq), fun hin => ?_⟩
  exact (List.nodup_append.mp h.new.nodup).2.2 q hin q hq rfl

section

variable {first first' : Option Ptr} {nodes nodes' : List Ptr} {lists lists' : List (List Ptr)}
  (h : Lists machine s s1 first nodes lists) (h' : Lists machine s1 s2 first' nodes' lists')

include h h'

/-- What was built before has no later node in it. -/
theorem Lists.apart {q p : Ptr} (hq : q ∈ nodes ++ lists.flatten) (hp : p ∈ nodes' ++ lists'.flatten) :
    q ≠ p := by
  rintro rfl
  obtain ⟨t, ht, -⟩ := h.new.there q hq
  rw [h'.new.fresh q hp] at ht
  exact nomatch ht

theorem Lists.chain_later : Chain s2.cells first nodes :=
  h.chain.keep h'.new.grows.keeps fun q hq =>
    ⟨h.new.there q (List.mem_append_left _ hq), List.not_mem_nil⟩

/-- All the lists together, in another order. -/
theorem Lists.both : New machine s s2 (nodes ++ nodes' ++ (lists ++ lists').flatten) := by
  refine (h.new.append h'.new).perm ?_
  rw [List.flatten_append, List.append_assoc, List.append_assoc]
  exact (List.perm_append_comm_assoc _ _ _).append_left nodes

end

/-- The operands of an operator are linked. -/
theorem link_operands {l r : Ptr} {lists lists' : List (List Ptr)}
    (hl : Lists machine s s1 (some l) [l] lists) (hr : Lists machine s1 s2 (some r) [r] lists') :
    ∃ s3, setNext l (some r) s2 = .ok () s3 ∧ Lists machine s s3 (some l) [l, r] (lists ++ lists') ∧
      Keeps [l] s1.cells s3.cells ∧ Keeps [l] s2.cells s3.cells ∧
      Untouched s2.cells [l] lists' := by
  have hboth := hl.both hr
  have hin : ∀ q ∈ [r], NodeAt s2.cells q := fun q hq => hr.new.there q (List.mem_append_left _ hq)
  have hlin : l ∈ [l] ++ lists.flatten := List.mem_cons_self
  have hnot : l ∉ [r] := fun hmem => hl.apart hr hlin (List.mem_append_left _ hmem) rfl
  obtain ⟨s3, hset, hg, hchain⟩ := setNext_chain hr.packed
    (hboth.there l (by simp)) hr.chain hin hnot
  refine ⟨s3, hset, ⟨hchain, hboth.link hg (by simp)⟩, ?_, hg.keeps, fun q hq => ?_⟩
  · exact (hr.new.grows.keeps.mono nofun).trans hg.keeps
  · refine ⟨hr.new.there q (List.mem_append_right _ hq), fun hmem => ?_⟩
    obtain rfl := List.mem_singleton.mp hmem
    exact hl.apart hr hlin (List.mem_append_right _ hq) rfl

/-- A node is put in front of those that were built before. -/
theorem link_front {first : Option Ptr} {nodes : List Ptr} {p : Ptr} {lists lists' : List (List Ptr)}
    (h : Lists machine s s1 first nodes.reverse lists)
    (hp : Lists machine s1 s2 (some p) [p] lists') :
    ∃ s3, setNext p first s2 = .ok () s3 ∧
      Lists machine s s3 (some p) (nodes ++ [p]).reverse (lists ++ lists') ∧
      Keeps [p] s1.cells s3.cells ∧ Keeps [p] s2.cells s3.cells ∧
      Untouched s1.cells [p] lists := by
  have hboth : New machine s s2 ((nodes ++ [p]).reverse ++ (lists ++ lists').flatten) := by
    refine (h.both hp).perm (List.Perm.append_right _ ?_)
    rw [List.reverse_append]
    exact List.perm_append_comm
  have hpin : p ∈ [p] ++ lists'.flatten := List.mem_cons_self
  have hnot : p ∉ nodes.reverse := fun hmem => h.apart hp (List.mem_append_left _ hmem) hpin rfl
  obtain ⟨s3, hset, hg, hchain⟩ := setNext_chain hp.packed (hp.new.there p hpin)
    (h.chain_later hp) (fun q hq => hp.new.grows.keeps.node (h.new.there q (List.mem_append_left _ hq)))
    hnot
  have hreverse : (nodes ++ [p]).reverse = p :: nodes.reverse := List.reverse_concat ..
  refine ⟨s3, hset, ⟨hreverse ▸ hchain, hboth.link hg (by simp)⟩, ?_, hg.keeps, fun q hq => ?_⟩
  · exact (hp.new.grows.keeps.mono nofun).trans hg.keeps
  · refine ⟨h.new.there q (List.mem_append_right _ hq), fun hmem => ?_⟩
    obtain rfl := List.mem_singleton.mp hmem
    exact h.apart hp (List.mem_append_right _ hq) hpin rfl

/-- A new term is a list of one node. -/
theorem allocTerm_lists (hp : Packed machine s) (hh : s.heap.isSome) {data : TermData}
    (hplain : data.isVar = false) :
    Ensures (allocTerm machine data) s
      (fun p s' => s'.cells p = some (.term ⟨data, none⟩) ∧ Lists machine s s' (some p) [p] [])
      fun e _ => e = .outOfHeap := by
  obtain ⟨h, hh⟩ := Option.isSome_iff_exists.mp hh
  refine allocTerm_ensures hp hh (fun hroom => ?_) fun _ => rfl
  refine ⟨push_same _, ⟨rfl, _, push_same _, rfl⟩, grows_push hp hh hroom, List.nodup_singleton _,
    fun q hq => ?_, fun q hq => ?_⟩
  · obtain rfl := List.mem_singleton.mp hq
    exact hp.fresh hh (Nat.le_refl _)
  · obtain rfl := List.mem_singleton.mp hq
    exact ⟨_, push_same _, hplain⟩

theorem allocTextTerm_lists (hp : Packed machine s) (hh : s.heap.isSome) {data : Ptr → TermData}
    (str : CString) (hplain : ∀ q, (data q).isVar = false) :
    Ensures (allocTextTerm machine data (allocString machine str)) s
      (fun p s' => ∃ q, s'.cells p = some (.term ⟨data q, none⟩) ∧ s'.cells q = some (.text str) ∧
        Lists machine s s' (some p) [p] [])
      fun e _ => e = .outOfHeap := by
  obtain ⟨h, hh⟩ := Option.isSome_iff_exists.mp hh
  refine allocTextTerm_ensures hp hh (fun hroom => ?_) fun _ _ => rfl
  refine ⟨_, pushText_term, pushText_text, ⟨rfl, _, pushText_term, rfl⟩,
    grows_pushText hp hh hroom, List.nodup_singleton _, fun q hq => ?_, fun q hq => ?_⟩
  · obtain rfl := List.mem_singleton.mp hq
    exact hp.fresh hh (Nat.le_refl _)
  · obtain rfl := List.mem_singleton.mp hq
    exact ⟨_, pushText_term, hplain _⟩

/-- The call of a function gets a node of its own, of which the list is a part. -/
theorem buildCall_ensures {first : Option Ptr} {nodes : List Ptr} {lists : List (List Ptr)}
    (h : Lists machine s s1 first nodes lists) (hh : s1.heap.isSome) (name : CString)
    {calls : List (CString × Nat)} {negated : List TermDerivation}
    (hcalls : (name, nodes.length) ∈ calls) :
    Ensures (buildCall machine depth name first) s1
      (fun p s2 => CallAt s2.cells p name nodes.length nodes ∧ Keeps [] s1.cells s2.cells ∧
        Lists machine s s2 (some p) [p] (nodes :: lists))
      fun e _ => GivesUpAt machine depth calls negated e := by
  unfold buildCall termNewFun
  rw [ensures_bind, ensures_bind]
  refine (countParameters_ensures depth h.chain).mono ?_ ?_
  · rintro n s2 ⟨rfl, rfl⟩
    cases hfound : lookupFunction name nodes.length with
    | none => exact .unknown hcalls hfound
    | some handler =>
      simp only [ensures_bind]
      refine (allocTerm_lists h.packed hh rfl).mono ?_ ?_
      · rintro p s3 ⟨hcell, hp⟩
        refine ⟨⟨handler, first, none, hfound, hcell, h.chain_later hp⟩, hp.new.grows.keeps,
          hp.chain, (h.both hp).perm ?_⟩
        rw [List.append_nil, List.flatten_cons, ← List.append_assoc]
        exact List.perm_append_comm.append_right _
      · rintro e s3 rfl
        exact .full
  · rintro e s2 ⟨rfl, hlt⟩
    exact .long (List.mem_map_of_mem hcalls) hlt

/-- A list that has been put together from its end is turned round. -/
theorem Lists.turned {first : Option Ptr} {nodes : List Ptr} {lists : List (List Ptr)}
    (h : Lists machine s s1 first nodes.reverse lists) (steps : Nat) :
    Ensures (termReverse steps none first) s1
      (fun r s2 => Lists machine s s2 r nodes lists ∧ Grows machine nodes.reverse s1 s2)
      fun e _ => e = .stop .outOfFuel ∧ steps < nodes.length := by
  have hin : ∀ p ∈ nodes.reverse ++ [], NodeAt s1.cells p := fun p hp =>
    h.new.there p (List.mem_append_left _ (List.append_nil nodes.reverse ▸ hp))
  have hnodup : (nodes.reverse ++ []).Nodup := by
    rw [List.append_nil]
    exact (List.nodup_append.mp h.new.nodup).1
  have hdone : Chain s1.cells none [] := rfl
  refine (termReverse_ensures steps h.packed h.chain hdone hnodup hin).mono ?_ ?_
  · rintro r s2 ⟨hg, hchain⟩
    rw [List.reverse_reverse, List.append_nil] at hchain
    refine ⟨⟨hchain, (h.new.link hg fun p hp => List.mem_append_left _ hp).perm ?_⟩, hg⟩
    exact (List.reverse_perm nodes).append_right _
  · rintro e s2 ⟨rfl, hlt⟩
    rw [List.length_reverse] at hlt
    exact ⟨rfl, hlt⟩

/-- The actions of `FunctionCall`: the list of the parameters is turned round, and then counted. -/
theorem callNamed_ensures {id q : Ptr} {next first : Option Ptr} {name : CString}
    (hid : s1.cells id = some (.term ⟨.identifier q, next⟩)) (htext : s1.cells q = some (.text name))
    {ps : ParametersDerivation} {nodes : List Ptr} {lists : List (List Ptr)}
    (hps : BuiltParameters machine s1.cells ps nodes lists)
    (h : Lists machine s s1 first nodes.reverse lists) (hh : s1.heap.isSome)
    {calls : List (CString × Nat)} {negated : List TermDerivation}
    (hcalls : (name, ps.terms.length) ∈ calls) :
    Ensures (callNamed machine depth id first) s1
      (fun p s2 => BuiltParameters machine s2.cells ps nodes lists ∧
        CallAt s2.cells p name ps.terms.length nodes ∧
        Lists machine s s2 (some p) [p] (nodes :: lists))
      fun e _ => GivesUpAt machine depth calls negated e := by
  have hlength := hps.length_eq
  unfold callNamed
  rw [ensures_bind_of_ok (deref_eq hid)]
  refine ensures_bind.mpr ((h.turned depth).mono ?_ ?_)
  · rintro reversed s2 ⟨h2, hg⟩
    have hps2 := hps.keep hg.keeps h.untouched
    rw [ensures_bind_of_ok (textAt_eq (hg.keeps.texts q name htext))]
    refine (buildCall_ensures h2 (hg.isSome hh) name (hlength ▸ hcalls)).mono ?_ fun _ _ h => h
    rintro p s3 ⟨hcall, hk, h3⟩
    refine ⟨hps2.keep hk fun q hq => ⟨(h2.untouched q hq).1, List.not_mem_nil⟩, hlength ▸ hcall, h3⟩
  · rintro e s2 ⟨rfl, hlt⟩
    exact .long (List.mem_map_of_mem hcalls) (hlength ▸ hlt)

/-- What was there before the nodes does not matter. -/
theorem Lists.earlier {first : Option Ptr} {nodes : List Ptr} {lists : List (List Ptr)}
    (h : Lists machine s1 s2 first nodes lists) (hg : Grows machine [] s s1) :
    Lists machine s s2 first nodes lists := ⟨h.chain, (New.nil hg).append h.new⟩

end

/-! ## Derivations -/

section

variable {machine : Machine} (depth : Nat)

/-- What the actions of a `term` come to. -/
def TermBuilds (machine : Machine) (depth : Nat) (t : TermDerivation) : Prop :=
  ∀ s, Packed machine s → s.heap.isSome → Ensures (t.build machine depth) s
    (fun p s' => ∃ lists, BuiltTerm machine s'.cells t p lists ∧
      Lists machine s s' (some p) [p] lists)
    fun e _ => GivesUpAt machine depth t.calls t.negated e

/-- What those of `Parameters` come to: the last one is the first of the list. -/
def ParametersBuild (machine : Machine) (depth : Nat) (ps : ParametersDerivation) : Prop :=
  ∀ s, Packed machine s → s.heap.isSome → Ensures (ps.build machine depth) s
    (fun first s' => ∃ nodes lists, BuiltParameters machine s'.cells ps nodes lists ∧
      Lists machine s s' first nodes.reverse lists)
    fun e _ => GivesUpAt machine depth ps.calls ps.negated e

/-- The actions of an operator. -/
theorem operator_ensures {left right : TermDerivation} (hleft : TermBuilds machine depth left)
    (hright : TermBuilds machine depth right) (name : CString) {s : HeapState}
    (hp : Packed machine s) (hh : s.heap.isSome) :
    Ensures (do
        let l ← left.build machine depth
        let r ← right.build machine depth
        setNext l (some r)
        buildCall machine depth name (some l)) s
      (fun p s' => ∃ l r lists lists', BuiltTerm machine s'.cells left l lists ∧
        BuiltTerm machine s'.cells right r lists' ∧ CallAt s'.cells p name 2 [l, r] ∧
        Lists machine s s' (some p) [p] ([l, r] :: (lists ++ lists')))
      fun e _ => GivesUpAt machine depth (left.calls ++ right.calls ++ [(name, 2)])
        (left.negated ++ right.negated) e := by
  refine ensures_bind.mpr ((hleft s hp hh).mono ?_ fun e _ h =>
    h.mono_at (by simp) (by simp))
  rintro l s1 ⟨lists, hl, h1⟩
  have hh1 := h1.new.grows.isSome hh
  refine ensures_bind.mpr ((hright s1 h1.packed hh1).mono ?_ fun e _ h =>
    h.mono_at (by simp) (by simp))
  rintro r s2 ⟨lists', hr, h2⟩
  obtain ⟨s3, hset, h3, hk1, hk2, hin⟩ := link_operands h1 h2
  have hl3 := hl.keep hk1 h1.untouched
  have hr3 := hr.keep hk2 hin
  rw [ensures_bind_of_ok hset]
  refine (buildCall_ensures h3 (h3.new.grows.isSome hh) name (by simp)).mono ?_ fun _ _ h => h
  rintro p s4 ⟨hcall, hk, h4⟩
  have hin4 : Untouched s3.cells [] (lists ++ lists') := fun q hq =>
    ⟨(h3.untouched q hq).1, List.not_mem_nil⟩
  obtain ⟨hinl, hinr⟩ := untouched_append.mp hin4
  exact ⟨l, r, lists, lists', hl3.keep hk hinl, hr3.keep hk hinr, hcall, h4⟩

/-- The actions of a unary minus. The operand is evaluated at once; what that leaves in the heap is in
no list. -/
theorem negate_ensures {operand : TermDerivation} (hoperand : TermBuilds machine depth operand)
    {s : HeapState} (hp : Packed machine s) (hh : s.heap.isSome) :
    Ensures (do
        let t ← operand.build machine depth
        let value ← termToNumber (termResolve machine depth) (some t)
        termNewNumber machine (-value)) s
      (fun p s' => ∃ q lists value, BuiltTerm machine s'.cells operand q lists ∧
        Chain s'.cells (some q) [q] ∧ s'.cells p = some (.term ⟨.number value, none⟩) ∧
        Lists machine s s' (some p) [p] ([q] :: lists))
      fun e _ => GivesUpAt machine depth operand.calls (operand.negated ++ [operand]) e := by
  refine ensures_bind.mpr ((hoperand s hp hh).mono ?_ fun e _ h =>
    h.mono_at (fun _ hc => hc) (by simp))
  rintro q s1 ⟨lists, hq, h1⟩
  have hh1 := h1.new.grows.isSome hh
  have hcalm := calm_termToNumber (calm_termResolve machine depth) (some q) s1 h1.packed hh1
  refine ensures_bind.mpr ?_
  cases hvalue : termToNumber (termResolve machine depth) (some q) s1 with
  | error e s2 =>
    unfold Ensures
    rw [hvalue]
    exact .evaluation (by simp) h1.packed hq hvalue
  | ok value s2 =>
    have hg2 : Grows machine [] s1 s2 := hcalm.ok hvalue
    refine ensures_of_ok hvalue ((allocTerm_lists hg2.packed (hg2.isSome hh1) rfl).mono ?_ ?_)
    · rintro p s3 ⟨hcell, h3⟩
      have h3 := h3.earlier hg2
      have hq3 := hq.keep h3.new.grows.keeps fun a ha =>
        ⟨(h1.untouched a ha).1, List.not_mem_nil⟩
      refine ⟨q, lists, -value, hq3, h1.chain_later h3, hcell, h3.chain, (h1.both h3).perm ?_⟩
      rw [List.append_nil]
      exact List.Perm.swap p q _
    · rintro e s3 rfl
      exact .full

/-- The actions of a call with its parameters. -/
theorem functionCall_ensures {ps : ParametersDerivation} (hps : ParametersBuild machine depth ps)
    (name : CString) {s : HeapState} (hp : Packed machine s) (hh : s.heap.isSome) :
    Ensures (do
        let id ← termNewIdentifier machine name
        let parameters ← ps.build machine depth
        callNamed machine depth id parameters) s
      (fun p s' => ∃ nodes lists, BuiltParameters machine s'.cells ps nodes lists ∧
        CallAt s'.cells p name ps.terms.length nodes ∧
        Lists machine s s' (some p) [p] (nodes :: lists))
      fun e _ => GivesUpAt machine depth (ps.calls ++ [(name, ps.terms.length)]) ps.negated e := by
  refine ensures_bind.mpr ((allocTextTerm_lists hp hh name fun _ => rfl).mono ?_ ?_)
  · rintro id s1 ⟨q, hid, htext, h1⟩
    have hg1 := h1.new.grows
    refine ensures_bind.mpr ((hps s1 h1.packed (hg1.isSome hh)).mono ?_ fun e _ h =>
      h.mono_at (by simp) (by simp))
    rintro first s2 ⟨nodes, lists, hbuilt, h2⟩
    have hk2 := h2.new.grows.keeps
    refine (callNamed_ensures (hk2.same hid rfl List.not_mem_nil) (hk2.texts q name htext) hbuilt
      (h2.earlier hg1) (h2.new.grows.isSome (hg1.isSome hh)) (by simp)).mono ?_ fun _ _ h => h
    rintro p s3 ⟨hbuilt3, hcall, h3⟩
    exact ⟨nodes, lists, hbuilt3, hcall, h3⟩
  · rintro e s1 rfl
    exact .full

mutual

theorem TermDerivation.build_ensures (t : TermDerivation) : TermBuilds machine depth t := by
  intro s hp hh
  cases t with
  | add left right =>
    rw [TermDerivation.build]
    refine (operator_ensures depth left.build_ensures right.build_ensures _ hp hh).mono ?_
      fun _ _ h => h
    rintro p s' ⟨l, r, lists, lists', hl, hr, hcall, h⟩
    exact ⟨_, .add hl hr hcall, h⟩
  | subtract left right =>
    rw [TermDerivation.build]
    refine (operator_ensures depth left.build_ensures right.build_ensures _ hp hh).mono ?_
      fun _ _ h => h
    rintro p s' ⟨l, r, lists, lists', hl, hr, hcall, h⟩
    exact ⟨_, .subtract hl hr hcall, h⟩
  | negate operand =>
    rw [TermDerivation.build]
    refine (negate_ensures depth operand.build_ensures hp hh).mono ?_ fun _ _ h => h
    rintro p s' ⟨q, lists, value, hbuilt, halone, hcell, h⟩
    exact ⟨[q] :: lists, .negate hbuilt halone hcell, h⟩
  | paren inner =>
    rw [TermDerivation.build]
    refine (inner.build_ensures s hp hh).mono ?_ fun _ _ h => h
    rintro p s' ⟨lists, hbuilt, h⟩
    exact ⟨lists, .paren hbuilt, h⟩
  | identifier id =>
    refine (allocTextTerm_lists hp hh id.name fun _ => rfl).mono ?_ ?_
    · rintro p s' ⟨q, hcell, htext, h⟩
      exact ⟨[], .identifier hcell htext, h⟩
    · rintro e s' rfl
      exact .full
  | string value =>
    rw [TermDerivation.build, termNewQstring, allocQstring_quoted]
    refine (allocTextTerm_lists hp hh value fun _ => rfl).mono ?_ ?_
    · rintro p s' ⟨q, hcell, htext, h⟩
      exact ⟨[], .string hcell htext, h⟩
    · rintro e s' rfl
      exact .full
  | number base digits =>
    refine (allocTerm_lists hp hh rfl).mono ?_ ?_
    · rintro p s' ⟨hcell, h⟩
      exact ⟨[], .number hcell, h⟩
    · rintro e s' rfl
      exact .full
  | boolean value =>
    refine (allocTerm_lists hp hh rfl).mono ?_ ?_
    · rintro p s' ⟨hcell, h⟩
      exact ⟨[], .boolean hcell, h⟩
    · rintro e s' rfl
      exact .full
  | functionCall id parameters =>
    rw [TermDerivation.build]
    refine (functionCall_ensures depth parameters.build_ensures id.name hp hh).mono ?_
      fun _ _ h => h
    rintro p s' ⟨nodes, lists, hps, hcall, h⟩
    exact ⟨nodes :: lists, .functionCall hps hcall, h⟩

theorem ParametersDerivation.build_ensures (ps : ParametersDerivation) :
    ParametersBuild machine depth ps := by
  intro s hp hh
  cases ps with
  | noParameters => exact ⟨[], [], .noParameters, rfl, New.nil (.refl hp)⟩
  | moreParameters parameters t =>
    rw [ParametersDerivation.build, ensures_bind]
    refine (parameters.build_ensures s hp hh).mono ?_ fun e _ h =>
      h.mono_at (by simp [ParametersDerivation.calls]) (by simp [ParametersDerivation.negated])
    rintro first s1 ⟨nodes, lists, hps, h1⟩
    refine ensures_bind.mpr ((t.build_ensures s1 h1.packed (h1.new.grows.isSome hh)).mono ?_
      fun e _ h => h.mono_at (by simp [ParametersDerivation.calls])
        (by simp [ParametersDerivation.negated]))
    rintro p s2 ⟨lists', ht, h2⟩
    obtain ⟨s3, hset, h3, hk1, hk2, hin⟩ := link_front h1 h2
    rw [ensures_bind_of_ok hset]
    exact ⟨_, _, .moreParameters (hps.keep hk1 hin) (ht.keep hk2 h2.untouched), h3⟩
  | oneParameter t =>
    rw [ParametersDerivation.build, ensures_bind]
    refine (t.build_ensures s hp hh).mono ?_ fun _ _ h => h
    rintro p s1 ⟨lists, ht, h1⟩
    exact ⟨[p], lists, .oneParameter ht, h1⟩

end

theorem ActionDerivation.build_ensures (a : ActionDerivation) {s : HeapState}
    (hp : Packed machine s) (hh : s.heap.isSome) :
    Ensures (a.build machine depth) s
      (fun p s' => ∃ lists, BuiltAction machine s'.cells a p lists ∧
        Lists machine s s' (some p) [p] lists)
      fun e _ => GivesUpAt machine depth a.calls a.negated e := by
  cases a with
  | functionCall id parameters =>
    refine (functionCall_ensures depth (parameters.build_ensures depth) id.name hp hh).mono ?_
      fun _ _ h => h
    rintro p s' ⟨nodes, lists, hps, hcall, h⟩
    exact ⟨nodes :: lists, .functionCall hps hcall, h⟩
  | assignment id value =>
    refine ensures_bind.mpr ((allocTextTerm_lists hp hh id.name fun _ => rfl).mono ?_ ?_)
    · rintro name s1 ⟨q, hcell, htext, h1⟩
      have hh1 := h1.new.grows.isSome hh
      refine ensures_bind.mpr ((value.build_ensures depth s1 h1.packed hh1).mono ?_ fun e _ h =>
        h.mono_at (by simp [ActionDerivation.calls]) fun _ ht => ht)
      rintro t s2 ⟨lists, ht, h2⟩
      obtain ⟨s3, hset, h3, hk1, hk2, hin⟩ := link_operands h1 h2
      obtain ⟨next, hcell3, -⟩ := hk1.terms name _ hcell rfl
      have ht3 := ht.keep hk2 hin
      rw [ensures_bind_of_ok hset]
      refine (buildCall_ensures h3 (h3.new.grows.isSome hh) _
        (by simp [ActionDerivation.calls])).mono ?_ fun _ _ h => h
      rintro p s4 ⟨hcall, hk, h4⟩
      have ht4 := ht3.keep hk fun a ha => ⟨(h3.untouched a ha).1, List.not_mem_nil⟩
      obtain ⟨next', hcell4, -⟩ := hk.terms name _ hcell3 rfl
      exact ⟨_, .assignment hcell4 (hk.texts q _ (hk1.texts q _ htext)) ht4 hcall, h4⟩
    · rintro e s1 rfl
      exact .full

theorem ActionsDerivation.build_ensures (actions : ActionsDerivation) {s : HeapState}
    (hp : Packed machine s) (hh : s.heap.isSome) :
    Ensures (actions.build machine depth) s
      (fun first s' => ∃ nodes lists, BuiltActions machine s'.cells actions nodes lists ∧
        Lists machine s s' first nodes.reverse lists)
      fun e _ => GivesUpAt machine depth actions.calls actions.negated e := by
  induction actions with
  | noActions => exact ⟨[], [], .noActions, rfl, New.nil (.refl hp)⟩
  | moreActions actions a ih =>
    rw [ActionsDerivation.build, ensures_bind]
    refine ih.mono ?_ fun e _ h =>
      h.mono_at (by simp [ActionsDerivation.calls]) (by simp [ActionsDerivation.negated])
    rintro first s1 ⟨nodes, lists, hactions, h1⟩
    refine ensures_bind.mpr ((a.build_ensures depth h1.packed (h1.new.grows.isSome hh)).mono ?_
      fun e _ h => h.mono_at (by simp [ActionsDerivation.calls])
        (by simp [ActionsDerivation.negated]))
    rintro p s2 ⟨lists', ha, h2⟩
    obtain ⟨s3, hset, h3, hk1, hk2, hin⟩ := link_front h1 h2
    rw [ensures_bind_of_ok hset]
    exact ⟨_, _, .moreActions (hactions.keep hk1 hin) (ha.keep hk2 h2.untouched), h3⟩

theorem BuiltActions.length_eq {cells : Ptr → Option Cell} {actions : ActionsDerivation}
    {nodes : List Ptr} {lists : List (List Ptr)} (h : BuiltActions machine cells actions nodes lists) :
    nodes.length = actions.list.length := by
  induction h with
  | noActions => rfl
  | moreActions _ _ ih =>
    rw [ActionsDerivation.list, List.length_append, List.length_append, ih]
    rfl

theorem BlockDerivation.build_ensures (block : BlockDerivation) {s : HeapState}
    (hp : Packed machine s) (hh : s.heap.isSome) :
    Ensures (block.build machine depth) s
      (fun first s' => ∃ nodes lists, BuiltBlock machine s'.cells block nodes lists ∧
        Lists machine s s' first nodes lists)
      fun e _ => GivesUp machine depth block.calls
        (block.list.length :: block.calls.map Prod.snd) block.negated e := by
  cases block with
  | blockAction a =>
    refine ensures_bind.mpr ((a.build_ensures depth hp hh).mono ?_ fun e _ h =>
      h.mono (fun _ hc => hc) (List.subset_cons_self _ _) fun _ ht => ht)
    rintro p s1 ⟨lists, ha, h1⟩
    exact ⟨[p], lists, .blockAction ha, h1⟩
  | blockActions actions =>
    refine ensures_bind.mpr ((actions.build_ensures depth hp hh).mono ?_ fun e _ h =>
      h.mono (fun _ hc => hc) (List.subset_cons_self _ _) fun _ ht => ht)
    rintro first s1 ⟨nodes, lists, hactions, h1⟩
    refine (h1.turned depth).mono ?_ ?_
    · rintro r s2 ⟨h2, hg⟩
      exact ⟨nodes, lists, .blockActions (hactions.keep hg.keeps h1.untouched), h2⟩
    · rintro e s2 ⟨rfl, hlt⟩
      exact .long List.mem_cons_self (hactions.length_eq ▸ hlt)

end

/-! ## Running a list of actions -/

/-- Running an action changes no list, so that the next one is the one that was written next. -/
theorem runFunctions_eq {machine : Machine} {s : HeapState} (hp : Packed machine s)
    (hh : s.heap.isSome) (depth : Nat) {first : Option Ptr} {nodes : List Ptr}
    (hchain : Chain s.cells first nodes) (hin : ∀ p ∈ nodes, NodeAt s.cells p) {n : Nat}
    (hn : nodes.length ≤ n) (lastResult : Option Ptr) :
    runFunctions machine depth n lastResult first s = runEach machine depth nodes lastResult s := by
  induction nodes generalizing s first n lastResult with
  | nil =>
    obtain rfl : first = none := hchain
    cases n <;> rfl
  | cons p rest ih =>
    obtain ⟨rfl, t, ht, hrest⟩ := hchain
    obtain ⟨n, rfl⟩ := Nat.exists_eq_succ_of_ne_zero (Nat.ne_of_gt (Nat.lt_of_lt_of_le
      (Nat.succ_pos _) hn))
    rw [runFunctions, runEach]
    have hcalm := calm_runFunction machine depth (some p) s hp hh
    cases hrun : runFunction machine depth (some p) s with
    | error e s1 => rw [bind_of_error hrun, bind_of_error hrun]
    | ok result s1 =>
      have hg : Grows machine [] s s1 := hcalm.ok hrun
      have hplain : t.data.isVar = false := by
        obtain ⟨u, hu, hplain⟩ := hin p List.mem_cons_self
        obtain rfl : u = t := Cell.term.inj (Option.some.inj (hu.symm.trans ht))
        exact hplain
      have hnext : nextOf (some p) s1 = .ok t.next s1 := by
        rw [nextOf, bind_of_ok (deref_eq (hg.keeps.same ht hplain List.not_mem_nil))]
        rfl
      have hinrest : ∀ q ∈ rest, NodeAt s.cells q := fun q hq => hin q (List.mem_cons_of_mem _ hq)
      rw [bind_of_ok hrun, bind_of_ok hrun, bind_of_ok hnext]
      exact ih hg.packed (hg.isSome hh)
        (hrest.keep hg.keeps fun q hq => ⟨hinrest q hq, List.not_mem_nil⟩)
        (fun q hq => hg.keeps.node (hinrest q hq)) (Nat.le_of_succ_le_succ hn) result

/-! ## What the parser makes of a derivation -/

section

variable {machine : Machine} {depth : Nat} {s s1 : HeapState}

/-- Storing `NULL` in a `next` that is `NULL` changes nothing. -/
theorem Lists.setNext_none {p : Ptr} {lists : List (List Ptr)}
    (h : Lists machine s s1 (some p) [p] lists) : setNext p none s1 = .ok () s1 := by
  obtain ⟨-, ⟨data, next⟩, ht, hnext⟩ := h.chain
  obtain rfl : next = none := hnext
  have hput : s1.put p ⟨data, none⟩ = s1 := by
    unfold HeapState.put
    rw [← ht, Function.update_eq_self]
  rw [setNext, bind_of_ok (deref_eq ht)]
  exact congrArg (EStateM.Result.ok ()) hput

theorem buildParameters_append (before : Option Ptr) (l : List TermSyntax) (t : TermSyntax) :
    buildParameters machine depth before (l ++ [t]) = (do
      let ps ← buildParameters machine depth before l
      let p ← buildTerm machine depth t
      setNext p ps
      pure (some p)) := by
  induction l generalizing before with
  | nil => simp only [List.nil_append, buildParameters, pure_bind]
  | cons u l ih => simp only [List.cons_append, buildParameters, ih, bind_assoc]

theorem buildActions_append (before : Option Ptr) (l : List ActionSyntax) (a : ActionSyntax) :
    buildActions machine depth before (l ++ [a]) = (do
      let actions ← buildActions machine depth before l
      let p ← buildAction machine depth a
      setNext p actions
      pure (some p)) := by
  induction l generalizing before with
  | nil => simp only [List.nil_append, buildActions, pure_bind]
  | cons b l ih => simp only [List.cons_append, buildActions, ih, bind_assoc]

mutual

theorem TermDerivation.build_eq (t : TermDerivation) {s : HeapState} (hp : Packed machine s)
    (hh : s.heap.isSome) : t.build machine depth s = buildTerm machine depth t.toSyntax s := by
  cases t with
  | add left right | subtract left right =>
    have hleft := left.build_eq hp hh
    rw [TermDerivation.build, TermDerivation.toSyntax, buildTerm]
    refine bind_congr_at hleft fun l s1 hl => ?_
    obtain ⟨lists, -, h1⟩ := (left.build_ensures depth s hp hh).ok (hleft.trans hl)
    exact bind_congr_at (right.build_eq h1.packed (h1.new.grows.isSome hh)) fun _ _ _ => rfl
  | negate operand =>
    rw [TermDerivation.build, TermDerivation.toSyntax, buildTerm]
    exact bind_congr_at (operand.build_eq hp hh) fun _ _ _ => rfl
  | paren inner =>
    rw [TermDerivation.build, TermDerivation.toSyntax, buildTerm]
    exact inner.build_eq hp hh
  | identifier id | string value | number base digits | boolean value =>
    rw [TermDerivation.build, TermDerivation.toSyntax, buildTerm]
  | functionCall id parameters =>
    rw [TermDerivation.build, TermDerivation.toSyntax, buildTerm]
    refine bind_congr_at rfl fun name s1 hname => ?_
    obtain ⟨q, -, -, h1⟩ := (allocTextTerm_lists hp hh id.name fun _ => rfl).ok hname
    exact bind_congr_at (parameters.build_eq h1.packed (h1.new.grows.isSome hh)) fun _ _ _ => rfl

theorem ParametersDerivation.build_eq (ps : ParametersDerivation) {s : HeapState}
    (hp : Packed machine s) (hh : s.heap.isSome) :
    ps.build machine depth s = buildParameters machine depth none ps.toSyntax s := by
  cases ps with
  | noParameters => rfl
  | moreParameters parameters t =>
    have hps := parameters.build_eq hp hh
    rw [ParametersDerivation.build, ParametersDerivation.toSyntax, buildParameters_append]
    refine bind_congr_at hps fun first s1 hfirst => ?_
    obtain ⟨nodes, lists, -, h1⟩ := (parameters.build_ensures depth s hp hh).ok (hps.trans hfirst)
    exact bind_congr_at (t.build_eq h1.packed (h1.new.grows.isSome hh)) fun _ _ _ => rfl
  | oneParameter t =>
    have ht := t.build_eq hp hh
    rw [ParametersDerivation.build, ParametersDerivation.toSyntax, buildParameters]
    refine bind_congr_at ht fun p s1 hbuild => ?_
    obtain ⟨lists, -, h1⟩ := (t.build_ensures depth s hp hh).ok (ht.trans hbuild)
    rw [bind_of_ok h1.setNext_none]
    rfl

end

theorem ActionDerivation.build_eq (a : ActionDerivation) (hp : Packed machine s)
    (hh : s.heap.isSome) : a.build machine depth s = buildAction machine depth a.toSyntax s := by
  cases a with
  | functionCall id parameters =>
    rw [ActionDerivation.build, ActionDerivation.toSyntax, buildAction]
    refine bind_congr_at rfl fun name s1 hname => ?_
    obtain ⟨q, -, -, h1⟩ := (allocTextTerm_lists hp hh id.name fun _ => rfl).ok hname
    exact bind_congr_at (parameters.build_eq h1.packed (h1.new.grows.isSome hh)) fun _ _ _ => rfl
  | assignment id value =>
    rw [ActionDerivation.build, ActionDerivation.toSyntax, buildAction]
    refine bind_congr_at rfl fun name s1 hname => ?_
    obtain ⟨q, -, -, h1⟩ := (allocTextTerm_lists hp hh id.name fun _ => rfl).ok hname
    exact bind_congr_at (value.build_eq h1.packed (h1.new.grows.isSome hh)) fun _ _ _ => rfl

theorem ActionsDerivation.build_eq (actions : ActionsDerivation) (hp : Packed machine s)
    (hh : s.heap.isSome) :
    actions.build machine depth s = buildActions machine depth none actions.toSyntax s := by
  induction actions with
  | noActions => rfl
  | moreActions actions a ih =>
    rw [ActionsDerivation.build, ActionsDerivation.toSyntax, buildActions_append]
    refine bind_congr_at ih fun first s1 hfirst => ?_
    obtain ⟨nodes, lists, -, h1⟩ := (actions.build_ensures depth hp hh).ok (ih.trans hfirst)
    exact bind_congr_at (a.build_eq h1.packed (h1.new.grows.isSome hh)) fun _ _ _ => rfl

/-- A block without braces is a list of one, which is the same when it is turned round. -/
theorem BlockDerivation.build_eq (block : BlockDerivation) (hp : Packed machine s)
    (hh : s.heap.isSome) (hdepth : 0 < depth) :
    block.build machine depth s = (do
      let actions ← buildActions machine depth none block.toSyntax
      termReverse depth none actions) s := by
  cases block with
  | blockAction a =>
    have ha : a.build machine depth s = _ := a.build_eq hp hh
    simp only [BlockDerivation.build, BlockDerivation.toSyntax, buildActions, bind_assoc, pure_bind]
    refine bind_congr_at ha fun p s1 hbuild => ?_
    obtain ⟨lists, -, h1⟩ := (a.build_ensures depth hp hh).ok (ha.trans hbuild)
    obtain ⟨-, t, ht, hnext⟩ := h1.chain
    obtain ⟨steps, rfl⟩ := Nat.exists_eq_succ_of_ne_zero (Nat.ne_of_gt hdepth)
    have hnext : t.next = none := hnext
    rw [bind_of_ok h1.setNext_none, termReverse, bind_of_ok (deref_eq ht),
      bind_of_ok h1.setNext_none, hnext]
    cases steps <;> rfl
  | blockActions actions => exact bind_congr_at (actions.build_eq hp hh) fun _ _ _ => rfl

/-- A rule runs the block that was written, in a state that the interpreter can come to. -/
theorem evalStatement_rule (hs : Sound machine s) (condition : BooleanSyntax)
    (block : BlockDerivation) (hdepth : 0 < depth) :
    evalStatement machine depth (.rule condition block.toSyntax) s = (do
      let fires ← evalBoolean machine depth condition
      let first ← block.build machine depth
      (if fires then do let _ ← runFunctions machine depth depth none first else pure ())
      pure none) s := by
  rw [evalStatement]
  refine bind_congr_at rfl fun fires s1 hfires => ?_
  have hs1 := ((safe_evalBoolean depth condition hs).ok hfires).1
  rw [← bind_assoc]
  exact bind_congr_at (block.build_eq hs1.packed hs1.heap hdepth).symm fun _ _ _ => rfl

end

/-! ## All the lists -/

/-- Whatever is derived, the lists end, have the nodes of what was written in the order in which it
was written, and have no node in common; a block is run action by action. -/
theorem lists_in_source_order (machine : Machine) (depth : Nat) {s : HeapState}
    (hp : Packed machine s) (hh : s.heap.isSome) :
    (∀ t : TermDerivation, Ensures (t.build machine depth) s
      (fun p s' => ∃ lists, BuiltTerm machine s'.cells t p lists ∧
        Lists machine s s' (some p) [p] lists)
      fun e _ => GivesUpAt machine depth t.calls t.negated e) ∧
    (∀ ps : ParametersDerivation, Ensures (ps.build machine depth) s
      (fun first s' => ∃ nodes lists, BuiltParameters machine s'.cells ps nodes lists ∧
        Lists machine s s' first nodes.reverse lists)
      fun e _ => GivesUpAt machine depth ps.calls ps.negated e) ∧
    (∀ a : ActionDerivation, Ensures (a.build machine depth) s
      (fun p s' => ∃ lists, BuiltAction machine s'.cells a p lists ∧
        Lists machine s s' (some p) [p] lists)
      fun e _ => GivesUpAt machine depth a.calls a.negated e) ∧
    (∀ actions : ActionsDerivation, Ensures (actions.build machine depth) s
      (fun first s' => ∃ nodes lists, BuiltActions machine s'.cells actions nodes lists ∧
        Lists machine s s' first nodes.reverse lists)
      fun e _ => GivesUpAt machine depth actions.calls actions.negated e) ∧
    ∀ block : BlockDerivation, Ensures (block.build machine depth) s
      (fun first s' => ∃ nodes lists, BuiltBlock machine s'.cells block nodes lists ∧
        Lists machine s s' first nodes lists ∧
        ∀ n lastResult, nodes.length ≤ n → runFunctions machine depth n lastResult first s' =
          runEach machine depth nodes lastResult s')
      fun e _ => GivesUp machine depth block.calls
        (block.list.length :: block.calls.map Prod.snd) block.negated e := by
  refine ⟨fun t => t.build_ensures depth s hp hh, fun ps => ps.build_ensures depth s hp hh,
    fun a => a.build_ensures depth hp hh, fun actions => actions.build_ensures depth hp hh,
    fun block => ?_⟩
  refine (block.build_ensures depth hp hh).mono ?_ fun _ _ h => h
  rintro first s' ⟨nodes, lists, hblock, h⟩
  refine ⟨nodes, lists, hblock, h, fun n lastResult hn => ?_⟩
  exact runFunctions_eq h.packed (h.new.grows.isSome hh) depth h.chain
    (fun p hp => h.new.there p (List.mem_append_left _ hp)) hn lastResult

/-- `{ print(1, "a") x = 2 + 3 }` -/
def sampleBlock : BlockDerivation :=
  .blockActions (.moreActions
    (.moreActions .noActions (.functionCall namePrint
      (.moreParameters (.oneParameter (.number 10 [49])) (.string (.ofString "a")))))
    (.assignment letterX (.add (.number 10 [50]) (.number 10 [51]))))

/-- The actions come to a result. -/
def BlockDerivation.builds (block : BlockDerivation) (s : HeapState) : Bool :=
  match block.build plainMachine 4 s with
  | .ok _ _ => true
  | .error _ _ => false

theorem lists_in_source_order_sample :
    ∃ s, Reachable plainMachine s ∧ ∃ first s' nodes lists,
      sampleBlock.build plainMachine 4 s = .ok first s' ∧
      BuiltBlock plainMachine s'.cells sampleBlock nodes lists ∧
      Lists plainMachine s s' first nodes lists := by
  have hcheck : checkRun plainWorld [] (fun s _ => sampleBlock.builds s) = true := by
    decide +kernel
  obtain ⟨s, -, hs, -, hbuilds⟩ := exists_of_checkRun hcheck
  refine ⟨s, hs, ?_⟩
  have hready := hs.ready
  have hblock := (lists_in_source_order plainMachine 4 hready.packed hready.heap).2.2.2.2 sampleBlock
  unfold BlockDerivation.builds at hbuilds
  cases hbuild : sampleBlock.build plainMachine 4 s with
  | ok first s' =>
    obtain ⟨nodes, lists, hbuilt, h, -⟩ := hblock.ok hbuild
    exact ⟨first, s', nodes, lists, rfl, hbuilt, h⟩
  | error e s' =>
    rw [hbuild] at hbuilds
    exact nomatch hbuilds

end NervesInitramfs.TermHeap
