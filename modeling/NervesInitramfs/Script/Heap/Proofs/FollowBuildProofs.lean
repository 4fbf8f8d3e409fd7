import NervesInitramfs.Script.Heap.Proofs.FollowCallProofs
import NervesInitramfs.Script.Heap.Proofs.ListsProofs

/-!
# Proofs: building on the heap follows building on trees

While a statement is parsed, the terms that have been built wait on the stack of the parser, and it is
only their `next` that is stored later. None of them is in a list yet, so that no term that stands for
a tree changes.
-/

namespace NervesInitramfs.TermHeap

open CLib

/-! ## What waits on the stack -/

/-- The list that starts at `first` has been built since `h`, and its nodes may still be linked. -/
structure Row (machine : Machine) (nodes : List Ptr) (h : HeapState) (first : Option Ptr)
    (row : List Ptr) (h' : HeapState) (ts : List Term) (s' : State) : Prop where
  represents : Represents machine (row ++ nodes) h' s'
  grows : Grows machine [] h h'
  fresh : ∀ q ∈ row, h.cells q = none
  nodup : row.Nodup
  chain : Chain h'.cells first row
  denotes : List.Forall₂ (Denotes (row ++ nodes) h'.cells) row ts

/-- What has been built at `p` is linked to nothing. -/
abbrev Stands (machine : Machine) (nodes : List Ptr) (h : HeapState) (p : Ptr) (h' : HeapState)
    (t : Term) (s' : State) : Prop :=
  Row machine nodes h (some p) [p] h' [t] s'

/-- The one side builds what the other builds. -/
def FollowsBuild (machine : Machine) (nodes : List Ptr) (m : HeapInterp Ptr) (m' : Interp Term)
    (h : HeapState) (s : State) : Prop :=
  Refines Excused m h m' s (Stands machine nodes h) (Fails machine)

/-- The nodes are in use. -/
def InUse (h : HeapState) (nodes : List Ptr) : Prop := ∀ q ∈ nodes, h.cells q ≠ none

theorem inUse_nil {h : HeapState} : InUse h [] := List.forall_mem_nil _

section

variable {machine : Machine} {nodes row : List Ptr} {h0 h h1 h2 : HeapState} {s s1 : State} {p : Ptr}
  {first : Option Ptr} {t : Term} {ts : List Term}

theorem InUse.grow (hin : InUse h nodes) (hg : Grows machine [] h h1) : InUse h1 nodes :=
  fun q hq hnone => hin q hq (hg.keeps.taken q hnone)

theorem Denotes.node {cells : Ptr → Option Cell} (hd : Denotes nodes cells p t) :
    NodeAt cells p := by
  cases hd with
  | identifier node _ | string node _ | number node | boolean node | function node _ =>
    exact ⟨_, node, rfl⟩

theorem Row.node (hr : Row machine nodes h first row h1 ts s1) {q : Ptr} (hq : q ∈ row) :
    NodeAt h1.cells q := by
  obtain ⟨i, hi, rfl⟩ := List.getElem_of_mem hq
  have hlen := hr.denotes.length_eq
  exact ((List.forall₂_iff_get.mp hr.denotes).2 i hi (hlen ▸ hi)).node

theorem Row.inUse (hr : Row machine nodes h first row h1 ts s1) (hin : InUse h nodes) :
    InUse h1 (row ++ nodes) := by
  intro q hq
  rcases List.mem_append.mp hq with hq | hq
  · obtain ⟨u, hu, -⟩ := hr.node hq
    rw [hu]
    exact Option.some_ne_none _
  · exact hin.grow hr.grows q hq

theorem Row.apart (hr : Row machine nodes h first row h1 ts s1) (hin : InUse h nodes) :
    ∀ q ∈ row, q ∉ nodes := fun q hq hmem => hin q hmem (hr.fresh q hq)

/-- From an earlier state on. -/
theorem Row.earlier (hr : Row machine nodes h first row h1 ts s1) (hg : Grows machine [] h0 h) :
    Row machine nodes h0 first row h1 ts s1 :=
  ⟨hr.represents, hg.trans hr.grows, fun q hq => hg.keeps.taken q (hr.fresh q hq), hr.nodup,
    hr.chain, hr.denotes⟩

theorem FollowsBuild.earlier {m : HeapInterp Ptr} {m' : Interp Term}
    (hm : FollowsBuild machine nodes m m' h s) (hg : Grows machine [] h0 h) :
    Refines Excused m h m' s (Stands machine nodes h0) (Fails machine) :=
  Refines.mono hm (fun _ _ _ _ hp => hp.earlier hg) fun _ _ _ _ hf => hf

theorem Row.represents_nodes (hr : Row machine nodes h first row h1 ts s1) :
    Represents machine nodes h1 s1 :=
  hr.represents.weaken fun _ hq => List.mem_append_right _ hq

theorem Stands.denotes (hp : Stands machine nodes h p h1 t s1) :
    Denotes (p :: nodes) h1.cells p t := (List.forall₂_cons.mp (Row.denotes hp)).1

/-- What is not linked any more is the list of the parameters of a call, or a block. -/
theorem Row.denotesList (hr : Row machine nodes h first row h1 ts s1) (hin : InUse h nodes) :
    DenotesList nodes h1.cells first ts := by
  have hdenotes : List.Forall₂ (Denotes nodes h1.cells) row ts := hr.denotes.imp fun _ _ hd =>
    hd.weaken fun _ hq => List.mem_append_right _ hq
  have hapart := hr.apart hin
  have hchain := hr.chain
  clear hr
  induction hdenotes generalizing first with
  | nil =>
    obtain rfl : first = none := hchain
    exact .nil
  | cons head _ ih =>
    obtain ⟨rfl, u, hu, hrest⟩ := hchain
    exact .cons hu (hapart _ List.mem_cons_self) head
      (ih (fun q hq => hapart q (List.mem_cons_of_mem _ hq)) hrest)

/-- Links of nodes that are new do not matter to what was there before. -/
theorem Grows.link {touched : List Ptr} (hg : Grows machine [] h h1)
    (hg1 : Grows machine touched h1 h2) (hfresh : ∀ q ∈ touched, h.cells q = none) :
    Grows machine [] h h2 := by
  refine ⟨hg1.heap.trans hg.heap, hg1.packed, fun q str hq => ?_, fun q u hq hplain => ?_,
    fun q hq => hg.keeps.taken q (hg1.keeps.taken q hq)⟩
  · exact hg1.keeps.texts q str (hg.keeps.texts q str hq)
  · have hnot : q ∉ touched := by
      intro hin
      rw [hfresh q hin] at hq
      cases hq
    exact ⟨u.next, hg1.keeps.same (hg.keeps.same hq hplain List.not_mem_nil) hplain hnot, fun _ => rfl⟩

/-- A node that waits is linked. -/
theorem Represents.put (hr : Represents machine nodes h s) (hin : p ∈ nodes) {u : HeapTerm}
    (hu : h.cells p = some (.term u)) (hplain : u.data.isVar = false) (next : Option Ptr) :
    Represents machine nodes (h.put p { u with next := next }) s := by
  have hg := grows_setNext hr.packed hu next
  refine hr.move hg.packed hg.keeps (fun q hq => List.mem_singleton.mp hq ▸ hin)
    (fun _ _ hq => hq) (fun q c hq hvar => ?_) rfl rfl rfl rfl
  refine (put_other ?_).trans hq
  rintro rfl
  have hvaru := hvar u (Option.some.inj (hq.symm.trans hu))
  rw [hplain] at hvaru
  cases hvaru

theorem setNext_eq {u : HeapTerm} (hu : h.cells p = some (.term u)) (next : Option Ptr) :
    setNext p next h = .ok () (h.put p { u with next := next }) := by
  rw [setNext, bind_of_ok (deref_eq hu)]
  rfl

/-- A node that waits is put in front of a list that waits. -/
theorem Row.front (hr : Row machine (p :: nodes) h0 first row h ts s) (hfresh : h0.cells p = none)
    (hin : p ∉ row) (hp : Denotes (p :: (row ++ nodes)) h.cells p t) :
    ∃ h1, setNext p first h = .ok () h1 ∧
      Row machine nodes h0 (some p) (p :: row) h1 (t :: ts) s := by
  have hsame : ∀ q, q ∈ p :: (row ++ nodes) ↔ q ∈ row ++ p :: nodes := fun q =>
    List.perm_middle.symm.mem_iff
  obtain ⟨u, hu, hplain⟩ := hp.node
  have hg : Grows machine [p] h (h.put p { u with next := first }) :=
    grows_setNext hr.represents.packed hu first
  have htouched : ∀ q ∈ [p], q ∈ p :: (row ++ nodes) := fun q hq =>
    List.mem_singleton.mp hq ▸ List.mem_cons_self
  refine ⟨_, setNext_eq hu first, ?_, hr.grows.link hg ?_, ?_, List.nodup_cons.mpr ⟨hin, hr.nodup⟩,
    ⟨rfl, _, put_same, ?_⟩, .cons ?_ ?_⟩
  · exact (hr.represents.weaken fun q hq => (hsame q).mp hq).put List.mem_cons_self hu hplain first
  · intro q hq
    exact List.mem_singleton.mp hq ▸ hfresh
  · intro q hq
    rcases List.mem_cons.mp hq with rfl | hq
    · exact hfresh
    · exact hr.fresh q hq
  · refine hr.chain.keep hg.keeps fun q hq => ⟨hr.node hq, fun hqp => ?_⟩
    exact hin (List.mem_singleton.mp hqp ▸ hq)
  · exact hp.move hg.keeps htouched fun _ _ hq => hq
  · exact hr.denotes.imp fun _ _ hd =>
      (hd.weaken fun q hq => (hsame q).mp hq).move hg.keeps htouched fun _ _ hq => hq

/-- The second operand of an operator has been built after the first. -/
theorem Stands.operands {r : Ptr} {t' : Term} (hp : Stands machine nodes h0 p h t s)
    (hr : Stands machine (p :: nodes) h r h1 t' s1) :
    ∃ h2, setNext p (some r) h1 = .ok () h2 ∧
      Row machine nodes h0 (some p) [p, r] h2 [t, t'] s1 := by
  have hfresh := hr.fresh r List.mem_cons_self
  have hin : p ∉ [r] := by
    intro hmem
    obtain rfl := List.mem_singleton.mp hmem
    obtain ⟨u, hu, -⟩ := hp.node List.mem_cons_self
    rw [hfresh] at hu
    cases hu
  refine (hr.earlier hp.grows).front (hp.fresh p List.mem_cons_self) hin ?_
  refine ((hp.denotes.fresh hfresh).keep hr.grows.keeps).weaken fun q hq => ?_
  exact (List.Perm.swap r p nodes).mem_iff.mp hq

/-- What has been built while a list waits is put in front of it. -/
theorem Row.onto (hr : Row machine nodes h0 first row h ts s)
    (hp : Stands machine (row ++ nodes) h p h1 t s1) :
    ∃ h2, setNext p first h1 = .ok () h2 ∧
      Row machine nodes h0 (some p) (p :: row) h2 (t :: ts) s1 := by
  have hfresh := hp.fresh p List.mem_cons_self
  have hsame : ∀ q ∈ row ++ p :: nodes, q ∈ p :: (row ++ nodes) := fun q hq =>
    List.perm_middle.mem_iff.mp hq
  refine Row.front ⟨hp.represents.weaken hsame, hr.grows.trans hp.grows, hr.fresh, hr.nodup, ?_, ?_⟩
    (hr.grows.keeps.taken p hfresh) ?_ hp.denotes
  · exact hr.chain.keep hp.grows.keeps fun q hq => ⟨hr.node hq, List.not_mem_nil⟩
  · exact hr.denotes.imp fun _ _ hd => ((hd.fresh hfresh).keep hp.grows.keeps).weaken hsame
  · intro hmem
    obtain ⟨u, hu, -⟩ := hr.node hmem
    rw [hfresh] at hu
    cases hu

/-- `term_reverse` goes through a list that waits. -/
theorem termReverse_represents {rv : Option Ptr} {row : List Ptr} (steps : Nat)
    (hr : Represents machine nodes h s) (hsub : ∀ q ∈ row, q ∈ nodes) (hchain : Chain h.cells rv row)
    (hnodup : row.Nodup) (hnode : ∀ q ∈ row, NodeAt h.cells q) (prev : Option Ptr) :
    Ensures (termReverse steps prev rv) h (fun _ h' => Represents machine nodes h' s)
      fun e _ => Excused e := by
  induction row generalizing h prev rv steps with
  | nil =>
    obtain rfl : rv = none := hchain
    cases steps
    · exact hr
    · exact hr
  | cons q rest ih =>
    obtain ⟨rfl, u, hu, hrest⟩ := hchain
    cases steps with
    | zero => exact Or.inr rfl
    | succ steps =>
      obtain ⟨v, hv, hplain⟩ := hnode q List.mem_cons_self
      obtain rfl : v = u := Cell.term.inj (Option.some.inj (hv.symm.trans hu))
      obtain ⟨hq, hnodup⟩ := List.nodup_cons.mp hnodup
      rw [termReverse, ensures_bind_of_ok (deref_eq hu), ensures_bind_of_ok (setNext_eq hu prev)]
      have hg := grows_setNext hr.packed hu prev
      have hnode1 : ∀ a ∈ rest, NodeAt h.cells a := fun a ha => hnode a (List.mem_cons_of_mem _ ha)
      refine ih steps (hr.put (hsub q List.mem_cons_self) hu hplain prev)
        (fun a ha => hsub a (List.mem_cons_of_mem _ ha)) ?_ hnodup
        (fun a ha => hg.keeps.node (hnode1 a ha)) (some q)
      refine hrest.keep hg.keeps fun a ha => ⟨hnode1 a ha, fun haq => ?_⟩
      exact hq (List.mem_singleton.mp haq ▸ ha)

/-- The list has been built from its end on. -/
theorem Row.reverse (hr : Row machine nodes h0 first row h ts s) (steps : Nat) :
    Ensures (termReverse steps none first) h
      (fun r h1 => Row machine nodes h0 r row.reverse h1 ts.reverse s ∧ Keeps row h.cells h1.cells)
      fun e _ => Excused e := by
  have hnodup : (row ++ []).Nodup := (List.append_nil row).symm ▸ hr.nodup
  have hnode : ∀ q ∈ row ++ [], NodeAt h.cells q := fun q hq => hr.node (List.append_nil row ▸ hq)
  have hnil : Chain h.cells none [] := rfl
  have hrow := termReverse_ensures steps hr.represents.packed hr.chain hnil hnodup hnode
  have hrep := termReverse_represents steps hr.represents (fun _ hq => List.mem_append_left _ hq)
    hr.chain hr.nodup (fun _ hq => hr.node hq) none
  refine (hrow.and hrep).mono ?_ fun _ _ he => he.2
  rintro r h1 ⟨⟨hg, hchain⟩, hr1⟩
  have hsame : ∀ q ∈ row.reverse ++ nodes, q ∈ row ++ nodes := fun q hq =>
    ((List.reverse_perm row).append_right nodes).mem_iff.mp hq
  refine ⟨⟨hr1.weaken hsame, hr.grows.link hg hr.fresh,
    fun q hq => hr.fresh q (List.mem_reverse.mp hq), List.nodup_reverse.mpr hr.nodup, ?_,
    List.forall₂_reverse_iff.mpr ?_⟩, hg.keeps⟩
  · rwa [List.append_nil] at hchain
  · exact hr.denotes.imp fun _ _ hd =>
      (hd.move hg.keeps (fun q hq => List.mem_append_left _ hq) fun _ _ hq => hq).weaken hsame

end

/-! ## New terms -/

section

variable {machine : Machine} {nodes row : List Ptr} {h0 h : HeapState} {s : State}
  {first : Option Ptr} {t : Term} {ts : List Term}

/-- A new node without parameters. -/
theorem newNode_stands {m : HeapInterp Ptr} (hr : Represents machine nodes h s)
    (halloc : Ensures m h (fun p h1 => Allocates machine h h1 ∧ h.cells p = none ∧
      Chain h1.cells (some p) [p] ∧ Denotes (p :: nodes) h1.cells p t) fun e _ => Excused e) :
    Ensures m h (fun p h1 => Stands machine nodes h p h1 t s) fun e _ => Excused e := by
  refine halloc.mono ?_ fun _ _ he => he
  rintro p h1 ⟨ha, hfresh, halone, hd⟩
  refine ⟨(hr.fresh hfresh).alloc ha, ha.grows, fun q hq => ?_, List.nodup_singleton p, halone,
    .cons hd .nil⟩
  exact List.mem_singleton.mp hq ▸ hfresh

theorem newText_stands {data : Ptr → TermData} {str : CString} (hr : Represents machine nodes h s)
    (hd : ∀ cells p q, cells p = some (.term ⟨data q, none⟩) → cells q = some (.text str) →
      Denotes (p :: nodes) cells p t) :
    Ensures (allocTextTerm machine data (allocString machine str)) h
      (fun p h1 => Stands machine nodes h p h1 t s) fun e _ => Excused e := by
  refine newNode_stands hr
    ((allocTextTerm_allocates hr.heap hr.packed data str).mono ?_ fun _ _ he => he)
  rintro p h1 ⟨ha, hfresh, q, hnode, htext⟩
  exact ⟨ha, hfresh, ⟨rfl, _, hnode, rfl⟩, hd h1.cells p q hnode htext⟩

theorem newLeaf_stands {data : TermData} (hr : Represents machine nodes h s)
    (hd : ∀ cells p, cells p = some (.term ⟨data, none⟩) → Denotes (p :: nodes) cells p t) :
    Ensures (allocTerm machine data) h (fun p h1 => Stands machine nodes h p h1 t s)
      fun e _ => Excused e := by
  refine newNode_stands hr ((allocTerm_allocates hr.heap hr.packed data).mono ?_ fun _ _ he => he)
  rintro p h1 ⟨ha, hfresh, hnode⟩
  exact ⟨ha, hfresh, ⟨rfl, _, hnode, rfl⟩, hd h1.cells p hnode⟩

theorem termNewIdentifier_stands (hr : Represents machine nodes h s) (name : CString) :
    Ensures (termNewIdentifier machine name) h
      (fun p h1 => Stands machine nodes h p h1 (.identifier name) s) fun e _ => Excused e :=
  newText_stands hr fun _ _ _ hnode htext => .identifier hnode htext

theorem followsBuild_pure {m : HeapInterp Ptr}
    (hm : Ensures m h (fun p h1 => Stands machine nodes h p h1 t s) fun e _ => Excused e) :
    FollowsBuild machine nodes m (pure t) h s :=
  hm.mono (fun _ _ hp => ⟨t, s, rfl, hp⟩) fun _ _ he => Or.inl he

/-! ## Calls -/

theorem countParameters_denotes (steps : Nat) (hp : DenotesList nodes h.cells first ts) :
    Ensures (countParameters steps first) h (fun n h1 => h1 = h ∧ n = ts.length)
      fun e _ => Excused e := by
  induction steps generalizing first ts with
  | zero =>
    cases hp with
    | nil => exact ⟨rfl, rfl⟩
    | cons _ _ _ _ => exact Or.inr rfl
  | succ steps ih =>
    cases hp with
    | nil => exact ⟨rfl, rfl⟩
    | cons node _ _ tail =>
      rw [countParameters, ensures_bind_of_ok (deref_eq node)]
      refine Ensures.bind (ih tail) ?_
      rintro n h ⟨rfl, rfl⟩
      exact ⟨rfl, rfl⟩

/-- The call of a function by name, which both sides know or do not know. -/
theorem follows_buildCall (depth : Nat) (name : CString)
    (hrow : Row machine nodes h0 first row h ts s) (hin : InUse h0 nodes) :
    Refines Excused (buildCall machine depth name first) h (NervesInitramfs.buildCall name ts) s
      (Stands machine nodes h0) (Fails machine) := by
  have hr := hrow.represents_nodes
  have hp := hrow.denotesList hin
  unfold buildCall termNewFun
  rw [bind_assoc]
  refine Refines.bind_ensures (countParameters_denotes depth hp) ?_
  rintro n h ⟨rfl, rfl⟩
  rw [NervesInitramfs.buildCall, NervesInitramfs.termNewFun]
  cases lookupFunction name ts.length with
  | none => exact refines_throw hr.fails
  | some handler =>
    simp only [bind_assoc, pure_bind, Option.map_some, bind_pure]
    refine FollowsBuild.earlier (followsBuild_pure (newNode_stands hr
      ((allocTerm_allocates hr.heap hr.packed _).mono ?_ fun _ _ he => he))) hrow.grows
    rintro p h1 ⟨ha, hfresh, hnode⟩
    refine ⟨ha, hfresh, ⟨rfl, _, hnode, rfl⟩, .function hnode ?_⟩
    refine hp.move (keeps_of_kept ha.kept : Keeps [] _ _) (List.forall_mem_nil _) fun q hq hnot hin => ?_
    rcases List.mem_cons.mp hin with rfl | hin
    · exact hq hfresh
    · exact hnot hin

/-- The call by the identifier that was read before the parameters. -/
theorem follows_callNamed (depth : Nat) {id : Ptr} {name : CString}
    (hid : Denotes nodes h.cells id (.identifier name))
    (hrow : Row machine nodes h0 first row h ts s) (hin : InUse h0 nodes) :
    Refines Excused (callNamed machine depth id first) h
      (NervesInitramfs.buildCall name ts.reverse) s (Stands machine nodes h0) (Fails machine) := by
  cases hid with
  | identifier node text =>
    refine refines_bind_left (deref_eq node) ?_
    refine Refines.bind_ensures (hrow.reverse depth) ?_
    rintro reversed h1 ⟨hrow1, hk⟩
    refine refines_bind_left (textAt_eq (hk.texts _ _ text)) ?_
    exact follows_buildCall depth name hrow1 hin

end

/-! ## The actions of the grammar -/

section

variable {machine : Machine} {nodes row : List Ptr} {h0 h : HeapState} {s : State}
  {first : Option Ptr} {ts : List Term} (depth : Nat)

/-- Each of a sequence of terms is put in front of those before it. -/
theorem follows_onto {m : HeapInterp Ptr} {m' : Interp Term}
    {f : Option Ptr → HeapInterp (Option Ptr)} {g : Interp (List Term)}
    (hrow : Row machine nodes h0 first row h ts s) (hm : FollowsBuild machine (row ++ nodes) m m' h s)
    (hf : ∀ p h1 t s1, Row machine nodes h0 (some p) (p :: row) h1 (t :: ts) s1 →
      Refines Excused (f (some p)) h1 g s1
        (fun r h2 us s2 => ∃ row', Row machine nodes h0 r row' h2 (us.reverse ++ t :: ts) s2)
        (Fails machine)) :
    Refines Excused (do
        let p ← m
        setNext p first
        f (some p)) h
      (do
        let first ← m'
        let others ← g
        pure (first :: others)) s
      (fun r h1 us s1 => ∃ row', Row machine nodes h0 r row' h1 (us.reverse ++ ts) s1)
      (Fails machine) := by
  refine Refines.bind hm ?_
  intro p h1 t s1 hp
  obtain ⟨h2, hset, hrow2⟩ := hrow.onto hp
  refine refines_bind_left hset ?_
  rw [← bind_pure (f (some p))]
  refine Refines.bind (hf p h2 t s1 hrow2) ?_
  rintro r h3 us s3 ⟨row', hrow3⟩
  refine refines_pure ⟨row', ?_⟩
  rwa [List.reverse_cons, List.append_assoc]

/-- Both operands are built and the function is called with them. -/
theorem follows_operator {l r : HeapInterp Ptr} {l' r' : Interp Term} (name : CString)
    (hin : InUse h nodes) (hl : FollowsBuild machine nodes l l' h s)
    (hr : ∀ p h1 s1 t, Stands machine nodes h p h1 t s1 →
      FollowsBuild machine (p :: nodes) r r' h1 s1) :
    FollowsBuild machine nodes (do
        let p ← l
        let q ← r
        setNext p (some q)
        buildCall machine depth name (some p))
      (do
        let t ← l'
        let u ← r'
        NervesInitramfs.buildCall name [t, u]) h s := by
  refine Refines.bind hl ?_
  intro p h1 t s1 hp
  refine Refines.bind (hr p h1 s1 t hp) ?_
  intro q h2 u s2 hq
  obtain ⟨h3, hset, hrow⟩ := hp.operands hq
  exact refines_bind_left hset (follows_buildCall depth name hrow hin)

/-- A call with written parameters. -/
theorem follows_namedCall {m : HeapInterp (Option Ptr)} {m' : Interp (List Term)} (name : CString)
    (hr : Represents machine nodes h s) (hin : InUse h nodes)
    (hm : ∀ h1 s1, Row machine nodes h1 none [] h1 [] s1 → InUse h1 nodes →
      Refines Excused m h1 m' s1
        (fun r h2 us s2 => ∃ row', Row machine nodes h1 r row' h2 (us.reverse ++ []) s2)
        (Fails machine)) :
    FollowsBuild machine nodes (do
        let id ← termNewIdentifier machine name
        let ps ← m
        callNamed machine depth id ps)
      (do
        let ps ← m'
        NervesInitramfs.buildCall name ps) h s := by
  refine Refines.bind_ensures (termNewIdentifier_stands hr name) ?_
  intro id h1 hid
  have hrow : Row machine nodes h1 none [] h1 [] s :=
    ⟨hid.represents_nodes, .refl hid.represents.packed, (List.forall_mem_nil _), List.nodup_nil, rfl, .nil⟩
  refine Refines.bind (hm h1 s hrow (hin.grow hid.grows)) ?_
  rintro ps h2 us s2 ⟨row', hps⟩
  have hname : Denotes nodes h2.cells id (.identifier name) :=
    (hid.denotes.weaken fun _ hq => List.mem_cons_of_mem _ hq).keep hps.grows.keeps
  have hcall := follows_callNamed depth hname (hps.earlier hid.grows) hin
  rwa [List.append_nil, List.reverse_reverse] at hcall

mutual

theorem follows_buildTerm (t : TermSyntax) {nodes : List Ptr} {h : HeapState} {s : State}
    (hr : Represents machine nodes h s) (hin : InUse h nodes) :
    FollowsBuild machine nodes (buildTerm machine depth t)
      (NervesInitramfs.buildTerm machine depth t) h s := by
  cases t with
  | add left right =>
    refine follows_operator depth _ hin (follows_buildTerm left hr hin) ?_
    intro p h1 s1 t hp
    exact follows_buildTerm right hp.represents (hp.inUse hin)
  | subtract left right =>
    refine follows_operator depth _ hin (follows_buildTerm left hr hin) ?_
    intro p h1 s1 t hp
    exact follows_buildTerm right hp.represents (hp.inUse hin)
  | neg operand =>
    refine Refines.bind (follows_buildTerm operand hr hin) ?_
    intro p h1 t s1 hp
    refine Refines.bind (follows_termToNumber (follows_termResolve machine depth)
      hp.represents_nodes (.term (hp.denotes.weaken fun _ hq => List.mem_cons_of_mem _ hq))) ?_
    rintro n h2 _ s2 ⟨hr2, hg2, rfl⟩
    exact FollowsBuild.earlier
      (followsBuild_pure (newLeaf_stands hr2 fun _ _ hnode => .number hnode)) (hp.grows.trans hg2)
  | paren inner => exact follows_buildTerm inner hr hin
  | identifier id => exact followsBuild_pure (termNewIdentifier_stands hr id.name)
  | string value =>
    unfold buildTerm termNewQstring
    rw [allocQstring_quoted]
    exact followsBuild_pure (newText_stands hr fun _ _ _ hnode htext => .string hnode htext)
  | number base digits => exact followsBuild_pure (newLeaf_stands hr fun _ _ hnode => .number hnode)
  | boolean value => exact followsBuild_pure (newLeaf_stands hr fun _ _ hnode => .boolean hnode)
  | functionCall id parameters =>
    refine follows_namedCall depth id.name hr hin ?_
    intro h1 s1 hrow hin1
    exact follows_buildParameters parameters hrow hin1

theorem follows_buildParameters (parameters : List TermSyntax) {nodes row : List Ptr}
    {h0 h : HeapState} {s : State} {first : Option Ptr} {ts : List Term}
    (hrow : Row machine nodes h0 first row h ts s) (hin : InUse h0 nodes) :
    Refines Excused (buildParameters machine depth first parameters) h
      (buildTerms machine depth parameters) s
      (fun r h1 us s1 => ∃ row', Row machine nodes h0 r row' h1 (us.reverse ++ ts) s1)
      (Fails machine) := by
  cases parameters with
  | nil => exact refines_pure ⟨row, hrow⟩
  | cons t rest =>
    refine follows_onto (f := (buildParameters machine depth · rest)) hrow (follows_buildTerm t hrow.represents (hrow.inUse hin)) ?_
    intro p h1 u s1 hrow1
    exact follows_buildParameters rest hrow1 hin

end

theorem follows_evalBoolean (b : BooleanSyntax) {h : HeapState} {s : State}
    (hr : Represents machine [] h s) :
    Follows machine [] (evalBoolean machine depth b) (NervesInitramfs.evalBoolean machine depth b) h s
      fun fires _ fires' => fires = fires' := by
  have hresolve := follows_termResolve machine depth
  have hbuild : ∀ t {h : HeapState} {s : State}, Represents machine [] h s →
      Follows machine [] (buildTerm machine depth t) (NervesInitramfs.buildTerm machine depth t) h s
        fun p h1 t' => Denotes [] h1.cells p t' := fun t h s hr =>
    (follows_buildTerm depth t hr inUse_nil).mono (fun _ _ _ _ hp =>
      ⟨hp.represents_nodes, hp.grows, hp.denotes.weaken (List.forall_mem_nil _)⟩) fun _ _ _ _ hf => hf
  induction b generalizing h s with
  | term t =>
    refine (hbuild t hr).bind ?_
    intro p h1 t' s1 hr1 hg1 hp
    exact follows_termToBoolean hresolve hr1 (.term hp)
  | paren inner ih => exact ih hr
  | comparison relation left right =>
    refine (hbuild left hr).bind ?_
    intro p h1 t s1 hr1 hg1 hp
    refine (hbuild right hr1).bind ?_
    intro q h2 u s2 hr2 hg2 hq
    refine (follows_termCompare hresolve hr2 (.term (hp.keep hg2.keeps)) (.term hq)).bind ?_
    rintro n h3 _ s3 hr3 - rfl
    exact follows_pure hr3 rfl
  | not inner ih =>
    refine (ih hr).bind ?_
    rintro a h1 _ s1 hr1 - rfl
    exact follows_pure hr1 rfl
  | and left right ihl ihr =>
    refine (ihl hr).bind ?_
    rintro a h1 _ s1 hr1 - rfl
    refine (ihr hr1).bind ?_
    rintro b h2 _ s2 hr2 - rfl
    exact follows_pure hr2 rfl
  | or left right ihl ihr =>
    refine (ihl hr).bind ?_
    rintro a h1 _ s1 hr1 - rfl
    refine (ihr hr1).bind ?_
    rintro b h2 _ s2 hr2 - rfl
    exact follows_pure hr2 rfl

theorem follows_buildAction (a : ActionSyntax) (hr : Represents machine nodes h s)
    (hin : InUse h nodes) :
    FollowsBuild machine nodes (buildAction machine depth a)
      (NervesInitramfs.buildAction machine depth a) h s := by
  cases a with
  | functionCall id parameters =>
    refine follows_namedCall depth id.name hr hin ?_
    intro h1 s1 hrow hin1
    exact follows_buildParameters depth parameters hrow hin1
  | assignment id value =>
    have hname := followsBuild_pure (termNewIdentifier_stands hr id.name)
    refine follows_operator depth _ hin hname ?_
    intro p h1 s1 t hp
    exact follows_buildTerm depth value hp.represents (hp.inUse hin)

theorem follows_buildActions (actions : List ActionSyntax)
    (hrow : Row machine nodes h0 first row h ts s) (hin : InUse h0 nodes) :
    Refines Excused (buildActions machine depth first actions) h
      (NervesInitramfs.buildActions machine depth actions) s
      (fun r h1 us s1 => ∃ row', Row machine nodes h0 r row' h1 (us.reverse ++ ts) s1)
      (Fails machine) := by
  induction actions generalizing h s first row ts with
  | nil => exact refines_pure ⟨row, hrow⟩
  | cons a rest ih =>
    refine follows_onto (f := (buildActions machine depth · rest)) hrow (follows_buildAction depth a hrow.represents (hrow.inUse hin)) ?_
    intro p h1 t s1 hrow1
    exact ih hrow1

end

end NervesInitramfs.TermHeap
