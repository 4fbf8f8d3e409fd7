import NervesInitramfs.Script.Heap.Proofs.AllocProofs
import NervesInitramfs.Script.Proofs.AssignProofs

/-!
# Proofs: what collecting the heap keeps

The table of variables is copied from the old heap into the new one, variable by variable, and comes
out in the reverse order. A variable is copied with its name and its value, so that nothing in the
new table points back.
-/

namespace NervesInitramfs.TermHeap

open CLib

/-! ## The table of variables -/

/-- A variable: where it is, its name, and where its value is. -/
structure Entry where
  node : Ptr
  namePtr : Ptr
  name : CString
  value : Option Ptr

/-- The list of variables that a pointer leads to. -/
inductive Table (cells : Ptr → Option Cell) : Option Ptr → List Entry → Prop
  | nil : Table cells none []
  | cons {p namePtr : Ptr} {name : CString} {value next : Option Ptr} {rest : List Entry}
    (node : cells p = some (.term ⟨.var namePtr value, next⟩))
    (text : cells namePtr = some (.text name)) (more : Table cells next rest) :
    Table cells (some p) (⟨p, namePtr, name, value⟩ :: rest)

/-- The string at an address. -/
def stringAt (cells : Ptr → Option Cell) (p : Ptr) : Option CString :=
  match cells p with
  | some (.text s) => some s
  | _ => none

/-- What a term says, if it is no call and no variable. -/
def TermData.content (cells : Ptr → Option Cell) : TermData → Option Term
  | .identifier q => (stringAt cells q).map .identifier
  | .string q => (stringAt cells q).map .string
  | .number n => some (.number n)
  | .boolean b => some (.boolean b)
  | .function _ _ | .var _ _ => none

/-- What the term at an address says. -/
def contentAt (cells : Ptr → Option Cell) (p : Ptr) : Option Term :=
  match cells p with
  | some (.term t) => t.data.content cells
  | _ => none

/-- The pointer to the string of a term. -/
def TermData.string? : TermData → Option Ptr
  | .identifier q | .string q => some q
  | _ => none

def TermData.isVar : TermData → Bool
  | .var _ _ => true
  | _ => false

/-- The value of a variable, if it has one. -/
def Entry.content (cells : Ptr → Option Cell) (e : Entry) : CString × Option Term :=
  (e.name, e.value.bind (contentAt cells))

/-- The variable has a value that can be read. -/
def Entry.Readable (cells : Ptr → Option Cell) (e : Entry) : Prop :=
  ∃ p t, e.value = some p ∧ cells p = some (.term t) ∧
    ∀ q, t.data.string? = some q → ∃ str, cells q = some (.text str)

/-- All that a variable points to is in one heap. -/
structure Entry.Inside (cells : Ptr → Option Cell) (heap : Nat) (e : Entry) : Prop where
  node : e.node.heap = heap
  name : e.namePtr.heap = heap
  value : ∀ p, e.value = some p → p.heap = heap ∧ ∃ t, cells p = some (.term t) ∧
    ∀ q, t.data.string? = some q → q.heap = heap

/-- A value says this, or there is none. -/
def Says (cells : Ptr → Option Cell) (value : Option Ptr) (content : Option Term) : Prop :=
  (value = none ∧ content = none) ∨
    ∃ p t, value = some p ∧ contentAt cells p = some t ∧ content = some t

section

variable {cells cells' : Ptr → Option Cell} {p : Option Ptr} {l : List Entry}

/-- Only variables and strings matter to a table. -/
theorem Table.congr (h : Table cells p l)
    (hkept : ∀ q c, cells q = some c → (∀ t, c = .term t → t.data.isVar) → cells' q = some c) :
    Table cells' p l := by
  induction h with
  | nil => exact .nil
  | cons node text _ ih =>
    refine .cons (hkept _ _ node ?_) (hkept _ _ text nofun) ih
    rintro _ ⟨⟩
    rfl

theorem stringAt_eq {q : Ptr} {str : CString} :
    stringAt cells q = some str ↔ cells q = some (.text str) := by
  unfold stringAt
  split
  · rename_i s heq
    simp [heq]
  · rename_i hne
    simp only [reduceCtorEq, false_iff]
    exact hne str

theorem contentAt_eq {q : Ptr} {t : HeapTerm} (h : cells q = some (.term t)) :
    contentAt cells q = t.data.content cells := by
  rw [contentAt, h]

theorem contentAt_kept {q : Ptr} {t : Term} (h : contentAt cells q = some t)
    (hkept : ∀ q c, cells q = some c → cells' q = some c) : contentAt cells' q = some t := by
  have hstring : ∀ r str, stringAt cells r = some str → stringAt cells' r = some str := by
    intro r str hr
    exact stringAt_eq.mpr (hkept _ _ (stringAt_eq.mp hr))
  rcases hc : cells q with _ | ⟨u⟩ | str
  · simp [contentAt, hc] at h
  · rw [contentAt_eq hc] at h
    rw [contentAt_eq (hkept _ _ hc)]
    cases hdata : u.data with
    | identifier r | string r =>
      rw [hdata] at h
      obtain ⟨str, hstr, rfl⟩ := Option.map_eq_some_iff.mp h
      rw [TermData.content, hstring r str hstr]
      rfl
    | number _ | boolean _ | function _ _ | var _ _ => rwa [hdata] at h
  · simp [contentAt, hc] at h

end

/-! ## Reading the table -/

section

variable {s : HeapState} {p : Option Ptr} {l : List Entry} {steps : Nat}

theorem deref_eq {q : Ptr} {t : HeapTerm} (h : s.cells q = some (.term t)) :
    deref (some q) s = .ok t s := by
  have hget : (get : HeapInterp HeapState) s = .ok s s := rfl
  rw [deref, bind_of_ok hget, h]
  rfl

theorem textAt_eq {q : Ptr} {str : CString} (h : s.cells q = some (.text str)) :
    textAt q s = .ok str s := by
  have hget : (get : HeapInterp HeapState) s = .ok s s := rfl
  rw [textAt, bind_of_ok hget, h]
  rfl

theorem findVariable_eq (h : Table s.cells p l) (hsteps : l.length ≤ steps) (name : CString) :
    findVariable name steps p s =
      .ok ((l.find? fun e => e.name = name).map fun e => (e.node, e.value)) s := by
  induction h generalizing steps with
  | nil =>
    cases steps
    · rfl
    · rfl
  | @cons q namePtr str value next rest node text more ih =>
    obtain ⟨steps, rfl⟩ : ∃ n, steps = n + 1 := ⟨steps - 1, by simp at hsteps; omega⟩
    rw [findVariable, bind_of_ok (deref_eq node)]
    simp only
    rw [bind_of_ok (textAt_eq text)]
    by_cases hname : str = name
    · rw [if_pos (strcmp_eq_zero.mpr hname)]
      simp [hname]
      rfl
    · have hne : ¬ strcmp str name = 0 := fun h => hname (strcmp_eq_zero.mp h)
      rw [if_neg hne, ih (by simpa using hsteps)]
      simp [hname]

theorem getVariableImpl_eq (h : Table s.cells s.vars l) (hsteps : l.length ≤ steps)
    (name : CString) : getVariableImpl steps name s =
      .ok ((l.find? fun e => e.name = name).map fun e => (e.node, e.value)) s := by
  have hget : (get : HeapInterp HeapState) s = .ok s s := rfl
  rw [getVariableImpl, bind_of_ok hget]
  exact findVariable_eq h hsteps name

end

/-! ## Copying -/

/-- What a copy of a value takes up. -/
def copySize (machine : Machine) : Option Term → Nat
  | some (.identifier str) | some (.string str) => termSize machine + textSize str
  | some (.number _) | some (.boolean _) => termSize machine
  | some (.function _ _) | none => 0

/-- What a variable and a copy of its value take up. -/
def entrySize (machine : Machine) (c : CString × Option Term) : Nat :=
  termSize machine + textSize c.1 + copySize machine c.2

/-- While the heap is collected, variables with these contents have been copied into the new heap,
and the old ones are as they were. -/
structure Copying (machine : Machine) (s0 : HeapState) (h : Nat)
    (contents : List (CString × Option Term)) (s : HeapState) : Prop where
  heap : s.heap = some h
  packed : Packed machine s
  old : ∀ p, p.heap ≠ h → s.cells p = s0.cells p
  mallocs : s.mallocs = s0.mallocs
  table : ∃ l, Table s.cells s.vars l ∧ (∀ e ∈ l, e.Inside s.cells h) ∧
    List.Forall₂ (fun e c => e.name = c.1 ∧ Says s.cells e.value c.2) l contents

section

variable {machine : Machine} {s0 s s' : HeapState} {h : Nat}
  {contents : List (CString × Option Term)}

theorem Says.kept {value : Option Ptr} {content : Option Term} (hs : Says s.cells value content)
    (hkept : ∀ q c, s.cells q = some c → s'.cells q = some c) : Says s'.cells value content := by
  rcases hs with hs | ⟨p, t, hp, ht, hc⟩
  · exact Or.inl hs
  · exact Or.inr ⟨p, t, hp, contentAt_kept ht hkept, hc⟩

theorem Entry.Inside.kept {e : Entry} (he : e.Inside s.cells h)
    (hkept : ∀ q c, s.cells q = some c → s'.cells q = some c) : e.Inside s'.cells h := by
  refine ⟨he.node, he.name, fun p hp => ?_⟩
  obtain ⟨hheap, t, ht, htext⟩ := he.value p hp
  exact ⟨hheap, t, hkept _ _ ht, htext⟩

/-- New blocks do not matter to what has been copied. -/
theorem Copying.grow (hc : Copying machine s0 h contents s) (hheap : s'.heap = s.heap)
    (hpacked : Packed machine s') (hother : ∀ p, p.heap ≠ h → s'.cells p = s.cells p)
    (hkept : ∀ q c, s.cells q = some c → s'.cells q = some c) (hvars : s'.vars = s.vars)
    (hmallocs : s'.mallocs = s.mallocs) : Copying machine s0 h contents s' := by
  obtain ⟨l, htable, hinside, hsays⟩ := hc.table
  refine ⟨hheap.trans hc.heap, hpacked, fun p hp => (hother p hp).trans (hc.old p hp),
    hmallocs.trans hc.mallocs, l, ?_, fun e he => (hinside e he).kept hkept, ?_⟩
  · rw [hvars]
    exact htable.congr fun q c hq _ => hkept q c hq
  · exact hsays.imp fun e c he => ⟨he.1, he.2.kept hkept⟩

theorem Copying.pushText (hc : Copying machine s0 h contents s) {t : HeapTerm} {str : CString}
    (hroom : s.heapIndex + termSize machine + textSize str ≤ heapSize) :
    Copying machine s0 h contents (s.pushText machine h t str) :=
  hc.grow rfl (hc.packed.pushText hroom) (fun _ hp => pushText_other hp)
    (fun _ _ hq => hc.packed.pushText_kept hc.heap
      (Nat.le_trans (Nat.le_add_right _ _) hroom) hq) rfl rfl

theorem Copying.pushTerm (hc : Copying machine s0 h contents s) {t : HeapTerm}
    (hroom : s.heapIndex + termSize machine ≤ heapSize) :
    Copying machine s0 h contents (s.push machine h (.term t)) :=
  hc.grow rfl (hc.packed.push hroom)
    (fun _ hp => push_other fun heq => hp (congrArg Ptr.heap heq))
    (fun _ _ hq => hc.packed.push_kept hc.heap hq) rfl rfl

/-- A value is copied. -/
structure Duped (machine : Machine) (s0 : HeapState) (h : Nat)
    (contents : List (CString × Option Term)) (content : Option Term) (i : Nat) (value : Option Ptr)
    (s : HeapState) : Prop where
  copying : Copying machine s0 h contents s
  reads : Says s.cells value content
  inside : ∀ p, value = some p → p.heap = h ∧ ∃ t, s.cells p = some (.term t) ∧
    ∀ q, t.data.string? = some q → q.heap = h
  index : s.heapIndex = i + copySize machine content

theorem termDupe_ensures (hc : Copying machine s0 h contents s) {p : Ptr} {t : HeapTerm}
    (hp : s0.cells p = some (.term t)) (hph : p.heap ≠ h)
    (htext : ∀ q, t.data.string? = some q → q.heap ≠ h ∧ ∃ str, s0.cells q = some (.text str)) :
    Ensures (termDupe machine (some p)) s
      (Duped machine s0 h contents (t.data.content s0.cells) s.heapIndex)
      fun e _ => e = .outOfHeap ∧
        heapSize < s.heapIndex + copySize machine (t.data.content s0.cells) := by
  have hread : deref (some p) s = .ok t s := deref_eq ((hc.old p hph).trans hp)
  have hstring : ∀ q, t.data.string? = some q → ∃ str, textAt q s = .ok str s ∧
      stringAt s0.cells q = some str := by
    intro q hq
    obtain ⟨hqh, str, hstr⟩ := htext q hq
    exact ⟨str, textAt_eq ((hc.old q hqh).trans hstr), stringAt_eq.mpr hstr⟩
  have hnew : ∀ (data : Ptr → TermData) (make : CString → Term) (str : CString),
      (∀ q cells, (data q).content cells = (stringAt cells q).map make) →
      (∀ q, (data q).string? = some q) → copySize machine (some (make str)) =
        termSize machine + textSize str →
      Ensures (allocTextTerm machine data (allocString machine str)) s
        (fun q s' => Duped machine s0 h contents (some (make str)) s.heapIndex (some q) s')
        fun e _ => e = .outOfHeap ∧ heapSize < s.heapIndex + (termSize machine + textSize str) := by
    intro data make str hcontent hstr hsize
    refine allocTextTerm_ensures hc.packed hc.heap (fun hroom => ?_)
      fun hfull _ => ⟨rfl, by omega⟩
    have hterm : (s.pushText machine h ⟨data ⟨h, s.heapIndex + termSize machine⟩, none⟩ str).cells
        ⟨h, s.heapIndex⟩ = some (.term ⟨data ⟨h, s.heapIndex + termSize machine⟩, none⟩) :=
      pushText_term
    refine ⟨hc.pushText hroom, Or.inr ⟨_, _, rfl, ?_, rfl⟩, ?_, ?_⟩
    · rw [contentAt_eq hterm, hcontent, stringAt_eq.mpr pushText_text]
      rfl
    · rintro _ ⟨⟩
      refine ⟨rfl, _, hterm, fun q hq => ?_⟩
      rw [hstr] at hq
      exact (congrArg Ptr.heap (Option.some.inj hq)).symm
    · rw [hsize]
      exact Nat.add_assoc _ _ _
  have hplain : ∀ (data : TermData) (content : Term), (∀ cells, data.content cells = some content) →
      data.string? = none → copySize machine (some content) = termSize machine →
      Ensures (allocTerm machine data) s
        (fun q s' => Duped machine s0 h contents (some content) s.heapIndex (some q) s')
        fun e _ => e = .outOfHeap ∧ heapSize < s.heapIndex + termSize machine := by
    intro data content hcontent hstr hsize
    refine allocTerm_ensures hc.packed hc.heap (fun hroom => ?_) fun hfull => ⟨rfl, hfull⟩
    have hterm : (s.push machine h (.term ⟨data, none⟩)).cells ⟨h, s.heapIndex⟩ =
        some (.term ⟨data, none⟩) := push_same _
    refine ⟨hc.pushTerm hroom, Or.inr ⟨_, _, rfl, ?_, rfl⟩, ?_, ?_⟩
    · rw [contentAt_eq hterm, hcontent]
    · rintro _ ⟨⟩
      refine ⟨rfl, _, hterm, fun q hq => ?_⟩
      rw [hstr] at hq
      cases hq
    · rw [hsize]
      rfl
  have hnone : t.data.content s0.cells = none →
      Duped machine s0 h contents (t.data.content s0.cells) s.heapIndex none s := by
    intro hcontent
    rw [hcontent]
    exact ⟨hc, Or.inl ⟨rfl, rfl⟩, nofun, rfl⟩
  rw [termDupe, ensures_bind_of_ok hread]
  cases hdata : t.data with
  | identifier q =>
    obtain ⟨str, hread, hstr⟩ := hstring q (by rw [hdata]; rfl)
    have hcontent : TermData.content s0.cells (.identifier q) = some (.identifier str) := by
      rw [TermData.content, hstr]
      rfl
    rw [hcontent]
    refine (ensures_bind_of_ok hread).mpr ?_
    exact (hnew .identifier .identifier str (fun _ _ => rfl) (fun _ => rfl) rfl).bind fun _ _ h => h
  | string q =>
    obtain ⟨str, hread, hstr⟩ := hstring q (by rw [hdata]; rfl)
    have hcontent : TermData.content s0.cells (.string q) = some (.string str) := by
      rw [TermData.content, hstr]
      rfl
    rw [hcontent]
    refine (ensures_bind_of_ok hread).mpr ?_
    exact (hnew .string .string str (fun _ _ => rfl) (fun _ => rfl) rfl).bind fun _ _ h => h
  | number n =>
    exact (hplain (.number n) (.number n) (fun _ => rfl) rfl rfl).bind fun _ _ h => h
  | boolean b =>
    exact (hplain (.boolean b) (.boolean b) (fun _ => rfl) rfl rfl).bind fun _ _ h => h
  | function _ _ =>
    rw [hdata] at hnone
    exact hnone rfl
  | var _ _ =>
    rw [hdata] at hnone
    exact hnone rfl

theorem names_eq {cells : Ptr → Option Cell} {l : List Entry}
    (hcontents : List.Forall₂ (fun e c => e.name = c.1 ∧ Says cells e.value c.2) l contents) :
    l.map Entry.name = contents.map Prod.fst := by
  induction hcontents with
  | nil => rfl
  | cons hhead _ ih => rw [List.map_cons, List.map_cons, hhead.1, ih]

theorem contents_eq {cells : Ptr → Option Cell} {l : List Entry}
    (hcontents : List.Forall₂ (fun e c => e.name = c.1 ∧ Says cells e.value c.2) l contents) :
    l.map (Entry.content cells) = contents := by
  induction hcontents with
  | nil => rfl
  | @cons e c l contents hhead _ ih =>
    have hvalue : e.value.bind (contentAt cells) = c.2 := by
      rcases hhead.2 with ⟨hnone, hc⟩ | ⟨p, t, hp, ht, hc⟩
      · rw [hnone, hc]
        rfl
      · rw [hp, hc, ← ht]
        rfl
    rw [List.map_cons, ih, Entry.content, hhead.1, hvalue]

/-- A new variable is put in front of the others. -/
theorem Copying.addVariable_ensures (hc : Copying machine s0 h contents s) {name : CString}
    {value : Option Ptr} {content : Option Term} (hreads : Says s.cells value content)
    (hinside : ∀ p, value = some p → p.heap = h ∧ ∃ t, s.cells p = some (.term t) ∧
      ∀ q, t.data.string? = some q → q.heap = h) :
    Ensures (addVariable machine name value) s
      (fun _ s' => Copying machine s0 h ((name, content) :: contents) s' ∧
        s'.heapIndex = s.heapIndex + (termSize machine + textSize name))
      fun e _ => e = .outOfHeap ∧ heapSize < s.heapIndex + (termSize machine + textSize name) := by
  unfold addVariable
  rw [ensures_bind]
  refine allocTextTerm_ensures hc.packed hc.heap (fun hroom => ?_) fun hfull _ => ⟨rfl, by omega⟩
  let t : HeapTerm := ⟨.var ⟨h, s.heapIndex + termSize machine⟩ value, none⟩
  let t' : HeapTerm := ⟨.var ⟨h, s.heapIndex + termSize machine⟩ value, s.vars⟩
  have hread : deref (some ⟨h, s.heapIndex⟩) (s.pushText machine h t name) =
      .ok t (s.pushText machine h t name) := deref_eq pushText_term
  have hnext : setNext ⟨h, s.heapIndex⟩ s.vars (s.pushText machine h t name) =
      .ok () (s.pushText machine h t' name) := by
    rw [setNext, bind_of_ok hread]
    exact congrArg (EStateM.Result.ok ()) (pushText_replace t')
  have hget : (get : HeapInterp HeapState) (s.pushText machine h t name) =
      .ok (s.pushText machine h t name) (s.pushText machine h t name) := rfl
  refine (ensures_bind_of_ok hget).mpr ((ensures_bind_of_ok hnext).mpr ?_)
  rw [ensures_modify]
  have hgrown : Copying machine s0 h contents (s.pushText machine h t' name) := hc.pushText hroom
  have hkept : ∀ q c, s.cells q = some c → (s.pushText machine h t' name).cells q = some c :=
    fun _ _ hq => hc.packed.pushText_kept hc.heap (Nat.le_trans (Nat.le_add_right _ _) hroom) hq
  obtain ⟨l, htable, hl, hcontents⟩ := hgrown.table
  refine ⟨⟨hgrown.heap, ⟨hgrown.packed.aligned, hgrown.packed.full, hgrown.packed.bounded,
    hgrown.packed.apart⟩, hgrown.old, hgrown.mallocs, ⟨⟨h, s.heapIndex⟩,
      ⟨h, s.heapIndex + termSize machine⟩, name, value⟩ :: l, ?_, ?_, ?_⟩, ?_⟩
  · exact .cons pushText_term pushText_text htable
  · intro e he
    rcases List.mem_cons.mp he with rfl | he
    · refine ⟨rfl, rfl, fun p hp => ?_⟩
      obtain ⟨hheap, u, hu, htext⟩ := hinside p hp
      exact ⟨hheap, u, hkept _ _ hu, htext⟩
    · exact hl e he
  · exact .cons ⟨rfl, hreads.kept hkept⟩ hcontents
  · exact Nat.add_assoc _ _ _

theorem Copying.setVariable_ensures (hc : Copying machine s0 h contents s) {steps : Nat}
    (hsteps : contents.length ≤ steps) {name : CString} (hname : name ∉ contents.map Prod.fst)
    {value : Option Ptr} {content : Option Term} (hreads : Says s.cells value content)
    (hinside : ∀ p, value = some p → p.heap = h ∧ ∃ t, s.cells p = some (.term t) ∧
      ∀ q, t.data.string? = some q → q.heap = h) :
    Ensures (setVariable machine steps name value) s
      (fun _ s' => Copying machine s0 h ((name, content) :: contents) s' ∧
        s'.heapIndex = s.heapIndex + (termSize machine + textSize name))
      fun e _ => e = .outOfHeap ∧ heapSize < s.heapIndex + (termSize machine + textSize name) := by
  obtain ⟨l, htable, -, hcontents⟩ := hc.table
  have hnone : (l.find? fun e => e.name = name) = none := by
    rw [List.find?_eq_none]
    intro e he
    rw [← names_eq hcontents] at hname
    simpa using fun heq => hname (List.mem_map.mpr ⟨e, he, heq⟩)
  have hfind := getVariableImpl_eq htable (hcontents.length_eq.trans_le hsteps) name
  rw [hnone] at hfind
  rw [setVariable, ensures_bind_of_ok hfind]
  exact hc.addVariable_ensures hreads hinside

/-- The loop of `term_gc_heap`. -/
theorem Copying.copyVariables_ensures {p : Option Ptr} {l : List Entry} (hl : Table s0.cells p l)
    (hlive : ∀ q c, s0.cells q = some c → q.heap ≠ h) (hread : ∀ e ∈ l, e.Readable s0.cells)
    {n steps : Nat} (hn : l.length ≤ n) (hc : Copying machine s0 h contents s)
    (hsteps : l.length + contents.length ≤ steps)
    (hnames : (l.map Entry.name).Nodup) (hdisjoint : ∀ e ∈ l, e.name ∉ contents.map Prod.fst) :
    Ensures (copyVariables machine steps n p) s
      (fun _ s' => Copying machine s0 h ((l.map (Entry.content s0.cells)).reverse ++ contents) s' ∧
        s'.heapIndex =
          s.heapIndex + ((l.map (Entry.content s0.cells)).map (entrySize machine)).sum)
      fun e _ => e = .outOfHeap ∧ heapSize <
        s.heapIndex + ((l.map (Entry.content s0.cells)).map (entrySize machine)).sum := by
  induction hl generalizing n contents s with
  | nil =>
    cases n
    · exact ⟨hc, rfl⟩
    · exact ⟨hc, rfl⟩
  | @cons q namePtr name value next rest node text more ih =>
    obtain ⟨n, rfl⟩ : ∃ m, n = m + 1 := ⟨n - 1, by simp at hn; omega⟩
    obtain ⟨v, t, hv, ht, htext⟩ := hread _ List.mem_cons_self
    obtain rfl : value = some v := hv
    have hcontent : Entry.content s0.cells ⟨q, namePtr, name, some v⟩ =
        (name, t.data.content s0.cells) := congrArg (Prod.mk name) (contentAt_eq ht)
    -- The old list is read again and again, and never changes.
    have hderef : ∀ {contents' s'}, Copying machine s0 h contents' s' →
        deref (some q) s' = .ok ⟨.var namePtr (some v), next⟩ s' := fun hc' =>
      deref_eq ((hc'.old q (hlive _ _ node)).trans node)
    have hname : ∀ {contents' s'}, Copying machine s0 h contents' s' →
        textAt namePtr s' = .ok name s' := fun hc' =>
      textAt_eq ((hc'.old namePtr (hlive _ _ text)).trans text)
    have hdupe := termDupe_ensures hc ht (hlive _ _ ht) fun r hr => by
      obtain ⟨str, hstr⟩ := htext r hr
      exact ⟨hlive _ _ hstr, str, hstr⟩
    rw [List.map_cons, List.map_cons, List.sum_cons, hcontent, List.reverse_cons,
      List.append_assoc, List.singleton_append, copyVariables, ensures_bind_of_ok (hderef hc)]
    rw [List.map_cons, List.nodup_cons] at hnames
    simp only [List.length_cons] at hsteps hn
    have hentry : entrySize machine (name, t.data.content s0.cells) = termSize machine +
        textSize name + copySize machine (t.data.content s0.cells) := rfl
    rw [hentry]
    refine ensures_bind.mpr (hdupe.mono ?_ ?_)
    · intro dupe s1 hd
      rw [ensures_bind_of_ok (hname hd.copying)]
      have hroom : contents.length ≤ steps := by omega
      have hnew : name ∉ contents.map Prod.fst := hdisjoint _ List.mem_cons_self
      have hset := hd.copying.setVariable_ensures hroom hnew hd.reads hd.inside
      refine ensures_bind.mpr (hset.mono ?_ ?_)
      · rintro _ s2 ⟨hc2, hindex2⟩
        rw [ensures_bind_of_ok (hderef hc2)]
        have hindex : s2.heapIndex = s.heapIndex + (termSize machine + textSize name +
            copySize machine (t.data.content s0.cells)) := by
          rw [hindex2, hd.index]
          omega
        have hrest := ih (fun e he => hread e (List.mem_cons_of_mem _ he)) (n := n) (by omega) hc2
          (by simp only [List.length_cons]; omega) hnames.2 fun e he hmem => by
            rw [List.map_cons, List.mem_cons] at hmem
            rcases hmem with heq | hmem
            · exact hnames.1 (List.mem_map.mpr ⟨e, he, heq⟩)
            · exact hdisjoint e (List.mem_cons_of_mem _ he) hmem
        refine hrest.mono (fun _ s3 h3 => ⟨h3.1, ?_⟩) fun e _ he => ⟨he.1, ?_⟩
        · rw [h3.2, hindex]
          exact Nat.add_assoc _ _ _
        · rw [hindex] at he
          exact (Nat.add_assoc _ _ _) ▸ he.2
      · rintro e _ ⟨he, hfull⟩
        have := hd.index
        exact ⟨he, by omega⟩
    · rintro e _ ⟨he, hfull⟩
      exact ⟨he, by omega⟩

end

/-! ## The whole collection -/

/-- What is in memory is in heaps that have been malloc'ed. -/
structure Live (s : HeapState) : Prop where
  cells : ∀ p c, s.cells p = some c → p.heap < s.mallocs
  heap : ∀ h, s.heap = some h → h < s.mallocs

section

variable {cells cells' : Ptr → Option Cell} {h : Nat}

/-- What is outside a heap does not matter to a table inside. -/
theorem Table.restrict {p : Option Ptr} {l : List Entry} (ht : Table cells p l)
    (hinside : ∀ e ∈ l, e.Inside cells h) (hsame : ∀ q, q.heap = h → cells' q = cells q) :
    Table cells' p l := by
  induction ht with
  | nil => exact .nil
  | cons node text _ ih =>
    have hhead := hinside _ List.mem_cons_self
    refine .cons ?_ ?_ (ih fun e he => hinside e (List.mem_cons_of_mem _ he))
    · rw [hsame _ hhead.node, node]
    · rw [hsame _ hhead.name, text]

theorem Entry.Inside.restrict {e : Entry} (he : e.Inside cells h)
    (hsame : ∀ q, q.heap = h → cells' q = cells q) : e.Inside cells' h := by
  refine ⟨he.node, he.name, fun p hp => ?_⟩
  obtain ⟨hheap, t, ht, htext⟩ := he.value p hp
  exact ⟨hheap, t, (hsame p hheap).trans ht, htext⟩

theorem Says.restrict {e : Entry} {content : Option Term} (hs : Says cells e.value content)
    (he : e.Inside cells h) (hsame : ∀ q, q.heap = h → cells' q = cells q) :
    Says cells' e.value content := by
  rcases hs with hs | ⟨p, u, hp, hu, hcontent⟩
  · exact Or.inl hs
  · obtain ⟨hheap, t, ht, htext⟩ := he.value p hp
    refine Or.inr ⟨p, u, hp, ?_, hcontent⟩
    rw [contentAt_eq ht] at hu
    rw [contentAt_eq ((hsame p hheap).trans ht), ← hu]
    cases hdata : t.data with
    | identifier q | string q =>
      have hq : q.heap = h := htext q (by rw [hdata]; rfl)
      rw [TermData.content, TermData.content, stringAt, stringAt, hsame q hq]
    | number _ | boolean _ | function _ _ | var _ _ => rfl

end

theorem contents_restrict {cells cells' : Ptr → Option Cell} {h : Nat} {l : List Entry}
    {contents : List (CString × Option Term)}
    (hcontents : List.Forall₂ (fun e c => e.name = c.1 ∧ Says cells e.value c.2) l contents)
    (hinside : ∀ e ∈ l, e.Inside cells h) (hsame : ∀ q, q.heap = h → cells' q = cells q) :
    List.Forall₂ (fun e c => e.name = c.1 ∧ Says cells' e.value c.2) l contents := by
  induction hcontents with
  | nil => exact .nil
  | cons hhead _ ih =>
    exact .cons ⟨hhead.1, hhead.2.restrict (hinside _ List.mem_cons_self) hsame⟩
      (ih fun e he => hinside e (List.mem_cons_of_mem _ he))

/-- What `term_gc_heap` makes of variables with these contents. -/
structure Collected (machine : Machine) (s : HeapState) (contents : List (CString × Option Term))
    (s' : HeapState) : Prop where
  heap : s'.heap = some s.mallocs
  mallocs : s'.mallocs = s.mallocs + 1
  packed : Packed machine s'
  live : Live s'
  freed : ∀ p, s.heap = some p.heap → s'.cells p = none
  table : ∃ l, Table s'.cells s'.vars l ∧ (∀ e ∈ l, e.Inside s'.cells s.mallocs) ∧
    List.Forall₂ (fun e c => e.name = c.1 ∧ Says s'.cells e.value c.2) l contents.reverse
  index : s'.heapIndex = (contents.map (entrySize machine)).sum

section

variable {machine : Machine} {s : HeapState} {l : List Entry} {steps : Nat}

/-- The heap is collected, or it does not have the room. -/
theorem termGcHeap_ensures (machine : Machine) (hheap : s.heap.isSome) (hlive : Live s) (hl : Table s.cells s.vars l)
    (hread : ∀ e ∈ l, e.Readable s.cells) (hnames : (l.map Entry.name).Nodup)
    (hsteps : l.length ≤ steps) :
    Ensures (termGcHeap machine steps) s
      (fun _ => Collected machine s (l.map (Entry.content s.cells)))
      fun e _ => e = .outOfHeap ∧
        heapSize < ((l.map (Entry.content s.cells)).map (entrySize machine)).sum := by
  obtain ⟨old, hold⟩ := Option.isSome_iff_exists.mp hheap
  let s0 : HeapState :=
    { s with mallocs := s.mallocs + 1, heap := some s.mallocs, heapIndex := 0, vars := none }
  have hfresh : ∀ q c, s0.cells q = some c → q.heap ≠ s.mallocs := fun q c hq =>
    Nat.ne_of_lt (hlive.cells q c hq)
  have hstart : Copying machine s0 s.mallocs [] s0 := by
    refine ⟨rfl, ⟨rfl, Nat.zero_le _, fun q c hq hqh => ?_, fun q _ c _ hq _ hqh _ _ => ?_⟩,
      fun _ _ => rfl, rfl, [], .nil, nofun, .nil⟩
    · exact absurd (Option.some.inj hqh) (hfresh q c hq)
    · exact absurd (Option.some.inj hqh) (hfresh q c hq)
  have hl0 : Table s0.cells s.vars l := hl
  have hcopy := Copying.copyVariables_ensures hl0 hfresh hread hsteps hstart hsteps hnames
    fun _ _ => List.not_mem_nil
  have hget : (get : HeapInterp HeapState) s = .ok s s := rfl
  have hset : (set s0 : HeapInterp PUnit) s = .ok ⟨⟩ s0 := rfl
  rw [termGcHeap, ensures_bind_of_ok hget, if_pos hheap, ensures_bind_of_ok hset, ensures_bind]
  refine hcopy.mono ?_ ?_
  · rintro _ s1 ⟨hc, hindex⟩
    have hne : s.mallocs ≠ old := (Nat.ne_of_lt (hlive.heap old hold)).symm
    obtain ⟨l', htable, hinside, hsays⟩ := hc.table
    rw [hold]
    change Ensures (freeHeap old) s1 _ _
    unfold freeHeap
    rw [ensures_modify]
    have hsame : ∀ q : Ptr, q.heap = s.mallocs →
        (if q.heap = old then none else s1.cells q) = s1.cells q := by
      intro q hq
      rw [if_neg (hq ▸ hne)]
    have hsub : ∀ q c, (if q.heap = old then none else s1.cells q) = some c →
        s1.cells q = some c := by
      intro q c hq
      by_cases hqo : q.heap = old
      · rw [if_pos hqo] at hq
        cases hq
      · rwa [if_neg hqo] at hq
    refine ⟨hc.heap, hc.mallocs, ⟨hc.packed.aligned, hc.packed.full, ?_, ?_⟩, ⟨?_, ?_⟩, ?_,
      ⟨l', htable.restrict hinside hsame, fun e he => (hinside e he).restrict hsame, ?_⟩, ?_⟩
    · exact fun q c hq => hc.packed.bounded q c (hsub q c hq)
    · exact fun p q c d hp hq => hc.packed.apart p q c d (hsub p c hp) (hsub q d hq)
    · intro q c hq
      rw [hc.mallocs]
      by_cases hqh : q.heap = s.mallocs
      · exact Nat.lt_succ_of_le (Nat.le_of_eq hqh)
      · exact Nat.lt_succ_of_lt (hlive.cells q c ((hc.old q hqh).symm.trans (hsub q c hq)))
    · intro k hk
      have hks : some s.mallocs = some k := hc.heap.symm.trans hk
      rw [hc.mallocs, ← Option.some.inj hks]
      exact Nat.lt_succ_self _
    · intro q hq
      exact if_pos (Option.some.inj (hold.symm.trans hq)).symm
    · rw [List.append_nil] at hsays
      exact contents_restrict hsays hinside hsame
    · rw [hindex]
      exact Nat.zero_add _
  · rintro e _ ⟨he, hfull⟩
    exact ⟨he, Nat.lt_of_lt_of_eq hfull (Nat.zero_add _)⟩

end

/-! ## Reading literals -/

section

variable {machine : Machine} {s : HeapState} {p : Ptr} {t : Term}

/-- A literal in memory. -/
theorem literal_cases (h : contentAt s.cells p = some t) (hlit : t.isLiteral) :
    ∃ data next, s.cells p = some (.term ⟨data, next⟩) ∧
      ((∃ q str, data = .string q ∧ s.cells q = some (.text str) ∧ t = .string str) ∨
        (∃ n, data = .number n ∧ t = .number n) ∨ ∃ b, data = .boolean b ∧ t = .boolean b) := by
  rcases hc : s.cells p with _ | ⟨⟨data, next⟩⟩ | str
  · simp [contentAt, hc] at h
  · refine ⟨data, next, rfl, ?_⟩
    rw [contentAt_eq hc] at h
    cases data with
    | identifier q =>
      obtain ⟨str, -, rfl⟩ := Option.map_eq_some_iff.mp h
      cases hlit
    | string q =>
      obtain ⟨str, hstr, rfl⟩ := Option.map_eq_some_iff.mp h
      exact Or.inl ⟨q, str, rfl, stringAt_eq.mp hstr, rfl⟩
    | number n => exact Or.inr (Or.inl ⟨n, rfl, (Option.some.inj h).symm⟩)
    | boolean b => exact Or.inr (Or.inr ⟨b, rfl, (Option.some.inj h).symm⟩)
    | function _ _ | var _ _ => cases h
  · simp [contentAt, hc] at h

theorem termResolve_literal (h : contentAt s.cells p = some t) (hlit : t.isLiteral) (depth : Nat) :
    termResolve machine (depth + 1) (some p) s = .ok (some p) s := by
  obtain ⟨data, next, hp, hdata⟩ := literal_cases h hlit
  rw [termResolve, bind_of_ok (deref_eq hp)]
  rcases hdata with ⟨q, str, rfl, -, -⟩ | ⟨n, rfl, -⟩ | ⟨b, rfl, -⟩
  all_goals rfl

theorem termToNumber_literal (h : contentAt s.cells p = some t) (hlit : t.isLiteral) (depth : Nat) :
    termToNumber (termResolve machine (depth + 1)) (some p) s = .ok t.asNumber s := by
  obtain ⟨data, next, hp, hdata⟩ := literal_cases h hlit
  rw [termToNumber, bind_of_ok (termResolve_literal h hlit depth), bind_of_ok (deref_eq hp)]
  rcases hdata with ⟨q, str, rfl, hq, rfl⟩ | ⟨n, rfl, rfl⟩ | ⟨b, rfl, rfl⟩
  · exact bind_of_ok (textAt_eq hq)
  · rfl
  · rfl

theorem termToBoolean_literal (h : contentAt s.cells p = some t) (hlit : t.isLiteral) (depth : Nat) :
    termToBoolean (termResolve machine (depth + 1)) (some p) s = .ok t.asBoolean s := by
  obtain ⟨data, next, hp, hdata⟩ := literal_cases h hlit
  rw [termToBoolean, bind_of_ok (termResolve_literal h hlit depth), bind_of_ok (deref_eq hp)]
  rcases hdata with ⟨q, str, rfl, hq, rfl⟩ | ⟨n, rfl, rfl⟩ | ⟨b, rfl, rfl⟩
  · exact bind_of_ok (textAt_eq hq)
  · rfl
  · rfl

/-- The text of a literal, for which there may be no room. -/
theorem stringOf_literal (hpacked : Packed machine s) (hheap : s.heap.isSome)
    (h : contentAt s.cells p = some t) (hlit : t.isLiteral) (depth : Nat) :
    Ensures (stringOf machine (termResolve machine (depth + 1)) (depth + 1) (some p)) s
      (fun str _ => str = t.asString)
      fun e _ => e = .outOfHeap ∧ heapSize < s.heapIndex + termSize machine + textSize t.asString := by
  obtain ⟨k, hk⟩ := Option.isSome_iff_exists.mp hheap
  obtain ⟨data, next, hp, hdata⟩ := literal_cases h hlit
  have hnew : ∀ str, Ensures (termToString.newText machine str >>= textAt) s (fun v _ => v = str)
      fun e _ => e = .outOfHeap ∧ heapSize < s.heapIndex + termSize machine + textSize str := by
    intro str
    rw [ensures_bind, termToString.newText, ensures_bind]
    refine allocTextTerm_ensures hpacked hk (fun hroom => ?_) fun hfull _ => ⟨rfl, hfull⟩
    rw [ensures_bind_of_ok (deref_eq pushText_term)]
    simp only [ensures_pure]
    exact ensures_of_ok (textAt_eq pushText_text) rfl
  rw [stringOf, termToString, ensures_bind, ensures_bind_of_ok (termResolve_literal h hlit depth),
    ensures_bind_of_ok (deref_eq hp)]
  rcases hdata with ⟨q, str, rfl, hq, rfl⟩ | ⟨n, rfl, rfl⟩ | ⟨b, rfl, rfl⟩
  · simp only [ensures_pure]
    exact ensures_of_ok (textAt_eq hq) rfl
  · exact ensures_bind.mp (hnew _)
  · exact ensures_bind.mp (hnew _)

end

/-! ## The store before and after -/

/-- A heap as the interpreter has it, and the variables in it. -/
structure Holds (machine : Machine) (s : HeapState) (l : List Entry) : Prop where
  heap : s.heap.isSome
  live : Live s
  packed : Packed machine s
  table : Table s.cells s.vars l
  names : (l.map Entry.name).Nodup

/-- The variables all have strings, numbers or booleans for values. -/
def Literals (s : HeapState) (l : List Entry) : Prop :=
  ∀ e ∈ l, ∃ t, (e.content s.cells).2 = some t ∧ t.isLiteral

/-- What the getters return for a name. The text of a number or a boolean is put into the heap, in
which there may be no room for it. -/
structure Yields (machine : Machine) (depth : Nat) (s : HeapState) (name str : CString) (n : Int32)
    (b : Bool) : Prop where
  string : Ensures (getVariableAsString machine (termResolve machine depth) depth name) s
    (fun v _ => v = str) fun e _ =>
      e = .outOfHeap ∧ heapSize < s.heapIndex + termSize machine + textSize str
  number : getVariableAsNumber (termResolve machine depth) depth name s = .ok n s
  boolean : getVariableAsBoolean (termResolve machine depth) depth name s = .ok b s

section

variable {machine : Machine} {s s1 : HeapState} {l l1 : List Entry} {steps : Nat}

theorem yields_of_found (hs : Holds machine s l) {depth : Nat} (hdepth : l.length < depth) {name : CString}
    {t : Term} (hlit : t.isLiteral)
    (hfound : (name, some t) ∈ l.map (Entry.content s.cells)) :
    Yields machine depth s name t.asString t.asNumber t.asBoolean := by
  obtain ⟨depth, rfl⟩ : ∃ d, depth = d + 1 := ⟨depth - 1, by omega⟩
  obtain ⟨e, hfind, p, hp, hcontent⟩ : ∃ e, (l.find? fun e => e.name = name) = some e ∧
      ∃ p, e.value = some p ∧ contentAt s.cells p = some t := by
    obtain ⟨e, he, heq⟩ := List.mem_map.mp hfound
    obtain ⟨hname, hvalue⟩ := Prod.mk.inj heq
    obtain ⟨p, hp, hcontent⟩ := Option.bind_eq_some_iff.mp hvalue
    refine ⟨e, ?_, p, hp, hcontent⟩
    have hone : Unambiguous Entry.name id l := unambiguous_of_nodup hs.names
    have hfirst := hone.firstMatch_eq he
    rw [hname] at hfirst
    simpa [firstMatch] using hfirst
  have hget := getVariableImpl_eq hs.table (Nat.le_of_lt hdepth) name
  rw [hfind] at hget
  refine ⟨?_, ?_, ?_⟩
  · rw [getVariableAsString, ensures_bind_of_ok hget]
    simp only [Option.map_some, hp]
    exact stringOf_literal hs.packed hs.heap hcontent hlit depth
  · rw [getVariableAsNumber, bind_of_ok hget]
    simp only [Option.map_some, hp]
    exact termToNumber_literal hcontent hlit depth
  · rw [getVariableAsBoolean, bind_of_ok hget]
    simp only [Option.map_some, hp]
    exact termToBoolean_literal hcontent hlit depth

theorem yields_of_not_found (hs : Holds machine s l) {depth : Nat} (hdepth : l.length < depth)
    {name : CString} (hnone : name ∉ l.map Entry.name) :
    Yields machine depth s name (.ofString "") 0 false := by
  have hfind : (l.find? fun e => e.name = name) = none := by
    rw [List.find?_eq_none]
    intro e he
    simpa using fun heq => hnone (List.mem_map.mpr ⟨e, he, heq⟩)
  have hget := getVariableImpl_eq hs.table (Nat.le_of_lt hdepth) name
  rw [hfind] at hget
  refine ⟨?_, ?_, ?_⟩
  · rw [getVariableAsString, ensures_bind_of_ok hget]
    rfl
  · rw [getVariableAsNumber, bind_of_ok hget]
    rfl
  · rw [getVariableAsBoolean, bind_of_ok hget]
    rfl

/-- A table with the same variables in any order yields the same. -/
theorem yields_same (hs : Holds machine s l) (hlit : Literals s l) (hs1 : Holds machine s1 l1)
    (hperm : (l1.map (Entry.content s1.cells)).Perm (l.map (Entry.content s.cells))) {depth : Nat}
    (hdepth : l.length < depth) (name : CString) :
    ∃ str n b, Yields machine depth s name str n b ∧ Yields machine depth s1 name str n b := by
  have hlength : l1.length = l.length := by simpa using hperm.length_eq
  have hnames : (l1.map Entry.name).Perm (l.map Entry.name) := by
    have hmap := hperm.map Prod.fst
    rw [List.map_map, List.map_map] at hmap
    exact hmap
  by_cases hname : name ∈ l.map Entry.name
  · obtain ⟨e, he, rfl⟩ := List.mem_map.mp hname
    obtain ⟨t, ht, htlit⟩ := hlit e he
    have hmem : (e.name, some t) ∈ l.map (Entry.content s.cells) :=
      List.mem_map.mpr ⟨e, he, Prod.ext rfl ht⟩
    exact ⟨_, _, _, yields_of_found hs hdepth htlit hmem,
      yields_of_found hs1 (by omega) htlit (hperm.mem_iff.mpr hmem)⟩
  · exact ⟨_, _, _, yields_of_not_found hs hdepth hname,
      yields_of_not_found hs1 (by omega) fun hmem => hname (hnames.mem_iff.mp hmem)⟩

/-- The variables `l` of `s` are in `s1` again, in the new heap and in the reverse order. -/
structure Kept (machine : Machine) (s s1 : HeapState) (l l1 : List Entry) : Prop where
  holds : Holds machine s1 l1
  contents : l1.map (Entry.content s1.cells) = (l.map (Entry.content s.cells)).reverse
  moved : s1.heap = some s.mallocs ∧ s.heap ≠ some s.mallocs
  inside : ∀ e ∈ l1, e.Inside s1.cells s.mallocs
  freed : ∀ p, s.heap = some p.heap → s1.cells p = none
  yields : ∀ depth > l.length, ∀ name, ∃ str n b,
    Yields machine depth s name str n b ∧ Yields machine depth s1 name str n b

theorem Literals.readable (hlit : Literals s l) : ∀ e ∈ l, e.Readable s.cells := by
  intro e he
  obtain ⟨t, ht, htlit⟩ := hlit e he
  obtain ⟨p, hp, hcontent⟩ := Option.bind_eq_some_iff.mp ht
  obtain ⟨data, next, hterm, hdata⟩ := literal_cases hcontent htlit
  refine ⟨p, ⟨data, next⟩, hp, hterm, fun q hq => ?_⟩
  rcases hdata with ⟨q', str, rfl, hstr, -⟩ | ⟨n, rfl, -⟩ | ⟨b, rfl, -⟩
  · obtain rfl : q' = q := Option.some.inj hq
    exact ⟨str, hstr⟩
  · cases hq
  · cases hq

/-- One collection. -/
theorem kept_of_termGcHeap (hs : Holds machine s l) (hlit : Literals s l) (hsteps : l.length ≤ steps) :
    Ensures (termGcHeap machine steps) s (fun _ s1 => ∃ l1, Kept machine s s1 l l1)
      fun e _ => e = .outOfHeap ∧
        heapSize < ((l.map (Entry.content s.cells)).map (entrySize machine)).sum := by
  have hgc := termGcHeap_ensures machine hs.heap hs.live hs.table hlit.readable hs.names hsteps
  refine hgc.mono (fun _ s1 hc => ?_) fun e _ he => he
  obtain ⟨l1, htable, hinside, hsays⟩ := hc.table
  have hcontents : l1.map (Entry.content s1.cells) = (l.map (Entry.content s.cells)).reverse :=
    contents_eq hsays
  have hnames : (l1.map Entry.name).Nodup := by
    have hfst := names_eq hsays
    rw [List.map_reverse, List.map_map] at hfst
    rw [hfst]
    exact List.nodup_reverse.mpr hs.names
  have hold : s.heap ≠ some s.mallocs := fun heq => Nat.lt_irrefl _ (hs.live.heap _ heq)
  have hholds : Holds machine s1 l1 :=
    ⟨by rw [hc.heap]; rfl, hc.live, hc.packed, htable, hnames⟩
  refine ⟨l1, hholds, hcontents, ⟨hc.heap, hold⟩, hinside, hc.freed, fun depth hdepth name => ?_⟩
  exact yields_same hs hlit hholds (hcontents ▸ List.reverse_perm _) hdepth name

theorem Kept.literals (h : Kept machine s s1 l l1) (hlit : Literals s l) : Literals s1 l1 := by
  intro e he
  have hmem : e.content s1.cells ∈ (l.map (Entry.content s.cells)).reverse := by
    rw [← h.contents]
    exact List.mem_map_of_mem he
  obtain ⟨e', he', heq⟩ := List.mem_map.mp (List.mem_reverse.mp hmem)
  rw [← heq]
  exact hlit e' he'

/-- Collecting keeps the variables and their values, unless they do not fit in a heap, and
collecting twice keeps their order too. -/
theorem collecting_keeps_store (hs : Holds machine s l) (hlit : Literals s l)
    (hsteps : l.length ≤ steps) :
    ((∃ s1, termGcHeap machine steps s = .error .outOfHeap s1) ∧
        heapSize < ((l.map (Entry.content s.cells)).map (entrySize machine)).sum) ∨
      ∃ s1 l1, termGcHeap machine steps s = .ok () s1 ∧ Kept machine s s1 l l1 ∧
        ∀ s2, termGcHeap machine steps s1 = .ok () s2 →
          ∃ l2, Kept machine s1 s2 l1 l2 ∧
            l2.map (Entry.content s2.cells) = l.map (Entry.content s.cells) := by
  have hfirst := kept_of_termGcHeap hs hlit hsteps
  cases hgc : termGcHeap machine steps s with
  | error e s1 =>
    obtain ⟨rfl, hfull⟩ := hfirst.error hgc
    exact Or.inl ⟨⟨s1, rfl⟩, hfull⟩
  | ok u s1 =>
    obtain ⟨l1, hkept⟩ := hfirst.ok hgc
    have hlength : l1.length = l.length := by simpa using congrArg List.length hkept.contents
    refine Or.inr ⟨s1, l1, rfl, hkept, fun s2 hgc2 => ?_⟩
    have hsecond := kept_of_termGcHeap hkept.holds (hkept.literals hlit) (hlength.trans_le hsteps)
    obtain ⟨l2, hkept2⟩ := hsecond.ok hgc2
    refine ⟨l2, hkept2, ?_⟩
    rw [hkept2.contents, hkept.contents, List.reverse_reverse]

end

theorem Live.pushText {machine : Machine} {s : HeapState} {h : Nat} (hs : Live s) (hh : h < s.mallocs)
    (t : HeapTerm) (str : CString) : Live (s.pushText machine h t str) := by
  refine ⟨fun p c hp => ?_, hs.heap⟩
  by_cases hne : p.heap = h
  · exact hne ▸ hh
  · rw [pushText_other hne] at hp
    exact hs.cells p c hp

/-- A heap with nothing in it. -/
def emptyHeap : HeapState := ⟨fun _ => none, 1, some 0, 0, none, none, State.boot [] plainWorld⟩

/-- A value and the variables `x` and `y`. -/
def sharedBlocks : HeapState :=
  ((emptyHeap.pushText plainMachine 0 ⟨.string ⟨0, 32⟩, none⟩ (.ofString "v")).pushText plainMachine 0
    ⟨.var ⟨0, 72⟩ (some ⟨0, 0⟩), none⟩ (.ofString "x")).pushText plainMachine 0
      ⟨.var ⟨0, 112⟩ (some ⟨0, 0⟩), some ⟨0, 40⟩⟩ (.ofString "y")

/-- Two variables that share a value. -/
def sharedHeap : HeapState := { sharedBlocks with vars := some ⟨0, 80⟩ }

def sharedEntries : List Entry :=
  [⟨⟨0, 80⟩, ⟨0, 112⟩, .ofString "y", some ⟨0, 0⟩⟩, ⟨⟨0, 40⟩, ⟨0, 72⟩, .ofString "x", some ⟨0, 0⟩⟩]

theorem holds_sharedHeap : Holds plainMachine sharedHeap sharedEntries := by
  have hempty : Live emptyHeap := ⟨nofun, fun h hh => Option.some.inj hh ▸ Nat.zero_lt_one⟩
  have hlive : Live sharedBlocks := by
    unfold sharedBlocks
    refine Live.pushText (Live.pushText (Live.pushText hempty ?_ _ _) ?_ _ _) ?_ _ _
    all_goals exact Nat.zero_lt_one
  have hcells : ∀ p c, emptyHeap.cells p ≠ some c := nofun
  have hnone : Packed plainMachine emptyHeap := ⟨rfl, Nat.zero_le _,
    fun p c hp => absurd hp (hcells p c), fun p _ c _ hp => absurd hp (hcells p c)⟩
  have hpacked : Packed plainMachine sharedBlocks := by
    unfold sharedBlocks
    refine Packed.pushText (Packed.pushText (Packed.pushText hnone ?_) ?_) ?_
    all_goals decide
  refine ⟨rfl, ⟨hlive.cells, hlive.heap⟩, ⟨hpacked.aligned, hpacked.full, hpacked.bounded,
    hpacked.apart⟩, .cons ?_ ?_ (.cons ?_ ?_ .nil), by decide⟩
  all_goals rfl

theorem collecting_keeps_shared :
    ∃ s1 l1, termGcHeap plainMachine 2 sharedHeap = .ok () s1 ∧
      Kept plainMachine sharedHeap s1 sharedEntries l1 := by
  have hlit : Literals sharedHeap sharedEntries := by
    intro e he
    have hcontent : (e.content sharedHeap.cells).2 = some (.string (.ofString "v")) := by
      simp only [sharedEntries, List.mem_cons, List.not_mem_nil, or_false] at he
      rcases he with rfl | rfl
      · rfl
      · rfl
    exact ⟨_, hcontent, rfl⟩
  rcases collecting_keeps_store holds_sharedHeap hlit (Nat.le_refl 2) with
    ⟨-, hfull⟩ | ⟨s1, l1, hgc, hkept, -⟩
  · exact absurd hfull (by decide)
  · exact ⟨s1, l1, hgc, hkept⟩

end NervesInitramfs.TermHeap
