import NervesInitramfs.Script.Heap.Proofs.CollectProofs

/-!
# Proofs: what is in the heap at any time

Whatever the interpreter does, the pointers in its heap lead to terms and strings in the heap, each
string belongs to one term, and the variables form a list. That is an invariant of every function
that works on terms, and of collecting the heap.
-/

namespace NervesInitramfs.TermHeap

open CLib

/-! ## The invariant -/

/-- The pointer to the text that a term or a variable owns. -/
def TermData.text? : TermData → Option Ptr
  | .identifier q | .string q | .var q _ => some q
  | _ => none

/-- There is a term at the address in the current heap, which is no variable. -/
def PlainAt (s : HeapState) (p : Ptr) : Prop :=
  s.heap = some p.heap ∧ ∃ t, s.cells p = some (.term t) ∧ t.data.isVar = false

/-- A pointer to a term, or `NULL`. -/
def Value (s : HeapState) (p : Option Ptr) : Prop := ∀ q, p = some q → PlainAt s q

structure SoundCells (machine : Machine) (s : HeapState) : Prop where
  heap : s.heap.isSome
  live : Live s
  packed : Packed machine s
  texts : ∀ p t q, s.heap = some p.heap → s.cells p = some (.term t) → t.data.text? = some q →
    s.heap = some q.heap ∧ ∃ str, s.cells q = some (.text str)
  owned : ∀ p p' t t' q, s.heap = some p.heap → s.heap = some p'.heap → s.cells p = some (.term t) →
    s.cells p' = some (.term t') → t.data.text? = some q → t'.data.text? = some q → p = p'
  nexts : ∀ p t, s.heap = some p.heap → s.cells p = some (.term t) → t.data.isVar = false →
    Value s t.next
  parameters : ∀ p t handler ps, s.heap = some p.heap → s.cells p = some (.term t) →
    t.data = .function handler ps → Value s ps

/-- The variables `l` are in the current heap and have terms for values. -/
structure Variables (s : HeapState) (l : List Entry) : Prop where
  table : Table s.cells s.vars l
  names : (l.map Entry.name).Nodup
  nodes : ∀ e ∈ l, s.heap = some e.node.heap
  values : ∀ e ∈ l, Value s e.value

structure Sound (machine : Machine) (s : HeapState) : Prop extends SoundCells machine s where
  vars : ∃ l, Variables s l

/-- The terms of the one state are terms of the other, in the same heap. -/
structure Extends (s s' : HeapState) : Prop where
  heap : s'.heap = s.heap
  result : s'.parserResult = s.parserResult
  terms : ∀ p, PlainAt s p → PlainAt s' p

section

variable {machine : Machine} {s s' s'' : HeapState} {h : Nat} {p : Option Ptr}

theorem Extends.refl (s : HeapState) : Extends s s := ⟨rfl, rfl, fun _ hp => hp⟩

theorem Extends.trans (h : Extends s s') (h' : Extends s' s'') : Extends s s'' :=
  ⟨h'.heap.trans h.heap, h'.result.trans h.result, fun p hp => h'.terms p (h.terms p hp)⟩

theorem Value.extend (hp : Value s p) (h : Extends s s') : Value s' p :=
  fun q hq => h.terms q (hp q hq)

theorem value_none : Value s none := nofun

theorem value_some {q : Ptr} (h : PlainAt s q) : Value s (some q) := by
  rintro _ ⟨⟩
  exact h

/-- Only the memory and the variables matter. -/
theorem Sound.congr (hs : Sound machine s) (o : State) (r : Option Ptr) :
    Sound machine { s with outside := o, parserResult := r } := by
  obtain ⟨l, hl⟩ := hs.vars
  exact ⟨⟨hs.heap, ⟨hs.live.cells, hs.live.heap⟩, ⟨hs.packed.aligned, hs.packed.full,
    hs.packed.bounded, hs.packed.apart⟩, hs.texts, hs.owned, hs.nexts, hs.parameters⟩,
    l, ⟨hl.table, hl.names, hl.nodes, hl.values⟩⟩

end

/-! ## Computations that keep it -/

/-- A computation keeps the invariant, also when the parser gives up. -/
def Safe {α : Type} (machine : Machine) (m : HeapInterp α) (s : HeapState)
    (post : α → HeapState → Prop) : Prop :=
  Ensures m s (fun a s' => Sound machine s' ∧ Extends s s' ∧ post a s')
    fun e s' => e = .stop .parseError → Sound machine s' ∧ Extends s s'

section

variable {α β : Type} {machine : Machine} {s : HeapState} {m : HeapInterp α}
  {post post' : α → HeapState → Prop}

theorem Safe.bind {f : α → HeapInterp β} {mid : α → HeapState → Prop} {post : β → HeapState → Prop}
    (hm : Safe machine m s mid)
    (hf : ∀ a s', Sound machine s' → Extends s s' → mid a s' → Safe machine (f a) s' post) :
    Safe machine (m >>= f) s post := by
  refine ensures_bind.mpr (Ensures.mono hm (fun a s' h => ?_) fun _ _ h => h)
  obtain ⟨hs', hext, hmid⟩ := h
  refine Ensures.mono (hf a s' hs' hext hmid) (fun b s'' h => ?_) fun e s'' h he => ?_
  · exact ⟨h.1, hext.trans h.2.1, h.2.2⟩
  · exact ⟨(h he).1, hext.trans (h he).2⟩

theorem Safe.mono (hm : Safe machine m s post) (h : ∀ a s', post a s' → post' a s') :
    Safe machine m s post' :=
  Ensures.mono hm (fun a s' hpost => ⟨hpost.1, hpost.2.1, h a s' hpost.2.2⟩) fun _ _ h => h

theorem safe_pure (hs : Sound machine s) {a : α} (h : post a s) : Safe machine (pure a) s post :=
  ⟨hs, .refl s, h⟩

theorem safe_throw {e : HeapStop} (hs : Sound machine s) :
    Safe machine (throw e : HeapInterp α) s post := fun _ => ⟨hs, .refl s⟩

theorem safe_get_bind {f : HeapState → HeapInterp β} {post : β → HeapState → Prop}
    (h : Safe machine (f s) s post) : Safe machine (get >>= f) s post := h

/-- What is done outside the heap. -/
theorem safe_outside (hs : Sound machine s) (m : Interp α) :
    Safe machine (outside m) s fun _ s' => s'.vars = s.vars := by
  unfold Safe Ensures outside
  cases m s.outside with
  | ok a o => exact ⟨hs.congr o s.parserResult, ⟨rfl, rfl, fun _ hp => hp⟩, rfl⟩
  | error e o => exact fun _ => ⟨hs.congr o s.parserResult, ⟨rfl, rfl, fun _ hp => hp⟩⟩

theorem safe_deref (hs : Sound machine s) (p : Option Ptr) :
    Safe machine (deref p) s fun t s' => s' = s ∧ ∃ q, p = some q ∧ s.cells q = some (.term t) := by
  cases p with
  | none => exact safe_throw hs
  | some q =>
    unfold deref
    refine safe_get_bind ?_
    split
    · rename_i t heq
      exact safe_pure hs ⟨rfl, q, rfl, heq⟩
    · exact safe_throw hs

theorem safe_textAt (hs : Sound machine s) (p : Ptr) :
    Safe machine (textAt p) s fun str s' => s' = s ∧ s.cells p = some (.text str) := by
  unfold textAt
  refine safe_get_bind ?_
  split
  · rename_i str heq
    exact safe_pure hs ⟨rfl, heq⟩
  · exact safe_throw hs

end

/-! ## New terms -/

section

variable {machine : Machine} {s s' : HeapState} {h : Nat}

/-- A new term is in the memory, and maybe a new string that it owns. -/
structure Added (machine : Machine) (s : HeapState) (p : Ptr) (t : HeapTerm) (s' : HeapState) :
    Prop where
  heap : s'.heap = s.heap
  result : s'.parserResult = s.parserResult
  inside : s.heap = some p.heap
  live : Live s'
  packed : Packed machine s'
  kept : ∀ q c, s.cells q = some c → s'.cells q = some c
  there : s'.cells p = some (.term t)
  fresh : s.cells p = none
  terms : ∀ q u, s'.cells q = some (.term u) → s.cells q = some (.term u) ∨ (q = p ∧ u = t)
  text : ∀ q, t.data.text? = some q → s.cells q = none ∧ s.heap = some q.heap ∧
    ∃ str, s'.cells q = some (.text str)

variable {p : Ptr} {t : HeapTerm}

theorem Added.extends (ha : Added machine s p t s') : Extends s s' := by
  refine ⟨ha.heap, ha.result, ?_⟩
  rintro q ⟨hheap, u, hu, hplain⟩
  exact ⟨ha.heap.trans hheap, u, ha.kept q _ hu, hplain⟩

theorem Added.plainAt (ha : Added machine s p t s') (ht : t.data.isVar = false) : PlainAt s' p :=
  ⟨ha.heap.trans ha.inside, t, ha.there, ht⟩

theorem Added.soundCells (ha : Added machine s p t s') (hs : SoundCells machine s)
    (hnext : t.data.isVar = false → Value s t.next)
    (hparameters : ∀ handler ps, t.data = .function handler ps → Value s ps) :
    SoundCells machine s' := by
  refine ⟨ha.heap ▸ hs.heap, ha.live, ha.packed, ?_, ?_, ?_, ?_⟩
  · intro q u r hq hu hr
    rw [ha.heap] at hq ⊢
    rcases ha.terms q u hu with hu | ⟨rfl, rfl⟩
    · obtain ⟨hheap, str, hstr⟩ := hs.texts q u r hq hu hr
      exact ⟨hheap, str, ha.kept r _ hstr⟩
    · exact (ha.text r hr).2
  · intro q q' u u' r hq hq' hu hu' hr hr'
    rw [ha.heap] at hq hq'
    -- The text of an old term is not where the text of the new one is.
    have hold : ∀ {q u}, s.heap = some q.heap → s.cells q = some (.term u) →
        u.data.text? = some r → s.cells r ≠ none := by
      intro q u hq hu hr hnone
      obtain ⟨-, str, hstr⟩ := hs.texts q u r hq hu hr
      rw [hnone] at hstr
      cases hstr
    rcases ha.terms q u hu with hu | ⟨rfl, rfl⟩
    · rcases ha.terms q' u' hu' with hu' | ⟨rfl, rfl⟩
      · exact hs.owned q q' u u' r hq hq' hu hu' hr hr'
      · exact absurd (ha.text r hr').1 (hold hq hu hr)
    · rcases ha.terms q' u' hu' with hu' | ⟨rfl, rfl⟩
      · exact absurd (ha.text r hr).1 (hold hq' hu' hr')
      · rfl
  · intro q u hq hu hplain
    rw [ha.heap] at hq
    rcases ha.terms q u hu with hu | ⟨rfl, rfl⟩
    · exact (hs.nexts q u hq hu hplain).extend ha.extends
    · exact (hnext hplain).extend ha.extends
  · intro q u handler ps hq hu hps
    rw [ha.heap] at hq
    rcases ha.terms q u hu with hu | ⟨rfl, rfl⟩
    · exact (hs.parameters q u handler ps hq hu hps).extend ha.extends
    · exact (hparameters handler ps hps).extend ha.extends

/-- The variables stay. -/
theorem Added.variables (ha : Added machine s p t s') (hvars : s'.vars = s.vars) {l : List Entry}
    (hl : Variables s l) : Variables s' l := by
  refine ⟨?_, hl.names, fun e he => ha.heap.trans (hl.nodes e he),
    fun e he => (hl.values e he).extend ha.extends⟩
  rw [hvars]
  exact hl.table.congr fun q c hq _ => ha.kept q c hq

theorem added_push (hs : SoundCells machine s) (hh : s.heap = some h)
    (hroom : s.heapIndex + termSize machine ≤ heapSize) (ht : t.data.text? = none) :
    Added machine s ⟨h, s.heapIndex⟩ t (s.push machine h (.term t)) := by
  refine ⟨rfl, rfl, hh, ⟨fun q c hq => ?_, hs.live.heap⟩, hs.packed.push hroom,
    fun q c hq => hs.packed.push_kept hh hq, push_same _, hs.packed.fresh hh (Nat.le_refl _),
    fun q u hu => ?_, fun q hq => ?_⟩
  · rcases push_cases hq with ⟨rfl, -⟩ | hq
    · exact hs.live.heap h hh
    · exact hs.live.cells q c hq
  · rcases push_cases hu with ⟨hq, hut⟩ | hu
    · exact Or.inr ⟨hq, Cell.term.inj hut⟩
    · exact Or.inl hu
  · rw [ht] at hq
    cases hq

theorem added_pushText (hs : SoundCells machine s) (hh : s.heap = some h) {str : CString}
    (hroom : s.heapIndex + termSize machine + textSize str ≤ heapSize)
    (ht : t.data.text? = some ⟨h, s.heapIndex + termSize machine⟩) :
    Added machine s ⟨h, s.heapIndex⟩ t (s.pushText machine h t str) := by
  refine ⟨rfl, rfl, hh, hs.live.pushText (hs.live.heap h hh) t str, hs.packed.pushText hroom,
    fun q c hq => hs.packed.pushText_kept hh (Nat.le_trans (Nat.le_add_right _ _) hroom) hq,
    pushText_term, hs.packed.fresh hh (Nat.le_refl _), fun q u hu => ?_, fun q hq => ?_⟩
  · rcases pushText_cases hu with ⟨hq, hut⟩ | ⟨-, hut⟩ | hu
    · exact Or.inr ⟨hq, Cell.term.inj hut⟩
    · cases hut
    · exact Or.inl hu
  · obtain rfl := Option.some.inj (ht.symm.trans hq)
    exact ⟨hs.packed.fresh hh (Nat.le_add_right _ _), hh, str, pushText_text⟩

theorem Added.sound (ha : Added machine s p t s') (hs : Sound machine s) (hvars : s'.vars = s.vars)
    (hnext : Value s t.next)
    (hparameters : ∀ handler ps, t.data = .function handler ps → Value s ps) : Sound machine s' := by
  obtain ⟨l, hl⟩ := hs.vars
  exact ⟨ha.soundCells hs.toSoundCells (fun _ => hnext) hparameters, l, ha.variables hvars hl⟩

theorem safe_allocTerm (hs : Sound machine s) {data : TermData} (htext : data.text? = none)
    (hplain : data.isVar = false) (hparameters : ∀ handler ps, data = .function handler ps → Value s ps) :
    Safe machine (allocTerm machine data) s fun p s' => PlainAt s' p := by
  obtain ⟨h, hh⟩ := Option.isSome_iff_exists.mp hs.heap
  refine allocTerm_ensures hs.packed hh (fun hroom => ?_) fun _ => nofun
  have ha := added_push (t := ⟨data, none⟩) hs.toSoundCells hh hroom htext
  exact ⟨ha.sound hs rfl value_none hparameters, ha.extends, ha.plainAt hplain⟩

theorem safe_allocTextTerm (hs : Sound machine s) {data : Ptr → TermData} {str : CString}
    (htext : ∀ q, (data q).text? = some q) (hplain : ∀ q, (data q).isVar = false) :
    Safe machine (allocTextTerm machine data (allocString machine str)) s fun p s' => PlainAt s' p := by
  obtain ⟨h, hh⟩ := Option.isSome_iff_exists.mp hs.heap
  refine allocTextTerm_ensures hs.packed hh (fun hroom => ?_) fun _ _ => nofun
  have ha := added_pushText (t := ⟨data ⟨h, s.heapIndex + termSize machine⟩, none⟩)
    hs.toSoundCells hh hroom (htext _)
  refine ⟨ha.sound hs rfl value_none fun handler ps hdata => ?_, ha.extends, ha.plainAt (hplain _)⟩
  have hnone : (data ⟨h, s.heapIndex + termSize machine⟩).text? = none := by
    rw [show data _ = _ from hdata]
    rfl
  rw [htext] at hnone
  cases hnone

theorem safe_termNewNumber (hs : Sound machine s) (value : Int32) :
    Safe machine (termNewNumber machine value) s fun p s' => PlainAt s' p :=
  safe_allocTerm hs rfl rfl nofun

theorem safe_termNewBoolean (hs : Sound machine s) (value : Bool) :
    Safe machine (termNewBoolean machine value) s fun p s' => PlainAt s' p :=
  safe_allocTerm hs rfl rfl nofun

theorem safe_termNewString (hs : Sound machine s) (value : CString) :
    Safe machine (termNewString machine value) s fun p s' => PlainAt s' p :=
  safe_allocTextTerm hs (fun _ => rfl) fun _ => rfl

theorem safe_termNewIdentifier (hs : Sound machine s) (value : CString) :
    Safe machine (termNewIdentifier machine value) s fun p s' => PlainAt s' p :=
  safe_allocTextTerm hs (fun _ => rfl) fun _ => rfl

theorem safe_termNewQstring (hs : Sound machine s) (value : CString) :
    Safe machine (termNewQstring machine (quoted value)) s fun p s' => PlainAt s' p := by
  rw [termNewQstring, allocQstring_quoted]
  exact safe_termNewString hs value

end

/-! ## Changing a term -/

section

variable {machine : Machine} {s : HeapState} {p : Ptr} {t u : HeapTerm}

/-- The state with another term at an address. -/
def HeapState.put (s : HeapState) (p : Ptr) (u : HeapTerm) : HeapState :=
  { s with cells := Function.update s.cells p (some (.term u)) }

theorem put_same : (s.put p u).cells p = some (.term u) := Function.update_self ..

theorem put_other {q : Ptr} (hne : q ≠ p) : (s.put p u).cells q = s.cells q :=
  Function.update_of_ne hne ..

theorem put_term {q : Ptr} {v : HeapTerm} (h : (s.put p u).cells q = some (.term v)) :
    (q = p ∧ v = u) ∨ (q ≠ p ∧ s.cells q = some (.term v)) := by
  by_cases hq : q = p
  · subst hq
    rw [put_same] at h
    exact Or.inl ⟨rfl, (Cell.term.inj (Option.some.inj h)).symm⟩
  · rw [put_other hq] at h
    exact Or.inr ⟨hq, h⟩

theorem put_text {q : Ptr} {str : CString} (hp : s.cells p = some (.term t))
    (h : s.cells q = some (.text str)) : (s.put p u).cells q = some (.text str) := by
  rw [put_other]
  · exact h
  · rintro rfl
    rw [hp] at h
    cases h

/-- Whatever is at an address after the change, there was something of that size before. -/
theorem put_size (machine : Machine) {q : Ptr} {c : Cell} (hp : s.cells p = some (.term t))
    (h : (s.put p u).cells q = some c) : ∃ d, s.cells q = some d ∧ d.size machine = c.size machine := by
  by_cases hq : q = p
  · subst hq
    rw [put_same] at h
    exact ⟨.term t, hp, (Option.some.inj h) ▸ rfl⟩
  · rw [put_other hq] at h
    exact ⟨c, h, rfl⟩

theorem extends_put (hp : s.cells p = some (.term t)) (hvar : u.data.isVar = t.data.isVar) :
    Extends s (s.put p u) := by
  refine ⟨rfl, rfl, ?_⟩
  rintro q ⟨hheap, v, hv, hplain⟩
  by_cases hq : q = p
  · subst hq
    obtain rfl : t = v := Cell.term.inj (Option.some.inj (hp.symm.trans hv))
    exact ⟨hheap, u, put_same, hvar.trans hplain⟩
  · exact ⟨hheap, v, (put_other hq).trans hv, hplain⟩

theorem Packed.put (hs : Packed machine s) (hp : s.cells p = some (.term t)) :
    Packed machine (s.put p u) := by
  refine ⟨hs.aligned, hs.full, ?_, ?_⟩
  · intro q c hq hheap
    obtain ⟨d, hd, hsize⟩ := put_size machine hp hq
    exact hsize ▸ hs.bounded q d hd hheap
  · intro q r c d hq hr hqh hrh hlt
    obtain ⟨c', hc', hsize⟩ := put_size machine hp hq
    obtain ⟨d', hd', -⟩ := put_size machine hp hr
    exact hsize ▸ hs.apart q r c' d' hc' hd' hqh hrh hlt

/-- A term keeps its string, and gets pointers to terms. -/
theorem SoundCells.put (hs : SoundCells machine s) (hp : s.cells p = some (.term t))
    (htext : u.data.text? = t.data.text?) (hvar : u.data.isVar = t.data.isVar)
    (hnext : u.data.isVar = false → Value s u.next)
    (hparameters : ∀ handler ps, u.data = .function handler ps → Value s ps) :
    SoundCells machine (s.put p u) := by
  have hext : Extends s (s.put p u) := extends_put hp hvar
  -- The terms own what they owned before.
  have howner : ∀ {q v r}, (s.put p u).cells q = some (.term v) → v.data.text? = some r →
      ∃ v', s.cells q = some (.term v') ∧ v'.data.text? = some r := by
    intro q v r hv hr
    rcases put_term hv with ⟨rfl, rfl⟩ | ⟨-, hv⟩
    · exact ⟨t, hp, htext.symm.trans hr⟩
    · exact ⟨v, hv, hr⟩
  refine ⟨hs.heap, ⟨fun q c hq => ?_, hs.live.heap⟩, hs.packed.put hp, ?_, ?_, ?_, ?_⟩
  · obtain ⟨d, hd, -⟩ := put_size machine hp hq
    exact hs.live.cells q d hd
  · intro q v r hq hv hr
    obtain ⟨v', hv', hr'⟩ := howner hv hr
    obtain ⟨hheap, str, hstr⟩ := hs.texts q v' r hq hv' hr'
    exact ⟨hheap, str, put_text hp hstr⟩
  · intro q q' v v' r hq hq' hv hv' hr hr'
    obtain ⟨w, hw, hwr⟩ := howner hv hr
    obtain ⟨w', hw', hwr'⟩ := howner hv' hr'
    exact hs.owned q q' w w' r hq hq' hw hw' hwr hwr'
  · intro q v hq hv hplain
    rcases put_term hv with ⟨rfl, rfl⟩ | ⟨-, hv⟩
    · exact (hnext hplain).extend hext
    · exact (hs.nexts q v hq hv hplain).extend hext
  · intro q v handler ps hq hv hps
    rcases put_term hv with ⟨rfl, rfl⟩ | ⟨-, hv⟩
    · exact (hparameters handler ps hps).extend hext
    · exact (hs.parameters q v handler ps hq hv hps).extend hext

theorem safe_setNext (hs : Sound machine s) (hp : PlainAt s p) {next : Option Ptr}
    (hnext : Value s next) : Safe machine (setNext p next) s fun _ s' => s'.vars = s.vars := by
  obtain ⟨hheap, t, ht, hplain⟩ := hp
  obtain ⟨l, hl⟩ := hs.vars
  have hext : Extends s (s.put p { t with next := next }) := extends_put ht rfl
  have hcells : SoundCells machine (s.put p { t with next := next }) :=
    hs.toSoundCells.put ht rfl rfl (fun _ => hnext) fun handler ps hdata =>
      hs.parameters p t handler ps hheap ht hdata
  unfold Safe
  rw [setNext, ensures_bind_of_ok (deref_eq ht)]
  refine ⟨⟨hcells, l, ?_, hl.names, hl.nodes, fun e he => (hl.values e he).extend hext⟩, hext, rfl⟩
  refine hl.table.congr fun q c hq hvar => ?_
  refine (put_other ?_).trans hq
  rintro rfl
  obtain rfl : Cell.term t = c := Option.some.inj (ht.symm.trans hq)
  rw [hvar t rfl] at hplain
  cases hplain

end

/-! ## Variables -/

section

variable {machine : Machine} {s : HeapState} {l : List Entry}

/-- What looking for a name comes to: a variable with the name, if there is one. -/
def Found (l : List Entry) (name : CString) : Option (Ptr × Option Ptr) → Prop
  | some (v, value) => ∃ e ∈ l, e.node = v ∧ e.value = value
  | none => name ∉ l.map Entry.name

theorem findVariable_found {p : Option Ptr} (hl : Table s.cells p l) (name : CString) (steps : Nat) :
    Ensures (findVariable name steps p) s (fun r s' => s' = s ∧ Found l name r)
      fun e _ => e = .stop .outOfFuel := by
  induction hl generalizing steps with
  | nil =>
    cases steps
    · exact ⟨rfl, List.not_mem_nil⟩
    · exact ⟨rfl, List.not_mem_nil⟩
  | @cons q namePtr str value next rest node text more ih =>
    cases steps with
    | zero => exact rfl
    | succ steps =>
      rw [findVariable, ensures_bind_of_ok (deref_eq node)]
      simp only
      rw [ensures_bind_of_ok (textAt_eq text)]
      by_cases hname : strcmp str name = 0
      · rw [if_pos hname]
        exact ⟨rfl, _, List.mem_cons_self, rfl, rfl⟩
      · rw [if_neg hname]
        refine (ih steps).mono ?_ fun _ _ h => h
        rintro r s' ⟨rfl, hfound⟩
        refine ⟨rfl, ?_⟩
        cases r with
        | some v =>
          obtain ⟨e, he, hnode, hvalue⟩ := hfound
          exact ⟨e, List.mem_cons_of_mem _ he, hnode, hvalue⟩
        | none =>
          intro hmem
          rcases List.mem_cons.mp hmem with heq | hmem
          · exact hname (strcmp_eq_zero.mpr heq.symm)
          · exact hfound hmem

theorem getVariableImpl_found (hl : Variables s l) (steps : Nat) (name : CString) :
    Ensures (getVariableImpl steps name) s (fun r s' => s' = s ∧ Found l name r)
      fun e _ => e = .stop .outOfFuel := by
  have hget : (get : HeapInterp HeapState) s = .ok s s := rfl
  rw [getVariableImpl, ensures_bind_of_ok hget]
  exact findVariable_found hl.table name steps

theorem safe_getVariableImpl (hs : Sound machine s) (steps : Nat) (name : CString) :
    Safe machine (getVariableImpl steps name) s fun r s' =>
      s' = s ∧ ∀ v value, r = some (v, value) → Value s value := by
  obtain ⟨l, hl⟩ := hs.vars
  refine (getVariableImpl_found hl steps name).mono ?_ ?_
  · rintro r _ ⟨rfl, hfound⟩
    refine ⟨hs, .refl _, rfl, ?_⟩
    rintro v value rfl
    obtain ⟨e, he, -, rfl⟩ := hfound
    exact hl.values e he
  · rintro _ _ rfl
    nofun

/-- The table after an assignment to the variable at `v`. -/
def assignEntry (v : Ptr) (value : Option Ptr) (e : Entry) : Entry :=
  if e.node = v then { e with value := value } else e

theorem assignEntry_name (v : Ptr) (value : Option Ptr) (e : Entry) :
    (assignEntry v value e).name = e.name := by
  unfold assignEntry
  split
  · rfl
  · rfl

theorem assignEntry_node (v : Ptr) (value : Option Ptr) (e : Entry) :
    (assignEntry v value e).node = e.node := by
  unfold assignEntry
  split
  · rfl
  · rfl

theorem Table.node_eq {cells : Ptr → Option Cell} {p : Option Ptr} (hl : Table cells p l) {e : Entry}
    (he : e ∈ l) : ∃ next, cells e.node = some (.term ⟨.var e.namePtr e.value, next⟩) := by
  induction hl with
  | nil => cases he
  | cons node _ _ ih =>
    rcases List.mem_cons.mp he with rfl | he
    · exact ⟨_, node⟩
    · exact ih he

theorem Table.text_eq {cells : Ptr → Option Cell} {p : Option Ptr} (hl : Table cells p l) {e : Entry}
    (he : e ∈ l) : cells e.namePtr = some (.text e.name) := by
  induction hl with
  | nil => cases he
  | cons _ text _ ih =>
    rcases List.mem_cons.mp he with rfl | he
    · exact text
    · exact ih he

theorem Table.assign {p : Option Ptr} (hl : Table s.cells p l) {v namePtr : Ptr}
    {old next value : Option Ptr} (hv : s.cells v = some (.term ⟨.var namePtr old, next⟩)) :
    Table (s.put v ⟨.var namePtr value, next⟩).cells p (l.map (assignEntry v value)) := by
  induction hl with
  | nil => exact .nil
  | @cons q namePtr' str value' next' rest node text more ih =>
    have hstr := put_text (u := ⟨.var namePtr value, next⟩) hv text
    rw [List.map_cons]
    by_cases hq : q = v
    · subst hq
      rw [hv] at node
      injection node with hcell
      injection hcell with hterm
      injection hterm with hdata hnext
      injection hdata with hname hvalue
      subst hname hnext
      rw [assignEntry, if_pos rfl]
      exact .cons put_same hstr ih
    · rw [assignEntry, if_neg hq]
      exact .cons ((put_other hq).trans node) hstr ih

theorem safe_setValue (hs : Sound machine s) (hl : Variables s l) {e : Entry} (he : e ∈ l)
    {value : Option Ptr} (hvalue : Value s value) :
    Safe machine (setValue e.node value) s fun _ _ => True := by
  obtain ⟨next, hnode⟩ := hl.table.node_eq he
  have hext : Extends s (s.put e.node ⟨.var e.namePtr value, next⟩) := extends_put hnode rfl
  have hcells : SoundCells machine (s.put e.node ⟨.var e.namePtr value, next⟩) :=
    hs.toSoundCells.put hnode rfl rfl nofun nofun
  unfold Safe
  rw [setValue, ensures_bind_of_ok (deref_eq hnode)]
  refine ⟨⟨hcells, l.map (assignEntry e.node value), hl.table.assign hnode, ?_, ?_, ?_⟩, hext, trivial⟩
  · rw [List.map_map]
    exact (List.map_congr_left fun e' _ => assignEntry_name e.node value e').symm ▸ hl.names
  · intro e' he'
    obtain ⟨e'', he'', rfl⟩ := List.mem_map.mp he'
    rw [assignEntry_node]
    exact hl.nodes e'' he''
  · intro e' he'
    obtain ⟨e'', he'', rfl⟩ := List.mem_map.mp he'
    unfold assignEntry
    split
    · exact hvalue.extend hext
    · exact (hl.values e'' he'').extend hext

theorem safe_addVariable (hs : Sound machine s) (hl : Variables s l) {name : CString}
    (hname : name ∉ l.map Entry.name) {value : Option Ptr} (hvalue : Value s value) :
    Safe machine (addVariable machine name value) s fun _ _ => True := by
  obtain ⟨h, hh⟩ := Option.isSome_iff_exists.mp hs.heap
  unfold Safe addVariable
  rw [ensures_bind]
  refine allocTextTerm_ensures hs.packed hh (fun hroom => ?_) fun _ _ => by simp
  let q : Ptr := ⟨h, s.heapIndex + termSize machine⟩
  let s1 : HeapState := s.pushText machine h ⟨.var q value, none⟩ name
  have ha : Added machine s ⟨h, s.heapIndex⟩ ⟨.var q value, s.vars⟩
      (s.pushText machine h ⟨.var q value, s.vars⟩ name) :=
    added_pushText hs.toSoundCells hh hroom rfl
  have hnext : setNext ⟨h, s.heapIndex⟩ s.vars s1 =
      .ok () (s.pushText machine h ⟨.var q value, s.vars⟩ name) := by
    rw [setNext, bind_of_ok (deref_eq pushText_term)]
    exact congrArg (EStateM.Result.ok ()) (pushText_replace _)
  have hget : (get : HeapInterp HeapState) s1 = .ok s1 s1 := rfl
  refine (ensures_bind_of_ok hget).mpr ((ensures_bind_of_ok hnext).mpr ?_)
  rw [ensures_modify]
  have hcells := ha.soundCells hs.toSoundCells (by simp [TermData.isVar]) (by simp)
  have hold := ha.variables rfl hl
  refine ⟨⟨⟨hcells.heap, ⟨hcells.live.cells, hcells.live.heap⟩, ⟨hcells.packed.aligned,
    hcells.packed.full, hcells.packed.bounded, hcells.packed.apart⟩, hcells.texts, hcells.owned,
    hcells.nexts, hcells.parameters⟩, ⟨⟨h, s.heapIndex⟩, q, name, value⟩ :: l,
    .cons pushText_term pushText_text hold.table, ?_, ?_, ?_⟩, ⟨rfl, rfl, ha.extends.terms⟩, trivial⟩
  · exact List.nodup_cons.mpr ⟨hname, hl.names⟩
  · intro e he
    rcases List.mem_cons.mp he with rfl | he
    · exact hh
    · exact hold.nodes e he
  · intro e he
    rcases List.mem_cons.mp he with rfl | he
    · exact hvalue.extend ⟨rfl, rfl, ha.extends.terms⟩
    · exact hold.values e he

theorem safe_setVariable (hs : Sound machine s) {value : Option Ptr} (hvalue : Value s value)
    (steps : Nat) (name : CString) :
    Safe machine (setVariable machine steps name value) s fun _ _ => True := by
  obtain ⟨l, hl⟩ := hs.vars
  unfold Safe setVariable
  refine (getVariableImpl_found hl steps name).mono ?_ ?_ |> ensures_bind.mpr
  · rintro r _ ⟨rfl, hfound⟩
    cases r with
    | some v =>
      obtain ⟨v, old⟩ := v
      obtain ⟨e, he, rfl, -⟩ := hfound
      exact safe_setValue hs hl he hvalue
    | none => exact safe_addVariable hs hl hfound hvalue
  · rintro _ _ rfl
    nofun

theorem safe_getVariable (hs : Sound machine s) (steps : Nat) (name : CString) :
    Safe machine (getVariable machine steps name) s fun r s' => Value s' r := by
  unfold getVariable
  refine (safe_getVariableImpl hs steps name).bind ?_
  rintro r s1 hs1 - ⟨rfl, hvalue⟩
  cases r with
  | some v => exact safe_pure hs1 (hvalue v.1 v.2 rfl)
  | none =>
    refine (safe_termNewString hs1 _).bind ?_
    intro p s2 hs2 _ hp
    exact safe_pure hs2 (value_some hp)

theorem safe_setStringVariable (hs : Sound machine s) (steps : Nat) (name value : CString) :
    Safe machine (setStringVariable machine steps name value) s fun _ _ => True := by
  unfold setStringVariable
  refine (safe_termNewString hs value).bind ?_
  intro p s1 hs1 _ hp
  exact safe_setVariable hs1 (value_some hp) steps name

theorem safe_setBooleanVariable (hs : Sound machine s) (steps : Nat) (name : CString) (value : Bool) :
    Safe machine (setBooleanVariable machine steps name value) s fun _ _ => True := by
  unfold setBooleanVariable
  refine (safe_termNewBoolean hs value).bind ?_
  intro p s1 hs1 _ hp
  exact safe_setVariable hs1 (value_some hp) steps name

theorem safe_setNumberVariable (hs : Sound machine s) (steps : Nat) (name : CString) (value : Int32) :
    Safe machine (setNumberVariable machine steps name value) s fun _ _ => True := by
  unfold setNumberVariable
  refine (safe_termNewNumber hs value).bind ?_
  intro p s1 hs1 _ hp
  exact safe_setVariable hs1 (value_some hp) steps name

end

/-! ## Lists of terms -/

section

variable {machine : Machine} {s : HeapState}

theorem Sound.next (hs : Sound machine s) {p : Ptr} {t : HeapTerm} (hp : PlainAt s p)
    (ht : s.cells p = some (.term t)) : Value s t.next := by
  obtain ⟨hheap, u, hu, hplain⟩ := hp
  obtain rfl : u = t := Cell.term.inj (Option.some.inj (hu.symm.trans ht))
  exact hs.nexts p u hheap hu hplain

theorem safe_nextOf (hs : Sound machine s) {p : Option Ptr} (hp : Value s p) :
    Safe machine (nextOf p) s fun r s' => s' = s ∧ Value s' r := by
  unfold nextOf
  refine (safe_deref hs p).bind ?_
  rintro t _ - - ⟨rfl, q, rfl, ht⟩
  exact safe_pure hs ⟨rfl, hs.next (hp q rfl) ht⟩

theorem safe_readNext (hs : Sound machine s) (p : Option Ptr) :
    Safe machine (nextOf p) s fun _ s' => s' = s := by
  unfold nextOf
  refine (safe_deref hs p).bind ?_
  rintro t _ - - ⟨rfl, -⟩
  exact safe_pure hs rfl

theorem safe_termReverse (hs : Sound machine s) (steps : Nat) {prev rv : Option Ptr}
    (hprev : Value s prev) (hrv : Value s rv) :
    Safe machine (termReverse steps prev rv) s fun r s' => Value s' r := by
  induction steps generalizing s prev rv with
  | zero =>
    cases rv with
    | none => exact safe_pure hs hprev
    | some p => exact safe_throw hs
  | succ steps ih =>
    cases rv with
    | none => exact safe_pure hs hprev
    | some p =>
      rw [termReverse]
      refine (safe_deref hs (some p)).bind ?_
      rintro t _ - - ⟨rfl, _, ⟨⟩, ht⟩
      have hp := hrv p rfl
      refine (safe_setNext hs hp hprev).bind ?_
      intro _ s1 hs1 hext _
      exact ih hs1 (value_some (hext.terms p hp)) ((hs.next hp ht).extend hext)

theorem safe_countParameters (hs : Sound machine s) (steps : Nat) (p : Option Ptr) :
    Safe machine (countParameters steps p) s fun _ s' => s' = s := by
  induction steps generalizing p with
  | zero =>
    cases p with
    | none => exact safe_pure hs rfl
    | some p => exact safe_throw hs
  | succ steps ih =>
    cases p with
    | none => exact safe_pure hs rfl
    | some p =>
      rw [countParameters]
      refine (safe_deref hs (some p)).bind ?_
      rintro t _ - - ⟨rfl, -⟩
      refine (ih t.next).bind ?_
      rintro arity _ - - rfl
      exact safe_pure hs rfl

theorem safe_termNewFun (hs : Sound machine s) (steps : Nat) (name : CString)
    {parameters : Option Ptr} (hparameters : Value s parameters) :
    Safe machine (termNewFun machine steps name parameters) s fun r s' => Value s' r := by
  unfold termNewFun
  refine (safe_countParameters hs steps parameters).bind ?_
  rintro arity _ - - rfl
  cases lookupFunction name arity with
  | none => exact safe_pure hs value_none
  | some handler =>
    have hnew : Safe machine (allocTerm machine (.function handler parameters)) _ _ :=
      safe_allocTerm hs rfl rfl fun handler' ps hdata => by
        obtain ⟨-, rfl⟩ := TermData.function.inj hdata
        exact hparameters
    refine hnew.bind ?_
    intro p s1 hs1 _ hp
    exact safe_pure hs1 (value_some hp)

/-- Any term, also of another heap, is copied into this one. -/
theorem safe_termDupe (hs : Sound machine s) (rv : Option Ptr) :
    Safe machine (termDupe machine rv) s fun r s' => Value s' r := by
  unfold termDupe
  refine (safe_deref hs rv).bind ?_
  rintro t _ - - ⟨rfl, -⟩
  cases t.data with
  | identifier q =>
    refine (safe_textAt hs q).bind ?_
    rintro str _ - - ⟨rfl, -⟩
    refine (safe_termNewIdentifier hs str).bind ?_
    intro p s1 hs1 _ hp
    exact safe_pure hs1 (value_some hp)
  | string q =>
    refine (safe_textAt hs q).bind ?_
    rintro str _ - - ⟨rfl, -⟩
    refine (safe_termNewString hs str).bind ?_
    intro p s1 hs1 _ hp
    exact safe_pure hs1 (value_some hp)
  | number n =>
    refine (safe_termNewNumber hs n).bind ?_
    intro p s1 hs1 _ hp
    exact safe_pure hs1 (value_some hp)
  | boolean b =>
    refine (safe_termNewBoolean hs b).bind ?_
    intro p s1 hs1 _ hp
    exact safe_pure hs1 (value_some hp)
  | function _ _ => exact safe_pure hs value_none
  | var _ _ => exact safe_pure hs value_none

end

/-! ## Collecting -/

/-- The parser never gives up here. -/
def Quiet {α : Type} (m : HeapInterp α) : Prop :=
  ∀ s, Ensures m s (fun _ _ => True) fun e _ => e ≠ .stop .parseError

section

variable {α β : Type} {m : HeapInterp α} {f : α → HeapInterp β}

theorem Quiet.bind (hm : Quiet m) (hf : ∀ a, Quiet (f a)) : Quiet (m >>= f) :=
  fun s => (hm s).bind fun a s' _ => hf a s'

theorem quiet_pure (a : α) : Quiet (pure a : HeapInterp α) := fun _ => trivial

theorem quiet_throw {e : HeapStop} (he : e ≠ .stop .parseError) : Quiet (throw e : HeapInterp α) :=
  fun _ => he

theorem quiet_get : Quiet (get : HeapInterp HeapState) := fun _ => trivial

theorem quiet_deref (p : Option Ptr) : Quiet (deref p) := by
  cases p with
  | none => exact quiet_throw (by simp)
  | some q =>
    refine quiet_get.bind fun s => ?_
    split
    · exact quiet_pure _
    · exact quiet_throw (by simp)

theorem quiet_textAt (p : Ptr) : Quiet (textAt p) := by
  refine quiet_get.bind fun s => ?_
  split
  · exact quiet_pure _
  · exact quiet_throw (by simp)

theorem quiet_setNext (p : Ptr) (next : Option Ptr) : Quiet (setNext p next) :=
  (quiet_deref _).bind fun _ _ => trivial

theorem quiet_allocHeap (machine : Machine) (n : Nat) : Quiet (allocHeap machine n) := by
  refine quiet_get.bind fun s => ?_
  split
  · exact quiet_throw (by simp)
  · split
    · exact quiet_throw (by simp)
    · exact fun _ => trivial

theorem quiet_allocTerm (machine : Machine) (data : TermData) : Quiet (allocTerm machine data) :=
  (quiet_allocHeap machine _).bind fun _ _ => trivial

theorem quiet_allocTextTerm (machine : Machine) (data : Ptr → TermData) (str : CString) :
    Quiet (allocTextTerm machine data (allocString machine str)) := by
  refine (quiet_allocHeap machine _).bind fun rv => ?_
  refine Quiet.bind ?_ fun _ _ => trivial
  exact (quiet_allocHeap machine _).bind fun _ _ => trivial

theorem quiet_termDupe (machine : Machine) (rv : Option Ptr) : Quiet (termDupe machine rv) := by
  refine (quiet_deref rv).bind fun t => ?_
  cases t.data with
  | identifier q | string q =>
    refine (quiet_textAt q).bind fun str => ?_
    exact (quiet_allocTextTerm machine _ str).bind fun p => quiet_pure _
  | number _ | boolean _ => exact (quiet_allocTerm machine _).bind fun p => quiet_pure _
  | function _ _ | var _ _ => exact quiet_pure _

theorem quiet_findVariable (name : CString) (steps : Nat) (p : Option Ptr) :
    Quiet (findVariable name steps p) := by
  induction steps generalizing p with
  | zero =>
    cases p with
    | none => exact quiet_pure _
    | some v => exact quiet_throw (by simp)
  | succ steps ih =>
    cases p with
    | none => exact quiet_pure _
    | some v =>
      rw [findVariable]
      refine (quiet_deref _).bind fun t => ?_
      cases t.data with
      | var q value =>
        refine (quiet_textAt q).bind fun str => ?_
        split
        · exact quiet_pure _
        · exact ih t.next
      | identifier _ | string _ | number _ | boolean _ | function _ _ => exact quiet_throw (by simp)

theorem quiet_setVariable (machine : Machine) (steps : Nat) (name : CString) (value : Option Ptr) :
    Quiet (setVariable machine steps name value) := by
  unfold setVariable getVariableImpl
  refine (quiet_get.bind fun s => quiet_findVariable name steps s.vars).bind fun r => ?_
  cases r with
  | some v =>
    refine (quiet_deref _).bind fun t => ?_
    cases t.data with
    | var _ _ => exact fun _ => trivial
    | identifier _ | string _ | number _ | boolean _ | function _ _ => exact quiet_throw (by simp)
  | none =>
    refine (quiet_allocTextTerm machine _ name).bind fun rv => ?_
    exact quiet_get.bind fun s => (quiet_setNext rv s.vars).bind fun _ _ => trivial

theorem quiet_copyVariables (machine : Machine) (steps n : Nat) (p : Option Ptr) :
    Quiet (copyVariables machine steps n p) := by
  induction n generalizing p with
  | zero =>
    cases p with
    | none => exact quiet_pure _
    | some v => exact quiet_throw (by simp)
  | succ n ih =>
    cases p with
    | none => exact quiet_pure _
    | some v =>
      rw [copyVariables]
      refine (quiet_deref _).bind fun t => ?_
      cases t.data with
      | var q value =>
        refine (quiet_termDupe machine value).bind fun dupe => ?_
        refine (quiet_textAt q).bind fun name => ?_
        refine (quiet_setVariable machine steps name dupe).bind fun _ => ?_
        exact (quiet_deref _).bind fun t' => ih t'.next
      | identifier _ | string _ | number _ | boolean _ | function _ _ => exact quiet_throw (by simp)

end

section

variable {machine : Machine} {s : HeapState}

theorem safe_copyVariables (hs : Sound machine s) (steps n : Nat) (p : Option Ptr) :
    Safe machine (copyVariables machine steps n p) s fun _ _ => True := by
  induction n generalizing s p with
  | zero =>
    cases p with
    | none => exact safe_pure hs trivial
    | some v => exact safe_throw hs
  | succ n ih =>
    cases p with
    | none => exact safe_pure hs trivial
    | some v =>
      rw [copyVariables]
      refine (safe_deref hs (some v)).bind ?_
      rintro t _ - - ⟨rfl, -⟩
      cases t.data with
      | var namePtr value =>
        refine (safe_termDupe hs value).bind ?_
        intro dupe s1 hs1 _ hdupe
        refine (safe_textAt hs1 namePtr).bind ?_
        rintro name _ - - ⟨rfl, -⟩
        refine (safe_setVariable hs1 hdupe steps name).bind ?_
        intro _ s2 hs2 _ _
        refine (safe_deref hs2 (some v)).bind ?_
        rintro t' _ - - ⟨rfl, -⟩
        exact ih hs2 t'.next
      | identifier _ | string _ | number _ | boolean _ | function _ _ => exact safe_throw hs

/-- In a new heap there is nothing that could be wrong. -/
theorem sound_fresh (hs : Live s) :
    Sound machine
      { s with mallocs := s.mallocs + 1, heap := some s.mallocs, heapIndex := 0, vars := none } := by
  have hnone : ∀ p c, some s.mallocs = some p.heap → s.cells p ≠ some c := by
    intro p c hp hc
    exact Nat.ne_of_lt (hs.cells p c hc) (Option.some.inj hp).symm
  refine ⟨⟨rfl, ⟨fun p c hp => Nat.lt_succ_of_lt (hs.cells p c hp), ?_⟩, ⟨rfl, Nat.zero_le _, ?_, ?_⟩,
    ?_, ?_, ?_, ?_⟩, [], .nil, List.nodup_nil, nofun, nofun⟩
  · rintro h ⟨⟩
    exact Nat.lt_succ_self _
  · exact fun p c hc hp => absurd hc (hnone p c hp.symm)
  · exact fun p _ c _ hc _ hp _ _ => absurd hc (hnone p c hp.symm)
  · exact fun p t _ hp ht _ => absurd ht (hnone p _ hp)
  · exact fun p _ t _ _ hp _ ht _ _ _ => absurd ht (hnone p _ hp)
  · exact fun p t hp ht _ => absurd ht (hnone p _ hp)
  · exact fun p t _ _ hp ht _ => absurd ht (hnone p _ hp)

theorem TermData.text?_of_string? {data : TermData} {q : Ptr} (h : data.string? = some q) :
    data.text? = some q := by
  cases data with
  | identifier _ | string _ => exact h
  | number _ | boolean _ | function _ _ | var _ _ => cases h

theorem Variables.inside (hs : SoundCells machine s) {l : List Entry} (hl : Variables s l) {h : Nat}
    (hh : s.heap = some h) : ∀ e ∈ l, e.Inside s.cells h := by
  intro e he
  obtain ⟨next, hnode⟩ := hl.table.node_eq he
  have hheap := hl.nodes e he
  obtain ⟨hname, -⟩ := hs.texts e.node _ e.namePtr hheap hnode rfl
  rw [hh] at hheap hname
  refine ⟨(Option.some.inj hheap).symm, (Option.some.inj hname).symm, fun p hp => ?_⟩
  obtain ⟨hpheap, t, ht, -⟩ := hl.values e he p hp
  refine ⟨(Option.some.inj (hh.symm.trans hpheap)).symm, t, ht, fun q hq => ?_⟩
  obtain ⟨hqheap, -⟩ := hs.texts p t q hpheap ht (TermData.text?_of_string? hq)
  exact (Option.some.inj (hh.symm.trans hqheap)).symm

/-- The other heaps do not matter. -/
theorem Sound.freeHeap (hs : Sound machine s) {old : Nat} (hold : s.heap ≠ some old) :
    Sound machine { s with cells := fun p => if p.heap = old then none else s.cells p } := by
  obtain ⟨l, hl⟩ := hs.vars
  have hsub : ∀ p c, (if p.heap = old then none else s.cells p) = some c → s.cells p = some c := by
    intro p c hp
    by_cases hheap : p.heap = old
    · rw [if_pos hheap] at hp
      cases hp
    · rwa [if_neg hheap] at hp
  have hsame : ∀ p : Ptr, s.heap = some p.heap →
      (if p.heap = old then none else s.cells p) = s.cells p := by
    intro p hp
    rw [if_neg]
    rintro rfl
    exact hold hp
  have hplain : ∀ p, PlainAt s p →
      PlainAt { s with cells := fun p => if p.heap = old then none else s.cells p } p := by
    rintro p ⟨hp, t, ht, hvar⟩
    exact ⟨hp, t, (hsame p hp).trans ht, hvar⟩
  have hvalue : ∀ p, Value s p →
      Value { s with cells := fun p => if p.heap = old then none else s.cells p } p :=
    fun p hp q hq => hplain q (hp q hq)
  refine ⟨⟨hs.heap, ⟨fun p c hp => hs.live.cells p c (hsub p c hp), hs.live.heap⟩,
    ⟨hs.packed.aligned, hs.packed.full, fun p c hp => hs.packed.bounded p c (hsub p c hp),
      fun p q c d hp hq => hs.packed.apart p q c d (hsub p c hp) (hsub q d hq)⟩, ?_, ?_, ?_, ?_⟩,
    l, ?_, hl.names, hl.nodes, fun e he => hvalue _ (hl.values e he)⟩
  · intro p t q hp ht hq
    obtain ⟨hheap, str, hstr⟩ := hs.texts p t q hp (hsub p _ ht) hq
    exact ⟨hheap, str, (hsame q hheap).trans hstr⟩
  · exact fun p p' t t' q hp hp' ht ht' =>
      hs.owned p p' t t' q hp hp' (hsub p _ ht) (hsub p' _ ht')
  · exact fun p t hp ht hvar => hvalue _ (hs.nexts p t hp (hsub p _ ht) hvar)
  · exact fun p t handler ps hp ht hdata =>
      hvalue _ (hs.parameters p t handler ps hp (hsub p _ ht) hdata)
  · obtain ⟨h, hh⟩ := Option.isSome_iff_exists.mp hs.heap
    refine hl.table.restrict (hl.inside hs.toSoundCells hh) fun q hq => hsame q ?_
    rw [hh, hq]

theorem sound_termGcHeap (hs : Live s) (steps : Nat) :
    Ensures (termGcHeap machine steps) s
      (fun _ s' => Sound machine s' ∧ s'.parserResult = s.parserResult)
      fun e _ => e ≠ .stop .parseError := by
  let s0 : HeapState :=
    { s with mallocs := s.mallocs + 1, heap := some s.mallocs, heapIndex := 0, vars := none }
  have hget : (get : HeapInterp HeapState) s = .ok s s := rfl
  have hset : (set s0 : HeapInterp PUnit) s = .ok ⟨⟩ s0 := rfl
  rw [termGcHeap, ensures_bind_of_ok hget, ensures_bind_of_ok hset, ensures_bind]
  refine ((safe_copyVariables (sound_fresh hs) steps steps _).and
    (quiet_copyVariables machine steps steps _ s0)).mono ?_ fun _ _ h => h.2
  rintro _ s1 ⟨⟨hs1, hext, -⟩, -⟩
  cases hheap : s.heap with
  | none => exact ⟨hs1, hext.result⟩
  | some old =>
    refine ⟨hs1.freeHeap ?_, hext.result⟩
    rw [hext.heap]
    intro heq
    exact Nat.lt_irrefl _ ((Option.some.inj heq) ▸ hs.heap old hheap)

end

end NervesInitramfs.TermHeap
