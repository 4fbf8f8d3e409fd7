import Mathlib.Data.List.Nodup
import Mathlib.Logic.Function.Basic

/-!
# Linked lists in memory

Nodes are in memory under their addresses, and each has a pointer to the next one. `Linked` says
what list a pointer leads to, and the lemmas what becomes of that list when nodes are added,
changed, taken out or linked in another order. A function that follows pointers has a bound on the
number of steps.
-/

namespace CLib

variable {α : Type}

structure Node (α : Type) where
  data : α
  next : Option Nat

/-- The nodes in memory; there is nothing at the other addresses. -/
abbrev Nodes (α : Type) := Nat → Option (Node α)

/-- From the pointer `p` the links lead through the nodes of `l`, in this order, to the pointer
`q`. -/
def Segment (m : Nodes α) : Option Nat → List (Nat × α) → Option Nat → Prop
  | p, [], q => p = q
  | p, (a, d) :: rest, q => p = some a ∧ ∃ n, m a = some ⟨d, n⟩ ∧ Segment m n rest q

/-- From the pointer `p` the links lead through the nodes of `l` to `NULL`. -/
abbrev Linked (m : Nodes α) (p : Option Nat) (l : List (Nat × α)) : Prop := Segment m p l none

/-- The nodes that a loop over the links visits; `none` when it comes to an address where there is
no node, or does not end in that many steps. -/
def walk (m : Nodes α) : Nat → Option Nat → Option (List (Nat × α))
  | _, none => some []
  | 0, some _ => none
  | steps + 1, some a => do
    let node ← m a
    let rest ← walk m steps node.next
    pure ((a, node.data) :: rest)

/-- Store a node. -/
def Nodes.put (m : Nodes α) (a : Nat) (node : Node α) : Nodes α :=
  Function.update m a (some node)

/-- Free a node. -/
def Nodes.free (m : Nodes α) (a : Nat) : Nodes α := Function.update m a none

/-- Store a pointer to the next node; `none` when there is no node at `a`. -/
def Nodes.setNext (m : Nodes α) (a : Nat) (next : Option Nat) : Option (Nodes α) :=
  (m a).map fun node => m.put a { node with next := next }

/-- Link the nodes at the given addresses in this order, the last one to `NULL`. -/
def Nodes.relink (m : Nodes α) : List Nat → Option (Nodes α)
  | [] => some m
  | [a] => m.setNext a none
  | a :: b :: rest => do
    let m ← m.setNext a (some b)
    Nodes.relink m (b :: rest)

section

variable {m m' : Nodes α} {p q r : Option Nat} {l l' : List (Nat × α)} {a : Nat} {d : α}

@[simp] theorem put_same (node : Node α) : m.put a node a = some node := Function.update_self ..

theorem put_other {b : Nat} (node : Node α) (h : b ≠ a) : m.put a node b = m b :=
  Function.update_of_ne h ..

theorem free_other {b : Nat} (h : b ≠ a) : m.free a b = m b := Function.update_of_ne h ..

theorem segment_append :
    Segment m p (l ++ l') r ↔ ∃ q, Segment m p l q ∧ Segment m q l' r := by
  induction l generalizing p with
  | nil => simp [Segment]
  | cons x rest ih =>
    obtain ⟨a, d⟩ := x
    simp only [List.cons_append, Segment, ih]
    constructor
    · rintro ⟨rfl, n, hn, q, h, h'⟩
      exact ⟨q, ⟨rfl, n, hn, h⟩, h'⟩
    · rintro ⟨q, ⟨rfl, n, hn, h⟩, h'⟩
      exact ⟨rfl, n, hn, q, h, h'⟩

/-- Only the nodes of the list matter. -/
theorem Segment.congr (h : Segment m p l q) (heq : ∀ x ∈ l, m' x.1 = m x.1) :
    Segment m' p l q := by
  induction l generalizing p with
  | nil => exact h
  | cons x rest ih =>
    obtain ⟨a, d⟩ := x
    obtain ⟨rfl, n, hn, h⟩ := h
    refine ⟨rfl, n, ?_, ih h fun x hx => heq x (List.mem_cons_of_mem _ hx)⟩
    rw [heq (a, d) List.mem_cons_self, hn]

theorem Segment.node (h : Segment m p l q) {x : Nat × α} (hx : x ∈ l) :
    ∃ n, m x.1 = some ⟨x.2, n⟩ := by
  induction l generalizing p with
  | nil => cases hx
  | cons y rest ih =>
    obtain ⟨a, d⟩ := y
    obtain ⟨rfl, n, hn, h⟩ := h
    rcases List.mem_cons.mp hx with rfl | hx
    · exact ⟨n, hn⟩
    · exact ih h hx

/-- A pointer leads to one list. -/
theorem Linked.unique (h : Linked m p l) (h' : Linked m p l') : l = l' := by
  induction l generalizing p l' with
  | nil =>
    rcases l' with _ | ⟨⟨a, d⟩, rest⟩
    · rfl
    · obtain ⟨rfl, -⟩ := h'
      cases h
  | cons x rest ih =>
    obtain ⟨a, d⟩ := x
    obtain ⟨rfl, n, hn, h⟩ := h
    rcases l' with _ | ⟨⟨a', d'⟩, rest'⟩
    · cases h'
    · obtain ⟨hp, n', hn', h'⟩ := h'
      obtain rfl := Option.some.inj hp
      rw [hn] at hn'
      obtain ⟨rfl, rfl⟩ := (Node.mk.injEq ..).mp (Option.some.inj hn')
      rw [ih h h']

/-- A list that ends does not come back to a node. -/
theorem Linked.nodup (h : Linked m p l) : (l.map Prod.fst).Nodup := by
  induction l generalizing p with
  | nil => simp
  | cons x rest ih =>
    obtain ⟨a, d⟩ := x
    have hself := h
    obtain ⟨rfl, n, hn, h⟩ := h
    refine List.nodup_cons.mpr ⟨fun hin => ?_, ih h⟩
    obtain ⟨⟨a', d'⟩, hx, rfl⟩ := List.mem_map.mp hin
    obtain ⟨before, after, rfl⟩ := List.append_of_mem hx
    obtain ⟨q, -, hq⟩ := segment_append.mp h
    have hagain : Linked m (some a') ((a', d') :: after) := by
      obtain ⟨rfl, hq⟩ := hq
      exact ⟨rfl, hq⟩
    have hlen := congrArg List.length (hself.unique hagain)
    simp only [List.length_cons, List.length_append] at hlen
    omega

theorem walk_eq (h : Linked m p l) {steps : Nat} (hsteps : l.length ≤ steps) :
    walk m steps p = some l := by
  induction l generalizing p steps with
  | nil =>
    obtain rfl : p = none := h
    unfold walk
    rfl
  | cons x rest ih =>
    obtain ⟨a, d⟩ := x
    obtain ⟨rfl, n, hn, h⟩ := h
    cases steps with
    | zero => simp at hsteps
    | succ steps =>
      have hrest := ih h (Nat.le_of_succ_le_succ hsteps)
      simp only [walk, hn, hrest, Option.bind_eq_bind, Option.bind_some]
      rfl

/-- A walk that ends ends in the same way when it may go on for longer. -/
theorem walk_mono {steps steps' : Nat} (h : walk m steps p = some l) (hle : steps ≤ steps') :
    walk m steps' p = some l := by
  induction steps generalizing p l steps' with
  | zero =>
    cases p with
    | none =>
      unfold walk at h ⊢
      exact h
    | some a => cases h
  | succ steps ih =>
    cases p with
    | none =>
      unfold walk at h ⊢
      exact h
    | some a =>
      cases steps' with
      | zero => omega
      | succ steps' =>
        simp only [walk, Option.bind_eq_bind, Option.bind_eq_some_iff] at h ⊢
        obtain ⟨node, hnode, rest, hrest, hl⟩ := h
        exact ⟨node, hnode, rest, ih hrest (Nat.le_of_succ_le_succ hle), hl⟩

/-! ## Changing a list -/

/-- A node put in front. -/
theorem Linked.cons (h : Linked m p l) (hfree : m a = none) :
    Linked (m.put a ⟨d, p⟩) (some a) ((a, d) :: l) := by
  refine ⟨rfl, p, put_same _, Segment.congr h fun x hx => put_other _ ?_⟩
  rintro rfl
  obtain ⟨n, hn⟩ := Segment.node h hx
  rw [hfree] at hn
  cases hn

variable {before after : List (Nat × α)}

/-- The parts of a list in front of a node and behind it. -/
theorem Linked.split (h : Linked m p (before ++ (a, d) :: after)) :
    ∃ n, Segment m p before (some a) ∧ m a = some ⟨d, n⟩ ∧ Linked m n after ∧
      (∀ x ∈ before, x.1 ≠ a) ∧ ∀ x ∈ after, x.1 ≠ a := by
  have hnodup := h.nodup
  obtain ⟨q, hbefore, rfl, n, hn, hafter⟩ := segment_append.mp h
  rw [List.map_append, List.map_cons, List.nodup_append, List.nodup_cons] at hnodup
  obtain ⟨-, ⟨hnotin, -⟩, hdisjoint⟩ := hnodup
  refine ⟨n, hbefore, hn, hafter, fun x hx => ?_, fun x hx => ?_⟩
  · exact hdisjoint _ (List.mem_map_of_mem hx) _ List.mem_cons_self
  · rintro rfl
    exact hnotin (List.mem_map.mpr ⟨x, hx, rfl⟩)

/-- The data of a node changed. -/
theorem Linked.set (h : Linked m p (before ++ (a, d) :: after)) (d' : α) :
    ∃ n, m a = some ⟨d, n⟩ ∧ Linked (m.put a ⟨d', n⟩) p (before ++ (a, d') :: after) := by
  obtain ⟨n, hbefore, hn, hafter, hne, hne'⟩ := h.split
  refine ⟨n, hn, segment_append.mpr ⟨some a, ?_, rfl, n, put_same _, ?_⟩⟩
  · exact hbefore.congr fun x hx => put_other _ (hne x hx)
  · exact Segment.congr hafter fun x hx => put_other _ (hne' x hx)

/-- The first node taken out. -/
theorem Linked.unlink_head (h : Linked m p ((a, d) :: after)) :
    ∃ n, m a = some ⟨d, n⟩ ∧ Linked (m.free a) n after := by
  have h' : Linked m p ([] ++ (a, d) :: after) := h
  obtain ⟨n, -, hn, hafter, -, hne⟩ := h'.split
  exact ⟨n, hn, Segment.congr hafter fun x hx => free_other (hne x hx)⟩

/-- A node behind another one taken out. -/
theorem Linked.unlink_after {c : Nat} {e : α}
    (h : Linked m p (before ++ (c, e) :: (a, d) :: after)) :
    ∃ n, m a = some ⟨d, n⟩ ∧ m c = some ⟨e, some a⟩ ∧ c ≠ a ∧
      Linked ((m.put c ⟨e, n⟩).free a) p (before ++ (c, e) :: after) := by
  obtain ⟨nc, hbefore, hc, -, hne, hne'⟩ := h.split
  have h' : Linked m p ((before ++ [(c, e)]) ++ (a, d) :: after) := by simpa using h
  obtain ⟨n, hsegment, hn, hafter, hother, hother'⟩ := h'.split
  obtain ⟨q, -, rfl, n', hc', rfl⟩ := segment_append.mp hsegment
  have hca : c ≠ a := hother (c, e) (by simp)
  refine ⟨n, hn, hc', hca, segment_append.mpr ⟨some c, ?_, rfl, n, ?_, ?_⟩⟩
  · refine hbefore.congr fun x hx => ?_
    rw [free_other (hother x (by simp [hx])), put_other _ (hne x hx)]
  · rw [free_other hca, put_same]
  · refine Segment.congr hafter fun x hx => ?_
    rw [free_other (hother' x hx), put_other _ (hne' x (by simp [hx]))]

/-- Nodes linked in a new order. The other nodes stay as they are. -/
theorem relink_linked (hnodes : ∀ x ∈ l, ∃ n, m x.1 = some ⟨x.2, n⟩)
    (hnodup : (l.map Prod.fst).Nodup) :
    ∃ m', m.relink (l.map Prod.fst) = some m' ∧ Linked m' (l.head?.map Prod.fst) l ∧
      ∀ c, c ∉ l.map Prod.fst → m' c = m c := by
  induction l generalizing m with
  | nil => exact ⟨m, rfl, rfl, fun _ _ => rfl⟩
  | cons x rest ih =>
    obtain ⟨a, d⟩ := x
    obtain ⟨n, hn⟩ := hnodes (a, d) List.mem_cons_self
    obtain ⟨hnotin, hrest⟩ := List.nodup_cons.mp hnodup
    have hother : ∀ node c, c ∉ ((a, d) :: rest).map Prod.fst → m.put a node c = m c :=
      fun node c hc => put_other node fun h => hc (h ▸ List.mem_cons_self)
    cases rest with
    | nil =>
      refine ⟨m.put a ⟨d, none⟩, ?_, ⟨rfl, none, put_same _, rfl⟩, hother _⟩
      simp [Nodes.relink, Nodes.setNext, hn]
    | cons y rest =>
      obtain ⟨b, e⟩ := y
      have hnodes' : ∀ x ∈ (b, e) :: rest, ∃ n', m.put a ⟨d, some b⟩ x.1 = some ⟨x.2, n'⟩ := by
        intro x hx
        obtain ⟨n', hn'⟩ := hnodes x (List.mem_cons_of_mem _ hx)
        refine ⟨n', ?_⟩
        rw [put_other _ fun h => hnotin (List.mem_map.mpr ⟨x, hx, h⟩), hn']
      obtain ⟨m', hrelink, hlinked, hsame⟩ := ih hnodes' hrest
      refine ⟨m', ?_, ⟨rfl, some b, ?_, hlinked⟩, fun c hc => ?_⟩
      · simp only [List.map_cons, Nodes.relink, Nodes.setNext, hn, Option.map_some,
          Option.bind_eq_bind, Option.bind_some]
        exact hrelink
      · rw [hsame a hnotin, put_same]
      · rw [hsame c fun h => hc (List.mem_cons_of_mem _ h), hother _ c hc]

end

end CLib
