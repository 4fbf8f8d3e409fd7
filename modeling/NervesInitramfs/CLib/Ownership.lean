import Mathlib.Data.List.Nodup
import Mathlib.Logic.Function.Basic

/-!
# Owned objects

Objects that are allocated and freed one by one, and a list of pointers that owns them: there is one
pointer for each object that has not been freed, so that nothing leaks and nothing is freed twice.
-/

namespace CLib

/-- The objects that have been allocated and not freed. The next one will be at `next`. -/
structure Store (α : Type) where
  cells : Nat → Option α
  next : Nat

namespace Store

variable {α : Type}

def empty : Store α := ⟨fun _ => none, 0⟩

/-- The store with a new object, whose address is the old `next`. -/
def alloc (m : Store α) (a : α) : Store α := ⟨Function.update m.cells m.next (some a), m.next + 1⟩

/-- `free`; `none` when there is no object at the address. -/
def free (m : Store α) : Option Nat → Option (Store α)
  | none => some m
  | some p =>
    match m.cells p with
    | none => none
    | some _ => some ⟨Function.update m.cells p none, m.next⟩

/-- Every object is owned by one of the pointers, in this order. -/
structure Owns (m : Store α) (ps : List Nat) (xs : List α) : Prop where
  holds : ps.map m.cells = xs.map some
  nodup : ps.Nodup
  complete : ∀ p, m.cells p ≠ none → p ∈ ps
  bounded : ∀ p ∈ ps, p < m.next

variable {m : Store α} {ps qs : List Nat} {xs ys : List α} {p : Nat} {x : α}

theorem owns_empty : (empty : Store α).Owns [] [] :=
  ⟨rfl, List.nodup_nil, fun _ h => absurd rfl h, List.forall_mem_nil _⟩

theorem Owns.length_eq (h : m.Owns ps xs) : ps.length = xs.length := by
  rw [← List.length_map m.cells, h.holds, List.length_map]

/-- The pointer to one of the objects. -/
theorem Owns.exists_split (h : m.Owns ps (xs ++ x :: ys)) :
    ∃ qs p rs, ps = qs ++ p :: rs ∧ qs.length = xs.length := by
  have hlen := h.length_eq
  rw [List.length_append, List.length_cons] at hlen
  have hlt : xs.length < ps.length := by omega
  refine ⟨ps.take xs.length, ps[xs.length], ps.drop (xs.length + 1), ?_, ?_⟩
  · rw [← List.drop_eq_getElem_cons hlt, List.take_append_drop]
  · rw [List.length_take]
    omega

/-- Nothing has leaked when nothing is owned. -/
theorem Owns.cells_eq_none (h : m.Owns [] []) (p : Nat) : m.cells p = none := by
  by_contra hp
  exact List.not_mem_nil (h.complete p hp)

theorem Owns.split (h : m.Owns (ps ++ qs) (xs ++ ys)) (hlen : ps.length = xs.length) :
    ps.map m.cells = xs.map some ∧ qs.map m.cells = ys.map some := by
  have hholds := h.holds
  rw [List.map_append, List.map_append] at hholds
  apply List.append_inj hholds
  rw [List.length_map, List.length_map, hlen]

theorem Owns.load (h : m.Owns (ps ++ p :: qs) (xs ++ x :: ys)) (hlen : ps.length = xs.length) :
    m.cells p = some x := by
  have hsplit := (h.split hlen).2
  rw [List.map_cons, List.map_cons] at hsplit
  exact (List.cons.inj hsplit).1

/-- A new object, anywhere in the order. -/
theorem Owns.alloc (h : m.Owns (ps ++ qs) (xs ++ ys)) (hlen : ps.length = xs.length) (a : α) :
    (m.alloc a).Owns (ps ++ m.next :: qs) (xs ++ a :: ys) := by
  have hnew : m.next ∉ ps ++ qs := fun hin => Nat.lt_irrefl _ (h.bounded _ hin)
  have hsame : ∀ q ∈ ps ++ qs, (m.alloc a).cells q = m.cells q := by
    intro q hq
    apply Function.update_of_ne
    rintro rfl
    exact hnew hq
  obtain ⟨hps, hqs⟩ := h.split hlen
  have hperm : (m.next :: (ps ++ qs)).Perm (ps ++ m.next :: qs) := List.perm_middle.symm
  constructor
  · rw [List.map_append, List.map_append, List.map_cons, List.map_cons,
      List.map_congr_left fun q hq => hsame q (List.mem_append_left _ hq),
      List.map_congr_left fun q hq => hsame q (List.mem_append_right _ hq), hps, hqs]
    have hhere : (m.alloc a).cells m.next = some a := Function.update_self _ _ _
    rw [hhere]
  · exact hperm.nodup_iff.mp (List.nodup_cons.mpr ⟨hnew, h.nodup⟩)
  · intro q hq
    refine hperm.mem_iff.mp ?_
    by_cases hqn : q = m.next
    · exact hqn ▸ List.mem_cons_self
    · have hqm : (m.alloc a).cells q = m.cells q := Function.update_of_ne hqn _ _
      exact List.mem_cons_of_mem _ (h.complete q (hqm ▸ hq))
  · intro q hq
    rcases List.mem_cons.mp (hperm.mem_iff.mpr hq) with rfl | hq
    · exact Nat.lt_succ_self _
    · exact Nat.lt_succ_of_lt (h.bounded q hq)

/-- An object is freed, and nothing is left of it. -/
theorem Owns.free (h : m.Owns (ps ++ p :: qs) (xs ++ x :: ys)) (hlen : ps.length = xs.length) :
    ∃ m', m.free (some p) = some m' ∧ m'.Owns (ps ++ qs) (xs ++ ys) := by
  have hperm : (p :: (ps ++ qs)).Perm (ps ++ p :: qs) := List.perm_middle.symm
  obtain ⟨hnot, hnodup⟩ := List.nodup_cons.mp (hperm.nodup_iff.mpr h.nodup)
  have hsame : ∀ q ∈ ps ++ qs, Function.update m.cells p none q = m.cells q := by
    intro q hq
    apply Function.update_of_ne
    rintro rfl
    exact hnot hq
  obtain ⟨hps, hqs⟩ := h.split hlen
  refine ⟨⟨Function.update m.cells p none, m.next⟩, ?_, ?_⟩
  · rw [Store.free, h.load hlen]
  constructor
  · rw [List.map_cons, List.map_cons] at hqs
    rw [List.map_append, List.map_append,
      List.map_congr_left fun q hq => hsame q (List.mem_append_left _ hq),
      List.map_congr_left fun q hq => hsame q (List.mem_append_right _ hq), hps,
      (List.cons.inj hqs).2]
  · exact hnodup
  · intro q hq
    have hqp : q ≠ p := by
      rintro rfl
      exact hq (Function.update_self _ _ _)
    have hqm : Function.update m.cells p none q = m.cells q := Function.update_of_ne hqp _ _
    rcases List.mem_cons.mp (hperm.mem_iff.mpr (h.complete q (hqm ▸ hq))) with heq | hq
    · exact absurd heq hqp
    · exact hq
  · exact fun q hq => h.bounded q (hperm.mem_iff.mp (List.mem_cons_of_mem _ hq))

end Store

end CLib
