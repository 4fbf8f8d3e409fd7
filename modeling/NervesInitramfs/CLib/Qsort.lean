import Mathlib.Data.List.Sort

/-!
# `qsort`

The standard promises an order that the comparison accepts and nothing about elements that compare
equal. A stable sort keeps them in the order in which they came, so by rearranging the input first
they can be brought into any order that `qsort` may return them in.
-/

namespace CLib

variable {α : Type}

/-- What `qsort` promises when called with the comparison `cmp`: the elements come back in an order
that `cmp` accepts. -/
structure Qsort (cmp : α → α → Int) where
  sort : List α → List α
  perm : ∀ l, (sort l).Perm l
  sorted : ∀ l, (sort l).Pairwise fun a b => cmp a b ≤ 0

/-- The `qsort` that first rearranges its input by `f` and then sorts stably. -/
def Qsort.stable (cmp : α → α → Int) (f : List α → List α) (hf : ∀ l, (f l).Perm l)
    (htrans : ∀ a b c, cmp a b ≤ 0 → cmp b c ≤ 0 → cmp a c ≤ 0)
    (htotal : ∀ a b, cmp a b ≤ 0 ∨ cmp b a ≤ 0) : Qsort cmp where
  sort l := (f l).insertionSort fun a b => cmp a b ≤ 0
  perm l := (List.perm_insertionSort _ _).trans (hf l)
  sorted _ :=
    have : IsTrans α fun a b => cmp a b ≤ 0 := ⟨htrans⟩
    have : Std.Total fun a b : α => cmp a b ≤ 0 := ⟨htotal⟩
    List.pairwise_insertionSort _ _

/-- A stable sort leaves elements that compare equal in the order they came in. -/
theorem Qsort.stable_filter {cmp : α → α → Int} {f : List α → List α} {hf : ∀ l, (f l).Perm l}
    {htrans : ∀ a b c, cmp a b ≤ 0 → cmp b c ≤ 0 → cmp a c ≤ 0}
    {htotal : ∀ a b, cmp a b ≤ 0 ∨ cmp b a ≤ 0} (p : α → Bool)
    (hp : ∀ a b, p a → p b → cmp a b ≤ 0) (l : List α) :
    ((Qsort.stable cmp f hf htrans htotal).sort l).filter p = (f l).filter p := by
  have hsub : List.Sublist ((f l).filter p) ((Qsort.stable cmp f hf htrans htotal).sort l) := by
    refine List.sublist_insertionSort ?_ List.filter_sublist
    exact List.pairwise_of_forall_mem_list fun a ha b hb =>
      hp a b (List.of_mem_filter ha) (List.of_mem_filter hb)
  have hlen : (((Qsort.stable cmp f hf htrans htotal).sort l).filter p).length
      = ((f l).filter p).length :=
    ((List.perm_insertionSort _ (f l)).filter p).length_eq
  have hsub' := hsub.filter p
  rw [List.filter_filter, show (fun a => p a && p a) = p from funext fun a => Bool.and_self _] at hsub'
  exact (hsub'.eq_of_length hlen.symm).symm

/-- The `qsort` that leaves the images of `l` in the order that `qsort` leaves `l` in, and sorts
every other list like `other`. -/
def Qsort.image {β : Type} [DecidableEq β] {cmp : α → α → Int} {cmp' : β → β → Int} (f : α → β)
    (hcmp : ∀ a b, cmp' (f a) (f b) = cmp a b) (qsort : Qsort cmp) (other : Qsort cmp') (l : List α) :
    Qsort cmp' where
  sort v := if v = l.map f then (qsort.sort l).map f else other.sort v
  perm v := by
    split_ifs with h
    · rw [h]
      exact (qsort.perm l).map f
    · exact other.perm v
  sorted v := by
    split_ifs
    · simpa only [List.pairwise_map, hcmp] using qsort.sorted l
    · exact other.sorted v

/-- The rearrangement that moves the copies of `a` to the end. -/
def moveToEnd [DecidableEq α] (a : α) (l : List α) : List α :=
  (l.filter fun x => !decide (x = a)) ++ l.filter fun x => decide (x = a)

theorem moveToEnd_perm [DecidableEq α] (a : α) (l : List α) : (moveToEnd a l).Perm l :=
  List.perm_append_comm.trans (List.filter_append_perm _ l)

/-- After the rearrangement `a` is the last of the elements that satisfy `p`. -/
theorem getLast?_moveToEnd [DecidableEq α] {a : α} {l : List α} (ha : a ∈ l) {p : α → Bool}
    (hp : p a = true) : ((moveToEnd a l).filter p).getLast? = some a := by
  obtain ⟨l1, l2, rfl⟩ := List.append_of_mem ha
  have hrep : ∀ l : List α, (l.filter fun x => decide (x = a)).filter p
      = List.replicate (l.filter fun x => decide (x = a)).length a := by
    intro l
    refine List.eq_replicate_iff.mpr ⟨?_, fun b hb => ?_⟩
    · rw [List.filter_eq_self.mpr]
      intro b hb
      obtain rfl : b = a := by simpa using List.of_mem_filter hb
      exact hp
    · simpa using List.of_mem_filter (List.mem_of_mem_filter hb)
  rw [moveToEnd, List.filter_append, hrep, List.getLast?_append]
  simp [List.getLast?_replicate]

end CLib
