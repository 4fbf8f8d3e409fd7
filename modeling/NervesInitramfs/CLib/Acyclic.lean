import Mathlib.Logic.Relation
import Mathlib.Data.List.Basic

/-!
# Relations without cycles

A relation that a rank goes down along has no cycles, and where it is followed there is a bound on
the number of steps. When the successors of one element are replaced, the new relation has a rank
again unless one of the new successors leads back to that element.
-/

namespace CLib

variable {α : Type} {R R' : α → α → Prop} {ρ : α → Nat}

/-- The rank `ρ` goes down along `R`. -/
def RankedBy (R : α → α → Prop) (ρ : α → Nat) : Prop := ∀ x y, R x y → ρ y < ρ x

theorem RankedBy.mono (h : RankedBy R ρ) (hsub : ∀ x y, R' x y → R x y) : RankedBy R' ρ :=
  fun x y hxy => h x y (hsub x y hxy)

theorem RankedBy.transGen (h : RankedBy R ρ) {x y : α} (hxy : Relation.TransGen R x y) :
    ρ y < ρ x := by
  induction hxy with
  | single hstep => exact h _ _ hstep
  | tail _ hstep ih => exact Nat.lt_trans (h _ _ hstep) ih

theorem RankedBy.no_cycle (h : RankedBy R ρ) (x : α) : ¬ Relation.TransGen R x x :=
  fun hcycle => Nat.lt_irrefl _ (h.transGen hcycle)

/-- A bound on the rank of the elements of a list. -/
theorem exists_rank_bound (ρ : α → Nat) (l : List α) : ∃ k, ∀ y ∈ l, ρ y < k := by
  induction l with
  | nil => exact ⟨0, by simp⟩
  | cons a l ih =>
    obtain ⟨k, hk⟩ := ih
    refine ⟨max k (ρ a + 1), fun y hy => ?_⟩
    rcases List.mem_cons.mp hy with rfl | hy
    · omega
    · have hlt := hk y hy
      omega

/-- The successors of `a` are replaced by elements of `l`, none of which leads to `a`. -/
theorem RankedBy.replace (h : RankedBy R ρ) {a : α} {l : List α}
    (hback : ∀ y ∈ l, ¬ Relation.ReflTransGen R y a)
    (hR' : ∀ x y, R' x y → x = a ∧ y ∈ l ∨ x ≠ a ∧ R x y) : ∃ ρ', RankedBy R' ρ' := by
  classical
  obtain ⟨k, hk⟩ := exists_rank_bound ρ l
  -- What leads to `a` is lifted above everything that `a` leads to now.
  refine ⟨fun x => if Relation.ReflTransGen R x a then ρ x + k else ρ x, fun x y hxy => ?_⟩
  rcases hR' x y hxy with ⟨rfl, hy⟩ | ⟨-, hstep⟩
  · have hlt := hk y hy
    simp only [hback y hy, if_false, Relation.ReflTransGen.refl, if_true]
    omega
  · have hlt := h x y hstep
    by_cases hx : Relation.ReflTransGen R x a
    · simp only [hx, if_true]
      split <;> omega
    · have hy : ¬ Relation.ReflTransGen R y a := fun hy => hx (.head hstep hy)
      simp only [hx, hy, if_false]
      exact hlt

end CLib
