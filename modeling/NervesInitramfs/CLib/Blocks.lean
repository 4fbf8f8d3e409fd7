import Mathlib.Algebra.GroupWithZero.Nat
import Mathlib.Data.Finset.Card
import Mathlib.Order.Interval.Finset.Nat

/-!
# Blocks in a buffer

Blocks that do not overlap take up at most as much as the buffer that they are in.
-/

namespace CLib

variable {α : Type} {start size : α → Nat}

/-- One of the blocks ends before the other starts. -/
def Apart (start size : α → Nat) (a b : α) : Prop :=
  start a + size a ≤ start b ∨ start b + size b ≤ start a

/-- The addresses of the blocks are counted one block at a time. -/
theorem sum_size_le_card {l : List α} (hl : l.Pairwise (Apart start size)) {addresses : Finset Nat}
    (hin : ∀ a ∈ l, Finset.Ico (start a) (start a + size a) ⊆ addresses) :
    (l.map size).sum ≤ addresses.card := by
  induction l generalizing addresses with
  | nil => exact Nat.zero_le _
  | cons a l ih =>
    rw [List.pairwise_cons] at hl
    have hhead := hin a List.mem_cons_self
    have hrest : ∀ b ∈ l, Finset.Ico (start b) (start b + size b) ⊆
        addresses \ Finset.Ico (start a) (start a + size a) := by
      intro b hb i hi
      refine Finset.mem_sdiff.mpr ⟨hin b (List.mem_cons_of_mem _ hb) hi, fun ha => ?_⟩
      rw [Finset.mem_Ico] at hi ha
      rcases hl.1 b hb with h | h <;> omega
    have hsum := ih hl.2 hrest
    have hcard := Finset.card_sdiff_add_card_eq_card hhead
    rw [Nat.card_Ico] at hcard
    rw [List.map_cons, List.sum_cons]
    omega

theorem sum_size_le {l : List α} (hl : l.Pairwise (Apart start size)) {n : Nat}
    (hin : ∀ a ∈ l, start a + size a ≤ n) : (l.map size).sum ≤ n := by
  have hrange : ∀ a ∈ l, Finset.Ico (start a) (start a + size a) ⊆ Finset.range n := by
    intro a ha i hi
    rw [Finset.mem_Ico] at hi
    have := hin a ha
    exact Finset.mem_range.mpr (by omega)
  calc (l.map size).sum ≤ (Finset.range n).card := sum_size_le_card hl hrange
    _ = n := Finset.card_range n

end CLib
