import NervesInitramfs.CLib.Wp

/-!
# Contracts about calls

A program makes calls of something outside, which answers as it likes: an answer may depend on
everything that has been asked before. A contract says which calls the program may make and which
answers it may rely on. Its state stands for what has been asked so far. When the outside is honest,
the calls of a program that asks only what it may are kept, one after the other.
-/

namespace CLib

/-- The calls with their answers so far, and the state of the program itself. -/
structure Dialog (κ α σ : Type) where
  outside : List (κ × α) → κ → α
  log : List (κ × α)
  own : σ

variable {κ α σ ε : Type}

/-- A call, and the answer to it. -/
def ask (call : κ) : EStateM ε (Dialog κ α σ) α := fun d =>
  let answer := d.outside d.log call
  .ok answer { d with log := d.log ++ [(call, answer)] }

structure Contract (κ α : Type) where
  State : Type
  may : State → κ → Prop
  expected : State → κ → α → Prop
  next : State → κ → α → State

namespace Contract

variable (k : Contract κ α)

/-- These calls may be made one after the other and are answered as expected. They lead to the last
state. -/
inductive Kept (start : k.State) : List (κ × α) → k.State → Prop
  | nil : Kept start [] start
  | call {log : List (κ × α)} {t : k.State} {call : κ} {answer : α} (h : Kept start log t)
      (hmay : k.may t call) (hexpected : k.expected t call answer) :
      Kept start (log ++ [(call, answer)]) (k.next t call answer)

variable {k} in
/-- Every call that has been made might be made. -/
theorem Kept.may_of_mem {start t : k.State} {log : List (κ × α)} (h : k.Kept start log t)
    {call : κ} {answer : α} (hmem : (call, answer) ∈ log) : ∃ t', k.may t' call := by
  induction h with
  | nil => exact absurd hmem List.not_mem_nil
  | call _ hmay _ ih =>
    rcases List.mem_append.mp hmem with hmem | hlast
    · exact ih hmem
    · obtain ⟨rfl, -⟩ := Prod.mk.inj (List.mem_singleton.mp hlast)
      exact ⟨_, hmay⟩

/-- The answers are as expected as long as the program asks what it may. -/
def Honest (start : k.State) (outside : List (κ × α) → κ → α) : Prop :=
  ∀ log t, k.Kept start log t → ∀ call, k.may t call → k.expected t call (outside log call)

/-- The contract has been kept and has come to the state `t`. -/
structure At (start : k.State) (d : Dialog κ α σ) (t : k.State) : Prop where
  kept : k.Kept start d.log t
  honest : k.Honest start d.outside

variable {k} {start t : k.State} {d : Dialog κ α σ}

/-- The rule for a call. -/
theorem At.ask (h : k.At start d t) (call : κ) (hmay : k.may t call)
    {post : α → Dialog κ α σ → Prop} {stop : ε → Dialog κ α σ → Prop}
    (hpost : ∀ answer d', k.At start d' (k.next t call answer) → k.expected t call answer →
      d'.own = d.own → post answer d') :
    Ensures (CLib.ask call) d post stop := by
  have hexpected := h.honest _ _ h.kept _ hmay
  exact hpost _ _ ⟨.call h.kept hmay hexpected, h.honest⟩ hexpected rfl

/-- The same for a call that does not change the state of the contract. -/
theorem At.askSame (h : k.At start d t) (call : κ) (hmay : k.may t call)
    (hsame : ∀ answer, k.next t call answer = t) {post : α → Dialog κ α σ → Prop}
    {stop : ε → Dialog κ α σ → Prop}
    (hpost : ∀ answer d', k.At start d' t → d'.own = d.own → post answer d') :
    Ensures (CLib.ask call) d post stop := by
  refine h.ask call hmay fun answer d' h' _ hown => ?_
  rw [hsame] at h'
  exact hpost answer d' h' hown

/-- Only the state of the program itself changes. -/
theorem At.own (h : k.At start d t) (s : σ) : k.At start { d with own := s } t := ⟨h.kept, h.honest⟩

end Contract

end CLib
