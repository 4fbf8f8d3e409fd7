import Mathlib.Data.List.Basic
import NervesInitramfs.CLib.LrParser

/-!
# What a grammar derives

The lists of tokens that a grammar derives from a list of symbols, whatever a parser makes of them.
-/

namespace CLib

variable {T N R : Type} {g : Grammar T N R} {Value : GrammarSymbol T N → Type}

/-- The grammar derives some tokens from a list of symbols, which are taken one after the other. -/
inductive Derives (g : Grammar T N R) {Value : GrammarSymbol T N → Type} :
    List (GrammarSymbol T N) → List (Lexeme Value) → Prop
  | nil : Derives g [] []
  | token (x : Lexeme Value) {symbols : List (GrammarSymbol T N)} {w : List (Lexeme Value)}
      (h : Derives g symbols w) : Derives g (.token x.token :: symbols) (x :: w)
  | rule (r : R) {symbols : List (GrammarSymbol T N)} {u w : List (Lexeme Value)}
      (hrhs : Derives g (g.rhs r) u) (h : Derives g symbols w) :
      Derives g (.nonterminal (g.lhs r) :: symbols) (u ++ w)

theorem Derives.of_rule (r : R) {w : List (Lexeme Value)} (h : Derives g (g.rhs r) w) :
    Derives g [.nonterminal (g.lhs r)] w := by
  have hrule := Derives.rule r h .nil
  rwa [List.append_nil] at hrule

theorem Derives.append {l l' : List (GrammarSymbol T N)} {w w' : List (Lexeme Value)}
    (h : Derives g l w) (h' : Derives g l' w') : Derives g (l ++ l') (w ++ w') := by
  induction h with
  | nil => exact h'
  | token x _ ih => exact .token x ih
  | rule r hrhs _ _ ih =>
    rw [List.append_assoc]
    exact .rule r hrhs ih

/-- Some tokens are cut into one piece for each symbol, of which `P` holds. -/
def Cut (P : GrammarSymbol T N → List (Lexeme Value) → Prop) :
    List (GrammarSymbol T N) → List (Lexeme Value) → Prop
  | [], w => w = []
  | x :: symbols, w => ∃ u v, w = u ++ v ∧ P x u ∧ Cut P symbols v

/-- What holds of every token and goes from the right-hand side of each rule to its left-hand side
holds of whatever is derived. -/
theorem Derives.cut {P : GrammarSymbol T N → List (Lexeme Value) → Prop}
    (token : ∀ x : Lexeme Value, P (.token x.token) [x])
    (rule : ∀ r w, Cut P (g.rhs r) w → P (.nonterminal (g.lhs r)) w)
    {symbols : List (GrammarSymbol T N)} {w : List (Lexeme Value)} (h : Derives g symbols w) :
    Cut P symbols w := by
  induction h with
  | nil => exact rfl
  | token x _ ih => exact ⟨[x], _, rfl, token x, ih⟩
  | rule r _ _ ihrhs ih => exact ⟨_, _, rfl, rule r _ ihrhs, ih⟩

end CLib
