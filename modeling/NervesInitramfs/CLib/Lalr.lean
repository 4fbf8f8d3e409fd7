import Mathlib.Algebra.Group.Nat.Defs
import Mathlib.Data.List.Infix

/-!
# LALR(1) parser tables

The tables that bison computes for a grammar. An item is a rule with a dot somewhere in its
right-hand side. The items of a grammar are listed rule by rule, with the dot moving to the right,
so that a set of items is a bit mask in which moving every dot is doubling. A set of tokens is a bit
mask too.

A conflict between a shift and a reduction goes to whichever has the higher precedence, at the same
level to the side that associativity says, and to the shift where no precedence decides; a conflict
between reductions goes to the earlier rule. Each state has the reduction that is left over most
often as its default.
-/

namespace CLib

inductive GrammarSymbol (T N : Type)
  | token (t : T)
  | nonterminal (n : N)
deriving DecidableEq

inductive Associativity
  | left | right
deriving DecidableEq

/-- A grammar, with the levels of precedence from the lowest up. The first rule is `$accept`, which
ends in the token for the end of the input. -/
structure Grammar (T N R : Type) where
  tokens : List T
  nonterminals : List N
  rules : List R
  lhs : R → N
  rhs : R → List (GrammarSymbol T N)
  precedence : List (Associativity × List T)

/-- What a parser does in a state: where a token and a nonterminal lead, which tokens make it reduce
by which rule, and the rule by which it reduces on all other tokens. -/
structure Row (T N R : Type) where
  shifts : List (T × Nat)
  gotos : List (N × Nat)
  reductions : List (T × R)
  default : Option R
deriving DecidableEq

/-! ## Bit masks -/

/-- The positions in a list where a test holds. -/
def maskOf {α : Type} (p : α → Bool) : List α → Nat
  | [] => 0
  | a :: l => (p a).toNat + 2 * maskOf p l

/-- Apply `f` until nothing changes any more, but at most `bound` times. -/
def untilStable {α : Type} [DecidableEq α] (f : α → α) : (bound : Nat) → α → α
  | 0, a => a
  | bound + 1, a =>
    let b := f a
    if b = a then a else untilStable f bound b

def lookupMask {α : Type} [DecidableEq α] (a : α) (l : List (α × Nat)) : Nat := (l.lookup a).getD 0

namespace Grammar

variable {T N R : Type} [DecidableEq T] [DecidableEq N] [DecidableEq R] (g : Grammar T N R)

def symbols : List (GrammarSymbol T N) := g.tokens.map .token ++ g.nonterminals.map .nonterminal

/-- Each rule with what is to the right of the dot. -/
def items : List (R × List (GrammarSymbol T N)) :=
  g.rules.flatMap fun r => (g.rhs r).tails.map fun l => (r, l)

/-! ## States -/

/-- The items with the dot in front of a symbol, for each nonterminal the same and the items that
start one of its rules, and for each rule the items with the dot at its start and at its end. -/
structure Masks (T N R : Type) where
  waiting : List (GrammarSymbol T N × Nat)
  predicted : List (Nat × Nat)
  begun : List (R × Nat)
  complete : List (R × Nat)

def masks : Masks T N R :=
  let items := g.items
  let waiting := fun x => maskOf (fun i : R × List (GrammarSymbol T N) => decide (i.2.head? = some x)) items
  { waiting := g.symbols.map fun x => (x, waiting x)
    predicted := g.nonterminals.map fun n =>
      (waiting (.nonterminal n), maskOf (fun i => decide (g.lhs i.1 = n ∧ i.2 = g.rhs i.1)) items)
    begun := g.rules.map fun r => (r, maskOf (fun i => decide (i.1 = r ∧ i.2 = g.rhs r)) items)
    complete := g.rules.map fun r => (r, maskOf (fun i => decide (i.1 = r ∧ i.2 = [])) items) }

/-- Add the items that start a rule for a nonterminal that is expected next. -/
def Masks.predict (m : Masks T N R) (items : Nat) : Nat :=
  m.predicted.foldl (fun items n => if items &&& n.1 = 0 then items else items ||| n.2) items

def Masks.closure (m : Masks T N R) (kernel : Nat) : Nat :=
  untilStable m.predict m.predicted.length kernel

/-- The kernel of the state that a symbol leads to, or 0. -/
def Masks.goto (m : Masks T N R) (kernel : Nat) (x : GrammarSymbol T N) : Nat :=
  (m.closure kernel &&& lookupMask x m.waiting) * 2

/-- The rules of `which` that have an item in a state. -/
def Masks.rulesAt (m : Masks T N R) (which : List (R × Nat)) (kernel : Nat) : List R :=
  let items := m.closure kernel
  (which.filter fun r => decide (items &&& r.2 ≠ 0)).map Prod.fst

/-- The kernels of all states that `todo` lead to, behind those found already. -/
def Masks.explore (m : Masks T N R) : (bound : Nat) → (found todo : List Nat) → List Nat
  | 0, found, _ => found
  | _ + 1, found, [] => found
  | bound + 1, found, kernel :: todo =>
    let items := m.closure kernel
    let new := m.waiting.foldl (fun new x =>
      let next := (items &&& x.2) * 2
      if next = 0 ∨ next ∈ found ∨ next ∈ new then new else new ++ [next]) []
    explore m bound (found ++ new) (todo ++ new)

/-- The states on the way along a list of symbols, each with the symbols that are still ahead. -/
def Masks.walk (m : Masks T N R) (kernel : Nat) :
    List (GrammarSymbol T N) → List (Nat × List (GrammarSymbol T N))
  | [] => [(kernel, [])]
  | x :: rest => (kernel, x :: rest) :: walk m (m.goto kernel x) rest

/-! ## Lookaheads -/

def tokenMask (t : T) : Nat := maskOf (fun u => decide (u = t)) g.tokens

def derivesEmpty (nullable : List N) (l : List (GrammarSymbol T N)) : Bool :=
  l.all fun
    | .token _ => false
    | .nonterminal n => decide (n ∈ nullable)

def nullable : List N :=
  untilStable (fun nullable => (g.rules.filter fun r => derivesEmpty nullable (g.rhs r)).map g.lhs)
    g.nonterminals.length []

/-- The tokens that a list of symbols can start with. -/
def firstOf (nullable : List N) (first : List (N × Nat)) : List (GrammarSymbol T N) → Nat
  | [] => 0
  | .token t :: _ => g.tokenMask t
  | .nonterminal n :: rest =>
    lookupMask n first ||| (if n ∈ nullable then firstOf nullable first rest else 0)

def first (nullable : List N) : List (N × Nat) :=
  untilStable (fun first => g.nonterminals.map fun n =>
      (n, (g.rules.filter fun r => decide (g.lhs r = n)).foldl
        (fun mask r => mask ||| g.firstOf nullable first (g.rhs r)) 0))
    g.nonterminals.length []

/-- The sets of the tokens that can follow a nonterminal in a state are kept side by side in one
number. This is where the set for nonterminal `n` begins. -/
def slot (states : List Nat) (kernel : Nat) (n : N) : Nat :=
  (states.idxOf kernel * g.nonterminals.length + g.nonterminals.idxOf n) * g.tokens.length

/-- A nonterminal at `slot` is followed by some tokens, and by what follows the nonterminal at
`includes`. -/
structure Following where
  slot : Nat
  tokens : Nat
  includes : Option Nat

def followings (m : Masks T N R) (nullable : List N) (first : List (N × Nat)) (states : List Nat) :
    List Following :=
  states.flatMap fun kernel => (m.rulesAt m.begun kernel).flatMap fun r =>
    (m.walk kernel (g.rhs r)).filterMap fun
      | (at_, .nonterminal n :: rest) => some
        { slot := g.slot states at_ n
          tokens := g.firstOf nullable first rest
          includes :=
            if derivesEmpty nullable rest then some (g.slot states kernel (g.lhs r)) else none }
      | _ => none

def takeSlot (slots slot : Nat) : Nat := (slots >>> slot) % 2 ^ g.tokens.length

def followStep (fs : List Following) (slots : Nat) : Nat :=
  fs.foldl (fun slots f => match f.includes with
    | none => slots
    | some from_ => slots ||| (g.takeSlot slots from_ <<< f.slot)) slots

def follow (fs : List Following) : Nat :=
  untilStable (g.followStep fs) fs.length
    (fs.foldl (fun slots f => slots ||| (f.tokens <<< f.slot)) 0)

/-- The states in which a rule that begins in some state is complete, with the tokens that
follow. -/
def lookbacks (m : Masks T N R) (states : List Nat) (slots : Nat) : List ((Nat × R) × Nat) :=
  states.flatMap fun kernel => (m.rulesAt m.begun kernel).filterMap fun r =>
    (m.walk kernel (g.rhs r)).getLast?.map fun last =>
      ((last.1, r), g.takeSlot slots (g.slot states kernel (g.lhs r)))

def lookahead (ls : List ((Nat × R) × Nat)) (kernel : Nat) (r : R) : Nat :=
  ls.foldl (fun mask l => if l.1 = (kernel, r) then mask ||| l.2 else mask) 0

/-! ## Conflicts -/

/-- The level of precedence of a token. -/
def level (t : T) : Option (Nat × Associativity) :=
  (g.precedence.zipIdx.find? fun l => decide (t ∈ l.1.2)).map fun l => (l.2, l.1.1)

/-- The precedence of a rule is that of its last token. -/
def ruleLevel (r : R) : Option (Nat × Associativity) :=
  ((g.rhs r).reverse.findSome? fun
    | .token t => some t
    | .nonterminal _ => none).bind g.level

/-- Whether a rule takes precedence over a token, where the two decide that. -/
def overrides (r : R) (t : T) : Option Bool :=
  match g.ruleLevel r, g.level t with
  | some (i, _), some (j, a) => some (decide (j < i) || (decide (i = j) && decide (a = .left)))
  | _, _ => none

/-- Whether a token is still shifted, and which of the rules are still there to reduce by, when
precedence has had its say. -/
def settle (t : T) : (shifted : Bool) → List R → Bool × List R
  | shifted, [] => (shifted, [])
  | false, rs => (false, rs)
  | true, r :: rs =>
    match g.overrides r t with
    | some true => (false, r :: rs)
    | some false => settle t true rs
    | none =>
      let (shifted, rs) := settle t true rs
      (shifted, r :: rs)

/-- The rule that the most of the reductions are by, the earliest of them. -/
def mostOften (reductions : List (T × R)) : Option R :=
  (g.rules.foldl (fun (best : Option (R × Nat)) r =>
    let n := (reductions.filter fun x => decide (x.2 = r)).length
    if (best.elim 0 Prod.snd) < n then some (r, n) else best) none).map Prod.fst

def row (m : Masks T N R) (states : List Nat) (ls : List ((Nat × R) × Nat)) (kernel : Nat) :
    Row T N R :=
  let complete := (m.rulesAt m.complete kernel).map fun r => (r, lookahead ls kernel r)
  let settled := g.tokens.map fun t =>
    let next := m.goto kernel (.token t)
    (t, next, g.settle t (decide (next ≠ 0))
      ((complete.filter fun r => decide (r.2 &&& g.tokenMask t ≠ 0)).map Prod.fst))
  let reductions := settled.filterMap fun s =>
    if s.2.2.1 then none else s.2.2.2.head?.map fun r => (s.1, r)
  let default := g.mostOften reductions
  { shifts := (settled.filter fun s => s.2.2.1).map fun s => (s.1, states.idxOf s.2.1)
    gotos := g.nonterminals.filterMap fun n =>
      let next := m.goto kernel (.nonterminal n)
      if next = 0 then none else some (n, states.idxOf next)
    reductions := reductions.filter fun x => decide (some x.2 ≠ default)
    default := default }

/-- The tables, one row for each state. There may be at most `bound` states. -/
def tables (bound : Nat) : List (Row T N R) :=
  let m := g.masks
  let nullable := g.nullable
  let states := m.explore bound [1] [1]
  let slots := g.follow (g.followings m nullable (g.first nullable) states)
  states.map (g.row m states (g.lookbacks m states slots))

end Grammar

end CLib
