import NervesInitramfs.CLib.Assoc
import NervesInitramfs.Script.Tokens

/-!
# Statements evaluated one by one

`eval_string` for each of several texts in turn, and what it means that the effects are the same as
those of one text.
-/

namespace NervesInitramfs

open CLib

section

variable (machine : Machine) (depth : Nat)

/-- The calls of `eval_string` for some texts, with what they return. -/
def evalEach : List Script → Interp (List Int)
  | [] => pure []
  | script :: rest => do
    let rc ← evalString machine depth script
    let others ← evalEach rest
    pure (rc :: others)

/-- `term_gc_heap` has a copy for the value of every variable. -/
def Copyable (s : State) : Prop :=
  ∀ v ∈ s.vars, ∃ t, v.value = some t ∧ ∀ handler ps, t ≠ .function handler ps

/-- Every call but the first finds values that it can copy when it collects the heap. -/
def CollectsBetween : List Script → State → Prop
  | [], _ => True
  | [_], _ => True
  | script :: next :: rest, s => ∀ rc s', evalString machine depth script s = .ok rc s' →
    Copyable s' ∧ CollectsBetween (next :: rest) s'

end

/-- Whether an event is one of the lines that a script prints. -/
def Event.isPrinted : Event → Bool
  | .printed _ => true
  | _ => false

/-- Two logs that differ in nothing but the lines that calls of `vars` print. -/
inductive SameLog : List Event → List Event → Prop
  | nil : SameLog [] []
  | event (e : Event) {l l' : List Event} (h : SameLog l l') : SameLog (l ++ [e]) (l' ++ [e])
  | listed {l l' p p' : List Event} (h : SameLog l l') (hp : p.all Event.isPrinted)
    (hp' : p'.all Event.isPrinted) :
    SameLog (l ++ .called .vars :: p) (l' ++ .called .vars :: p')

/-- The variables have the same values, the U-Boot environment and the world are the same, and the
same has happened. -/
structure SameEffects (s s' : State) : Prop where
  vars : ∀ name, firstMatch Variable.name Variable.value s.vars name =
    firstMatch Variable.name Variable.value s'.vars name
  env : s.workingUbootEnv = s'.workingUbootEnv
  world : s.world = s'.world
  log : SameLog s.log s'.log

/-- One call of `eval_string` goes as several do. -/
inductive SameOutcome : EStateM.Result Stop State Int → EStateM.Result Stop State (List Int) → Prop
  | returned {s s' : State} {rcs : List Int} (hrcs : ∀ rc ∈ rcs, rc = 0) (h : SameEffects s s') :
    SameOutcome (.ok 0 s) (.ok rcs s')
  | stopped {e : Stop} {s s' : State} (h : SameEffects s s') :
    SameOutcome (.error e s) (.error e s')

end NervesInitramfs
