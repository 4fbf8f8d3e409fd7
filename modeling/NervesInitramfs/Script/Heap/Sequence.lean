import NervesInitramfs.Script.Heap.Refinement
import NervesInitramfs.Script.Lexer
import NervesInitramfs.Script.Sequence

/-!
# Texts in the heap, one after the other

What the parser is fed of a text, `eval_string` on the heap for each of several texts in turn, and
what it means that the effects are the same as those of one text. The heap has a fixed size, so that
one text can run out of it where several do not, and the other way round.
-/

namespace NervesInitramfs

open CLib

/-- `lexer_next` feeds the text in pieces of the given sizes, and what comes of it is parsed as the
script. -/
def Reads (sizes : Nat → Int32) (input : CString) (script : Script) : Prop :=
  ∃ bytes, Delivers (lexerSetInput input) sizes bytes ∧ Parses (yylex bytes) script

/-- The text alone is read as exactly one statement. -/
def ReadsAlone (input : CString) (statement : StatementSyntax) : Prop :=
  ∃ sizes : Nat → Int32, (∀ i, 0 < (sizes i).toInt) ∧ Reads sizes input ⟨[statement], none⟩

end NervesInitramfs

namespace NervesInitramfs.TermHeap

open CLib

section

variable (machine : Machine) (depth : Nat)

/-- The calls of `eval_string` for some texts, with what they return. -/
def evalEach : List Script → HeapInterp (List Int)
  | [] => pure []
  | script :: rest => do
    let rc ← evalString machine depth script
    let others ← evalEach rest
    pure (rc :: others)

/-- `term_gc_heap` has a copy for the value of every variable: none is `NULL` or a call. -/
def Copyable (h : HeapState) : Prop :=
  ∀ l, Table h.cells h.vars l → ∀ e ∈ l, ∃ p t, e.value = some p ∧ h.cells p = some (.term t) ∧
    ∀ handler ps, t.data ≠ .function handler ps

/-- Every call but the first finds values that it can copy when it collects the heap. -/
def CollectsBetween : List Script → HeapState → Prop
  | [], _ => True
  | [_], _ => True
  | script :: next :: rest, h => ∀ rc h', evalString machine depth script h = .ok rc h' →
    Copyable h' ∧ CollectsBetween (next :: rest) h'

end

/-- The heap is full, or a loop has come to its bound. -/
def Exhausted {α : Type} (r : EStateM.Result HeapStop HeapState α) : Prop :=
  ∃ e h, r = .error e h ∧ Excused e

/-- The U-Boot environment and the world are the same, and the same has happened. -/
structure SameOutside (h h' : HeapState) : Prop where
  env : h.outside.workingUbootEnv = h'.outside.workingUbootEnv
  world : h.outside.world = h'.outside.world
  log : SameLog (visible h.outside.log) (visible h'.outside.log)

/-- The variables of the two heaps have the same values, whatever their order. -/
def SameVariables (machine : Machine) (h h' : HeapState) : Prop :=
  ∃ s s', Represents machine [] h s ∧ Represents machine [] h' s' ∧
    ∀ name, firstMatch Variable.name Variable.value s.vars name =
      firstMatch Variable.name Variable.value s'.vars name

/-- One call of `eval_string` goes as several do. -/
inductive SameOutcome (machine : Machine) :
    EStateM.Result HeapStop HeapState Int → EStateM.Result HeapStop HeapState (List Int) → Prop
  | returned {h h' : HeapState} {rcs : List Int} (hrcs : ∀ rc ∈ rcs, rc = 0)
    (vars : SameVariables machine h h') (outside : SameOutside h h') :
    SameOutcome machine (.ok 0 h) (.ok rcs h')
  | stopped {e : Stop} {h h' : HeapState} (outside : SameOutside h h') :
    SameOutcome machine (.error (.stop e) h) (.error (.stop e) h')

end NervesInitramfs.TermHeap
