import NervesInitramfs.CLib.Refine
import NervesInitramfs.Script.Heap.Proofs.CalmProofs

/-!
# Terms in the heap and terms as trees

The interpreter that works on pointers against the one that works on trees: which tree a pointer
stands for, which state of the one a state of the other is, and what it means that the one does what
the other does. Only the one with the heap can run out of heap, and its loops have a bound on their
steps.
-/

namespace NervesInitramfs

def Event.isAssignment : Event → Bool
  | .assigned _ => true
  | _ => false

/-- What has happened but for the assignments, of which the interpreter with the heap makes no note. -/
def visible (log : List Event) : List Event := log.filter fun e => !e.isAssignment

end NervesInitramfs

namespace NervesInitramfs.TermHeap

open CLib

section

variable (nodes : List Ptr) (cells : Ptr → Option Cell)

mutual

/-- The term at `p` stands for the tree, whatever it is linked to. The lists of parameters in it have
none of the `nodes`, of which the `next` may still be stored. -/
inductive Denotes : Ptr → Term → Prop
  | identifier {p q : Ptr} {next : Option Ptr} {name : CString}
      (node : cells p = some (.term ⟨.identifier q, next⟩)) (text : cells q = some (.text name)) :
      Denotes p (.identifier name)
  | string {p q : Ptr} {next : Option Ptr} {value : CString}
      (node : cells p = some (.term ⟨.string q, next⟩)) (text : cells q = some (.text value)) :
      Denotes p (.string value)
  | number {p : Ptr} {next : Option Ptr} {value : Int32}
      (node : cells p = some (.term ⟨.number value, next⟩)) : Denotes p (.number value)
  | boolean {p : Ptr} {next : Option Ptr} {value : Bool}
      (node : cells p = some (.term ⟨.boolean value, next⟩)) : Denotes p (.boolean value)
  | function {p : Ptr} {first next : Option Ptr} {handler : Builtin} {parameters : List Term}
      (node : cells p = some (.term ⟨.function handler first, next⟩))
      (list : DenotesList first parameters) : Denotes p (.function handler parameters)

/-- The list that starts at the pointer stands for a list of trees. -/
inductive DenotesList : Option Ptr → List Term → Prop
  | nil : DenotesList none []
  | cons {p : Ptr} {u : HeapTerm} {t : Term} {rest : List Term} (node : cells p = some (.term u))
      (apart : p ∉ nodes) (head : Denotes p t) (tail : DenotesList u.next rest) :
      DenotesList (some p) (t :: rest)

end

/-- A pointer that may be `NULL`. -/
inductive ValueDenotes : Option Ptr → Option Term → Prop
  | null : ValueDenotes none none
  | term {p : Ptr} {t : Term} (h : Denotes nodes cells p t) : ValueDenotes (some p) (some t)

/-- A variable in the heap stands for a variable. -/
structure EntryDenotes (e : Entry) (v : Variable) : Prop where
  name : e.name = v.name
  value : ValueDenotes nodes cells e.value v.value

end

/-- The same can be seen from outside. -/
structure Alike (o s : State) : Prop where
  env : o.workingUbootEnv = s.workingUbootEnv
  world : o.world = s.world
  log : visible o.log = visible s.log
  argv : o.argv = s.argv

/-- The variables of the one state are those of the other. -/
structure Holding (machine : Machine) (nodes : List Ptr) (h : HeapState) (s : State) : Prop where
  heap : h.heap.isSome
  packed : Packed machine h
  table : ∃ l, Table h.cells h.vars l ∧ (l.map Entry.name).Nodup ∧
    List.Forall₂ (EntryDenotes nodes h.cells) l s.vars
  outside : Alike h.outside s

/-- The one state is the other, with what is not yet linked in `nodes`. -/
structure Represents (machine : Machine) (nodes : List Ptr) (h : HeapState) (s : State) : Prop
    extends Holding machine nodes h s where
  result : ValueDenotes nodes h.cells h.parserResult s.parserResult

/-- The ends of the interpreter with the heap that the other one does not have. -/
def Excused (e : HeapStop) : Prop := e = .outOfHeap ∨ e = .stop .outOfFuel

/-- Both stop for the same reason. The interpreter goes on after the parser has given up. -/
structure Fails (machine : Machine) (e : HeapStop) (h : HeapState) (e' : Stop) (s : State) : Prop where
  stop : e = .stop e'
  outside : Alike h.outside s
  goesOn : e' = .parseError → Represents machine [] h s

/-- The one computation does what the other does, and leaves the terms in the heap alone. -/
def Follows {α β : Type} (machine : Machine) (nodes : List Ptr) (m : HeapInterp α) (m' : Interp β)
    (h : HeapState) (s : State) (post : α → HeapState → β → Prop) : Prop :=
  Refines Excused m h m' s
    (fun a h' b s' => Represents machine nodes h' s' ∧ Grows machine [] h h' ∧ post a h' b)
    (Fails machine)

/-- What is done outside the heap does not depend on the variables. -/
def Indifferent {α : Type} (m : Interp α) : Prop := ∀ o s, Alike o s →
  Refines (fun _ => False) m o m s
    (fun a o' b s' => a = b ∧ Alike o' s' ∧ s'.vars = s.vars ∧ s'.parserResult = s.parserResult)
    fun e o' e' s' => e = e' ∧ e ≠ .parseError ∧ Alike o' s'

end NervesInitramfs.TermHeap
