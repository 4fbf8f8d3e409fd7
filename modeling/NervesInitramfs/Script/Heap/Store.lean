import NervesInitramfs.Script.Handlers

/-!
# Terms in the heap (`script.c`)

Here terms are what they are in memory: nodes that point to each other and to their texts, in a heap
of fixed size that `term_gc_heap` replaces with a new one. What the interpreter does outside its
heap is as in the rest of the model, so a state contains a `State`, of which the variables and the
result of the parser are not used. A loop that follows pointers has a bound on its steps.
-/

namespace NervesInitramfs.TermHeap

open CLib

/-! ## Memory -/

/-- A pointer into the heap that `malloc` returned after `heap` others, `offset` bytes from its
start. -/
structure Ptr where
  /-- Which heap. -/
  heap : Nat
  /-- Where in it. -/
  offset : Nat
deriving DecidableEq

/-- The field `kind` of a `struct term` and the member of its union that goes with it. -/
inductive TermData
  /-- The name of a variable. -/
  | identifier (identifier : Ptr)
  /-- A text. -/
  | string (string : Ptr)
  /-- A number. -/
  | number (number : Int32)
  /-- A truth value. -/
  | boolean (boolean : Bool)
  /-- A call, with the first of its parameters. -/
  | function (handler : Builtin) (parameters : Option Ptr)
  /-- A variable. -/
  | var (name : Ptr) (value : Option Ptr)

/-- `struct term` -/
structure HeapTerm where
  /-- The kind and the union. -/
  data : TermData
  /-- What follows in a list. -/
  next : Option Ptr

/-- What there is at the address that `alloc_heap` returned. -/
inductive Cell
  /-- A node. -/
  | term (t : HeapTerm)
  /-- A string with its terminator. -/
  | text (s : CString)

/-- The globals of `script.c` and the memory. -/
structure HeapState where
  /-- The memory, which has nothing at the addresses that are not in use. -/
  cells : Ptr → Option Cell
  /-- The number of the next heap. -/
  mallocs : Nat
  /-- The heap in use; there is none before the first collection. -/
  heap : Option Nat
  /-- How much of it is in use. -/
  heapIndex : Nat
  /-- The first variable. -/
  vars : Option Ptr
  /-- `parser_result` -/
  parserResult : Option Ptr
  /-- What is not in the heap. -/
  outside : State

/-- Why an evaluation comes to no result. -/
inductive HeapStop
  /-- "Program too large. Out of heap" -/
  | outOfHeap
  /-- One of the reasons that there are without a heap, among them following a pointer to where there
  is nothing. -/
  | stop (s : Stop)
deriving DecidableEq

/-- A part of the interpreter on the heap. -/
abbrev HeapInterp := EStateM HeapStop HeapState

/-- Something that does not touch the heap. -/
def outside {α : Type} (m : Interp α) : HeapInterp α := fun s =>
  match m s.outside with
  | .ok a o => .ok a { s with outside := o }
  | .error e o => .error (.stop e) { s with outside := o }

/-- The term that a pointer points to. -/
def deref : Option Ptr → HeapInterp HeapTerm
  | none => throw (.stop .nullDereference)
  | some p => do
    match (← get).cells p with
    | some (.term t) => pure t
    | _ => throw (.stop .undefined)

/-- The string that a pointer points to. -/
def textAt (p : Ptr) : HeapInterp CString := do
  match (← get).cells p with
  | some (.text s) => pure s
  | _ => throw (.stop .undefined)

/-- Store something at an address. -/
def store (p : Ptr) (cell : Cell) : HeapInterp Unit :=
  modify fun s => { s with cells := Function.update s.cells p (some cell) }

/-- `rv->next = next` -/
def setNext (rv : Ptr) (next : Option Ptr) : HeapInterp Unit := do
  let t ← deref (some rv)
  store rv (.term { t with next := next })

/-! ## Allocation -/

/-- `HEAP_SIZE` -/
def heapSize : Nat := 16536

/-- `(n + 7) & ~7` in a `size_t` of `w` bits. -/
def roundUp (w n : Nat) : Nat := (n + 7) % 2 ^ w &&& (2 ^ w - 8)

/-- `alloc_heap`. A sum of `heap_index` and the size of an object does not wrap around. -/
def allocHeap (machine : Machine) (numBytes : Nat) : HeapInterp Ptr := do
  let s ← get
  match s.heap with
  | none => throw (.stop .undefined)
  | some heap =>
    if s.heapIndex + numBytes > heapSize then throw .outOfHeap
    else
      set { s with heapIndex := roundUp machine.bits (s.heapIndex + numBytes) }
      pure ⟨heap, s.heapIndex⟩

/-- `sizeof(struct term)`: the kind, padded, two pointers for the union, and `next`. -/
def sizeofTerm (machine : Machine) : Nat := 4 * (machine.bits / 8)

section

variable (machine : Machine)

/-- `alloc_string` -/
def allocString (str : CString) : HeapInterp Ptr := do
  let result ← allocHeap machine (str.strlen + 1)
  store result (.text str)
  pure result

/-- `alloc_qstring`: the token without its quotes, of which the last one makes room for the NUL. -/
def allocQstring (token : CString) : HeapInterp Ptr := do
  let len := token.strlen - 1
  let result ← allocHeap machine len
  store result (.text (.ofBytes (token.bytes.tail.take (len - 1))))
  pure result

/-- A new term. The heap is zero-filled, so its `next` is `NULL`. -/
def allocTerm (data : TermData) : HeapInterp Ptr := do
  let rv ← allocHeap machine (sizeofTerm machine)
  store rv (.term ⟨data, none⟩)
  pure rv

/-- A new term with a string of its own, which `alloc` allocates. -/
def allocTextTerm (data : Ptr → TermData) (alloc : HeapInterp Ptr) : HeapInterp Ptr := do
  let rv ← allocHeap machine (sizeofTerm machine)
  let str ← alloc
  store rv (.term ⟨data str, none⟩)
  pure rv

/-- `term_new_number` -/
def termNewNumber (value : Int32) : HeapInterp Ptr := allocTerm machine (.number value)

/-- `term_new_string` -/
def termNewString (value : CString) : HeapInterp Ptr :=
  allocTextTerm machine .string (allocString machine value)

/-- `term_new_qstring` -/
def termNewQstring (value : CString) : HeapInterp Ptr :=
  allocTextTerm machine .string (allocQstring machine value)

/-- `term_new_boolean` -/
def termNewBoolean (value : Bool) : HeapInterp Ptr := allocTerm machine (.boolean value)

/-- `term_new_identifier` -/
def termNewIdentifier (value : CString) : HeapInterp Ptr :=
  allocTextTerm machine .identifier (allocString machine value)

/-- The loop of `term_reverse`. -/
def termReverse : Nat → Option Ptr → Option Ptr → HeapInterp (Option Ptr)
  | _, prev, none => pure prev
  | 0, _, some _ => throw (.stop .outOfFuel)
  | steps + 1, prev, some rv => do
    let next := (← deref (some rv)).next
    setNext rv prev
    termReverse steps (some rv) next

/-- The loop of `term_new_fun` that counts the parameters. -/
def countParameters : Nat → Option Ptr → HeapInterp Nat
  | _, none => pure 0
  | 0, some _ => throw (.stop .outOfFuel)
  | steps + 1, some p => do
    let arity ← countParameters steps (← deref (some p)).next
    pure (arity + 1)

def termNewFun (steps : Nat) (name : CString) (parameters : Option Ptr) :
    HeapInterp (Option Ptr) := do
  let arity ← countParameters steps parameters
  match lookupFunction name arity with
  | none => pure none
  | some handler => do
    let rv ← allocTerm machine (.function handler parameters)
    pure (some rv)

/-- `term_dupe` -/
def termDupe (rv : Option Ptr) : HeapInterp (Option Ptr) := do
  match (← deref rv).data with
  | .identifier identifier => do
    let value ← textAt identifier
    let p ← termNewIdentifier machine value
    pure (some p)
  | .string string => do
    let value ← textAt string
    let p ← termNewString machine value
    pure (some p)
  | .number number => do
    let p ← termNewNumber machine number
    pure (some p)
  | .boolean boolean => do
    let p ← termNewBoolean machine boolean
    pure (some p)
  | .function _ _ | .var _ _ => pure none

/-! ## Variables -/

/-- The loop of `get_variable_impl`: the variable's address and its value. -/
def findVariable (name : CString) : Nat → Option Ptr → HeapInterp (Option (Ptr × Option Ptr))
  | _, none => pure none
  | 0, some _ => throw (.stop .outOfFuel)
  | steps + 1, some v => do
    let t ← deref (some v)
    match t.data with
    | .var varName value => do
      let str ← textAt varName
      if strcmp str name = 0 then pure (some (v, value)) else findVariable name steps t.next
    | _ => throw (.stop .undefined)

def getVariableImpl (steps : Nat) (name : CString) : HeapInterp (Option (Ptr × Option Ptr)) := do
  findVariable name steps (← get).vars

/-- `var->var.value = value` -/
def setValue (var : Ptr) (value : Option Ptr) : HeapInterp Unit := do
  let t ← deref (some var)
  match t.data with
  | .var name _ => store var (.term { t with data := .var name value })
  | _ => throw (.stop .undefined)

/-- The branch of `set_variable` for a name that is new. -/
def addVariable (name : CString) (value : Option Ptr) : HeapInterp Unit := do
  let rv ← allocTextTerm machine (.var · value) (allocString machine name)
  setNext rv (← get).vars
  modify fun s => { s with vars := some rv }

def setVariable (steps : Nat) (name : CString) (value : Option Ptr) : HeapInterp Unit := do
  match ← getVariableImpl steps name with
  | some (var, _) => setValue var value
  | none => addVariable machine name value

def getVariable (steps : Nat) (name : CString) : HeapInterp (Option Ptr) := do
  match ← getVariableImpl steps name with
  | some (_, value) => pure value
  | none => do
    let p ← termNewString machine (.ofString "")
    pure (some p)

def setStringVariable (steps : Nat) (name value : CString) : HeapInterp Unit := do
  let p ← termNewString machine value
  setVariable machine steps name (some p)

def setBooleanVariable (steps : Nat) (name : CString) (value : Bool) : HeapInterp Unit := do
  let p ← termNewBoolean machine value
  setVariable machine steps name (some p)

def setNumberVariable (steps : Nat) (name : CString) (value : Int32) : HeapInterp Unit := do
  let p ← termNewNumber machine value
  setVariable machine steps name (some p)

/-! ## Collecting -/

/-- The loop of `term_gc_heap` over the old variables. -/
def copyVariables (steps : Nat) : Nat → Option Ptr → HeapInterp Unit
  | _, none => pure ()
  | 0, some _ => throw (.stop .outOfFuel)
  | n + 1, some v => do
    match (← deref (some v)).data with
    | .var name value => do
      let dupe ← termDupe machine value
      setVariable machine steps (← textAt name) dupe
      copyVariables steps n (← deref (some v)).next
    | _ => throw (.stop .undefined)

/-- `free` of a heap. -/
def freeHeap (heap : Nat) : HeapInterp Unit :=
  modify fun s => { s with cells := fun p => if p.heap = heap then none else s.cells p }

/-- `term_gc_heap` -/
def termGcHeap (steps : Nat) : HeapInterp Unit := do
  let s ← get
  let oldVariables := if s.heap.isSome then s.vars else none
  set { s with mallocs := s.mallocs + 1, heap := some s.mallocs, heapIndex := 0, vars := none }
  copyVariables machine steps steps oldVariables
  match s.heap with
  | none => pure ()
  | some oldHeap => freeHeap oldHeap

end

end NervesInitramfs.TermHeap
