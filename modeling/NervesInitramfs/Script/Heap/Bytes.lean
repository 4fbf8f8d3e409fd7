import NervesInitramfs.CLib.Blocks
import NervesInitramfs.Script.Heap.Store
import NervesInitramfs.Script.Tokens

/-!
# The bytes of the heap (`script.c`)

The functions that allocate, on the memory itself: with addresses, bytes, the widths of `int` and
`size_t`, and the stores one by one. An address is a number below `2 ^ machine.bits`.
-/

namespace NervesInitramfs.HeapBytes

open CLib
open TermHeap (heapSize roundUp sizeofTerm)

/-- The globals `heap` and `heap_index`, the bytes of the memory, and the addresses of the bytes that
have been stored, in their order. -/
structure Memory where
  heap : Nat
  heapIndex : Int32
  memory : Nat → UInt8
  stores : List Nat

/-- `fatal`, which exits after it has printed its message. -/
structure Fatal where
  message : CString
deriving DecidableEq

abbrev Allocating := EStateM Fatal Memory

/-- The memory with other bytes from an address on. -/
def overwrite (memory : Nat → UInt8) (dest : Nat) (src : List UInt8) : Nat → UInt8 := fun a =>
  if dest ≤ a then (src[a - dest]?).getD (memory a) else memory a

/-- `memcpy(dest, src, n)`, where `src` are the `n` bytes. -/
def memcpy (dest : Nat) (src : List UInt8) : Allocating Unit :=
  modify fun s => { s with
    memory := overwrite s.memory dest src
    stores := s.stores ++ List.range' dest src.length }

section

variable (machine : Machine)

/-! ## Allocating -/

def outOfHeap : Fatal := ⟨.ofString "Program too large. Out of heap"⟩

/-- `alloc_heap`. The `int` is converted to `size_t` for the sum, and the sum back to `int`. -/
def allocHeap (numBytes : Nat) : Allocating Nat := do
  let s ← get
  let sum := (toSize machine.bits s.heapIndex + numBytes) % 2 ^ machine.bits
  if sum > heapSize then throw outOfHeap
  else
    set { s with heapIndex := toInt32 (roundUp machine.bits sum) }
    pure (s.heap + s.heapIndex.toInt).toNat

/-- `alloc_string` -/
def allocString (str : CString) : Allocating Nat := do
  let len := (str.strlen + 1) % 2 ^ machine.bits
  let result ← allocHeap machine len
  memcpy result ((str.bytes ++ [0]).take len)
  pure result

/-- `alloc_qstring` of a token; in memory a NUL follows it. The index `len - 1` is a `size_t`. -/
def allocQstring (yytext : List UInt8) : Allocating Nat := do
  let str := CString.ofBytes yytext.tail
  let len := str.strlen
  let result ← allocHeap machine len
  memcpy result (str.bytes.take len)
  let last := (len + (2 ^ machine.bits - 1)) % 2 ^ machine.bits
  memcpy ((result + last) % 2 ^ machine.bits) [0]
  pure result

/-! ## Requests -/

/-- A string that is in memory when the heap is: both have room in the address space, in which no
object has the address 0. -/
structure StoredString where
  str : CString
  fits : str.strlen + 1 + heapSize < 2 ^ machine.bits

/-- A token of the rule `string` of the lexer, with the NUL behind it in memory too. -/
structure QuotedToken where
  yytext : List UInt8
  matched : stringPattern.matchLength yytext = some yytext.length
  fits : yytext.length + 1 + heapSize < 2 ^ machine.bits

/-- What is allocated: a `struct term`, a copy of a string, or the string of a token. -/
inductive Request
  | term
  | string (s : StoredString machine)
  | qstring (token : QuotedToken machine)

/-- Some bytes of the memory. -/
structure Block where
  address : Nat
  size : Nat

/-- What `malloc(HEAP_SIZE)` returns: an address for objects of any type, of a block in the address
space. -/
structure Malloced where
  address : Nat
  aligned : address % 8 = 0
  fits : address + heapSize ≤ 2 ^ machine.bits

variable {machine}

/-- The state in which `term_gc_heap` has got a new heap and has filled it with zeros. -/
def fresh (block : Malloced machine) (memory : Nat → UInt8) : Memory :=
  ⟨block.address, 0, overwrite memory block.address (List.replicate heapSize 0), []⟩

def Request.serve : Request machine → Allocating Block
  | .term => do
    let result ← allocHeap machine (sizeofTerm machine)
    pure ⟨result, sizeofTerm machine⟩
  | .string s => do
    let result ← allocString machine s.str
    pure ⟨result, s.str.strlen + 1⟩
  | .qstring token => do
    let result ← allocQstring machine token.yytext
    pure ⟨result, (CString.ofBytes token.yytext.tail).strlen⟩

/-- The text that a request is to leave in its block. -/
def Request.text : Request machine → Option (List UInt8)
  | .term => none
  | .string s => some s.str.bytes
  | .qstring token => some token.yytext.tail.dropLast

/-! ## What the allocator is for -/

/-- The string in a block, up to its NUL; `none` when there is no NUL. -/
def stringIn (memory : Nat → UInt8) (block : Block) : Option (List UInt8) :=
  let bytes := (List.range block.size).map fun i => memory (block.address + i)
  if 0 ∈ bytes then some (bytes.takeWhile (· ≠ 0)) else none

def IndexAligned (s : Memory) : Prop :=
  s.heapIndex.toInt % 8 = 0 ∧ 0 ≤ s.heapIndex.toInt ∧ s.heapIndex.toInt ≤ heapSize

/-- A block of the heap that has nothing in common with the earlier ones, with what was asked for in
it and nothing stored outside of it. -/
structure SoundAllocation (earlier : List Block) (s : Memory) (r : Request machine) (block : Block)
    (s' : Memory) : Prop where
  aligned : block.address % 8 = 0
  inside : s.heap ≤ block.address ∧ block.address + block.size ≤ s.heap + heapSize
  apart : ∀ e ∈ earlier, Apart Block.address Block.size e block
  stores : ∃ stored, s'.stores = s.stores ++ stored ∧
    ∀ a ∈ stored, block.address ≤ a ∧ a < block.address + block.size
  text : ∀ t, r.text = some t → stringIn s'.memory block = some t

/-- The requests are served one after the other, up to the fatal exit if there is one. -/
def SoundRun : List Block → Memory → List (Request machine) → Prop
  | _, s, [] => IndexAligned s
  | earlier, s, r :: rest => IndexAligned s ∧
    match r.serve s with
    | .error e _ => e = outOfHeap
    | .ok block s' => SoundAllocation earlier s r block s' ∧ SoundRun (block :: earlier) s' rest

/-! ## Tokens with a NUL in them -/

/-- The bytes that are asked for. -/
def Request.size : Request machine → Nat
  | .term => sizeofTerm machine
  | .string s => s.str.strlen + 1
  | .qstring token => (CString.ofBytes token.yytext.tail).strlen

/-- The bytes that `heap_index` goes on by. -/
def Request.room (r : Request machine) : Nat := (r.size + 7) / 8 * 8

def Request.NulFree : Request machine → Prop
  | .qstring token => 0 ∉ token.yytext
  | .term | .string _ => True

/-- No token has a NUL in it, up to the request that there is no room for. -/
def NulFreeWhileRoom : Nat → List (Request machine) → Prop
  | _, [] => True
  | used, r :: rest =>
    used + r.room ≤ heapSize → r.NulFree ∧ NulFreeWhileRoom (used + r.room) rest

end

end NervesInitramfs.HeapBytes
