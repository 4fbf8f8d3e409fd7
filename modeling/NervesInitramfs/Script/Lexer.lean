import NervesInitramfs.Script.Term

/-!
# The lexer (`lexer.l`)

The lexer fills its buffer by calls of `lexer_next`, each of which says how many bytes there is room
for, until one of them returns 0.
-/

namespace NervesInitramfs

open CLib

/-! ## The input -/

/-- The globals `lexer_input` (`none` for `NULL`), `lexer_input_length` and `lexer_input_index`. -/
structure LexerInput where
  input : Option (List UInt8)
  length : Int32
  index : Int32

/-- `lexer_set_input` -/
def lexerSetInput (input : CString) : LexerInput := ⟨some input.bytes, toInt32 input.strlen, 0⟩

/-- `lexer_set_file`, with the outcomes of `open`, of `lseek` to the end and of `read`: the code
that is returned and the globals. A failed `malloc` makes the `read` fail. -/
def lexerSetFile (s : LexerInput) (opened sought got : Reply) : Int × LexerInput :=
  if !opened.ok then (-1, s)
  else if !sought.ok then (-1, s)
  else
    let len := sought.count
    if !got.ok || got.bytes.length ≠ len then (-1, s) else (0, ⟨some got.bytes, toInt32 len, 0⟩)

/-- `lexer_next`, as the bytes that it copies and the globals; `none` when `memcpy` reads bytes that
the input does not have, as it does for a negative `n`, which is a huge `size_t`. -/
def lexerNext (s : LexerInput) (maxSize : Int32) : Option (List UInt8 × LexerInput) :=
  match s.input with
  | none => some ([], s)
  | some input =>
    let n := s.index + maxSize
    let n := if n > s.length then s.length - s.index else n
    if 0 ≤ n ∧ s.index.toInt.toNat + n.toInt.toNat ≤ input.length then
      some ((input.drop s.index.toInt.toNat).take n.toInt.toNat, { s with index := s.index + n })
    else none

/-- The calls of `lexer_next` with the given sizes, up to the first that returns 0, deliver exactly
`bytes`: none of them reads past the input or copies more than there is room for. -/
inductive Delivers : LexerInput → (Nat → Int32) → List UInt8 → Prop
  | done {s s' : LexerInput} {sizes : Nat → Int32} (next : lexerNext s (sizes 0) = some ([], s')) :
    Delivers s sizes []
  | chunk {s s' : LexerInput} {sizes : Nat → Int32} {chunk rest : List UInt8}
    (next : lexerNext s (sizes 0) = some (chunk, s')) (more : chunk ≠ [])
    (fits : (chunk.length : Int) ≤ (sizes 0).toInt)
    (others : Delivers s' (fun i => sizes (i + 1)) rest) : Delivers s sizes (chunk ++ rest)

/-- The state that both ways of setting the input leave. -/
def LexerInput.holding (input : List UInt8) : LexerInput := ⟨some input, toInt32 input.length, 0⟩

end NervesInitramfs
