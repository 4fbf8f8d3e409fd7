import NervesInitramfs.CLib.CString

/-!
# Trimming with pointers (`util.c`)

`trim_string_in_place`, with each byte that it looks at. A pointer is an offset from the start of
the buffer, which can be negative; a result `none` stands for an access outside the buffer.
-/

namespace NervesInitramfs

open CLib

variable {w : Nat}

/-- The loop that moves `first` over the leading blanks. -/
def skipBlanks (buffer : Buffer w) (first : Nat) : Option Nat :=
  match h : buffer.load first with
  | none => none
  | some c => if c ≠ 0 ∧ isspace c then skipBlanks buffer (first + 1) else some first
termination_by buffer.size - first
decreasing_by
  have := Buffer.lt_size_of_load h
  omega

/-- `strlen` -/
def strlenAt (buffer : Buffer w) (p : Nat) : Option Nat :=
  match h : buffer.load p with
  | none => none
  | some c => if c = 0 then some 0 else (strlenAt buffer (p + 1)).map (· + 1)
termination_by buffer.size - p
decreasing_by
  have := Buffer.lt_size_of_load h
  omega

/-- The loop that moves `last` back over the trailing blanks. -/
def dropBlanks (buffer : Buffer w) (first : Nat) (last : Int) : Option Int :=
  if last = first then some last
  else if _h : last < 0 then none
  else
    match buffer.load last.toNat with
    | none => none
    | some c => if isspace c then dropBlanks buffer first (last - 1) else some last
termination_by (last + 1).toNat
decreasing_by omega

/-- `trim_string_in_place` -/
def trimStringInPlaceAt (str : Buffer w) : Option (Buffer w) := do
  let first ← skipBlanks str 0
  let length ← strlenAt str first
  let last ← dropBlanks str first (first + length - 1)
  let len := sizeOfDiff w (last - first + 1)
  let str ← str.memmove 0 first len
  str.store len 0

end NervesInitramfs
