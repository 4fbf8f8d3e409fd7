import Mathlib.Algebra.Group.Int.Defs
import Mathlib.Algebra.Group.Nat.Defs
import Mathlib.Data.List.Basic
import Mathlib.Data.List.TakeWhile

/-!
# C strings

A C string is kept as the list of its bytes without the terminating NUL; that no byte is NUL is
part of the type. The functions below are those of `<string.h>`; a pointer into a larger object is
the list of the bytes from that pointer to the end of the object.
-/

namespace CLib

/-- A C string: the bytes before its terminating NUL. -/
@[ext]
structure CString where
  bytes : List UInt8
  nulFree : (0 : UInt8) ∉ bytes
deriving DecidableEq

namespace CString

/-- The string literal `s`, one byte for each character. -/
def ofString (s : String) : CString :=
  ⟨(s.toList.map fun c => UInt8.ofNat c.toNat).filter (· ≠ 0), by simp⟩

/-- The string that starts at the first byte of `s`. -/
def ofBytes (s : List UInt8) : CString :=
  ⟨s.takeWhile (· ≠ 0), fun h => by simpa using List.mem_takeWhile_imp h⟩

/-- `strlen` -/
def strlen (s : CString) : Nat := s.bytes.length

instance : Append CString where
  append a b := ⟨a.bytes ++ b.bytes, by simp [a.nulFree, b.nulFree]⟩

end CString

/-- `strcmp` on the bytes before the terminators, where a missing byte counts as the NUL. -/
def strcmpBytes : List UInt8 → List UInt8 → Int
  | [], [] => 0
  | [], b :: _ => -(b.toNat : Int)
  | a :: _, [] => a.toNat
  | a :: as, b :: bs => if a = b then strcmpBytes as bs else (a.toNat : Int) - b.toNat

/-- `strcmp` -/
def strcmp (a b : CString) : Int := strcmpBytes a.bytes b.bytes

/-- `strndup(s, n)`: the string at `s`, cut off after `n` bytes. -/
def strndup (s : List UInt8) (n : Nat) : CString := CString.ofBytes (s.take n)

/-- `tolower` on the letters of ASCII. -/
def tolower (c : UInt8) : UInt8 := if 65 ≤ c ∧ c ≤ 90 then c + 32 else c

/-- `strcasecmp(a, b) == 0` -/
def strcaseeq (a b : CString) : Bool := a.bytes.map tolower = b.bytes.map tolower

/-- `isspace` in the C locale. -/
def isspace (c : UInt8) : Bool := c = 32 || (9 ≤ c && c ≤ 13)

/-- The largest difference of two pointers when addresses have `w` bits; no object is larger. -/
def ptrdiffMax (w : Nat) : Nat := 2 ^ (w - 1) - 1

/-- A pointer difference as a `size_t` argument. -/
def sizeOfDiff (w : Nat) (d : Int) : Nat := (d % (2 ^ w : Int)).toNat

/-- A buffer of a program with `w`-bit addresses: the bytes of one object. -/
@[ext]
structure Buffer (w : Nat) where
  bytes : List UInt8
  size_le : bytes.length ≤ ptrdiffMax w

namespace Buffer

variable {w : Nat}

/-- The number of bytes of the object. -/
def size (b : Buffer w) : Nat := b.bytes.length

/-- `buf[p]`; `none` when the object ends before. -/
def load (b : Buffer w) (p : Nat) : Option UInt8 := b.bytes[p]?

theorem lt_size_of_load {b : Buffer w} {p : Nat} {c : UInt8} (h : b.load p = some c) :
    p < b.size := (List.getElem?_eq_some_iff.mp h).1

/-- `memcpy(buf + p, src, n)`; `none` when the object ends before `p + n`. -/
def memcpy (b : Buffer w) (p : Nat) (src : List UInt8) : Option (Buffer w) :=
  if h : p + src.length ≤ b.bytes.length then
    some ⟨b.bytes.take p ++ src ++ b.bytes.drop (p + src.length), by
      have hb := b.size_le
      simp only [List.length_append, List.length_take, List.length_drop]
      omega⟩
  else none

/-- `memset(buf, c, n)` -/
def memset (b : Buffer w) (c : UInt8) (n : Nat) : Option (Buffer w) :=
  b.memcpy 0 (List.replicate n c)

/-- `memmove(buf + p, buf + src, n)` -/
def memmove (b : Buffer w) (p src n : Nat) : Option (Buffer w) :=
  if src + n ≤ b.size then b.memcpy p ((b.bytes.drop src).take n) else none

/-- `buf[p] = c` -/
def store (b : Buffer w) (p : Nat) (c : UInt8) : Option (Buffer w) := b.memcpy p [c]

end Buffer

/-- `malloc(n)`: no object is larger than `ptrdiffMax`. Its bytes are not initialised; the callers
modelled with it write every byte before they read it, so any content will do. -/
def malloc (w n : Nat) : Option (Buffer w) :=
  if h : n ≤ ptrdiffMax w then some ⟨List.replicate n 0, by simpa using h⟩ else none

end CLib
