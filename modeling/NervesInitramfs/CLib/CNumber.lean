import NervesInitramfs.CLib.CString
import Mathlib.Data.Int.Init

/-!
# Numbers and their texts in C

The conversions of `<stdlib.h>` and `<stdio.h>` between integers and text. A numeral is scanned as a
sign and a magnitude, which is the integer it denotes; `strtoul` and `strtoull` then force that
integer into an unsigned type.
-/

namespace CLib

/-- The value of a digit or letter in `strtoul`. -/
def digitValue (c : UInt8) : Option Nat :=
  if 48 ≤ c ∧ c ≤ 57 then some (c.toNat - 48)
  else if 97 ≤ c ∧ c ≤ 122 then some (c.toNat - 87)
  else if 65 ≤ c ∧ c ≤ 90 then some (c.toNat - 55)
  else none

/-- The magnitude of the longest run of base-`base` digits, continuing from `acc`. -/
def digitsValue (base acc : Nat) : List UInt8 → Nat
  | [] => acc
  | c :: cs =>
    match digitValue c with
    | some d => if d < base then digitsValue base (acc * base + d) cs else acc
    | none => acc

/-- Does the text continue with a hexadecimal digit? -/
def startsHex : List UInt8 → Bool
  | [] => false
  | c :: _ => match digitValue c with
    | some d => d < 16
    | none => false

/-- The base that a numeral written for base `base` is read in, and its digits: base 0 looks at the
prefix, and base 16 allows `0x` (only in front of a hexadecimal digit). -/
def scanBase (base : Nat) (s : List UInt8) : Nat × List UInt8 :=
  match s with
  | 48 :: x :: rest =>
    if (base = 0 ∨ base = 16) ∧ (x = 120 ∨ x = 88) ∧ startsHex rest then (16, rest)
    else (if base = 0 then 8 else base, s)
  | [48] => (if base = 0 then 8 else base, s)
  | _ => (if base = 0 then 10 else base, s)

/-- The optional sign in front of a numeral. -/
def scanSign : List UInt8 → Bool × List UInt8
  | 45 :: rest => (true, rest)
  | 43 :: rest => (false, rest)
  | s => (false, s)

/-- The sign and the magnitude of the numeral that `s` starts with (0 when there is none). -/
def scanInteger (base : Nat) (s : List UInt8) : Bool × Nat :=
  let (neg, digits) := scanSign (s.dropWhile isspace)
  let (base, digits) := scanBase base digits
  (neg, digitsValue base 0 digits)

/-- The integer that the numeral at the start of `s` denotes. -/
def denotedInteger (base : Nat) (s : List UInt8) : Int :=
  let (neg, m) := scanInteger base s
  if neg then -(m : Int) else m

/-- `strtoul` of a `bits`-bit type: a magnitude outside the type gives the largest value, and a
minus sign negates within the type. -/
def strtou (bits base : Nat) (s : List UInt8) : Nat :=
  let (neg, m) := scanInteger base s
  if 2 ^ bits ≤ m then 2 ^ bits - 1 else if neg then (2 ^ bits - m) % 2 ^ bits else m

/-- `strtoull`, whose type has 64 bits. -/
def strtoull (s : CString) (base : Nat) : Nat := strtou 64 base s.bytes

/-- The conversion of an unsigned value to `int`: the value modulo `2 ^ 32`. -/
def toInt32 (n : Nat) : Int32 := Int32.ofInt n

/-- The conversion of an `int` to a `w`-bit `size_t`: the value modulo `2 ^ w`. -/
def toSize (w : Nat) (n : Int32) : Nat := (n.toInt % (2 ^ w : Int)).toNat

/-- The byte of the digit `d`, in lower case. -/
def digitByte (d : Nat) : UInt8 := UInt8.ofNat (if d < 10 then 48 + d else 87 + d)

/-- The decimal digits of `n`, least significant first; `fuel` bounds their number. -/
def decimalDigits : Nat → Nat → List UInt8
  | 0, _ => []
  | fuel + 1, n => digitByte (n % 10) :: if n < 10 then [] else decimalDigits fuel (n / 10)

/-- `sprintf("%u", n)` -/
def decimal (n : Nat) : List UInt8 := (decimalDigits (n + 1) n).reverse

/-- `sprintf("%d", n)` -/
def decimalInt (n : Int) : List UInt8 :=
  if n < 0 then 45 :: decimal n.natAbs else decimal n.natAbs

/-- `sprintf("%02x", b)` -/
def hexByte (b : UInt8) : List UInt8 := [digitByte (b.toNat / 16), digitByte (b.toNat % 16)]

end CLib
