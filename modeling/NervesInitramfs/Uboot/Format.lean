import NervesInitramfs.CLib.Assoc
import NervesInitramfs.CLib.Crc
import NervesInitramfs.Uboot.Env

/-!
# What an environment block says

The layout of a block, without the loops that read and write it: a checksum of four bytes, and data
that is a sequence of entries `name=value`, each closed by a NUL, which ends at an extra NUL or with
the block.
An environment stands for the map that `ubootEnvGetenv` looks names up in.
-/

namespace NervesInitramfs

open CLib

/-- The names that the layout can hold: not empty, and no `=` after the first byte. -/
def Representable (name : CString) : Prop := name.bytes ≠ [] ∧ (61 : UInt8) ∉ name.bytes.tail

instance (name : CString) : Decidable (Representable name) := inferInstanceAs (Decidable (_ ∧ _))

/-- One entry: `name=value` and its NUL. -/
def entryBytes (pair : UbootNameValue) : List UInt8 :=
  pair.name.bytes ++ 61 :: (pair.value.bytes ++ [0])

/-- The entries of a list of pairs, one after the other. -/
def entriesBytes (pairs : List UbootNameValue) : List UInt8 := pairs.flatMap entryBytes

/-- The data of a block lists exactly `pairs`, in this order. -/
def Lists (data : List UInt8) (pairs : List UbootNameValue) : Prop :=
  (∀ pair ∈ pairs, Representable pair.name) ∧
    (data = entriesBytes pairs ∨ ∃ rest, data = entriesBytes pairs ++ 0 :: rest)

/-- The polynomial of CRC-32. -/
def crc32Poly : BitVec 32 := 0xedb88320#32

/-- The CRC-32 of some bytes. -/
def crc32 (data : List UInt8) : BitVec 32 := crc crc32Poly (data.map UInt8.toBitVec)

/-- The number that the first four bytes of a block are, least significant first. -/
def blockCrc (block : List UInt8) : BitVec 32 := crcWord 32 ((block.take 4).map UInt8.toBitVec)

/-- No name is listed with two values. -/
abbrev OneValueEach (pairs : List UbootNameValue) : Prop :=
  Unambiguous UbootNameValue.name UbootNameValue.value pairs

/-- The map that a list of pairs stands for. -/
abbrev envMap (pairs : List UbootNameValue) (name : CString) : Option CString :=
  firstMatch UbootNameValue.name UbootNameValue.value pairs name

/-- The data of a block that lists `pairs` and is `n` bytes long. -/
def blockData (n : Nat) (pairs : List UbootNameValue) : List UInt8 :=
  entriesBytes pairs ++ 0 :: List.replicate (n - (entriesBytes pairs).length - 1) 0xff

end NervesInitramfs
