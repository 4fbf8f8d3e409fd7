import NervesInitramfs.CLib.CString
import NervesInitramfs.CLib.Qsort
import NervesInitramfs.Uboot.Crc32

/-!
# The U-Boot environment (`uboot_env.c`)

An environment is a list of name and value pairs. `ubootEnvRead` parses it from a block of bytes and
`ubootEnvWrite` lays it out in one: four bytes of CRC, then `name=value` strings, each with its NUL,
an extra NUL, and a fill of `0xff`.

A result `none` stands for an access outside the block. A pointer into the block is the list of the
bytes from it to the end of the block in the reader, and an offset in the writer.
-/

namespace NervesInitramfs

open CLib

variable {w : Nat}

/-- `struct uboot_name_value`, without the link to the next one. -/
@[ext]
structure UbootNameValue where
  name : CString
  value : CString
deriving DecidableEq

/-- `struct uboot_env`. The list `vars` is in the order of the links. -/
@[ext]
structure UbootEnv where
  envSize : Nat
  vars : List UbootNameValue
deriving DecidableEq

def ubootEnvInit : UbootEnv := ⟨0, []⟩

def ubootEnvFree (env : UbootEnv) : UbootEnv := { env with vars := [] }

/-! ## Reading -/

/-- The loop that moves `endname` to the `=`: how far it moves. -/
def scanEndname : List UInt8 → Option Nat
  | [] => none
  | c :: rest => if c = 0 then none else if c = 61 then some 0 else (scanEndname rest).map (· + 1)

/-- The loop that moves `endvalue` to the NUL: how far it moves. -/
def scanEndvalue : List UInt8 → Option Nat
  | [] => none
  | c :: rest => if c = 0 then some 0 else (scanEndvalue rest).map (· + 1)

/-- The loop over the entries: the code that is returned and the pairs that are linked then. -/
def readEntries (w : Nat) (name : List UInt8) (vars : List UbootNameValue) :
    Int × List UbootNameValue :=
  match name with
  | [] => (0, vars)
  | c :: rest =>
    if c = 0 then (0, vars) else
    match scanEndname rest with
    | none => (-1, vars)
    | some k =>
      let value := rest.drop (k + 1)
      match scanEndvalue value with
      | none => (-1, vars)
      | some v =>
        -- The source has `value - endvalue` here, which is not positive.
        let pair := ⟨strndup (c :: rest) (k + 1), strndup value (sizeOfDiff w (0 - (v : Int)))⟩
        readEntries w (value.drop (v + 1)) (pair :: vars)
termination_by name.length
decreasing_by
  simp only [List.length_drop, List.length_cons]
  omega

/-- The stored checksum: the first four bytes, least significant first. -/
def storedCrc (bytes : List UInt8) : UInt32 :=
  (bytes.getD 0 0).toUInt32 ||| ((bytes.getD 1 0).toUInt32 <<< 8) |||
    ((bytes.getD 2 0).toUInt32 <<< 16) ||| ((bytes.getD 3 0).toUInt32 <<< 24)

def ubootEnvRead (env : UbootEnv) (buffer : Buffer w) : Option (Int × UbootEnv) :=
  let env := ubootEnvFree env
  if env.envSize < 4 ∨ buffer.size < env.envSize then none else
  let block := buffer.bytes.take env.envSize
  if storedCrc block ≠ crc32buf (block.drop 4) then some (-1, env)
  else
    let (rc, vars) := readEntries w (block.drop 4) env.vars
    some (rc, { env with vars := vars })

/-! ## The list of pairs -/

/-- The loop of `uboot_env_setenv` over the list; `none` when the name is not found. -/
def replaceValue (name value : CString) : List UbootNameValue → Option (List UbootNameValue)
  | [] => none
  | pair :: rest =>
    if strcmp pair.name name = 0 then some ({ pair with value := value } :: rest)
    else (replaceValue name value rest).map (pair :: ·)

def ubootEnvSetenv (env : UbootEnv) (name value : CString) : Int × UbootEnv :=
  match replaceValue name value env.vars with
  | some vars => (0, { env with vars := vars })
  | none => (0, { env with vars := ⟨name, value⟩ :: env.vars })

/-- The list without the first pair that has the name. -/
def unlinkPair (name : CString) : List UbootNameValue → List UbootNameValue
  | [] => []
  | pair :: rest => if strcmp pair.name name = 0 then rest else pair :: unlinkPair name rest

def ubootEnvUnsetenv (env : UbootEnv) (name : CString) : Int × UbootEnv :=
  (0, { env with vars := unlinkPair name env.vars })

/-- `uboot_env_getenv`; `none` is the return code -1. -/
def ubootEnvGetenv (env : UbootEnv) (name : CString) : Option CString :=
  (env.vars.find? fun pair => strcmp pair.name name = 0).map (·.value)

/-! ## Writing -/

def envNameCompare (a b : UbootNameValue) : Int := strcmp a.name b.name

def ubootEnvSort (qsort : Qsort envNameCompare) (env : UbootEnv) : UbootEnv :=
  if env.vars.length = 0 then env else { env with vars := qsort.sort env.vars }

/-- The loop that adds the pairs at `p`: the return code, the position after the last pair added
and the buffer. -/
def writeEntries (stop : Nat) : List UbootNameValue → Nat → Buffer w → Option (Int × Nat × Buffer w)
  | [], p, buffer => some (0, p, buffer)
  | pair :: rest, p, buffer =>
    let namelen := pair.name.strlen
    let valuelen := pair.value.strlen
    if p + namelen + 1 + valuelen ≥ stop then some (-1, p, buffer) else do
      let buffer ← buffer.memcpy p pair.name.bytes
      let p := p + namelen
      let buffer ← buffer.store p 61
      let p := p + 1
      let buffer ← buffer.memcpy p pair.value.bytes
      let p := p + valuelen
      let buffer ← buffer.store p 0
      writeEntries stop rest (p + 1) buffer

/-- The bytes `crc & 0xff`, `(crc >> 8) & 0xff`, `(crc >> 16) & 0xff` and `crc >> 24`. -/
def crcBytes (crc : UInt32) : List UInt8 :=
  [crc.toUInt8, (crc >>> 8).toUInt8, (crc >>> 16).toUInt8, (crc >>> 24).toUInt8]

def ubootEnvWrite (qsort : Qsort envNameCompare) (env : UbootEnv) (buffer : Buffer w) :
    Option (Int × UbootEnv × Buffer w) :=
  if env.envSize < 8 then some (-1, env, buffer) else do
    let buffer ← buffer.memset 0xff env.envSize
    let env := ubootEnvSort qsort env
    let (rc, p, buffer) ← writeEntries (env.envSize - 2) env.vars 4 buffer
    if rc < 0 then return (-1, env, buffer)
    let buffer ← buffer.store p 0
    let crc := crc32buf ((buffer.bytes.take env.envSize).drop 4)
    let buffer ← buffer.memcpy 0 (crcBytes crc)
    return (0, env, buffer)

end NervesInitramfs
