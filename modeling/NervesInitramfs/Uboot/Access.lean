import NervesInitramfs.Uboot.Env

/-!
# Reading the environment with pointers (`uboot_env.c`, `crc32.c`)

`uboot_env_read` again, with each byte that it looks at. A pointer is an offset from the start of
the buffer; a result `none` stands for an access outside the buffer.
-/

namespace NervesInitramfs

open CLib

variable {w : Nat}

/-- The loop of `crc32buf`. -/
def crc32Loop (buffer : Buffer w) : (buf len : Nat) → UInt32 → Option UInt32
  | _, 0, crc => some crc
  | buf, len + 1, crc => do
    let octet ← buffer.load buf
    crc32Loop buffer (buf + 1) len (updc32 octet crc)

/-- `crc32buf` -/
def crc32bufAt (buffer : Buffer w) (buf len : Nat) : Option UInt32 := do
  let crc ← crc32Loop buffer buf len 0xffffffff
  pure (~~~crc)

/-- The loop that moves `endname` to the `=`: where that is, if the entry has one. -/
def endnameAt (buffer : Buffer w) (stop endname : Nat) : Option (Option Nat) :=
  if endname = stop then some none
  else
    match h : buffer.load endname with
    | none => none
    | some c =>
      if c = 0 then some none
      else if c = 61 then some (some endname)
      else endnameAt buffer stop (endname + 1)
termination_by buffer.size - endname
decreasing_by
  have := Buffer.lt_size_of_load h
  omega

/-- The loop that moves `endvalue` to the NUL: where that is, if there is one. -/
def endvalueAt (buffer : Buffer w) (stop endvalue : Nat) : Option (Option Nat) :=
  if endvalue = stop then some none
  else
    match h : buffer.load endvalue with
    | none => none
    | some c => if c = 0 then some (some endvalue) else endvalueAt buffer stop (endvalue + 1)
termination_by buffer.size - endvalue
decreasing_by
  have := Buffer.lt_size_of_load h
  omega

/-- The bytes that `strndup(s, n)` copies. -/
def strndupAt (buffer : Buffer w) : (s n : Nat) → Option (List UInt8)
  | _, 0 => some []
  | s, n + 1 => do
    let c ← buffer.load s
    if c = 0 then pure []
    else do
      let rest ← strndupAt buffer (s + 1) n
      pure (c :: rest)

/-- The loop over the entries, which takes at most so many rounds. -/
def readEntriesAt (buffer : Buffer w) (stop : Nat) :
    (rounds name : Nat) → List UbootNameValue → Option (Int × List UbootNameValue)
  | 0, _, _ => none
  | rounds + 1, name, vars =>
    if name = stop then some (0, vars) else do
    let c ← buffer.load name
    if c = 0 then pure (0, vars) else do
    match ← endnameAt buffer stop (name + 1) with
    | none => pure (-1, vars)
    | some endname => do
      let value := endname + 1
      match ← endvalueAt buffer stop value with
      | none => pure (-1, vars)
      | some endvalue => do
        let newName ← strndupAt buffer name (endname - name)
        let newValue ← strndupAt buffer value (sizeOfDiff w (value - endvalue))
        readEntriesAt buffer stop rounds (endvalue + 1)
          (⟨.ofBytes newName, .ofBytes newValue⟩ :: vars)

/-- `uboot_env_read`, whose loop over the entries takes at most so many rounds. -/
def ubootEnvReadAt (rounds : Nat) (env : UbootEnv) (buffer : Buffer w) : Option (Int × UbootEnv) := do
  let env := ubootEnvFree env
  let b0 ← buffer.load 0
  let b1 ← buffer.load 1
  let b2 ← buffer.load 2
  let b3 ← buffer.load 3
  let expectedCrc32 := b0.toUInt32 ||| (b1.toUInt32 <<< 8) ||| (b2.toUInt32 <<< 16) |||
    (b3.toUInt32 <<< 24)
  let actualCrc32 ← crc32bufAt buffer 4 (sizeOfDiff w (env.envSize - 4))
  if expectedCrc32 ≠ actualCrc32 then pure (-1, env)
  else do
    let (rc, vars) ← readEntriesAt buffer env.envSize rounds 4 env.vars
    pure (rc, { env with vars := vars })

end NervesInitramfs
