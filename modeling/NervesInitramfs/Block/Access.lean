import NervesInitramfs.Block.Probe

/-!
# Reading the partition table with pointers (`block_device.c`)

`probe_gpt_devices` again, with each byte of the malloc'ed table that it looks at. A result `none`
stands for a look outside of the bytes that were allocated.
-/

namespace NervesInitramfs

open CLib

/-- A byte of a malloc'ed block of `size` bytes. -/
def Heap.at (table : Heap) (size : Nat) (p : Int) : Option UInt8 :=
  if 0 ≤ p ∧ p < size then some (table p) else none

/-- `is_zeros` -/
def isZerosAt (table : Heap) (size : Nat) : (buffer : Int) → (len : Nat) → Option Bool
  | _, 0 => some true
  | buffer, len + 1 => do
    let c ← table.at size buffer
    if c ≠ 0 then pure false else isZerosAt table size (buffer + 1) len

/-- Bytes that are handed over one by one. -/
def bytesAt (table : Heap) (size : Nat) : (p : Int) → (len : Nat) → Option (List UInt8)
  | _, 0 => some []
  | p, len + 1 => do
    let c ← table.at size p
    let rest ← bytesAt table size (p + 1) len
    pure (c :: rest)

/-- `uuid_to_string_me` -/
def uuidToStringMeAt (table : Heap) (size : Nat) (uuid : Int) : Option (List UInt8) := do
  let bytes ← bytesAt table size uuid 16
  pure (uuidToStringMe fun i => bytes.getD i 0)

/-- The loop over the GPT entries. -/
def gptPartitionsAt (devname : CString) (table : Heap) (size partitionSize : Nat) :
    (i : Nat) → (partition : Int) → List BlockDeviceInfo → Option (List BlockDeviceInfo)
  | 0, _, devices => some devices
  | i + 1, partition, devices => do
    let partition := partition - partitionSize
    if ← isZerosAt table size partition 16 then
      gptPartitionsAt devname table size partitionSize i partition devices
    else do
      let uuid ← uuidToStringMeAt table size (partition + 16)
      gptPartitionsAt devname table size partitionSize i partition
        (⟨.partition, partitionPath devname (i + 1), uuid⟩ :: devices)

/-- `probe_gpt_devices` -/
def probeGptDevicesAt (fd : Fd) (devname : CString) (devices : List BlockDeviceInfo) (block : Sector)
    (table : Heap) : Option (Int × List BlockDeviceInfo) :=
  match preadSector fd block 0 with
  | none => some (-1, devices)
  | some block =>
    if block 510 ≠ 0x55 ∨ block 511 ≠ 0xaa ∨ block 450 ≠ 0xee then some (-1, devices) else
    match preadSector fd block 512 with
    | none => some (-1, devices)
    | some block =>
      if block.signature ≠ gptSignature then some (-1, devices) else
      let devices := ⟨.disk, diskPath devname, uuidToStringMe (block.ptr 56)⟩ :: devices
      let partitionCount := fromLe32 (block.ptr 80)
      if partitionCount > 256 then some (-1, devices) else
      let partitionSize := fromLe32 (block.ptr 84)
      -- The source tests the count a second time here, and never the size.
      if partitionCount > 256 then some (-1, devices) else
      let partitionTableSize := (partitionCount * partitionSize).toNat
      match preadHeap fd table partitionTableSize 1024 with
      | none => some (-1, devices)
      | some table => do
        let devices ← gptPartitionsAt devname table partitionTableSize partitionSize.toNat
          partitionCount.toNat partitionTableSize devices
        pure (0, devices)

end NervesInitramfs
