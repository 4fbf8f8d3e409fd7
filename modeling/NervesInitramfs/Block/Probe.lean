import NervesInitramfs.CLib.CNumber

/-!
# Probing a block device for its partitions (`block_device.c`)

`probePartitions` reads the first sectors of a device and lists the disk and its partitions. What
the local buffers and the heap hold before the reads is a parameter, because `pread` may deliver
fewer bytes than it was asked for and nothing checks how many came.
-/

namespace NervesInitramfs

open CLib

/-- A descriptor of an open device: what `pread` of a count of bytes at an offset delivers, or
`none` when it fails. It never delivers more than it was asked for. -/
structure Fd where
  read : (count offset : Nat) → Option (List UInt8)
  read_length : ∀ count offset got, read count offset = some got → got.length ≤ count

/-- The descriptor of a device with the given bytes. At its end `pread` delivers what is left. -/
def Fd.ofContent (content : List UInt8) : Fd where
  read count offset := some ((content.drop offset).take count)
  read_length count offset got h := by
    obtain rfl : (content.drop offset).take count = got := by simpa using h
    exact List.length_take_le _ _

instance neZero_sector : @NeZero Nat Zero.ofOfNat0 512 := ⟨by decide⟩

/-- A local buffer `uint8_t[512]`. -/
abbrev Sector := Fin 512 → UInt8

/-- The heap from a malloc'ed block on, by the offset from the start of the block. -/
abbrev Heap := Int → UInt8

/-- A `const uint8_t *`: the bytes from the pointer on. -/
abbrev BytePtr := Nat → UInt8

/-- `&block[start]` -/
def Sector.ptr (block : Sector) (start : Nat) : BytePtr := fun i => block (Fin.ofNat 512 (start + i))

/-- `table + start` -/
def Heap.ptr (table : Heap) (start : Int) : BytePtr := fun i => table (start + i)

/-- `pread(fd, block, sizeof(block), offset)`: the bytes that come replace the first ones. -/
def preadSector (fd : Fd) (block : Sector) (offset : Nat) : Option Sector :=
  (fd.read 512 offset).map fun got => fun i => (got[i.val]?).getD (block i)

/-- The bytes that `got` puts at the offsets of a malloc'ed block. -/
def readBytes (got : List UInt8) (j : Int) : Option UInt8 := if 0 ≤ j then got[j.toNat]? else none

/-- `pread(fd, table, count, offset)` -/
def preadHeap (fd : Fd) (table : Heap) (count offset : Nat) : Option Heap :=
  (fd.read count offset).map fun got => fun j => (readBytes got j).getD (table j)

/-- `enum block_device_type` -/
inductive BlockDeviceType
  | disk
  | partition
deriving DecidableEq

/-- `struct block_device_info`. The texts are the bytes before the NUL. -/
structure BlockDeviceInfo where
  type : BlockDeviceType
  path : List UInt8
  uuid : List UInt8
deriving DecidableEq

/-- The bytes of a string literal. -/
def text (s : String) : List UInt8 := (CString.ofString s).bytes

/-- `p_or_np`. A name in `/sys/block` is not empty. -/
def pOrNp (devname : CString) : List UInt8 :=
  match devname.bytes.getLast? with
  | some c => if 48 ≤ c ∧ c ≤ 57 then text "p" else []
  | none => []

/-- `from_le32` -/
def fromLe32 (buffer : BytePtr) : UInt32 :=
  (buffer 0).toUInt32 + ((buffer 1).toUInt32 <<< 8) + ((buffer 2).toUInt32 <<< 16) +
    ((buffer 3).toUInt32 <<< 24)

/-- `is_zeros` -/
def isZeros (buffer : BytePtr) (len : Nat) : Bool := (List.range len).all fun i => buffer i = 0

/-- `uuid_to_string_me` -/
def uuidToStringMe (uuid : BytePtr) : List UInt8 :=
  let hex (l : List Nat) := l.flatMap fun i => hexByte (uuid i)
  hex [3, 2, 1, 0] ++ text "-" ++ hex [5, 4] ++ text "-" ++ hex [7, 6] ++ text "-" ++
    hex [8, 9] ++ text "-" ++ hex [10, 11, 12, 13, 14, 15]

/-- `snprintf(path, 32, "/dev/%.16s", devname)` -/
def diskPath (devname : CString) : List UInt8 := (text "/dev/" ++ devname.bytes.take 16).take 31

/-- `snprintf(path, 32, "/dev/%.16s%s%d", devname, p, i)` -/
def partitionPath (devname : CString) (i : Nat) : List UInt8 :=
  (text "/dev/" ++ devname.bytes.take 16 ++ pOrNp devname ++ decimal i).take 31

/-- The loop over the GPT entries, from the one with index `i` down. `partition` is the offset of
the entry after it in the table. -/
def gptPartitions (devname : CString) (table : Heap) (partitionSize : Nat) :
    (i : Nat) → (partition : Int) → List BlockDeviceInfo → List BlockDeviceInfo
  | 0, _, devices => devices
  | i + 1, partition, devices =>
    let partition := partition - partitionSize
    gptPartitions devname table partitionSize i partition
      (if isZeros (Heap.ptr table partition) 16 then devices
      else ⟨.partition, partitionPath devname (i + 1),
        uuidToStringMe (Heap.ptr table (partition + 16))⟩ :: devices)

/-- The first bytes of a GPT header. -/
def gptSignature : List UInt8 := text "EFI PART"

/-- The bytes of `block` that are compared with `gptSignature`. -/
def Sector.signature (block : Sector) : List UInt8 := (List.range 8).map (block.ptr 0)

def probeGptDevices (fd : Fd) (devname : CString) (devices : List BlockDeviceInfo) (block : Sector)
    (table : Heap) : Int × List BlockDeviceInfo :=
  match preadSector fd block 0 with
  | none => (-1, devices)
  | some block =>
    if block 510 ≠ 0x55 ∨ block 511 ≠ 0xaa ∨ block 450 ≠ 0xee then (-1, devices) else
    match preadSector fd block 512 with
    | none => (-1, devices)
    | some block =>
      if block.signature ≠ gptSignature then (-1, devices) else
      let devices := ⟨.disk, diskPath devname, uuidToStringMe (block.ptr 56)⟩ :: devices
      let partitionCount := fromLe32 (block.ptr 80)
      if partitionCount > 256 then (-1, devices) else
      let partitionSize := fromLe32 (block.ptr 84)
      -- The source tests the count a second time here, and never the size.
      if partitionCount > 256 then (-1, devices) else
      let partitionTableSize := (partitionCount * partitionSize).toNat
      match preadHeap fd table partitionTableSize 1024 with
      | none => (-1, devices)
      | some table =>
        (0, gptPartitions devname table partitionSize.toNat partitionCount.toNat
          partitionTableSize devices)

/-- `sprintf("%08x", n)` -/
def hexWord (n : UInt32) : List UInt8 :=
  hexByte (n >>> 24).toUInt8 ++ hexByte (n >>> 16).toUInt8 ++ hexByte (n >>> 8).toUInt8 ++
    hexByte n.toUInt8

/-- The loop over the MBR entries, from the one with index `i` down. -/
def mbrPartitions (devname : CString) (mbr : Sector) (diskUuid : UInt32) :
    (i : Nat) → List BlockDeviceInfo → List BlockDeviceInfo
  | 0, devices => devices
  | i + 1, devices =>
    mbrPartitions devname mbr diskUuid i
      (if mbr.ptr (446 + 16 * i) 4 ≠ 0 then
        ⟨.partition, partitionPath devname (i + 1),
          hexWord diskUuid ++ text "-" ++ hexByte (UInt8.ofNat (i + 1))⟩ :: devices
      else devices)

def probeMbrDevices (fd : Fd) (devname : CString) (devices : List BlockDeviceInfo) (mbr : Sector) :
    Int × List BlockDeviceInfo :=
  match preadSector fd mbr 0 with
  | none => (-1, devices)
  | some mbr =>
    if mbr 510 ≠ 0x55 ∨ mbr 511 ≠ 0xaa then (-1, devices)
    else if mbr 450 = 0xee then (-1, devices)
    else
      let diskUuid := fromLe32 (mbr.ptr 440)
      (0, mbrPartitions devname mbr diskUuid 4
        (⟨.disk, diskPath devname, hexWord diskUuid⟩ :: devices))

/-- `probe_partitions`, on what `open` returned. The last three arguments are what the buffers `mbr`
and `block` and the malloc'ed table hold before they are read into. -/
def probePartitions (fd : Option Fd) (devname : CString) (devices : List BlockDeviceInfo)
    (mbr block : Sector) (table : Heap) : Int × List BlockDeviceInfo :=
  match fd with
  | none => (-1, devices)
  | some fd =>
    let (rc, devices) := probeMbrDevices fd devname devices mbr
    if rc < 0 then
      let (rc, devices) := probeGptDevices fd devname devices block table
      (if rc < 0 then -1 else 0, devices)
    else (0, devices)

end NervesInitramfs
