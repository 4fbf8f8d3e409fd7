import NervesInitramfs.Block.Probe
import NervesInitramfs.CLib.Qsort

/-!
# Probing all block devices (`block_device.c`)

`probe_block_devices` probes what it finds in `/sys/block` and puts the devices in one list. Below
it stands what the list should say: what the partition table of each device says, in order.
-/

namespace NervesInitramfs

open CLib

/-- The names that `scandir` finds in `/sys/block`, and what `open` makes of the device with a
name. -/
structure SysBlock where
  names : List CString
  device : CString → Option Fd

/-- What the buffers for a device hold before they are read into. -/
structure Leftover where
  mbr : Sector
  block : Sector
  table : Heap

/-- `alphasort`, which compares names with `strcoll`; in the C locale that is `strcmp`. -/
def alphasort (a b : CString) : Int := strcmp a b

def reverseAlphasort (a b : CString) : Int := alphasort b a

/-- The loop of `probe_block_devices` over the names. -/
def probeNames (device : CString → Option Fd) (old : CString → Leftover) :
    List CString → List BlockDeviceInfo → List BlockDeviceInfo
  | [], devices => devices
  | name :: rest, devices =>
    if name.bytes.head? = some 46 then probeNames device old rest devices
    else
      let (_, devices) := probePartitions (device name) name devices (old name).mbr (old name).block
        (old name).table
      probeNames device old rest devices

def probeBlockDevices (qsort : Qsort reverseAlphasort) (sys : SysBlock) (old : CString → Leftover) :
    Int × List BlockDeviceInfo :=
  (0, probeNames sys.device old (qsort.sort sys.names) [])

/-! ## What the disks say -/

/-- The device delivers a whole sector at the offset. -/
def Fd.Delivers (fd : Fd) (offset : Nat) (block : Sector) : Prop :=
  ∃ got, fd.read 512 offset = some got ∧ ∀ i : Fin 512, got[i.val]? = some (block i)

/-- A disk with an MBR. -/
structure IsMbr (fd : Fd) (mbr : Sector) : Prop where
  read : fd.Delivers 0 mbr
  signature : mbr 510 = 0x55 ∧ mbr 511 = 0xaa
  type : mbr 450 ≠ 0xee

/-- A disk with a GPT: behind a protective MBR there is a sector with its header. -/
structure IsGpt (fd : Fd) (header : Sector) : Prop where
  protective : ∃ mbr, fd.Delivers 0 mbr ∧ mbr 510 = 0x55 ∧ mbr 511 = 0xaa ∧ mbr 450 = 0xee
  read : fd.Delivers 512 header
  signature : header.signature = gptSignature

/-- The number of entries that a GPT header announces, and the size of each. -/
def Sector.partitionCount (header : Sector) : Nat := (fromLe32 (header.ptr 80)).toNat

def Sector.partitionSize (header : Sector) : Nat := (fromLe32 (header.ptr 84)).toNat

/-- The table of a GPT is one that is looked at, and the device delivers all of it. -/
structure HasTable (fd : Fd) (header : Sector) (table : List UInt8) : Prop where
  count : header.partitionCount ≤ 256
  size : 32 ≤ header.partitionSize
  fits : header.partitionCount * header.partitionSize < 2 ^ 32
  read : fd.read (header.partitionCount * header.partitionSize) 1024 = some table
  length : table.length = header.partitionCount * header.partitionSize

/-- Whether a name ends in a digit. -/
def endsInDigit (name : CString) : Bool := name.bytes.getLast?.any fun c => 48 ≤ c && c ≤ 57

/-- `/dev/<name>` -/
def deviceFile (name : CString) : List UInt8 := text "/dev/" ++ name.bytes

/-- `/dev/<name>[p]<i>` -/
def partitionFile (name : CString) (i : Nat) : List UInt8 :=
  deviceFile name ++ (if endsInDigit name then text "p" else []) ++ decimal i

/-- The partitions that are not empty, in ascending order, and then the disk. -/
def mbrDevices (name : CString) (mbr : Sector) : List BlockDeviceInfo :=
  let diskId := hexWord (fromLe32 (mbr.ptr 440))
  ((List.range 4).filterMap fun i =>
    if mbr.ptr (446 + 16 * i) 4 = 0 then none
    else some ⟨.partition, partitionFile name (i + 1),
      diskId ++ text "-" ++ hexByte (UInt8.ofNat (i + 1))⟩) ++ [⟨.disk, deviceFile name, diskId⟩]

/-- The entry with index `i`, counted from 0. -/
def gptEntryBytes (header : Sector) (table : List UInt8) (i : Nat) : List UInt8 :=
  (table.drop (i * header.partitionSize)).take header.partitionSize

def gptDevices (name : CString) (header : Sector) (table : List UInt8) : List BlockDeviceInfo :=
  ((List.range header.partitionCount).filterMap fun i =>
    let entry := gptEntryBytes header table i
    if (entry.take 16).all (· = 0) then none
    else some ⟨.partition, partitionFile name (i + 1), uuidToStringMe fun k => entry.getD (16 + k) 0⟩) ++
    [⟨.disk, deviceFile name, uuidToStringMe (header.ptr 56)⟩]

/-- A device on which there is neither. -/
def Neither (device : Option Fd) : Prop :=
  ∀ fd, device = some fd → (∀ mbr, ¬IsMbr fd mbr) ∧ ∀ header, ¬IsGpt fd header

/-- What is to be listed for a device. -/
inductive DiskSays (name : CString) : Option Fd → List BlockDeviceInfo → Prop
  | mbr {fd : Fd} {mbr : Sector} (h : IsMbr fd mbr) : DiskSays name (some fd) (mbrDevices name mbr)
  | gpt {fd : Fd} {header : Sector} {table : List UInt8} (h : IsGpt fd header)
    (htable : HasTable fd header table) : DiskSays name (some fd) (gptDevices name header table)
  | neither {device : Option Fd} (h : Neither device) : DiskSays name device []

/-- The names in ascending order. -/
def ascending (names : List CString) : List CString :=
  names.mergeSort fun a b => decide (alphasort a b ≤ 0)

/-- Of what a device delivers of its first sector, one byte excludes an MBR. -/
def ExcludesMbr (got : List UInt8) : Prop :=
  (∃ c, got[510]? = some c ∧ c ≠ 0x55) ∨ (∃ c, got[511]? = some c ∧ c ≠ 0xaa) ∨ got[450]? = some 0xee

/-- Of what it delivers of its first two sectors, which are read into one buffer, one byte excludes
a GPT, or the second sector cannot be read. -/
def ExcludesGpt (got : List UInt8) (next : Option (List UInt8)) : Prop :=
  (∃ c, got[510]? = some c ∧ c ≠ 0x55) ∨ (∃ c, got[511]? = some c ∧ c ≠ 0xaa) ∨
    (∃ c, got[450]? = some c ∧ c ≠ 0xee) ∨
    ∀ got', next = some got' → ∃ i < 8, ∃ c, (got'[i]?).or got[i]? = some c ∧ gptSignature[i]? ≠ some c

/-- A device that cannot be taken for a disk with a partition table, whatever the buffers hold. -/
def ShowsNoTable (device : Option Fd) : Prop :=
  ∀ fd got, device = some fd → fd.read 512 0 = some got →
    ExcludesMbr got ∧ ExcludesGpt got (fd.read 512 512)

end NervesInitramfs
