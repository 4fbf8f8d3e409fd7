import NervesInitramfs.Block.Devices

/-!
# Links to the boot disk (`rootdisk.c`)

`create_rootdisk_symlinks` collects the disks and partitions in `/sys/block` and makes links to the
disk that the root file system is on, and to its partitions. The directories and the files in them
are a parameter. Below stands what the links should be.
-/

namespace NervesInitramfs

open CLib

/-- `SHORT_PATH_MAX`, less the NUL. -/
def shortPathMax : Nat := 255

/-- `struct dirent` -/
structure Dirent where
  name : CString
  type : Nat

/-- What is in `/sys/block`: the entries of a directory, if it can be opened, the two numbers that
`fscanf` finds in a file `dev`, and the number that it finds in a file `partition`. -/
structure SysTree where
  entries : (path : List UInt8) → Option (List Dirent)
  dev : (path : List UInt8) → Option (UInt32 × UInt32)
  partition : (path : List UInt8) → Option UInt32

/-- `makedev` -/
def makedev (major minor : UInt32) : UInt64 :=
  ((major.toUInt64 &&& 0xfffff000) <<< 32) ||| ((major.toUInt64 &&& 0xfff) <<< 8) |||
    ((minor.toUInt64 &&& 0xffffff00) <<< 12) ||| (minor.toUInt64 &&& 0xff)

/-- `struct block_device_info` of this file. `address` is where it is, and `parent` where its parent
is. -/
structure RootdiskInfo where
  address : Nat
  name : CString
  dev : UInt64
  partitionNumber : UInt32
  parent : Option Nat

def readDevFile (tree : SysTree) (base : List UInt8) (name : CString) : UInt64 :=
  let fname := (base.take 64 ++ text "/" ++ name.bytes.take 32 ++ text "/dev").take shortPathMax
  match tree.dev fname with
  | none => 0
  | some (devMajor, devMinor) => makedev devMajor devMinor

def readPartitionFile (tree : SysTree) (base : List UInt8) (name : CString) : UInt32 :=
  let fname := (base.take 64 ++ text "/" ++ name.bytes.take 32 ++ text "/partition").take shortPathMax
  (tree.partition fname).getD 0

def notSpecialFilter (d : Dirent) : Bool := d.name.bytes.head? ≠ some 46

/-- `DT_DIR` is 4. -/
def directoryFilter (d : Dirent) : Bool := d.name.bytes.head? ≠ some 46 && d.type &&& 4 ≠ 0

/-- `alphasort` -/
def direntAlphasort (a b : Dirent) : Int := alphasort a.name b.name

/-- `scandir`; no names when it fails. -/
def scandir (qsort : Qsort direntAlphasort) (tree : SysTree) (path : List UInt8)
    (filter : Dirent → Bool) : List Dirent :=
  match tree.entries path with
  | none => []
  | some entries => qsort.sort (entries.filter filter)

/-- One round of the loop in `scan_for_partitions`. The new entry is at an address that no other
entry has: the number of entries before it. -/
def scanPartition (tree : SysTree) (baseDir : List UInt8) (parent : RootdiskInfo)
    (infos : List RootdiskInfo) (d : Dirent) : List RootdiskInfo :=
  let dev := readDevFile tree baseDir d.name
  let partitionNumber := readPartitionFile tree baseDir d.name
  if dev = 0 ∨ partitionNumber = 0 then infos
  else ⟨infos.length, d.name, dev, partitionNumber, some parent.address⟩ :: infos

def scanForPartitions (qsort : Qsort direntAlphasort) (tree : SysTree) (parent : RootdiskInfo)
    (infos : List RootdiskInfo) : List RootdiskInfo :=
  let baseDir := (text "/sys/block/" ++ parent.name.bytes).take shortPathMax
  (scandir qsort tree baseDir directoryFilter).foldl (scanPartition tree baseDir parent) infos

/-- One round of the loop in `scan_for_block_devices`. -/
def scanBlockDevice (qsort : Qsort direntAlphasort) (tree : SysTree) (infos : List RootdiskInfo)
    (d : Dirent) : List RootdiskInfo :=
  let dev := readDevFile tree (text "/sys/block") d.name
  if dev = 0 then infos
  else
    let info : RootdiskInfo := ⟨infos.length, d.name, dev, 0, none⟩
    scanForPartitions qsort tree info (info :: infos)

def scanForBlockDevices (qsort : Qsort direntAlphasort) (tree : SysTree) : List RootdiskInfo :=
  (scandir qsort tree (text "/sys/block") notSpecialFilter).foldl (scanBlockDevice qsort tree) []

/-- A request for a link: what it is to point to, and where it is to be. -/
structure LinkRequest where
  devpath : List UInt8
  symlinkpath : List UInt8
deriving DecidableEq

def createDevSymlink (partitionSuffix : List UInt8) (devname : CString) : LinkRequest where
  devpath := (text "/dev/" ++ devname.bytes).take shortPathMax
  symlinkpath := (text "/dev/rootdisk" ++ partitionSuffix).take shortPathMax

/-- `snprintf(partition_suffix, 8, "0p%d", partition_number)` -/
def partitionSuffix (partitionNumber : UInt32) : List UInt8 :=
  (text "0p" ++ decimalInt partitionNumber.toInt32.toInt).take 7

/-- `create_rootdisk_symlinks`, as the links that it requests. `stat` gives the number of the device
that a name stands for. -/
def createRootdiskSymlinks (qsort : Qsort direntAlphasort) (tree : SysTree)
    (stat : CString → Option UInt64) (rootfsDevname : CString) : List LinkRequest :=
  let infos := scanForBlockDevices qsort tree
  let rootfsDev := (stat rootfsDevname).getD 0
  if rootfsDev = 0 then []
  else
    match infos.find? fun i => i.dev = rootfsDev with
    | none => []
    | some rootfsInfo =>
      match rootfsInfo.parent with
      | none => []
      | some rootdisk =>
        (((infos.find? fun i => i.address = rootdisk).map fun i => createDevSymlink (text "0") i.name).toList) ++
          (infos.filter fun i => i.parent = some rootdisk).map fun i =>
            createDevSymlink (partitionSuffix i.partitionNumber) i.name

/-! ## What the links should be -/

/-- A disk in the tree. -/
structure RootDisk where
  name : CString
  dev : UInt64
deriving DecidableEq

/-- A partition in the tree. -/
structure RootPartition where
  name : CString
  dev : UInt64
  number : UInt32
deriving DecidableEq

/-- The directory of a disk. -/
def diskDir (disk : CString) : List UInt8 := text "/sys/block/" ++ disk.bytes

/-- The device number in a directory; 0 when there is no file `dev`. -/
def SysTree.devIn (tree : SysTree) (dir : List UInt8) : UInt64 :=
  match tree.dev (dir ++ text "/dev") with
  | none => 0
  | some (major, minor) => makedev major minor

/-- The partition number in a directory; 0 when there is no file `partition`. -/
def SysTree.partitionIn (tree : SysTree) (dir : List UInt8) : UInt32 :=
  (tree.partition (dir ++ text "/partition")).getD 0

/-- The entry of `/sys/block` as a disk; one without a device number is none. -/
def SysTree.asDisk (tree : SysTree) (d : Dirent) : Option RootDisk :=
  let dev := tree.devIn (diskDir d.name)
  if dev = 0 then none else some ⟨d.name, dev⟩

/-- The entry of the directory of a disk as a partition; one without the two numbers is none. -/
def SysTree.asPartition (tree : SysTree) (disk : CString) (d : Dirent) : Option RootPartition :=
  let dir := diskDir disk ++ text "/" ++ d.name.bytes
  if tree.devIn dir = 0 ∨ tree.partitionIn dir = 0 then none
  else some ⟨d.name, tree.devIn dir, tree.partitionIn dir⟩

/-- The names in `/sys/block`. -/
def SysTree.blockEntries (tree : SysTree) : List Dirent :=
  ((tree.entries (text "/sys/block")).getD []).filter notSpecialFilter

/-- The directories in the directory of a disk. -/
def SysTree.diskEntries (tree : SysTree) (disk : CString) : List Dirent :=
  ((tree.entries (diskDir disk)).getD []).filter directoryFilter

def SysTree.disks (tree : SysTree) : List RootDisk := tree.blockEntries.filterMap tree.asDisk

def SysTree.partitions (tree : SysTree) (disk : CString) : List RootPartition :=
  (tree.diskEntries disk).filterMap (tree.asPartition disk)

/-- All device numbers. -/
def SysTree.devs (tree : SysTree) : List UInt64 :=
  tree.disks.flatMap fun disk => disk.dev :: (tree.partitions disk.name).map RootPartition.dev

/-- Names are short, device numbers are different, and so are the partition numbers of each disk,
which have five digits at most. -/
structure SysTree.Sensible (tree : SysTree) : Prop where
  diskNames : ∀ d ∈ tree.blockEntries, d.name.strlen ≤ 31
  partitionNames : ∀ disk ∈ tree.disks, ∀ d ∈ tree.diskEntries disk.name, d.name.strlen ≤ 31
  devs : tree.devs.Nodup
  numbers : ∀ disk ∈ tree.disks, ((tree.partitions disk.name).map RootPartition.number).Nodup
  numbers_lt : ∀ disk ∈ tree.disks, ∀ p ∈ tree.partitions disk.name, p.number < 100000

/-- The links for a disk. -/
def SysTree.linksFor (tree : SysTree) (disk : CString) : List LinkRequest :=
  ⟨text "/dev/" ++ disk.bytes, text "/dev/rootdisk0"⟩ ::
    (tree.partitions disk).map fun p =>
      ⟨text "/dev/" ++ p.name.bytes, text "/dev/rootdisk0p" ++ decimal p.number.toNat⟩

end NervesInitramfs
