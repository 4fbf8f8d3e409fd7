import NervesInitramfs.CLib.Proofs.CNumberProofs
import NervesInitramfs.CLib.Proofs.CStringProofs
import NervesInitramfs.Rootfs.Rootdisk
import Mathlib.Data.List.Perm.Basic

/-!
# Proofs: links to the boot disk

The entries come in groups, a disk with its partitions in front of it. An address tells the groups
apart, and a device number tells the entries apart.
-/

namespace NervesInitramfs

open CLib

/-! ## Groups -/

/-- A disk with its partitions. -/
abbrev RootGroup := RootDisk × List RootPartition

/-- The entries for the partitions of the disk at `parent`, from the address `start` on. -/
def partitionInfos (parent : Nat) : (start : Nat) → List RootPartition → List RootdiskInfo
  | _, [] => []
  | start, p :: ps =>
    ⟨start, p.name, p.dev, p.number, some parent⟩ :: partitionInfos parent (start + 1) ps

/-- The entry for a disk. -/
def diskInfo (address : Nat) (disk : RootDisk) : RootdiskInfo := ⟨address, disk.name, disk.dev, 0, none⟩

/-- The list for some groups, of which the last one that was found comes first. -/
def infosOf : List RootGroup → List RootdiskInfo
  | [] => []
  | (disk, ps) :: older =>
    (partitionInfos (infosOf older).length ((infosOf older).length + 1) ps).reverse ++
      diskInfo (infosOf older).length disk :: infosOf older

theorem mem_partitionInfos {parent start : Nat} {ps : List RootPartition} {i : RootdiskInfo}
    (hi : i ∈ partitionInfos parent start ps) :
    i.parent = some parent ∧ start ≤ i.address ∧ i.address < start + ps.length ∧
      ∃ p ∈ ps, i.dev = p.dev := by
  induction ps generalizing start with
  | nil => exact absurd hi List.not_mem_nil
  | cons p ps ih =>
    rcases List.mem_cons.mp hi with rfl | hi
    · refine ⟨rfl, Nat.le_refl _, ?_, p, List.mem_cons_self, rfl⟩
      show start < start + (ps.length + 1)
      omega
    · obtain ⟨hparent, hstart, hend, q, hq, hdev⟩ := ih hi
      rw [List.length_cons]
      exact ⟨hparent, by omega, by omega, q, List.mem_cons_of_mem _ hq, hdev⟩

theorem length_partitionInfos (parent start : Nat) (ps : List RootPartition) :
    (partitionInfos parent start ps).length = ps.length := by
  induction ps generalizing start with
  | nil => rfl
  | cons p ps ih => exact congrArg (· + 1) (ih (start + 1))

theorem map_dev_partitionInfos (parent start : Nat) (ps : List RootPartition) :
    (partitionInfos parent start ps).map RootdiskInfo.dev = ps.map RootPartition.dev := by
  induction ps generalizing start with
  | nil => rfl
  | cons p ps ih => exact congrArg (p.dev :: ·) (ih (start + 1))

/-- The link for an entry. -/
def partitionLink (name : CString) (number : UInt32) : LinkRequest :=
  createDevSymlink (partitionSuffix number) name

theorem map_link_partitionInfos (parent start : Nat) (ps : List RootPartition) :
    (partitionInfos parent start ps).map (fun i => partitionLink i.name i.partitionNumber) =
      ps.map fun p => partitionLink p.name p.number := by
  induction ps generalizing start with
  | nil => rfl
  | cons p ps ih => exact congrArg (partitionLink p.name p.number :: ·) (ih (start + 1))

theorem exists_mem_partitionInfos {parent start : Nat} {ps : List RootPartition} {p : RootPartition}
    (hp : p ∈ ps) : ∃ i ∈ partitionInfos parent start ps, i.dev = p.dev ∧ i.parent = some parent := by
  induction ps generalizing start with
  | nil => exact absurd hp List.not_mem_nil
  | cons q ps ih =>
    rcases List.mem_cons.mp hp with rfl | hp
    · exact ⟨_, List.mem_cons_self, rfl, rfl⟩
    · obtain ⟨i, hi, hdev, hparent⟩ := ih hp
      exact ⟨i, List.mem_cons_of_mem _ hi, hdev, hparent⟩

/-! ## The list of all groups -/

theorem mem_infosOf_cons {disk : RootDisk} {ps : List RootPartition} {older : List RootGroup}
    {i : RootdiskInfo} : i ∈ infosOf ((disk, ps) :: older) ↔
      i ∈ partitionInfos (infosOf older).length ((infosOf older).length + 1) ps ∨
        i = diskInfo (infosOf older).length disk ∨ i ∈ infosOf older := by
  rw [infosOf, List.mem_append, List.mem_reverse, List.mem_cons]

theorem length_infosOf_cons (disk : RootDisk) (ps : List RootPartition) (older : List RootGroup) :
    (infosOf ((disk, ps) :: older)).length = ps.length + ((infosOf older).length + 1) := by
  rw [infosOf, List.length_append, List.length_reverse, length_partitionInfos, List.length_cons]

/-- Addresses and parents are below the number of entries. -/
theorem address_lt {gs : List RootGroup} {i : RootdiskInfo} (hi : i ∈ infosOf gs) :
    i.address < (infosOf gs).length ∧ ∀ k, i.parent = some k → k < (infosOf gs).length := by
  induction gs with
  | nil => exact absurd hi List.not_mem_nil
  | cons g older ih =>
    obtain ⟨disk, ps⟩ := g
    rw [length_infosOf_cons]
    rcases mem_infosOf_cons.mp hi with hi | rfl | hi
    · obtain ⟨hparent, hstart, hend, -⟩ := mem_partitionInfos hi
      refine ⟨by omega, fun k hk => ?_⟩
      obtain rfl := Option.some.inj (hparent.symm.trans hk)
      omega
    · refine ⟨?_, fun k hk => nomatch hk⟩
      show (infosOf older).length < _
      omega
    · obtain ⟨haddress, hparents⟩ := ih hi
      exact ⟨by omega, fun k hk => by have := hparents k hk; omega⟩

/-- An entry is a disk, or a partition of one of the groups. -/
theorem infosOf_cases {gs : List RootGroup} {i : RootdiskInfo} (hi : i ∈ infosOf gs) :
    i.parent = none ∨ ∃ g ∈ gs, ∃ p ∈ g.2, i.dev = p.dev := by
  induction gs with
  | nil => exact absurd hi List.not_mem_nil
  | cons g older ih =>
    obtain ⟨disk, ps⟩ := g
    rcases mem_infosOf_cons.mp hi with hi | rfl | hi
    · obtain ⟨-, -, -, p, hp, hdev⟩ := mem_partitionInfos hi
      exact .inr ⟨(disk, ps), List.mem_cons_self, p, hp, hdev⟩
    · exact .inl rfl
    · rcases ih hi with hnone | ⟨g, hg, p, hp, hdev⟩
      · exact .inl hnone
      · exact .inr ⟨g, List.mem_cons_of_mem _ hg, p, hp, hdev⟩

/-- The device numbers of the entries are those of the disks and partitions. -/
theorem infosOf_devs (gs : List RootGroup) :
    ((infosOf gs).map RootdiskInfo.dev).Perm
      (gs.flatMap fun g => g.1.dev :: g.2.map RootPartition.dev) := by
  induction gs with
  | nil => exact .refl _
  | cons g older ih =>
    obtain ⟨disk, ps⟩ := g
    rw [infosOf, List.map_append, List.map_reverse, map_dev_partitionInfos, List.map_cons,
      List.flatMap_cons]
    have hparts : ((ps.map RootPartition.dev).reverse ++ disk.dev ::
        (infosOf older).map RootdiskInfo.dev).Perm
        (disk.dev :: (ps.map RootPartition.dev ++ (infosOf older).map RootdiskInfo.dev)) :=
      List.perm_middle.trans (((List.reverse_perm _).append_right _).cons _)
    exact hparts.trans ((ih.append_left _).cons _)

/-- Each group has an address of its own: there is the disk, and the entries with that parent are
its partitions. -/
theorem exists_address {gs : List RootGroup} {disk : RootDisk} {ps : List RootPartition}
    (hg : (disk, ps) ∈ gs) :
    ∃ a, (infosOf gs).find? (fun i => i.address = a) = some (diskInfo a disk) ∧
      ((infosOf gs).filter fun i => i.parent = some a).map
          (fun i => partitionLink i.name i.partitionNumber) =
        (ps.map fun p => partitionLink p.name p.number).reverse ∧
      ∀ p ∈ ps, ∃ i ∈ infosOf gs, i.dev = p.dev ∧ i.parent = some a := by
  induction gs with
  | nil => exact absurd hg List.not_mem_nil
  | cons g older ih =>
    obtain ⟨disk', ps'⟩ := g
    rcases List.mem_cons.mp hg with heq | hg
    · obtain ⟨rfl, rfl⟩ := Prod.mk.inj heq
      refine ⟨(infosOf older).length, ?_, ?_, fun p hp => ?_⟩
      · rw [infosOf, List.find?_append, List.find?_eq_none.mpr, Option.none_or,
          List.find?_cons_of_pos (by simp [diskInfo])]
        intro i hi
        have hstart := (mem_partitionInfos (List.mem_reverse.mp hi)).2.1
        rw [decide_eq_true_iff]
        omega
      · have hparts : (partitionInfos (infosOf older).length ((infosOf older).length + 1) ps).reverse.filter
            (fun i => i.parent = some (infosOf older).length) =
            (partitionInfos (infosOf older).length ((infosOf older).length + 1) ps).reverse := by
          apply List.filter_eq_self.mpr
          intro i hi
          exact decide_eq_true (mem_partitionInfos (List.mem_reverse.mp hi)).1
        have hrest : (infosOf older).filter (fun i => i.parent = some (infosOf older).length) = [] := by
          apply List.filter_eq_nil_iff.mpr
          intro i hi
          rw [decide_eq_true_iff]
          intro hparent
          exact Nat.lt_irrefl _ ((address_lt hi).2 _ hparent)
        rw [infosOf, List.filter_append, hparts, List.filter_cons_of_neg (by simp [diskInfo]), hrest,
          List.append_nil, List.map_reverse, map_link_partitionInfos]
      · obtain ⟨i, hi, hdev, hparent⟩ := exists_mem_partitionInfos hp
        exact ⟨i, mem_infosOf_cons.mpr (.inl hi), hdev, hparent⟩
    · obtain ⟨a, hfind, hfilter, hmem⟩ := ih hg
      have ha : a < (infosOf older).length := (address_lt (List.mem_of_find?_eq_some hfind)).1
      refine ⟨a, ?_, ?_, fun p hp => ?_⟩
      · rw [infosOf, List.find?_append, List.find?_eq_none.mpr, Option.none_or,
          List.find?_cons_of_neg, hfind]
        · show ¬decide ((infosOf older).length = a) = true
          rw [decide_eq_true_iff]
          omega
        · intro i hi
          have hstart := (mem_partitionInfos (List.mem_reverse.mp hi)).2.1
          rw [decide_eq_true_iff]
          omega
      · have hparts : (partitionInfos (infosOf older).length ((infosOf older).length + 1) ps').reverse.filter
            (fun i => i.parent = some a) = [] := by
          apply List.filter_eq_nil_iff.mpr
          intro i hi
          rw [decide_eq_true_iff, (mem_partitionInfos (List.mem_reverse.mp hi)).1]
          intro heq
          have := Option.some.inj heq
          omega
        rw [infosOf, List.filter_append, hparts, List.nil_append,
          List.filter_cons_of_neg (by simp [diskInfo]), hfilter]
      · obtain ⟨i, hi, hdev, hparent⟩ := hmem p hp
        exact ⟨i, mem_infosOf_cons.mpr (.inr (.inr hi)), hdev, hparent⟩

/-! ## Scanning -/

section

variable {qsort : Qsort direntAlphasort} {tree : SysTree}

/-- A short name is not cut off in the path of a file. -/
theorem fname_eq {base file : List UInt8} {name : CString} (hbase : base.length ≤ 64)
    (hname : name.strlen ≤ 31) (hfile : file.length ≤ 10) :
    (base.take 64 ++ text "/" ++ name.bytes.take 32 ++ file).take shortPathMax =
      base ++ text "/" ++ name.bytes ++ file := by
  have hlen : name.bytes.length ≤ 31 := hname
  have hslash : (text "/").length = 1 := rfl
  rw [List.take_of_length_le hbase, List.take_of_length_le (show name.bytes.length ≤ 32 by omega)]
  apply List.take_of_length_le
  rw [List.length_append, List.length_append, List.length_append, shortPathMax]
  omega

variable (tree) in
theorem readDevFile_eq {base : List UInt8} {name : CString} (hbase : base.length ≤ 64)
    (hname : name.strlen ≤ 31) :
    readDevFile tree base name = tree.devIn (base ++ text "/" ++ name.bytes) := by
  unfold readDevFile SysTree.devIn
  rw [fname_eq hbase hname (by decide)]

variable (tree) in
theorem readPartitionFile_eq {base : List UInt8} {name : CString} (hbase : base.length ≤ 64)
    (hname : name.strlen ≤ 31) :
    readPartitionFile tree base name = tree.partitionIn (base ++ text "/" ++ name.bytes) := by
  unfold readPartitionFile SysTree.partitionIn
  rw [fname_eq hbase hname (by decide)]

theorem length_diskDir {disk : CString} (h : disk.strlen ≤ 31) : (diskDir disk).length ≤ 64 := by
  have hlen : disk.bytes.length ≤ 31 := h
  have hdir : (text "/sys/block/").length = 11 := rfl
  rw [diskDir, List.length_append]
  omega

/-- The loop over the partitions puts their entries in front of the list. -/
theorem foldl_scanPartition {parent : RootdiskInfo} {disk : CString} (hdisk : disk.strlen ≤ 31)
    {ds : List Dirent} (hds : ∀ d ∈ ds, d.name.strlen ≤ 31) (infos : List RootdiskInfo) :
    ds.foldl (scanPartition tree (diskDir disk) parent) infos =
      (partitionInfos parent.address infos.length (ds.filterMap (tree.asPartition disk))).reverse ++
        infos := by
  induction ds generalizing infos with
  | nil => rfl
  | cons d ds ih =>
    have hname := hds d List.mem_cons_self
    have hdev := readDevFile_eq tree (length_diskDir hdisk) hname
    have hpart := readPartitionFile_eq tree (length_diskDir hdisk) hname
    have hround : scanPartition tree (diskDir disk) parent infos d =
        if tree.devIn (diskDir disk ++ text "/" ++ d.name.bytes) = 0 ∨
            tree.partitionIn (diskDir disk ++ text "/" ++ d.name.bytes) = 0 then infos
        else ⟨infos.length, d.name, tree.devIn (diskDir disk ++ text "/" ++ d.name.bytes),
          tree.partitionIn (diskDir disk ++ text "/" ++ d.name.bytes), some parent.address⟩ :: infos := by
      rw [← hdev, ← hpart]
      rfl
    rw [List.foldl_cons, ih fun d hd => hds d (List.mem_cons_of_mem _ hd)]
    by_cases hskip : tree.devIn (diskDir disk ++ text "/" ++ d.name.bytes) = 0 ∨
        tree.partitionIn (diskDir disk ++ text "/" ++ d.name.bytes) = 0
    · have hnone : tree.asPartition disk d = none := if_pos hskip
      rw [hround, if_pos hskip, List.filterMap_cons_none hnone]
    · have hsome : tree.asPartition disk d = some ⟨d.name, _, _⟩ := if_neg hskip
      rw [hround, if_neg hskip, List.filterMap_cons_some hsome, partitionInfos, List.reverse_cons,
        List.append_assoc (List.reverse _)]
      rfl

/-- The partitions of a disk in the order in which they are scanned. -/
def scannedPartitions (qsort : Qsort direntAlphasort) (tree : SysTree) (disk : CString) :
    List RootPartition :=
  (scandir qsort tree (diskDir disk) directoryFilter).filterMap (tree.asPartition disk)

/-- The disks with their partitions in the order in which they are scanned. -/
def scannedGroups (qsort : Qsort direntAlphasort) (tree : SysTree) (ds : List Dirent) : List RootGroup :=
  (ds.filterMap tree.asDisk).map fun disk => (disk, scannedPartitions qsort tree disk.name)

theorem scandir_perm (path : List UInt8) (filter : Dirent → Bool) :
    (scandir qsort tree path filter).Perm (((tree.entries path).getD []).filter filter) := by
  unfold scandir
  cases tree.entries path with
  | none => exact .refl _
  | some entries => exact qsort.perm _

theorem scannedPartitions_perm (disk : CString) :
    (scannedPartitions qsort tree disk).Perm (tree.partitions disk) :=
  (scandir_perm _ _).filterMap _

theorem scanForPartitions_eq (h : tree.Sensible) {disk : RootDisk} (hdisk : disk ∈ tree.disks)
    (hname : disk.name.strlen ≤ 31) (address : Nat) (infos : List RootdiskInfo) :
    scanForPartitions qsort tree (diskInfo address disk) infos =
      (partitionInfos address infos.length (scannedPartitions qsort tree disk.name)).reverse ++ infos := by
  have hbase : (text "/sys/block/" ++ disk.name.bytes).take shortPathMax = diskDir disk.name :=
    List.take_of_length_le (Nat.le_trans (length_diskDir hname) (by decide))
  have hnames : ∀ d ∈ scandir qsort tree (diskDir disk.name) directoryFilter, d.name.strlen ≤ 31 :=
    fun d hd => h.partitionNames disk hdisk d ((scandir_perm _ _).mem_iff.mp hd)
  show List.foldl (scanPartition tree ((text "/sys/block/" ++ disk.name.bytes).take shortPathMax) _) infos
    (scandir qsort tree ((text "/sys/block/" ++ disk.name.bytes).take shortPathMax) directoryFilter) = _
  rw [hbase]
  exact foldl_scanPartition hname hnames infos

variable (qsort) in
theorem foldl_scanBlockDevice (h : tree.Sensible) {ds : List Dirent} (hds : ∀ d ∈ ds, d ∈ tree.blockEntries)
    (gs : List RootGroup) :
    ds.foldl (scanBlockDevice qsort tree) (infosOf gs) =
      infosOf ((scannedGroups qsort tree ds).reverse ++ gs) := by
  induction ds generalizing gs with
  | nil => rfl
  | cons d ds ih =>
    have hmem := hds d List.mem_cons_self
    have hname := h.diskNames d hmem
    have hdir : diskDir d.name = text "/sys/block" ++ text "/" ++ d.name.bytes := rfl
    have hdev : readDevFile tree (text "/sys/block") d.name = tree.devIn (diskDir d.name) := by
      rw [readDevFile_eq tree (by decide) hname, hdir]
    have hrest := ih fun d hd => hds d (List.mem_cons_of_mem _ hd)
    have hround : scanBlockDevice qsort tree (infosOf gs) d =
        if tree.devIn (diskDir d.name) = 0 then infosOf gs
        else scanForPartitions qsort tree
          (diskInfo (infosOf gs).length ⟨d.name, tree.devIn (diskDir d.name)⟩)
          (diskInfo (infosOf gs).length ⟨d.name, tree.devIn (diskDir d.name)⟩ :: infosOf gs) := by
      rw [← hdev]
      rfl
    rw [List.foldl_cons, hround]
    by_cases hskip : tree.devIn (diskDir d.name) = 0
    · have hnone : tree.asDisk d = none := if_pos hskip
      rw [if_pos hskip, hrest, scannedGroups, scannedGroups, List.filterMap_cons_none hnone]
    · have hsome : tree.asDisk d = some ⟨d.name, tree.devIn (diskDir d.name)⟩ := if_neg hskip
      have hdisk : (⟨d.name, tree.devIn (diskDir d.name)⟩ : RootDisk) ∈ tree.disks :=
        List.mem_filterMap.mpr ⟨d, hmem, hsome⟩
      rw [if_neg hskip, scanForPartitions_eq h hdisk hname, scannedGroups,
        List.filterMap_cons_some hsome, List.map_cons, List.reverse_cons, List.append_assoc (List.reverse _),
        List.singleton_append]
      exact hrest ((⟨d.name, tree.devIn (diskDir d.name)⟩, scannedPartitions qsort tree d.name) :: gs)

/-- All groups, the one that was scanned last first. -/
def allGroups (qsort : Qsort direntAlphasort) (tree : SysTree) : List RootGroup :=
  (scannedGroups qsort tree (scandir qsort tree (text "/sys/block") notSpecialFilter)).reverse

theorem scanForBlockDevices_eq (h : tree.Sensible) :
    scanForBlockDevices qsort tree = infosOf (allGroups qsort tree) := by
  have hds : ∀ d ∈ scandir qsort tree (text "/sys/block") notSpecialFilter, d ∈ tree.blockEntries :=
    fun d hd => (scandir_perm _ _).mem_iff.mp hd
  have hfold := foldl_scanBlockDevice qsort h hds []
  rw [List.append_nil] at hfold
  exact hfold

theorem mem_allGroups {g : RootGroup} :
    g ∈ allGroups qsort tree ↔
      ∃ disk ∈ tree.disks, g = (disk, scannedPartitions qsort tree disk.name) := by
  unfold allGroups scannedGroups
  rw [List.mem_reverse, List.mem_map]
  have hdisks : ∀ disk, disk ∈ (scandir qsort tree (text "/sys/block") notSpecialFilter).filterMap
      tree.asDisk ↔ disk ∈ tree.disks :=
    fun disk => ((scandir_perm _ _).filterMap tree.asDisk).mem_iff
  constructor
  · rintro ⟨disk, hdisk, rfl⟩
    exact ⟨disk, (hdisks disk).mp hdisk, rfl⟩
  · rintro ⟨disk, hdisk, rfl⟩
    exact ⟨disk, (hdisks disk).mpr hdisk, rfl⟩

/-- The entries have different device numbers. -/
theorem nodup_devs (h : tree.Sensible) :
    ((scanForBlockDevices qsort tree).map RootdiskInfo.dev).Nodup := by
  have hgroups : ((allGroups qsort tree).flatMap fun g => g.1.dev :: g.2.map RootPartition.dev).Perm
      tree.devs := by
    refine ((List.reverse_perm _).flatMap_right _).trans ?_
    rw [scannedGroups, List.flatMap_map]
    apply List.Perm.flatMap ((scandir_perm _ _).filterMap tree.asDisk)
    intro disk _
    exact ((scannedPartitions_perm disk.name).map _).cons _
  rw [scanForBlockDevices_eq h]
  exact ((infosOf_devs _).trans hgroups).nodup_iff.mpr h.devs

/-! ## The links -/

theorem createDevSymlink_eq {suffix : List UInt8} {name : CString} (hname : name.strlen ≤ 31)
    (hsuffix : suffix.length ≤ 7) :
    createDevSymlink suffix name = ⟨text "/dev/" ++ name.bytes, text "/dev/rootdisk" ++ suffix⟩ := by
  have hlen : name.bytes.length ≤ 31 := hname
  have hdev : (text "/dev/").length = 5 := rfl
  have hlink : (text "/dev/rootdisk").length = 13 := rfl
  unfold createDevSymlink
  rw [List.take_of_length_le, List.take_of_length_le]
  · rw [List.length_append, shortPathMax]
    omega
  · rw [List.length_append, shortPathMax]
    omega

/-- Five digits fit behind `0p`. -/
theorem partitionSuffix_eq {number : UInt32} (h : number < 100000) :
    partitionSuffix number = text "0p" ++ decimal number.toNat ∧
      (text "0p" ++ decimal number.toNat).length ≤ 7 := by
  have hlt : number.toNat < 10 ^ 5 := UInt32.lt_iff_toNat_lt.mp h
  have hint : number.toInt32.toInt = number.toNat := by
    have hbits : 2 * number.toBitVec.toNat < 2 ^ 32 := by
      have heq : number.toBitVec.toNat = number.toNat := rfl
      omega
    exact BitVec.toInt_eq_toNat_of_lt hbits
  have hdigits : (decimal number.toNat).length ≤ 5 := length_decimal_le hlt
  have hlen : (text "0p" ++ decimal number.toNat).length ≤ 7 := by
    have hprefix : (text "0p").length = 2 := rfl
    rw [List.length_append]
    omega
  refine ⟨?_, hlen⟩
  have hdecimal : decimalInt number.toInt32.toInt = decimal number.toNat := by
    rw [hint, decimalInt, if_neg (Int.not_lt.mpr (Int.natCast_nonneg _)), Int.natAbs_natCast]
  rw [partitionSuffix, hdecimal]
  exact List.take_of_length_le hlen

theorem partitionLink_eq {name : CString} {number : UInt32} (hname : name.strlen ≤ 31)
    (h : number < 100000) : partitionLink name number =
      ⟨text "/dev/" ++ name.bytes, text "/dev/rootdisk0p" ++ decimal number.toNat⟩ := by
  obtain ⟨hsuffix, hlen⟩ := partitionSuffix_eq h
  rw [partitionLink, hsuffix, createDevSymlink_eq hname hlen]
  rfl

theorem strlen_of_mem_disks (h : tree.Sensible) {disk : RootDisk} (hdisk : disk ∈ tree.disks) :
    disk.name.strlen ≤ 31 := by
  obtain ⟨d, hd, hsome⟩ := List.mem_filterMap.mp hdisk
  unfold SysTree.asDisk at hsome
  dsimp only at hsome
  split at hsome
  · exact nomatch hsome
  · obtain rfl := Option.some.inj hsome
    exact h.diskNames d hd

theorem mem_partitions (h : tree.Sensible) {disk : RootDisk} (hdisk : disk ∈ tree.disks)
    {p : RootPartition} (hp : p ∈ tree.partitions disk.name) : p.name.strlen ≤ 31 ∧ p.dev ≠ 0 := by
  obtain ⟨d, hd, hsome⟩ := List.mem_filterMap.mp hp
  unfold SysTree.asPartition at hsome
  dsimp only at hsome
  split at hsome
  · exact nomatch hsome
  · rename_i hkeep
    push Not at hkeep
    obtain rfl := Option.some.inj hsome
    exact ⟨h.partitionNames disk hdisk d hd, hkeep.1⟩

/-- The links for a disk are different, because its partition numbers are. -/
theorem nodup_linksFor (h : tree.Sensible) {disk : RootDisk} (hdisk : disk ∈ tree.disks) :
    (tree.linksFor disk.name).Nodup := by
  have hnumber : ∀ p q : RootPartition,
      text "/dev/rootdisk0p" ++ decimal p.number.toNat = text "/dev/rootdisk0p" ++ decimal q.number.toNat →
      p.number = q.number := by
    intro p q heq
    have hint : decimalInt (p.number.toNat : Int) = decimalInt (q.number.toNat : Int) := by
      rw [decimalInt, decimalInt, if_neg (Int.not_lt.mpr (Int.natCast_nonneg _)),
        if_neg (Int.not_lt.mpr (Int.natCast_nonneg _)), Int.natAbs_natCast, Int.natAbs_natCast]
      exact List.append_cancel_left heq
    have hnat := decimalInt_injective hint
    exact UInt32.toNat_inj.mp (by omega)
  rw [SysTree.linksFor, List.nodup_cons]
  constructor
  · intro hmem
    obtain ⟨p, -, heq⟩ := List.mem_map.mp hmem
    have hlink := congrArg LinkRequest.symlinkpath heq
    have hsplit : text "/dev/rootdisk0p" = text "/dev/rootdisk0" ++ [112] := rfl
    rw [hsplit, List.append_assoc] at hlink
    exact absurd (List.append_right_eq_self.mp hlink) (List.cons_ne_nil _ _)
  · have hpairs := List.pairwise_map.mp (h.numbers disk hdisk)
    refine List.pairwise_map.mpr (hpairs.imp fun hne heq => ?_)
    exact hne (hnumber _ _ (congrArg LinkRequest.symlinkpath heq))

end

/-- The first entry with a device number is the only one. -/
theorem find?_dev {infos : List RootdiskInfo} (hdevs : (infos.map RootdiskInfo.dev).Nodup)
    {i : RootdiskInfo} (hi : i ∈ infos) : infos.find? (fun j => j.dev = i.dev) = some i := by
  cases hfound : infos.find? (fun j => j.dev = i.dev) with
  | none =>
    have hnot := List.find?_eq_none.mp hfound i hi
    exact absurd (decide_eq_true rfl) hnot
  | some j =>
    have hj : j.dev = i.dev := by simpa using List.find?_some hfound
    rw [List.inj_on_of_nodup_map hdevs (List.mem_of_find?_eq_some hfound) hi hj]

section

variable {qsort : Qsort direntAlphasort} {tree : SysTree} {stat : CString → Option UInt64}
  {rootfsDevname : CString}

/-- The root device is a partition. -/
theorem createRootdiskSymlinks_partition {r : UInt64} (hstat : stat rootfsDevname = some r)
    (hr : r ≠ 0) {i disk : RootdiskInfo} {a : Nat}
    (hroot : (scanForBlockDevices qsort tree).find? (fun i => i.dev = r) = some i)
    (hparent : i.parent = some a)
    (hdisk : (scanForBlockDevices qsort tree).find? (fun i => i.address = a) = some disk) :
    createRootdiskSymlinks qsort tree stat rootfsDevname =
      createDevSymlink (text "0") disk.name ::
        ((scanForBlockDevices qsort tree).filter fun i => i.parent = some a).map fun i =>
          partitionLink i.name i.partitionNumber := by
  unfold createRootdiskSymlinks
  simp only [hstat, Option.getD_some, if_neg hr, hroot, hparent, hdisk, Option.map_some,
    Option.toList_some, List.singleton_append]
  rfl

/-- There is no root device, or it is no partition. -/
theorem createRootdiskSymlinks_other
    (h : ∀ i ∈ scanForBlockDevices qsort tree, stat rootfsDevname = some i.dev → i.parent = none) :
    createRootdiskSymlinks qsort tree stat rootfsDevname = [] := by
  unfold createRootdiskSymlinks
  cases hstat : stat rootfsDevname with
  | none => rfl
  | some r =>
    rw [hstat] at h
    dsimp only [Option.getD_some]
    by_cases hr : r = 0
    · rw [if_pos hr]
    · rw [if_neg hr]
      cases hfound : (scanForBlockDevices qsort tree).find? (fun i => i.dev = r) with
      | none => rfl
      | some i =>
        have hdev : i.dev = r := by simpa using List.find?_some hfound
        have hparent := h i (List.mem_of_find?_eq_some hfound) (by rw [hdev])
        dsimp only
        rw [hparent]

variable (qsort) in
/-- The links to a disk and to its partitions in the order in which they are scanned. -/
theorem links_perm (h : tree.Sensible) {disk : RootDisk} (hdisk : disk ∈ tree.disks) :
    (createDevSymlink (text "0") disk.name ::
      ((scannedPartitions qsort tree disk.name).map fun p => partitionLink p.name p.number).reverse).Perm
      (tree.linksFor disk.name) := by
  have hzero : createDevSymlink (text "0") disk.name
      = ⟨text "/dev/" ++ disk.name.bytes, text "/dev/rootdisk0"⟩ :=
    createDevSymlink_eq (strlen_of_mem_disks h hdisk) (by decide)
  have heach : (tree.partitions disk.name).map (fun p => partitionLink p.name p.number) =
      (tree.partitions disk.name).map fun p =>
        ⟨text "/dev/" ++ p.name.bytes, text "/dev/rootdisk0p" ++ decimal p.number.toNat⟩ :=
    List.map_congr_left fun q hq =>
      partitionLink_eq (mem_partitions h hdisk hq).1 (h.numbers_lt disk hdisk q hq)
  rw [hzero, SysTree.linksFor, ← heach]
  exact ((List.reverse_perm _).trans ((scannedPartitions_perm disk.name).map _)).cons _

end

/-- When the root device is a partition of a disk, the links are those for that disk and its
partitions, each once; otherwise there are none. -/
theorem rootdisk_links (qsort : Qsort direntAlphasort) (tree : SysTree) (h : tree.Sensible)
    (stat : CString → Option UInt64) (rootfsDevname : CString) :
    (∀ disk ∈ tree.disks, ∀ p ∈ tree.partitions disk.name, stat rootfsDevname = some p.dev →
      (createRootdiskSymlinks qsort tree stat rootfsDevname).Perm (tree.linksFor disk.name) ∧
        (createRootdiskSymlinks qsort tree stat rootfsDevname).Nodup) ∧
    ((¬∃ disk ∈ tree.disks, ∃ p ∈ tree.partitions disk.name, stat rootfsDevname = some p.dev) →
      createRootdiskSymlinks qsort tree stat rootfsDevname = []) := by
  have hinfos : scanForBlockDevices qsort tree = infosOf (allGroups qsort tree) :=
    scanForBlockDevices_eq h
  constructor
  · intro disk hdisk p hp hstat
    obtain ⟨-, hdev⟩ := mem_partitions h hdisk hp
    have hp' : p ∈ scannedPartitions qsort tree disk.name := (scannedPartitions_perm _).mem_iff.mpr hp
    have hgroup : (disk, scannedPartitions qsort tree disk.name) ∈ allGroups qsort tree :=
      mem_allGroups.mpr ⟨disk, hdisk, rfl⟩
    obtain ⟨a, hfind, hfilter, hentries⟩ := exists_address hgroup
    obtain ⟨i, hi, hidev, hiparent⟩ := hentries p hp'
    rw [← hinfos] at hfind hfilter hi
    have hroot : (scanForBlockDevices qsort tree).find? (fun j => j.dev = p.dev) = some i := by
      rw [← hidev]
      exact find?_dev (nodup_devs h) hi
    rw [createRootdiskSymlinks_partition hstat hdev hroot hiparent hfind, hfilter]
    have hperm := links_perm qsort h hdisk
    exact ⟨hperm, hperm.nodup_iff.mpr (nodup_linksFor h hdisk)⟩
  · intro hnone
    apply createRootdiskSymlinks_other
    intro i hi hstat
    rw [hinfos] at hi
    rcases infosOf_cases hi with hparent | ⟨g, hg, p, hp, hpdev⟩
    · exact hparent
    · obtain ⟨disk, hdisk, rfl⟩ := mem_allGroups.mp hg
      refine absurd ⟨disk, hdisk, p, (scannedPartitions_perm _).mem_iff.mp hp, ?_⟩ hnone
      rw [hstat, hpdev]

/-- A disk with one partition and another directory. -/
def oneDiskTree : SysTree where
  entries path :=
    if path = text "/sys/block" then some [⟨.ofString "sda", 10⟩]
    else if path = text "/sys/block/sda" then some [⟨.ofString "queue", 4⟩, ⟨.ofString "sda1", 4⟩]
    else none
  dev path :=
    if path = text "/sys/block/sda/dev" then some (8, 0)
    else if path = text "/sys/block/sda/sda1/dev" then some (8, 1)
    else none
  partition path := if path = text "/sys/block/sda/sda1/partition" then some 1 else none

theorem oneDiskTree_sensible : oneDiskTree.Sensible where
  diskNames := by decide
  partitionNames := by decide
  devs := by decide
  numbers := by decide
  numbers_lt := by decide

/-- The `qsort` that sorts stably. -/
def sortDirents : Qsort direntAlphasort :=
  .stable direntAlphasort id (fun l => .refl l) (fun _ _ _ hab hbc => strcmp_trans hab hbc)
    fun a b => strcmp_total a.name b.name

theorem rootdisk_links_sda1 :
    (createRootdiskSymlinks sortDirents oneDiskTree (fun _ => some (makedev 8 1)) (.ofString "/dev/sda1")).Perm
      [⟨text "/dev/sda", text "/dev/rootdisk0"⟩, ⟨text "/dev/sda1", text "/dev/rootdisk0p1"⟩] := by
  have hdisk : (⟨.ofString "sda", makedev 8 0⟩ : RootDisk) ∈ oneDiskTree.disks := by decide
  have hpart : (⟨.ofString "sda1", makedev 8 1, 1⟩ : RootPartition) ∈
      oneDiskTree.partitions (.ofString "sda") := by decide
  exact ((rootdisk_links sortDirents oneDiskTree oneDiskTree_sensible _ _).1 _ hdisk _ hpart rfl).1

end NervesInitramfs
