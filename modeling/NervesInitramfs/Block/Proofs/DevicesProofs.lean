import NervesInitramfs.Block.Devices
import NervesInitramfs.Block.Proofs.ProbeProofs
import NervesInitramfs.CLib.Proofs.CStringProofs

/-!
# Proofs: the device list says what the disks say

The loops prepend, and the devices are gone through backwards, so the list comes out in order. A
device that has no partition table is taken for a disk when the reads leave the bytes of another one
in place.
-/

namespace NervesInitramfs

open CLib

/-! ## The lists that the loops prepend -/

/-- The partition for the entry with index `i` of a boot sector. -/
def mbrEntry (devname : CString) (mbr : Sector) (diskUuid : UInt32) (i : Nat) :
    Option BlockDeviceInfo :=
  if mbr.ptr (446 + 16 * i) 4 ≠ 0 then
    some ⟨.partition, partitionPath devname (i + 1),
      hexWord diskUuid ++ text "-" ++ hexByte (UInt8.ofNat (i + 1))⟩
  else none

theorem mbrPartitions_eq (devname : CString) (mbr : Sector) (diskUuid : UInt32) (n : Nat)
    (devices : List BlockDeviceInfo) :
    mbrPartitions devname mbr diskUuid n devices =
      (List.range n).filterMap (mbrEntry devname mbr diskUuid) ++ devices := by
  induction n generalizing devices with
  | zero => rfl
  | succ n ih =>
    rw [mbrPartitions, ih, List.range_succ, List.filterMap_append, List.append_assoc]
    by_cases hentry : mbr.ptr (446 + 16 * n) 4 ≠ 0
    · have hone : [n].filterMap (mbrEntry devname mbr diskUuid) = [_] :=
        List.filterMap_cons_some (if_pos hentry)
      rw [if_pos hentry, hone, List.append_assoc (List.filterMap _ _), List.append_assoc (hexWord _)]
      rfl
    · have hnone : [n].filterMap (mbrEntry devname mbr diskUuid) = [] :=
        List.filterMap_cons_none (if_neg hentry)
      rw [if_neg hentry, hnone, List.append_nil]

theorem gptPartitions_append (devname : CString) (table : Heap) (size n : Nat) (stop : Int)
    (devices : List BlockDeviceInfo) :
    gptPartitions devname table size n stop devices =
      gptPartitions devname table size n stop [] ++ devices := by
  have hstop : stop = stop - n * size + n * size := by ring
  rw [hstop, gptPartitions_eq, gptPartitions_eq, List.append_nil]

theorem probeMbrDevices_append (fd : Fd) (devname : CString) (devices : List BlockDeviceInfo)
    (mbr : Sector) : probeMbrDevices fd devname devices mbr =
      ((probeMbrDevices fd devname [] mbr).1, (probeMbrDevices fd devname [] mbr).2 ++ devices) := by
  unfold probeMbrDevices
  cases preadSector fd mbr 0 with
  | none => rfl
  | some mbr =>
    by_cases hmark : mbr 510 ≠ 0x55 ∨ mbr 511 ≠ 0xaa
    · simp only [if_pos hmark]
      rfl
    · by_cases htype : mbr 450 = 0xee
      · simp only [if_neg hmark, if_pos htype]
        rfl
      · simp only [if_neg hmark, if_neg htype]
        rw [mbrPartitions_eq, mbrPartitions_eq, List.append_assoc]
        rfl

theorem probeGptDevices_append (fd : Fd) (devname : CString) (devices : List BlockDeviceInfo)
    (block : Sector) (table : Heap) : probeGptDevices fd devname devices block table =
      ((probeGptDevices fd devname [] block table).1,
        (probeGptDevices fd devname [] block table).2 ++ devices) := by
  unfold probeGptDevices
  cases preadSector fd block 0 with
  | none => rfl
  | some first =>
    by_cases hmark : first 510 ≠ 0x55 ∨ first 511 ≠ 0xaa ∨ first 450 ≠ 0xee
    · simp only [if_pos hmark]
      rfl
    · simp only [if_neg hmark]
      cases preadSector fd first 512 with
      | none => rfl
      | some header =>
        by_cases hsig : header.signature ≠ gptSignature
        · simp only [if_pos hsig]
          rfl
        · by_cases hcount : fromLe32 (header.ptr 80) > 256
          · simp only [if_neg hsig, if_pos hcount]
            rfl
          · simp only [if_neg hsig, if_neg hcount]
            cases preadHeap fd table (fromLe32 (header.ptr 80) * fromLe32 (header.ptr 84)).toNat 1024 with
            | none => rfl
            | some table =>
              dsimp only
              rw [gptPartitions_append, gptPartitions_append _ _ _ _ _ [_], List.append_assoc]
              rfl

/-- What is listed for one device. -/
def listing (device : Option Fd) (name : CString) (old : Leftover) : List BlockDeviceInfo :=
  (probePartitions device name [] old.mbr old.block old.table).2

theorem probePartitions_append (device : Option Fd) (name : CString) (devices : List BlockDeviceInfo)
    (old : Leftover) : (probePartitions device name devices old.mbr old.block old.table).2 =
      listing device name old ++ devices := by
  unfold listing probePartitions
  cases device with
  | none => rfl
  | some fd =>
    dsimp only
    rw [probeMbrDevices_append]
    by_cases hfail : (probeMbrDevices fd name [] old.mbr).1 < 0
    · simp only [if_pos hfail]
      rw [probeGptDevices_append, probeGptDevices_append fd name (probeMbrDevices fd name [] old.mbr).2]
      exact (List.append_assoc _ _ _).symm
    · simp only [if_neg hfail]

theorem probeNames_eq (device : CString → Option Fd) (old : CString → Leftover)
    (names : List CString) (devices : List BlockDeviceInfo) :
    probeNames device old names devices =
      names.reverse.flatMap (fun name => if name.bytes.head? = some 46 then []
        else listing (device name) name (old name)) ++ devices := by
  induction names generalizing devices with
  | nil => rfl
  | cons name rest ih =>
    rw [List.reverse_cons, List.flatMap_append, List.append_assoc]
    by_cases hdot : name.bytes.head? = some 46
    · rw [probeNames, if_pos hdot, ih]
      simp [hdot]
    · rw [probeNames, if_neg hdot]
      dsimp only
      rw [ih, probePartitions_append]
      simp [hdot]

/-! ## What is listed for a disk with a partition table -/

/-- A name of at most 16 bytes is not cut off. -/
theorem diskPath_eq {name : CString} (h : name.bytes.length ≤ 16) : diskPath name = deviceFile name := by
  have hdev : (text "/dev/").length = 5 := rfl
  rw [diskPath, List.take_of_length_le h]
  apply List.take_of_length_le
  rw [List.length_append]
  omega

theorem pOrNp_eq (name : CString) : pOrNp name = if endsInDigit name then text "p" else [] := by
  unfold pOrNp endsInDigit
  cases name.bytes.getLast? with
  | none => rfl
  | some c => simp

theorem partitionPath_eq {name : CString} (h : name.bytes.length ≤ 16) {i : Nat} (hi : i < 1000) :
    partitionPath name i = partitionFile name i := by
  have hdev : (text "/dev/").length = 5 := rfl
  have hp : (if endsInDigit name then text "p" else []).length ≤ 1 := by
    cases endsInDigit name
    · exact Nat.zero_le 1
    · exact Nat.le_refl 1
  have hdecimal : (decimal i).length ≤ 3 := length_decimal_le (k := 2) hi
  rw [partitionPath, List.take_of_length_le h, pOrNp_eq]
  apply List.take_of_length_le
  rw [List.length_append, List.length_append, List.length_append]
  omega

theorem preadSector_delivers {fd : Fd} {offset : Nat} {block : Sector} (h : fd.Delivers offset block)
    (old : Sector) : preadSector fd old offset = some block := by
  obtain ⟨got, hread, hbytes⟩ := h
  rw [preadSector, hread]
  refine congrArg some (funext fun i => ?_)
  show (got[i.val]?).getD (old i) = block i
  rw [hbytes i]
  rfl

section

variable {fd : Fd} {name : CString} {header : Sector}

/-- The GPT is looked for when there is no MBR. -/
theorem listing_eq (fd : Fd) (name : CString) (old : Leftover) :
    listing (some fd) name old =
      if (probeMbrDevices fd name [] old.mbr).1 < 0 then
        (probeGptDevices fd name (probeMbrDevices fd name [] old.mbr).2 old.block old.table).2
      else (probeMbrDevices fd name [] old.mbr).2 := by
  unfold listing probePartitions
  by_cases hfail : (probeMbrDevices fd name [] old.mbr).1 < 0
  · simp only [if_pos hfail]
  · simp only [if_neg hfail]

theorem listing_mbr {mbr : Sector} (h : IsMbr fd mbr) (hname : name.bytes.length ≤ 16) (old : Leftover) :
    listing (some fd) name old = mbrDevices name mbr := by
  have hmark : ¬(mbr 510 ≠ 0x55 ∨ mbr 511 ≠ 0xaa) := by
    rintro (hne | hne)
    · exact hne h.signature.1
    · exact hne h.signature.2
  have hprobe : probeMbrDevices fd name [] old.mbr = (0, mbrPartitions name mbr (fromLe32 (mbr.ptr 440)) 4
      [⟨.disk, diskPath name, hexWord (fromLe32 (mbr.ptr 440))⟩]) := by
    unfold probeMbrDevices
    rw [preadSector_delivers h.read]
    simp only [if_neg hmark, if_neg h.type]
  rw [listing_eq, hprobe, if_neg (by simp), mbrPartitions_eq, diskPath_eq hname]
  unfold mbrDevices
  refine congrArg (· ++ _) (List.filterMap_congr fun i hi => ?_)
  have hpath : partitionPath name (i + 1) = partitionFile name (i + 1) :=
    partitionPath_eq hname (by have := List.mem_range.mp hi; omega)
  unfold mbrEntry
  rw [hpath]
  by_cases hempty : mbr.ptr (446 + 16 * i) 4 = 0
  · rw [if_pos hempty, if_neg (not_not.mpr hempty)]
  · rw [if_neg hempty, if_pos hempty]

/-- The bytes of an entry are those of the table. -/
theorem gptEntryBytes_getD (table : List UInt8) (i : Nat) {k : Nat} (hk : k < header.partitionSize) :
    (gptEntryBytes header table i).getD k 0 = table.getD (i * header.partitionSize + k) 0 := by
  rw [gptEntryBytes, List.getD_eq_getElem?_getD, List.getElem?_take_of_lt hk, List.getElem?_drop,
    List.getD_eq_getElem?_getD]

theorem entry_inside {table : List UInt8} (htable : HasTable fd header table) {i k : Nat}
    (hi : i < header.partitionCount) (hk : k < header.partitionSize) :
    i * header.partitionSize + k < table.length := by
  rw [htable.length]
  calc i * header.partitionSize + k < (i + 1) * header.partitionSize := by
        rw [Nat.add_mul, Nat.one_mul]
        omega
    _ ≤ header.partitionCount * header.partitionSize := Nat.mul_le_mul_right _ hi

/-- The table after it has been read. -/
theorem preadHeap_hasTable {table : List UInt8} (htable : HasTable fd header table) (old : Heap) :
    ∃ heap, preadHeap fd old (header.partitionCount * header.partitionSize) 1024 = some heap ∧
      ∀ j < table.length, heap j = table.getD j 0 := by
  refine ⟨_, congrArg (Option.map _) htable.read, fun j hj => ?_⟩
  have hread : readBytes table j = table[j]? := if_pos (Int.natCast_nonneg j)
  show (readBytes table j).getD (old j) = table.getD j 0
  rw [hread, List.getD_eq_getElem?_getD, List.getElem?_eq_getElem hj]
  rfl

/-- The first bytes of a list are all zero. -/
theorem take_all_zero {l : List UInt8} {n : Nat} (hn : n ≤ l.length) :
    (l.take n).all (· = 0) = true ↔ ∀ k < n, l.getD k 0 = 0 := by
  rw [List.all_eq_true]
  constructor
  · intro hall k hk
    have hlen : k < l.length := Nat.lt_of_lt_of_le hk hn
    have hmem : l[k] ∈ l.take n := List.mem_take_iff_getElem.mpr ⟨k, by omega, rfl⟩
    rw [List.getD_eq_getElem?_getD, List.getElem?_eq_getElem hlen]
    simpa using hall _ hmem
  · intro hall c hc
    obtain ⟨k, hk, rfl⟩ := List.mem_take_iff_getElem.mp hc
    have hzero := hall k (by omega)
    rw [List.getD_eq_getElem?_getD, List.getElem?_eq_getElem (by omega)] at hzero
    simpa using hzero

/-- What is listed for the entry with index `i`. -/
theorem gptEntry_eq {table : List UInt8} (htable : HasTable fd header table) {heap : Heap}
    (hheap : ∀ j < table.length, heap j = table.getD j 0) {i : Nat} (hi : i < header.partitionCount)
    (hname : name.bytes.length ≤ 16) :
    gptEntry name header.partitionSize 0 heap i =
      if ((gptEntryBytes header table i).take 16).all (· = 0) then none
      else some ⟨.partition, partitionFile name (i + 1),
        uuidToStringMe fun k => (gptEntryBytes header table i).getD (16 + k) 0⟩ := by
  have hsize := htable.size
  have hbyte : ∀ k < header.partitionSize,
      heap (0 + i * header.partitionSize + k) = (gptEntryBytes header table i).getD k 0 := by
    intro k hk
    have hpos : 0 + (i : Int) * header.partitionSize + k = (i * header.partitionSize + k : Nat) := by
      push_cast
      ring
    rw [hpos, hheap _ (entry_inside htable hi hk), gptEntryBytes_getD table i hk]
  have hlen : 16 ≤ (gptEntryBytes header table i).length := by
    have hinside := entry_inside htable hi (show 31 < header.partitionSize by omega)
    rw [gptEntryBytes, List.length_take, List.length_drop]
    omega
  have hzeros : isZeros (heap.ptr (0 + i * header.partitionSize)) 16 =
      ((gptEntryBytes header table i).take 16).all (· = 0) := by
    rw [Bool.eq_iff_iff, isZeros_iff, take_all_zero hlen]
    refine forall_congr' fun k => forall_congr' fun hk => ?_
    rw [← hbyte k (by omega)]
    exact Iff.rfl
  have huuid : uuidToStringMe (heap.ptr (0 + i * header.partitionSize + 16)) =
      uuidToStringMe fun k => (gptEntryBytes header table i).getD (16 + k) 0 := by
    apply uuidToStringMe_congr
    intro k hk
    have hpos : 0 + (i : Int) * header.partitionSize + 16 + k =
        0 + i * header.partitionSize + (16 + k : Nat) := by
      push_cast
      ring
    rw [Heap.ptr, hpos, hbyte (16 + k) (by omega)]
  have hcount := htable.count
  have hpath : partitionPath name (i + 1) = partitionFile name (i + 1) :=
    partitionPath_eq hname (by omega)
  rw [gptEntry, entryUuid, hzeros, huuid, hpath]
  cases ((gptEntryBytes header table i).take 16).all (· = 0) <;> rfl

/-- A table that fits has the size that the product says. -/
theorem tableSize_eq {table : List UInt8} (htable : HasTable fd header table) :
    (fromLe32 (header.ptr 80) * fromLe32 (header.ptr 84)).toNat =
      header.partitionCount * header.partitionSize := by
  rw [UInt32.toNat_mul]
  exact Nat.mod_eq_of_lt htable.fits

theorem listing_gpt {table : List UInt8} (h : IsGpt fd header) (htable : HasTable fd header table)
    (hname : name.bytes.length ≤ 16) (old : Leftover) :
    listing (some fd) name old = gptDevices name header table := by
  obtain ⟨mbr, hread, h510, h511, h450⟩ := h.protective
  have hmark : ¬(mbr 510 ≠ 0x55 ∨ mbr 511 ≠ 0xaa) := by
    rintro (hne | hne)
    · exact hne h510
    · exact hne h511
  have hmark' : ¬(mbr 510 ≠ 0x55 ∨ mbr 511 ≠ 0xaa ∨ mbr 450 ≠ 0xee) := by
    rintro (hne | hne | hne)
    · exact hne h510
    · exact hne h511
    · exact hne h450
  have hcount : ¬fromLe32 (header.ptr 80) > 256 := by
    intro hgt
    exact absurd htable.count (Nat.not_le.mpr (UInt32.lt_iff_toNat_lt.mp hgt))
  have hmbr : probeMbrDevices fd name [] old.mbr = (-1, []) := by
    unfold probeMbrDevices
    rw [preadSector_delivers hread]
    simp only [if_neg hmark, if_pos h450]
  obtain ⟨heap, hheap, hbytes⟩ := preadHeap_hasTable htable old.table
  have hgpt : (probeGptDevices fd name [] old.block old.table).2 =
      gptPartitions name heap header.partitionSize header.partitionCount
        (header.partitionCount * header.partitionSize : Nat)
        [⟨.disk, diskPath name, uuidToStringMe (header.ptr 56)⟩] := by
    unfold probeGptDevices
    simp only [preadSector_delivers hread, if_neg hmark', preadSector_delivers h.read,
      if_neg (not_not.mpr h.signature), if_neg hcount, tableSize_eq htable, hheap]
    simp only [Sector.partitionCount, Sector.partitionSize]
  have hstop : ((header.partitionCount * header.partitionSize : Nat) : Int) =
      0 + header.partitionCount * header.partitionSize := by
    push_cast
    ring
  have hentries : (List.range header.partitionCount).filterMap
      (gptEntry name header.partitionSize 0 heap) = _ :=
    List.filterMap_congr fun i hi => gptEntry_eq htable hbytes (List.mem_range.mp hi) hname
  rw [listing_eq, hmbr, if_pos (by simp), hgpt, hstop, gptPartitions_eq, hentries, diskPath_eq hname]
  rfl

end

/-! ## At most one disk for each name -/

/-- The entries for one device: none, or some partitions and then the disk. -/
def OneDisk (name : CString) (l : List BlockDeviceInfo) : Prop :=
  l = [] ∨ ∃ parts uuid, l = parts ++ [⟨.disk, deviceFile name, uuid⟩] ∧
    ∀ p ∈ parts, p.type = .partition

/-- The paths of the disks of a list. -/
def diskPaths (l : List BlockDeviceInfo) : List (List UInt8) :=
  (l.filter fun d => d.type = .disk).map BlockDeviceInfo.path

theorem diskPaths_append (l l' : List BlockDeviceInfo) :
    diskPaths (l ++ l') = diskPaths l ++ diskPaths l' := by
  rw [diskPaths, List.filter_append, List.map_append]
  rfl

theorem mem_diskPaths {l : List BlockDeviceInfo} {path : List UInt8} :
    path ∈ diskPaths l ↔ ∃ d ∈ l, d.type = .disk ∧ d.path = path := by
  simp [diskPaths, and_assoc]

theorem OneDisk.diskPaths_eq {name : CString} {l : List BlockDeviceInfo} (h : OneDisk name l) :
    diskPaths l = [] ∧ l = [] ∨ diskPaths l = [deviceFile name] := by
  rcases h with rfl | ⟨parts, uuid, rfl, hparts⟩
  · exact .inl ⟨rfl, rfl⟩
  · refine .inr ?_
    have hnone : parts.filter (fun d => d.type = .disk) = [] := by
      apply List.filter_eq_nil_iff.mpr
      intro p hp
      simp [hparts p hp]
    rw [diskPaths_append, diskPaths, hnone]
    rfl

theorem oneDisk_mbrPartitions {devname : CString} (hname : devname.bytes.length ≤ 16) (mbr : Sector)
    (diskUuid : UInt32) (uuid : List UInt8) :
    OneDisk devname (mbrPartitions devname mbr diskUuid 4 [⟨.disk, diskPath devname, uuid⟩]) := by
  rw [mbrPartitions_eq, diskPath_eq hname]
  refine .inr ⟨_, uuid, rfl, fun p hp => ?_⟩
  obtain ⟨i, -, hi⟩ := List.mem_filterMap.mp hp
  unfold mbrEntry at hi
  by_cases hentry : mbr.ptr (446 + 16 * i) 4 ≠ 0
  · rw [if_pos hentry] at hi
    obtain rfl := Option.some.inj hi
    rfl
  · rw [if_neg hentry] at hi
    exact nomatch hi

theorem oneDisk_gptPartitions {devname : CString} (hname : devname.bytes.length ≤ 16) (table : Heap)
    (size n : Nat) (stop : Int) (uuid : List UInt8) :
    OneDisk devname (gptPartitions devname table size n stop [⟨.disk, diskPath devname, uuid⟩]) := by
  have hstop : stop = stop - n * size + n * size := by ring
  rw [hstop, gptPartitions_eq, diskPath_eq hname]
  refine .inr ⟨_, uuid, rfl, fun p hp => ?_⟩
  obtain ⟨i, -, hi⟩ := List.mem_filterMap.mp hp
  obtain ⟨u, -, rfl⟩ := Option.map_eq_some_iff.mp hi
  rfl

theorem oneDisk_probeMbrDevices (fd : Fd) {devname : CString} (hname : devname.bytes.length ≤ 16)
    (mbr : Sector) : OneDisk devname (probeMbrDevices fd devname [] mbr).2 ∧
      ((probeMbrDevices fd devname [] mbr).1 < 0 → (probeMbrDevices fd devname [] mbr).2 = []) := by
  unfold probeMbrDevices
  cases preadSector fd mbr 0 with
  | none => exact ⟨.inl rfl, fun _ => rfl⟩
  | some mbr =>
    by_cases hmark : mbr 510 ≠ 0x55 ∨ mbr 511 ≠ 0xaa
    · simp only [if_pos hmark]
      exact ⟨.inl rfl, fun _ => trivial⟩
    · by_cases htype : mbr 450 = 0xee
      · simp only [if_neg hmark, if_pos htype]
        exact ⟨.inl rfl, fun _ => trivial⟩
      · simp only [if_neg hmark, if_neg htype]
        exact ⟨oneDisk_mbrPartitions hname mbr _ _, fun h => absurd h (by simp)⟩

theorem oneDisk_probeGptDevices {fd : Fd} {devname : CString} (hname : devname.bytes.length ≤ 16)
    (block : Sector) (table : Heap) : OneDisk devname (probeGptDevices fd devname [] block table).2 := by
  have hdisk : ∀ uuid, OneDisk devname [⟨.disk, diskPath devname, uuid⟩] := by
    intro uuid
    rw [diskPath_eq hname]
    exact .inr ⟨[], uuid, rfl, fun p hp => absurd hp List.not_mem_nil⟩
  unfold probeGptDevices
  cases preadSector fd block 0 with
  | none => exact .inl rfl
  | some first =>
    by_cases hmark : first 510 ≠ 0x55 ∨ first 511 ≠ 0xaa ∨ first 450 ≠ 0xee
    · simp only [if_pos hmark]
      exact .inl rfl
    · simp only [if_neg hmark]
      cases preadSector fd first 512 with
      | none => exact .inl rfl
      | some header =>
        by_cases hsig : header.signature ≠ gptSignature
        · simp only [if_pos hsig]
          exact .inl rfl
        · by_cases hcount : fromLe32 (header.ptr 80) > 256
          · simp only [if_neg hsig, if_pos hcount]
            exact hdisk _
          · simp only [if_neg hsig, if_neg hcount]
            cases preadHeap fd table (fromLe32 (header.ptr 80) * fromLe32 (header.ptr 84)).toNat 1024 with
            | none => exact hdisk _
            | some table =>
              dsimp only
              exact oneDisk_gptPartitions hname table _ _ _ _

theorem oneDisk_listing {device : Option Fd} {name : CString} (hname : name.bytes.length ≤ 16)
    (old : Leftover) : OneDisk name (listing device name old) := by
  cases device with
  | none => exact .inl rfl
  | some fd =>
    obtain ⟨hone, hnone⟩ := oneDisk_probeMbrDevices fd hname old.mbr
    rw [listing_eq]
    by_cases hfail : (probeMbrDevices fd name [] old.mbr).1 < 0
    · rw [if_pos hfail, hnone hfail]
      exact oneDisk_probeGptDevices hname old.block old.table
    · rw [if_neg hfail]
      exact hone

/-- What is to be listed has at most one disk too, and none when there is neither table. -/
theorem DiskSays.oneDisk {name : CString} {device : Option Fd} {l : List BlockDeviceInfo}
    (h : DiskSays name device l) : OneDisk name l := by
  cases h with
  | mbr h =>
    refine .inr ⟨_, _, rfl, fun p hp => ?_⟩
    obtain ⟨i, -, hi⟩ := List.mem_filterMap.mp hp
    split at hi
    · exact nomatch hi
    · obtain rfl := Option.some.inj hi
      rfl
  | gpt h htable =>
    refine .inr ⟨_, _, rfl, fun p hp => ?_⟩
    obtain ⟨i, -, hi⟩ := List.mem_filterMap.mp hp
    dsimp only at hi
    split at hi
    · exact nomatch hi
    · obtain rfl := Option.some.inj hi
      rfl
  | neither h => exact .inl rfl

theorem DiskSays.eq_nil_iff {name : CString} {device : Option Fd} {l : List BlockDeviceInfo}
    (h : DiskSays name device l) : l = [] ↔ Neither device := by
  cases h with
  | mbr h =>
    constructor
    · intro hnil
      exact absurd hnil (List.append_ne_nil_of_right_ne_nil _ (List.cons_ne_nil _ _))
    · intro hneither
      exact absurd h ((hneither _ rfl).1 _)
  | gpt h htable =>
    constructor
    · intro hnil
      exact absurd hnil (List.append_ne_nil_of_right_ne_nil _ (List.cons_ne_nil _ _))
    · intro hneither
      exact absurd h ((hneither _ rfl).2 _)
  | neither h => exact ⟨fun _ => h, fun _ => rfl⟩

/-! ## A device without a partition table -/

theorem preadSector_eq (fd : Fd) (block : Sector) (offset : Nat) :
    preadSector fd block offset = (fd.read 512 offset).map fun got => .overlay got block := rfl

theorem signature_eq_iff (block : Sector) :
    block.signature = gptSignature ↔
      ∀ i < 8, gptSignature[i]? = some (block (Fin.ofNat 512 i)) := by
  have hlen : gptSignature.length = 8 := rfl
  constructor
  · intro h i hi
    rw [← h, Sector.signature, List.getElem?_map, List.getElem?_range hi]
    show some (block (Fin.ofNat 512 (0 + i))) = _
    rw [Nat.zero_add]
  · intro h
    apply List.ext_getElem?
    intro i
    by_cases hi : i < 8
    · rw [h i hi, Sector.signature, List.getElem?_map, List.getElem?_range hi]
      show some (block (Fin.ofNat 512 (0 + i))) = _
      rw [Nat.zero_add]
    · rw [List.getElem?_eq_none (by simp [Sector.signature]; omega),
        List.getElem?_eq_none (by rw [hlen]; omega)]

section

variable {fd : Fd} {name : CString} {got : List UInt8}

theorem probeMbrDevices_excluded (hread : fd.read 512 0 = some got) (h : ExcludesMbr got)
    (mbr : Sector) : probeMbrDevices fd name [] mbr = (-1, []) := by
  unfold probeMbrDevices
  rw [preadSector_eq, hread, Option.map_some]
  dsimp only
  by_cases hmark : Sector.overlay got mbr 510 ≠ 0x55 ∨ Sector.overlay got mbr 511 ≠ 0xaa
  · rw [if_pos hmark]
  · rw [if_neg hmark]
    push Not at hmark
    rcases h with ⟨c, hc, hne⟩ | ⟨c, hc, hne⟩ | htype
    · exact absurd ((overlay_delivered (by decide) hc mbr).symm.trans hmark.1) hne
    · exact absurd ((overlay_delivered (by decide) hc mbr).symm.trans hmark.2) hne
    · have hee : Sector.overlay got mbr 450 = 0xee := overlay_delivered (by decide) htype mbr
      rw [if_pos hee]

theorem probeGptDevices_excluded (hread : fd.read 512 0 = some got)
    (h : ExcludesGpt got (fd.read 512 512)) (block : Sector) (table : Heap) :
    probeGptDevices fd name [] block table = (-1, []) := by
  unfold probeGptDevices
  rw [preadSector_eq, hread, Option.map_some]
  dsimp only
  by_cases hmark : Sector.overlay got block 510 ≠ 0x55 ∨ Sector.overlay got block 511 ≠ 0xaa ∨
      Sector.overlay got block 450 ≠ 0xee
  · rw [if_pos hmark]
  · rw [if_neg hmark]
    push Not at hmark
    obtain ⟨h510, h511, h450⟩ := hmark
    rcases h with ⟨c, hc, hne⟩ | ⟨c, hc, hne⟩ | ⟨c, hc, hne⟩ | hnext
    · exact absurd ((overlay_delivered (by decide) hc block).symm.trans h510) hne
    · exact absurd ((overlay_delivered (by decide) hc block).symm.trans h511) hne
    · exact absurd ((overlay_delivered (by decide) hc block).symm.trans h450) hne
    · rw [preadSector_eq]
      cases hread' : fd.read 512 512 with
      | none => rfl
      | some got' =>
        obtain ⟨i, hi, c, hc, hne⟩ := hnext got' hread'
        have hbyte : Sector.overlay got' (Sector.overlay got block) (Fin.ofNat 512 i) = c := by
          cases hcome : got'[i]? with
          | some d =>
            rw [overlay_delivered (by omega) hcome]
            rw [hcome] at hc
            exact Option.some.inj hc
          | none =>
            rw [overlay_kept (by omega) hcome]
            rw [hcome, Option.none_or] at hc
            exact overlay_delivered (by omega) hc block
        have hsig : (Sector.overlay got' (Sector.overlay got block)).signature ≠ gptSignature := by
          intro hsig
          have hat := (signature_eq_iff _).mp hsig i hi
          rw [hbyte] at hat
          exact hne hat
        rw [Option.map_some]
        dsimp only
        rw [if_pos hsig]

end

/-- A device that shows no partition table is not listed. -/
theorem listing_of_showsNoTable {device : Option Fd} {name : CString} (h : ShowsNoTable device)
    (old : Leftover) : listing device name old = [] := by
  cases device with
  | none => rfl
  | some fd =>
    rw [listing_eq]
    cases hread : fd.read 512 0 with
    | none =>
      have hmbr : probeMbrDevices fd name [] old.mbr = (-1, []) := by
        unfold probeMbrDevices
        rw [preadSector_eq, hread]
        rfl
      rw [hmbr, if_pos (by simp)]
      unfold probeGptDevices
      rw [preadSector_eq, hread]
      rfl
    | some got =>
      obtain ⟨hmbr, hgpt⟩ := h fd got rfl hread
      rw [probeMbrDevices_excluded hread hmbr, if_pos (by simp), probeGptDevices_excluded hread hgpt]

/-- The buffers after a disk with an MBR and one with a GPT have been read into them: both are
marked. -/
def markedHeader : Sector := fun i =>
  if i.val < 8 then gptSignature.getD i.val 0 else if i.val = 450 then 0xee else markedSector i

def markedBuffers : Leftover := ⟨markedSector, markedHeader, 0⟩

section

variable {fd : Fd} {name : CString} {got : List UInt8}

theorem listed_as_mbr (hread : fd.read 512 0 = some got) (h : ¬ExcludesMbr got) :
    listing (some fd) name markedBuffers ≠ [] := by
  unfold ExcludesMbr at h
  push Not at h
  obtain ⟨h510, h511, h450⟩ := h
  have hmark : ¬(Sector.overlay got markedSector 510 ≠ 0x55 ∨
      Sector.overlay got markedSector 511 ≠ 0xaa) := by
    push Not
    exact ⟨overlay_marked (by decide) rfl (by push Not; exact h510),
      overlay_marked (by decide) rfl (by push Not; exact h511)⟩
  have htype : Sector.overlay got markedSector 450 ≠ 0xee :=
    overlay_unmarked (by decide) (by decide) h450
  have hprobe : probeMbrDevices fd name [] markedSector =
      (0, mbrPartitions name (.overlay got markedSector)
        (fromLe32 ((Sector.overlay got markedSector).ptr 440)) 4
        [⟨.disk, diskPath name, hexWord (fromLe32 ((Sector.overlay got markedSector).ptr 440))⟩]) := by
    unfold probeMbrDevices
    rw [preadSector_eq, hread, Option.map_some]
    dsimp only
    rw [if_neg hmark, if_neg htype]
  rw [listing_eq, show markedBuffers.mbr = markedSector from rfl, hprobe, if_neg (by simp),
    mbrPartitions_eq]
  exact List.append_ne_nil_of_right_ne_nil _ (List.cons_ne_nil _ _)

theorem listed_as_gpt (hread : fd.read 512 0 = some got) (hmbr : ExcludesMbr got)
    (h : ¬ExcludesGpt got (fd.read 512 512)) : listing (some fd) name markedBuffers ≠ [] := by
  unfold ExcludesGpt at h
  push Not at h
  obtain ⟨h510, h511, h450, got', hread', hsig⟩ := h
  have hmark : ¬(Sector.overlay got markedHeader 510 ≠ 0x55 ∨
      Sector.overlay got markedHeader 511 ≠ 0xaa ∨ Sector.overlay got markedHeader 450 ≠ 0xee) := by
    push Not
    exact ⟨overlay_marked (by decide) rfl (by push Not; exact h510),
      overlay_marked (by decide) rfl (by push Not; exact h511),
      overlay_marked (by decide) rfl (by push Not; exact h450)⟩
  have hheader : (Sector.overlay got' (.overlay got markedHeader)).signature = gptSignature := by
    rw [signature_eq_iff]
    intro i hi
    cases hcome : got'[i]? with
    | some c =>
      rw [overlay_delivered (by omega) hcome]
      exact hsig i hi c (by rw [hcome]; rfl)
    | none =>
      rw [overlay_kept (by omega) hcome]
      cases hfirst : got[i]? with
      | some c =>
        rw [overlay_delivered (by omega) hfirst]
        exact hsig i hi c (by rw [hcome, Option.none_or, hfirst])
      | none =>
        rw [overlay_kept (by omega) hfirst, markedHeader,
          show (Fin.ofNat 512 i).val = i from Nat.mod_eq_of_lt (by omega), if_pos hi]
        have hlen : i < gptSignature.length := hi
        rw [List.getD_eq_getElem?_getD, List.getElem?_eq_getElem hlen]
        rfl
  rw [listing_eq, probeMbrDevices_excluded hread hmbr, if_pos (by simp)]
  unfold probeGptDevices
  rw [show markedBuffers.block = markedHeader from rfl, preadSector_eq, hread, Option.map_some]
  dsimp only
  rw [if_neg hmark, preadSector_eq, hread', Option.map_some]
  dsimp only
  rw [if_neg (not_not.mpr hheader)]
  split
  · exact List.cons_ne_nil _ _
  · cases preadHeap fd markedBuffers.table _ 1024 with
    | none => exact List.cons_ne_nil _ _
    | some table =>
      dsimp only
      rw [gptPartitions_append]
      exact List.append_ne_nil_of_right_ne_nil _ (List.cons_ne_nil _ _)

end

/-- A device that does show something is listed behind disks that leave their marks in the
buffers. -/
theorem listing_markedBuffers {device : Option Fd} {name : CString} (h : ¬ShowsNoTable device) :
    listing device name markedBuffers ≠ [] := by
  unfold ShowsNoTable at h
  push Not at h
  obtain ⟨fd, got, rfl, hread, himp⟩ := h
  by_cases hmbr : ExcludesMbr got
  · exact listed_as_gpt hread hmbr (himp hmbr)
  · exact listed_as_mbr hread hmbr

/-! ## The whole list -/

theorem ascending_perm (names : List CString) : (ascending names).Perm names :=
  List.mergeSort_perm _ _

/-- The names backwards are in ascending order. -/
theorem reverse_sort_eq (qsort : Qsort reverseAlphasort) (names : List CString) :
    (qsort.sort names).reverse = ascending names := by
  have hsorted : (ascending names).Pairwise fun a b => alphasort a b ≤ 0 := by
    have htrans : ∀ a b c : CString, decide (alphasort a b ≤ 0) = true →
        decide (alphasort b c ≤ 0) = true → decide (alphasort a c ≤ 0) = true := by
      intro a b c hab hbc
      exact decide_eq_true (strcmp_trans (of_decide_eq_true hab) (of_decide_eq_true hbc))
    have htotal : ∀ a b : CString,
        (decide (alphasort a b ≤ 0) || decide (alphasort b a ≤ 0)) = true := by
      intro a b
      rw [Bool.or_eq_true, decide_eq_true_eq, decide_eq_true_eq]
      exact strcmp_total a b
    exact (List.pairwise_mergeSort htrans htotal names).imp of_decide_eq_true
  have hreverse : (qsort.sort names).reverse.Pairwise fun a b => alphasort a b ≤ 0 :=
    List.pairwise_reverse.mpr (qsort.sorted names)
  have hperm : (qsort.sort names).reverse.Perm (ascending names) :=
    (List.reverse_perm _).trans ((qsort.perm names).trans (ascending_perm names).symm)
  exact hperm.eq_of_pairwise (fun a b _ _ hab hba => strcmp_antisymm hab hba) hreverse hsorted

/-- What the loop lists for one name. -/
def entriesFor (sys : SysBlock) (old : CString → Leftover) (name : CString) : List BlockDeviceInfo :=
  if name.bytes.head? = some 46 then [] else listing (sys.device name) name (old name)

theorem probeBlockDevices_eq (qsort : Qsort reverseAlphasort) (sys : SysBlock)
    (old : CString → Leftover) :
    (probeBlockDevices qsort sys old).2 = (ascending sys.names).flatMap (entriesFor sys old) := by
  show probeNames sys.device old (qsort.sort sys.names) [] = _
  rw [probeNames_eq, List.append_nil, reverse_sort_eq]
  rfl

theorem deviceFile_injective {a b : CString} (h : deviceFile a = deviceFile b) : a = b :=
  CString.ext (List.append_cancel_left h)

/-- The disks of lists with at most one disk for each name have different paths. -/
theorem diskPaths_nodup {f : CString → List BlockDeviceInfo} {names : List CString}
    (hnodup : names.Nodup) (hone : ∀ name ∈ names, OneDisk name (f name)) :
    (diskPaths (names.flatMap f)).Nodup := by
  have hsub : (diskPaths (names.flatMap f)).Sublist (names.map deviceFile) := by
    clear hnodup
    induction names with
    | nil => exact List.Sublist.refl _
    | cons name rest ih =>
      have hrest := ih fun other h => hone other (List.mem_cons_of_mem _ h)
      rw [List.flatMap_cons, diskPaths_append, List.map_cons]
      rcases (hone name List.mem_cons_self).diskPaths_eq with ⟨hnone, -⟩ | hone
      · rw [hnone]
        exact hrest.cons _
      · rw [hone]
        exact hrest.cons_cons _
  exact (hnodup.map fun _ _ h => deviceFile_injective h).sublist hsub

/-- A disk in such a list belongs to the name in its path. -/
theorem ne_nil_of_mem_flatMap {f : CString → List BlockDeviceInfo} {names : List CString}
    (hone : ∀ name ∈ names, OneDisk name (f name)) {name : CString}
    (h : deviceFile name ∈ diskPaths (names.flatMap f)) : f name ≠ [] := by
  obtain ⟨d, hd, htype, hpath⟩ := mem_diskPaths.mp h
  obtain ⟨other, hother, hmem⟩ := List.mem_flatMap.mp hd
  have hin : d.path ∈ diskPaths (f other) := mem_diskPaths.mpr ⟨d, hmem, htype, rfl⟩
  rcases (hone other hother).diskPaths_eq with ⟨hnone, -⟩ | hdisk
  · rw [hnone] at hin
    exact absurd hin List.not_mem_nil
  · rw [hdisk, hpath] at hin
    obtain rfl := deviceFile_injective (List.mem_singleton.mp hin)
    exact List.ne_nil_of_mem hmem

theorem mem_diskPaths_flatMap {f : CString → List BlockDeviceInfo} {names : List CString}
    {name : CString} (hmem : name ∈ names) (hone : OneDisk name (f name)) (hne : f name ≠ []) :
    deviceFile name ∈ diskPaths (names.flatMap f) := by
  have hin : deviceFile name ∈ diskPaths (f name) := by
    rcases hone.diskPaths_eq with ⟨-, hnil⟩ | hdisk
    · exact absurd hnil hne
    · rw [hdisk]
      exact List.mem_singleton.mpr rfl
  obtain ⟨d, hd, htype, hpath⟩ := mem_diskPaths.mp hin
  exact mem_diskPaths.mpr ⟨d, List.mem_flatMap.mpr ⟨name, hmem, hd⟩, htype, hpath⟩

/-- A device that shows something that is not there is listed as a disk when the buffers are
marked. -/
theorem deviceFile_mem_marked (qsort : Qsort reverseAlphasort) {sys : SysBlock} {name : CString}
    (hname : name ∈ sys.names) (hlen : name.bytes.length ≤ 16) (hdot : name.bytes.head? ≠ some 46)
    (hshows : ¬ShowsNoTable (sys.device name)) :
    deviceFile name ∈ diskPaths (probeBlockDevices qsort sys fun _ => markedBuffers).2 := by
  rw [probeBlockDevices_eq]
  have hlisted : entriesFor sys (fun _ => markedBuffers) name
      = listing (sys.device name) name markedBuffers := if_neg hdot
  apply mem_diskPaths_flatMap ((ascending_perm sys.names).mem_iff.mpr hname)
  · rw [hlisted]
    exact oneDisk_listing hlen markedBuffers
  · rw [hlisted]
    exact listing_markedBuffers hshows

/-- The list is what the disks say whatever the buffers held, and no disk is listed twice, exactly
when a device without a partition table shows that it has none or is passed over for its name, and
no other device is passed over. -/
theorem list_is_exact_iff (qsort : Qsort reverseAlphasort) (sys : SysBlock)
    (said : CString → List BlockDeviceInfo) (hnodup : sys.names.Nodup)
    (hnames : ∀ name ∈ sys.names, name.bytes ≠ [] ∧ name.bytes.length ≤ 16)
    (hsaid : ∀ name ∈ sys.names, DiskSays name (sys.device name) (said name)) :
    (∀ old, (probeBlockDevices qsort sys old).2 = (ascending sys.names).flatMap said ∧
        (diskPaths (probeBlockDevices qsort sys old).2).Nodup) ↔
      ∀ name ∈ sys.names,
        (Neither (sys.device name) → name.bytes.head? = some 46 ∨ ShowsNoTable (sys.device name)) ∧
        (¬Neither (sys.device name) → name.bytes.head? ≠ some 46) := by
  have hascending : ∀ {name}, name ∈ ascending sys.names ↔ name ∈ sys.names :=
    (ascending_perm sys.names).mem_iff
  have hsaidOne : ∀ name ∈ ascending sys.names, OneDisk name (said name) :=
    fun name h => (hsaid name (hascending.mp h)).oneDisk
  have hlistedOne : ∀ old : CString → Leftover, ∀ name ∈ ascending sys.names,
      OneDisk name (entriesFor sys old name) := by
    intro old name h
    unfold entriesFor
    split
    · exact .inl rfl
    · exact oneDisk_listing (hnames name (hascending.mp h)).2 (old name)
  constructor
  · intro hall name hname
    have hmem := hascending.mpr hname
    constructor
    · intro hneither
      by_contra hcon
      push Not at hcon
      obtain ⟨hdot, hshows⟩ := hcon
      have hin := deviceFile_mem_marked qsort hname (hnames name hname).2 hdot hshows
      rw [(hall _).1] at hin
      exact ne_nil_of_mem_flatMap hsaidOne hin ((hsaid name hname).eq_nil_iff.mpr hneither)
    · intro hdisk hdot
      have hne : said name ≠ [] := fun hnil => hdisk ((hsaid name hname).eq_nil_iff.mp hnil)
      have hin := mem_diskPaths_flatMap hmem (hsaidOne name hmem) hne
      rw [← (hall fun _ => markedBuffers).1, probeBlockDevices_eq] at hin
      exact ne_nil_of_mem_flatMap (hlistedOne _) hin (if_pos hdot)
  · intro hcond old
    have hlist : (probeBlockDevices qsort sys old).2 = (ascending sys.names).flatMap said := by
      rw [probeBlockDevices_eq]
      refine List.flatMap_congr fun name hmem => ?_
      have hname := hascending.mp hmem
      obtain ⟨hnone, hdisk⟩ := hcond name hname
      have hlen := (hnames name hname).2
      unfold entriesFor
      generalize hdevice : sys.device name = device at hnone hdisk
      have hsay := hsaid name hname
      generalize said name = l at hsay
      rw [hdevice] at hsay
      by_cases hneither : Neither device
      · rw [hsay.eq_nil_iff.mpr hneither]
        rcases hnone hneither with hdot | hshows
        · rw [if_pos hdot]
        · rw [listing_of_showsNoTable hshows, ite_self]
      · rw [if_neg (hdisk hneither)]
        cases hsay with
        | mbr h => exact listing_mbr h hlen _
        | gpt h htable => exact listing_gpt h htable hlen _
        | neither h => exact absurd h hneither
    refine ⟨hlist, ?_⟩
    rw [hlist]
    exact diskPaths_nodup ((ascending_perm sys.names).nodup_iff.mpr hnodup) hsaidOne

/-- A disk with an MBR and no partitions. -/
def markedDisk : Fd := .ofContent (List.ofFn markedSector)

theorem isMbr_markedDisk : IsMbr markedDisk markedSector where
  read := by
    refine ⟨((List.ofFn markedSector).drop 0).take 512, rfl, fun i => ?_⟩
    rw [List.drop_zero, List.getElem?_take_of_lt i.isLt, List.getElem?_ofFn, dif_pos i.isLt]
  signature := ⟨rfl, rfl⟩
  type := by decide

def sdaName : CString := .ofString "sda"

def loopName : CString := .ofString "loop0"

/-- The `qsort` that sorts stably. -/
def sortNames : Qsort reverseAlphasort :=
  .stable reverseAlphasort id (fun l => .refl l) (fun _ _ _ hab hbc => strcmp_trans hbc hab)
    fun a b => strcmp_total b a

/-- A disk with an MBR, and another device. -/
def diskAndLoop (loop : Option Fd) : SysBlock :=
  ⟨[sdaName, loopName], fun name => if name = sdaName then some markedDisk else loop⟩

/-- What the disk says, and nothing for the other device. -/
def saidByDisk (name : CString) : List BlockDeviceInfo :=
  if name = sdaName then mbrDevices sdaName markedSector else []

theorem forall_diskAndLoop {loop : Option Fd} {P : CString → Prop} (hsda : P sdaName)
    (hloop : P loopName) : ∀ name ∈ (diskAndLoop loop).names, P name := by
  intro name hname
  rcases List.mem_cons.mp hname with rfl | hname
  · exact hsda
  · obtain rfl := List.mem_singleton.mp hname
    exact hloop

theorem said_diskAndLoop {loop : Option Fd} (h : Neither loop) :
    ∀ name ∈ (diskAndLoop loop).names, DiskSays name ((diskAndLoop loop).device name) (saidByDisk name) :=
  forall_diskAndLoop (.mbr isMbr_markedDisk) (.neither h)

theorem list_is_exact_two :
    (probeBlockDevices sortNames (diskAndLoop none) fun _ => markedBuffers).2
      = (ascending [sdaName, loopName]).flatMap saidByDisk ∧
    (diskPaths (probeBlockDevices sortNames (diskAndLoop none) fun _ => markedBuffers).2).Nodup := by
  have hnone : Neither none := fun fd h => nomatch h
  refine (list_is_exact_iff sortNames (diskAndLoop none) saidByDisk (by decide)
    (forall_diskAndLoop (by decide) (by decide)) (said_diskAndLoop hnone)).mpr ?_ _
  apply forall_diskAndLoop
  · exact ⟨fun h => absurd isMbr_markedDisk ((h _ rfl).1 _), fun _ => by decide⟩
  · exact ⟨fun _ => .inr (fun fd got h => nomatch h), fun h => absurd hnone h⟩

/-- An empty device is listed as the disk whose first sector is still in the buffer. -/
theorem stale_disk_listed : ¬ ∀ (qsort : Qsort reverseAlphasort) (sys : SysBlock)
    (said : CString → List BlockDeviceInfo), sys.names.Nodup →
    (∀ name ∈ sys.names, name.bytes ≠ [] ∧ name.bytes.length ≤ 16) →
    (∀ name ∈ sys.names, DiskSays name (sys.device name) (said name)) →
    ∀ old, (probeBlockDevices qsort sys old).2 = (ascending sys.names).flatMap said ∧
      (diskPaths (probeBlockDevices qsort sys old).2).Nodup := by
  intro hall
  have hempty : Neither (some (.ofContent [])) := by
    rintro fd ⟨⟩
    refine ⟨fun mbr h => ?_, fun header h => ?_⟩
    · obtain ⟨got, hgot, hbytes⟩ := h.read
      obtain rfl := Option.some.inj hgot
      exact nomatch hbytes 0
    · obtain ⟨got, hgot, hbytes⟩ := h.read
      obtain rfl := Option.some.inj hgot
      exact nomatch hbytes 0
  have hshows : ¬ShowsNoTable (some (.ofContent [])) := by
    intro h
    obtain ⟨⟨c, hc, -⟩ | ⟨c, hc, -⟩ | hc, -⟩ := h _ _ rfl rfl
    · exact nomatch hc
    · exact nomatch hc
    · exact nomatch hc
  have hsaid := said_diskAndLoop hempty
  have hlist := (hall sortNames (diskAndLoop (some (.ofContent []))) saidByDisk (by decide)
    (forall_diskAndLoop (by decide) (by decide)) hsaid fun _ => markedBuffers).1
  have hmem : loopName ∈ (diskAndLoop (some (.ofContent []))).names := by decide
  have hin := deviceFile_mem_marked sortNames hmem (by decide) (by decide) hshows
  rw [hlist] at hin
  refine ne_nil_of_mem_flatMap (fun name hname => ?_) hin rfl
  exact (hsaid name ((ascending_perm _).mem_iff.mp hname)).oneDisk

end NervesInitramfs
