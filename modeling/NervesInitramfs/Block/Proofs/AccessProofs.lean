import NervesInitramfs.Block.Access
import NervesInitramfs.Block.Proofs.ProbeProofs

/-!
# Proofs: looks inside the partition table

The loop over the GPT entries stays in the table when an entry holds both of its GUIDs and the size
of the table does not wrap. A header with smaller entries, or with a larger table, makes it leave
the table.
-/

namespace NervesInitramfs

open CLib

section

variable {table : Heap} {size : Nat} {p : Int}

/-! ## The loops -/

theorem at_inside (h0 : 0 ≤ p) (hp : p < size) : table.at size p = some (table p) := if_pos ⟨h0, hp⟩

theorem at_eq {c : UInt8} (h : table.at size p = some c) : 0 ≤ p ∧ p < size ∧ c = table p := by
  unfold Heap.at at h
  split_ifs at h with hin
  exact ⟨hin.1, hin.2, (Option.some.inj h).symm⟩

theorem isZeros_succ (buffer : BytePtr) (len : Nat) :
    isZeros buffer (len + 1) = (decide (buffer 0 = 0) && isZeros (fun i => buffer (i + 1)) len) := by
  rw [isZeros, List.range_succ_eq_map, List.all_cons, List.all_map]
  rfl

theorem ptr_succ (table : Heap) (p : Int) : (fun i => table.ptr p (i + 1)) = table.ptr (p + 1) := by
  funext i
  show table (p + ((i + 1 : Nat) : Int)) = table (p + 1 + i)
  congr 1
  push_cast
  ring

theorem isZerosAt_inside {len : Nat} (h0 : 0 ≤ p) (hp : p + len ≤ size) :
    isZerosAt table size p len = some (isZeros (table.ptr p) len) := by
  induction len generalizing p with
  | zero => rfl
  | succ len ih =>
    have hrest := ih (p := p + 1) (by omega) (by omega)
    have hhead : table.ptr p 0 = table p := congrArg table (Int.add_zero p)
    rw [isZerosAt, at_inside h0 (by omega), isZeros_succ, ptr_succ, hhead]
    simp only [Option.bind_eq_bind, Option.bind_some]
    by_cases hc : table p = 0
    · rw [if_neg (not_not.mpr hc), hrest, decide_eq_true hc, Bool.true_and]
    · rw [if_pos hc, decide_eq_false hc, Bool.false_and]
      rfl

theorem bytesAt_inside {len : Nat} (h0 : 0 ≤ p) (hp : p + len ≤ size) :
    bytesAt table size p len = some ((List.range len).map (table.ptr p)) := by
  induction len generalizing p with
  | zero => rfl
  | succ len ih =>
    have hrest := ih (p := p + 1) (by omega) (by omega)
    have hhead : table.ptr p 0 = table p := congrArg table (Int.add_zero p)
    rw [bytesAt, at_inside h0 (by omega), hrest, List.range_succ_eq_map, List.map_cons, List.map_map,
      hhead, ← ptr_succ]
    rfl

/-- Bytes that can all be read lie inside. -/
theorem inside_of_bytesAt {len : Nat} {bytes : List UInt8}
    (h : bytesAt table size p (len + 1) = some bytes) : p + len < size := by
  induction len generalizing p bytes with
  | zero =>
    rw [bytesAt, Option.bind_eq_bind, Option.bind_eq_some_iff] at h
    obtain ⟨c, hc, -⟩ := h
    have hin := (at_eq hc).2.1
    omega
  | succ len ih =>
    rw [bytesAt, Option.bind_eq_bind, Option.bind_eq_some_iff] at h
    obtain ⟨c, -, h⟩ := h
    obtain ⟨rest, hrest, -⟩ := Option.bind_eq_some_iff.mp h
    have hin := ih hrest
    push_cast
    omega

theorem uuidToStringMeAt_inside (h0 : 0 ≤ p) (hp : p + 16 ≤ size) :
    uuidToStringMeAt table size p = some (uuidToStringMe (table.ptr p)) := by
  rw [uuidToStringMeAt, bytesAt_inside h0 hp]
  refine congrArg some (uuidToStringMe_congr fun i hi => ?_)
  simp [hi]

/-- Entries that hold both of their GUIDs are looked at from the inside only. -/
theorem gptPartitionsAt_inside {devname : CString} {n partitionSize : Nat} (h32 : 32 ≤ partitionSize)
    (hn : n * partitionSize ≤ size) (devices : List BlockDeviceInfo) :
    gptPartitionsAt devname table size partitionSize n ((n * partitionSize : Nat) : Int) devices
      = some (gptPartitions devname table partitionSize n ((n * partitionSize : Nat) : Int) devices) := by
  induction n generalizing devices with
  | zero => rfl
  | succ n ih =>
    rw [Nat.succ_mul] at hn
    have hstart : (((n + 1) * partitionSize : Nat) : Int) - partitionSize
        = ((n * partitionSize : Nat) : Int) := by
      rw [Nat.succ_mul]
      omega
    have hzeros : isZerosAt table size ((n * partitionSize : Nat) : Int) 16
        = some (isZeros (table.ptr ((n * partitionSize : Nat) : Int)) 16) :=
      isZerosAt_inside (by omega) (by omega)
    have huuid : uuidToStringMeAt table size (((n * partitionSize : Nat) : Int) + 16)
        = some (uuidToStringMe (table.ptr (((n * partitionSize : Nat) : Int) + 16))) :=
      uuidToStringMeAt_inside (by omega) (by omega)
    rw [gptPartitionsAt, gptPartitions]
    simp only [hstart, hzeros, huuid, Option.bind_eq_bind, Option.bind_some]
    split_ifs
    · exact ih (by omega) _
    · exact ih (by omega) _

/-- The last entry of a table in use, when its size is smaller than that. -/
theorem gptPartitionsAt_outside {devname : CString} {n partitionSize : Nat} (h32 : partitionSize < 32)
    (hsize : size = (n + 1) * partitionSize) (htable : ∀ p, table p ≠ 0)
    (devices : List BlockDeviceInfo) :
    gptPartitionsAt devname table size partitionSize (n + 1) (size : Int) devices = none := by
  have hstart : (size : Int) - partitionSize = ((n * partitionSize : Nat) : Int) := by
    rw [hsize, Nat.succ_mul]
    omega
  rw [gptPartitionsAt, hstart]
  rw [Nat.succ_mul] at hsize
  by_cases hin : ((n * partitionSize : Nat) : Int) < size
  · have hzeros : isZerosAt table size ((n * partitionSize : Nat) : Int) 16 = some false := by
      rw [isZerosAt, at_inside (by omega) hin]
      exact if_pos (htable _)
    have huuid : uuidToStringMeAt table size (((n * partitionSize : Nat) : Int) + 16) = none := by
      cases hbytes : bytesAt table size (((n * partitionSize : Nat) : Int) + 16) 16 with
      | none => rw [uuidToStringMeAt, hbytes]; rfl
      | some bytes =>
        have hend := inside_of_bytesAt hbytes
        omega
    simp only [hzeros, huuid, Option.bind_eq_bind, Option.bind_some, Option.bind_none]
    rfl
  · have hout : table.at size ((n * partitionSize : Nat) : Int) = none :=
      if_neg fun h => hin h.2
    have hzeros : isZerosAt table size ((n * partitionSize : Nat) : Int) 16 = none := by
      rw [isZerosAt, hout]
      rfl
    simp only [hzeros, Option.bind_eq_bind, Option.bind_none]

end

/-! ## `probe_gpt_devices` -/

/-- The first two sectors of a disk that `probe_gpt_devices` does not reject. -/
structure GptAccepted (mbr header : Sector) : Prop where
  protective : mbr 510 = 0x55 ∧ mbr 511 = 0xaa ∧ mbr 450 = 0xee
  signature : header.signature = gptSignature
  count : fromLe32 (header.ptr 80) ≤ 256

section

variable {mbr header block : Sector} {fd : Fd}

theorem GptAccepted.not_rejected (h : GptAccepted mbr header) :
    ¬ (mbr 510 ≠ 0x55 ∨ mbr 511 ≠ 0xaa ∨ mbr 450 ≠ 0xee) ∧ ¬ header.signature ≠ gptSignature ∧
      ¬ fromLe32 (header.ptr 80) > 256 := by
  obtain ⟨⟨h510, h511, h450⟩, hsignature, hcount⟩ := h
  exact ⟨by simp [h510, h511, h450], not_not.mpr hsignature, UInt32.not_lt.mpr hcount⟩

/-- The loop is all there is to the difference. -/
theorem GptAccepted.probe_inside (h : GptAccepted mbr header)
    (h0 : preadSector fd block 0 = some mbr) (h1 : preadSector fd mbr 512 = some header)
    {devname : CString} (devices : List BlockDeviceInfo) (table : Heap)
    (hloop : ∀ table devices, gptPartitionsAt devname table
        (fromLe32 (header.ptr 80) * fromLe32 (header.ptr 84)).toNat
        (fromLe32 (header.ptr 84)).toNat (fromLe32 (header.ptr 80)).toNat
        (fromLe32 (header.ptr 80) * fromLe32 (header.ptr 84)).toNat devices
      = some (gptPartitions devname table (fromLe32 (header.ptr 84)).toNat
        (fromLe32 (header.ptr 80)).toNat
        (fromLe32 (header.ptr 80) * fromLe32 (header.ptr 84)).toNat devices)) :
    probeGptDevicesAt fd devname devices block table
      = some (probeGptDevices fd devname devices block table) := by
  obtain ⟨hmbr, hsignature, hcount⟩ := h.not_rejected
  simp only [probeGptDevicesAt, probeGptDevices, h0, h1, if_neg hmbr, if_neg hsignature,
    if_neg hcount]
  cases preadHeap fd table (fromLe32 (header.ptr 80) * fromLe32 (header.ptr 84)).toNat 1024 with
  | none => rfl
  | some table' =>
    simp only [hloop]
    rfl

theorem GptAccepted.probe_outside (h : GptAccepted mbr header)
    (h0 : preadSector fd block 0 = some mbr) (h1 : preadSector fd mbr 512 = some header)
    {devname : CString} (devices : List BlockDeviceInfo) {table table' : Heap}
    (hread : preadHeap fd table (fromLe32 (header.ptr 80) * fromLe32 (header.ptr 84)).toNat 1024
      = some table')
    (hloop : ∀ devices, gptPartitionsAt devname table'
        (fromLe32 (header.ptr 80) * fromLe32 (header.ptr 84)).toNat
        (fromLe32 (header.ptr 84)).toNat (fromLe32 (header.ptr 80)).toNat
        (fromLe32 (header.ptr 80) * fromLe32 (header.ptr 84)).toNat devices = none) :
    probeGptDevicesAt fd devname devices block table = none := by
  obtain ⟨hmbr, hsignature, hcount⟩ := h.not_rejected
  simp only [probeGptDevicesAt, h0, h1, if_neg hmbr, if_neg hsignature, if_neg hcount, hread, hloop]
  rfl

theorem toNat_mul_of_lt {a b : UInt32} (h : a.toNat * b.toNat < 2 ^ 32) :
    (a * b).toNat = a.toNat * b.toNat := by
  rw [UInt32.toNat_mul, Nat.mod_eq_of_lt h]

/-- A disk that the two sectors are read from, with nothing behind them. -/
def gptDisk (mbr header : Sector) : Fd := .ofContent (List.ofFn mbr ++ List.ofFn header)

theorem getElem?_ofFn_sector (sector : Sector) (i : Fin 512) :
    (List.ofFn sector)[i.val]? = some (sector i) := by
  rw [List.getElem?_ofFn, dif_pos i.isLt]

theorem preadSector_gptDisk_mbr (block : Sector) :
    preadSector (gptDisk mbr header) block 0 = some mbr := by
  refine congrArg some (funext fun i => overlay_apply ?_)
  have hin : i.val < (List.ofFn mbr).length := i.isLt.trans_eq List.length_ofFn.symm
  rw [List.drop_zero, List.getElem?_take, if_pos i.isLt, List.getElem?_append_left hin,
    getElem?_ofFn_sector]

theorem preadSector_gptDisk_header (block : Sector) :
    preadSector (gptDisk mbr header) block 512 = some header := by
  have hdrop : (List.ofFn mbr ++ List.ofFn header).drop 512 = List.ofFn header :=
    List.drop_left' List.length_ofFn
  refine congrArg some (funext fun i => overlay_apply ?_)
  rw [hdrop, List.getElem?_take, if_pos i.isLt, getElem?_ofFn_sector]

/-- A header with entries that are too small has tables that make the loop leave them. -/
theorem GptAccepted.outside (h : GptAccepted mbr header) (hcount : fromLe32 (header.ptr 80) ≠ 0)
    (hsize : (fromLe32 (header.ptr 84)).toNat < 32) (devname : CString) :
    probeGptDevicesAt (gptDisk mbr header) devname [] mbr (fun _ => 1) = none := by
  have hread : preadHeap (gptDisk mbr header) (fun _ => 1)
      (fromLe32 (header.ptr 80) * fromLe32 (header.ptr 84)).toNat 1024 = some fun _ => 1 := by
    have hnil : (List.ofFn mbr ++ List.ofFn header).drop 1024 = [] := by
      refine List.drop_eq_nil_of_le (Nat.le_of_eq ?_)
      rw [List.length_append, List.length_ofFn, List.length_ofFn]
    refine congrArg some (funext fun j => ?_)
    rw [hnil, List.take_nil]
    simp [readBytes]
  refine h.probe_outside (preadSector_gptDisk_mbr mbr) (preadSector_gptDisk_header mbr) [] hread
    fun devices => ?_
  have hle : (fromLe32 (header.ptr 80)).toNat ≤ 256 := UInt32.le_iff_toNat_le.mp h.count
  have hlt : (fromLe32 (header.ptr 80)).toNat * (fromLe32 (header.ptr 84)).toNat < 2 ^ 32 := by
    have hmul := Nat.mul_le_mul hle hsize.le
    omega
  obtain ⟨n, hn⟩ : ∃ n, (fromLe32 (header.ptr 80)).toNat = n + 1 := by
    refine Nat.exists_eq_succ_of_ne_zero fun hzero => hcount ?_
    exact UInt32.toNat_inj.mp hzero
  rw [toNat_mul_of_lt hlt, hn]
  exact gptPartitionsAt_outside hsize rfl (fun _ => by decide) devices

/-- Parsing a GPT stays inside the table, whatever the table holds, exactly when there are no
entries, or they hold both GUIDs and do not make the size of the table wrap. -/
theorem gpt_inside_iff (h : GptAccepted mbr header) (devname : CString) :
    ((fromLe32 (header.ptr 80)).toNat * (fromLe32 (header.ptr 84)).toNat < 2 ^ 32 ∧
      ∀ (fd : Fd) (block : Sector) (table : Heap) (devices : List BlockDeviceInfo),
        preadSector fd block 0 = some mbr → preadSector fd mbr 512 = some header →
        probeGptDevicesAt fd devname devices block table
          = some (probeGptDevices fd devname devices block table)) ↔
    fromLe32 (header.ptr 80) = 0 ∨ 32 ≤ (fromLe32 (header.ptr 84)).toNat ∧
      (fromLe32 (header.ptr 80)).toNat * (fromLe32 (header.ptr 84)).toNat < 2 ^ 32 := by
  constructor
  · rintro ⟨hlt, hinside⟩
    by_cases hcount : fromLe32 (header.ptr 80) = 0
    · exact Or.inl hcount
    · refine Or.inr ⟨?_, hlt⟩
      by_contra hsize
      have hnone := h.outside hcount (Nat.lt_of_not_le hsize) devname
      rw [hinside _ _ _ _ (preadSector_gptDisk_mbr mbr) (preadSector_gptDisk_header mbr)] at hnone
      cases hnone
  · rintro (hcount | ⟨h32, hlt⟩)
    · rw [hcount]
      refine ⟨by simp, fun fd block table devices h0 h1 => ?_⟩
      refine h.probe_inside h0 h1 devices table fun table devices => ?_
      rw [hcount]
      rfl
    · refine ⟨hlt, fun fd block table devices h0 h1 => ?_⟩
      refine h.probe_inside h0 h1 devices table fun table devices => ?_
      rw [toNat_mul_of_lt hlt]
      exact gptPartitionsAt_inside h32 le_rfl devices

end

/-- A protective MBR. -/
def protectiveMbr : Sector := fun i =>
  if i.val = 510 then 0x55 else if i.val = 511 then 0xaa else if i.val = 450 then 0xee else 0

/-- A GPT header that announces so many entries, of so many bytes each. -/
def gptHeader (count size : UInt8) : Sector := fun i =>
  if i.val < 8 then gptSignature.getD i.val 0
  else if i.val = 80 then count else if i.val = 84 then size else 0

theorem gptHeader_usual : GptAccepted protectiveMbr (gptHeader 4 128) :=
  ⟨by decide, by decide, by decide⟩

theorem gptHeader_empty : GptAccepted protectiveMbr (gptHeader 1 0) :=
  ⟨by decide, by decide, by decide⟩

theorem gpt_inside_usual :
    (fromLe32 ((gptHeader 4 128).ptr 80)).toNat * (fromLe32 ((gptHeader 4 128).ptr 84)).toNat < 2 ^ 32 ∧
      ∀ (fd : Fd) (block : Sector) (table : Heap) (devices : List BlockDeviceInfo),
        preadSector fd block 0 = some protectiveMbr →
        preadSector fd protectiveMbr 512 = some (gptHeader 4 128) →
        probeGptDevicesAt fd (.ofString "sda") devices block table
          = some (probeGptDevices fd (.ofString "sda") devices block table) :=
  (gpt_inside_iff gptHeader_usual (.ofString "sda")).mpr (by decide)

/-- An entry of no bytes is looked at outside of the table. -/
theorem gpt_leaves_table :
    ¬ ∀ (mbr header : Sector) (devname : CString), GptAccepted mbr header →
      (fromLe32 (header.ptr 80)).toNat * (fromLe32 (header.ptr 84)).toNat < 2 ^ 32 ∧
      ∀ (fd : Fd) (block : Sector) (table : Heap) (devices : List BlockDeviceInfo),
        preadSector fd block 0 = some mbr → preadSector fd mbr 512 = some header →
        probeGptDevicesAt fd devname devices block table
          = some (probeGptDevices fd devname devices block table) := by
  intro hall
  have h := gptHeader_empty
  have hnone := h.outside (by decide) (by decide) (.ofString "sda")
  rw [(hall _ _ _ h).2 _ _ _ _ (preadSector_gptDisk_mbr _) (preadSector_gptDisk_header _)] at hnone
  cases hnone

end NervesInitramfs
