import NervesInitramfs.Block.Resolve
import NervesInitramfs.Block.Proofs.DevicesProofs

/-!
# Proofs: which device a specification names

The UUIDs in a device list are texts of lower-case digits, so comparing them up to the case of
letters keeps apart whatever is different.
-/

namespace NervesInitramfs

open CLib

/-! ## Texts of UUIDs -/

/-- No byte of a text changes when letters are made lower-case, and none is NUL. -/
def HexText (l : List UInt8) : Prop := ∀ c ∈ l, tolower c = c ∧ c ≠ 0

theorem HexText.append {l l' : List UInt8} (h : HexText l) (h' : HexText l') : HexText (l ++ l') := by
  intro c hc
  rcases List.mem_append.mp hc with hc | hc
  · exact h c hc
  · exact h' c hc

theorem hexText_digitByte : ∀ n < 16, tolower (digitByte n) = digitByte n ∧ digitByte n ≠ 0 := by
  decide

theorem hexText_hexByte (b : UInt8) : HexText (hexByte b) := by
  have hb : b.toNat < 256 := b.toNat_lt
  intro c hc
  rcases List.mem_cons.mp hc with rfl | hc
  · exact hexText_digitByte _ (by omega)
  · obtain rfl := List.mem_singleton.mp hc
    exact hexText_digitByte _ (by omega)

theorem hexText_dash : HexText (text "-") := by
  intro c hc
  obtain rfl : c = 45 := List.mem_singleton.mp hc
  decide

theorem hexText_hexWord (n : UInt32) : HexText (hexWord n) :=
  (((hexText_hexByte _).append (hexText_hexByte _)).append (hexText_hexByte _)).append (hexText_hexByte _)

theorem hexText_uuidToStringMe (u : BytePtr) : HexText (uuidToStringMe u) := by
  have hhex : ∀ l : List Nat, HexText (l.flatMap fun i => hexByte (u i)) := by
    intro l c hc
    obtain ⟨i, -, hi⟩ := List.mem_flatMap.mp hc
    exact hexText_hexByte _ c hi
  unfold uuidToStringMe
  exact ((((((((hhex _).append hexText_dash).append (hhex _)).append hexText_dash).append
    (hhex _)).append hexText_dash).append (hhex _)).append hexText_dash).append (hhex _)

theorem HexText.map_tolower {l : List UInt8} (h : HexText l) : l.map tolower = l :=
  List.map_congr_left (fun c hc => (h c hc).1) |>.trans (List.map_id l)

theorem HexText.ofBytes {l : List UInt8} (h : HexText l) : (CString.ofBytes l).bytes = l :=
  List.takeWhile_eq_self_iff.mpr fun c hc => decide_eq_true (h c hc).2

/-- What matches one text of lower-case digits matches no other. -/
theorem HexText.eq_of_same {s a b : List UInt8} (ha : HexText a) (hb : HexText b)
    (hsa : SameUpToCase s a) (hsb : SameUpToCase s b) : a = b := by
  have h : a.map tolower = b.map tolower := hsa.symm.trans hsb
  rwa [ha.map_tolower, hb.map_tolower] at h

theorem length_uuidToStringMe (u : BytePtr) : (uuidToStringMe u).length = 36 := rfl

theorem length_of_isMbrUuid {uuid : List UInt8} (h : IsMbrUuid uuid) : uuid.length ≤ 11 := by
  obtain ⟨n, rfl | ⟨i, rfl⟩⟩ := h
  · exact Nat.le_of_ble_eq_true rfl
  · exact Nat.le_of_ble_eq_true rfl

theorem hexText_of_isMbrUuid {uuid : List UInt8} (h : IsMbrUuid uuid) : HexText uuid := by
  obtain ⟨n, rfl | ⟨i, rfl⟩⟩ := h
  · exact hexText_hexWord n
  · exact ((hexText_hexWord n).append hexText_dash).append (hexText_hexByte i)

/-! ## What is in a probed list -/

/-- An entry that probing makes: its path fits, and its UUID is that of a disk with an MBR or with a
GPT, or of a partition of one. -/
structure Probed (d : BlockDeviceInfo) : Prop where
  path : d.path.length < blockDevicePathLen
  uuid : (∃ u, d.uuid = uuidToStringMe u) ∨ IsMbrUuid d.uuid

theorem Probed.hexText {d : BlockDeviceInfo} (h : Probed d) : HexText d.uuid := by
  rcases h.uuid with ⟨u, hu⟩ | hmbr
  · rw [hu]
    exact hexText_uuidToStringMe u
  · exact hexText_of_isMbrUuid hmbr

theorem length_diskPath (devname : CString) : (diskPath devname).length < blockDevicePathLen :=
  Nat.lt_succ_of_le (List.length_take_le _ _)

theorem length_partitionPath (devname : CString) (i : Nat) :
    (partitionPath devname i).length < blockDevicePathLen :=
  Nat.lt_succ_of_le (List.length_take_le _ _)

section

variable {fd : Fd} {name : CString}

theorem probed_mbr (mbr : Sector) : ∀ d ∈ (probeMbrDevices fd name [] mbr).2, Probed d := by
  unfold probeMbrDevices
  cases preadSector fd mbr 0 with
  | none => exact fun d hd => absurd hd List.not_mem_nil
  | some mbr =>
    dsimp only
    split
    · exact fun d hd => absurd hd List.not_mem_nil
    · split
      · exact fun d hd => absurd hd List.not_mem_nil
      · intro d hd
        rw [mbrPartitions_eq] at hd
        rcases List.mem_append.mp hd with hd | hd
        · obtain ⟨i, -, hi⟩ := List.mem_filterMap.mp hd
          unfold mbrEntry at hi
          split at hi
          · obtain rfl := Option.some.inj hi
            exact ⟨length_partitionPath name (i + 1), .inr ⟨_, .inr ⟨_, rfl⟩⟩⟩
          · exact nomatch hi
        · obtain rfl := List.mem_singleton.mp hd
          exact ⟨length_diskPath name, .inr ⟨_, .inl rfl⟩⟩

theorem probed_gptPartitions (table : Heap) (size n : Nat) (stop : Int) {devices : List BlockDeviceInfo}
    (h : ∀ d ∈ devices, Probed d) : ∀ d ∈ gptPartitions name table size n stop devices, Probed d := by
  have hstop : stop = stop - n * size + n * size := by ring
  intro d hd
  rw [hstop, gptPartitions_eq] at hd
  rcases List.mem_append.mp hd with hd | hd
  · obtain ⟨i, -, hi⟩ := List.mem_filterMap.mp hd
    obtain ⟨u, hu, rfl⟩ := Option.map_eq_some_iff.mp hi
    refine ⟨length_partitionPath name (i + 1), .inl ?_⟩
    unfold entryUuid at hu
    split at hu
    · exact nomatch hu
    · exact ⟨_, (Option.some.inj hu).symm⟩
  · exact h d hd

theorem probed_gpt (block : Sector) (table : Heap) :
    ∀ d ∈ (probeGptDevices fd name [] block table).2, Probed d := by
  have hdisk : ∀ u, ∀ d ∈ [(⟨.disk, diskPath name, uuidToStringMe u⟩ : BlockDeviceInfo)], Probed d := by
    intro u d hd
    obtain rfl := List.mem_singleton.mp hd
    exact ⟨length_diskPath name, .inl ⟨u, rfl⟩⟩
  unfold probeGptDevices
  cases preadSector fd block 0 with
  | none => exact fun d hd => absurd hd List.not_mem_nil
  | some first =>
    dsimp only
    split
    · exact fun d hd => absurd hd List.not_mem_nil
    · cases preadSector fd first 512 with
      | none => exact fun d hd => absurd hd List.not_mem_nil
      | some header =>
        dsimp only
        split
        · exact fun d hd => absurd hd List.not_mem_nil
        · split
          · exact hdisk _
          · cases preadHeap fd table (fromLe32 (header.ptr 80) * fromLe32 (header.ptr 84)).toNat 1024 with
            | none => exact hdisk _
            | some table =>
              dsimp only
              exact probed_gptPartitions table _ _ _ (hdisk _)

end

theorem probed_listing (device : Option Fd) (name : CString) (old : Leftover) :
    ∀ d ∈ listing device name old, Probed d := by
  cases device with
  | none => exact fun d hd => absurd hd List.not_mem_nil
  | some fd =>
    intro d hd
    rw [listing_eq] at hd
    split at hd
    · rw [probeGptDevices_append] at hd
      rcases List.mem_append.mp hd with hd | hd
      · exact probed_gpt _ _ d hd
      · exact probed_mbr _ d hd
    · exact probed_mbr _ d hd

/-- What is in the list has been made by probing. -/
theorem probed_of_mem {qsort : Qsort reverseAlphasort} {sys : SysBlock} {old : CString → Leftover}
    {d : BlockDeviceInfo} (hd : d ∈ (probeBlockDevices qsort sys old).2) : Probed d := by
  rw [probeBlockDevices_eq] at hd
  obtain ⟨name, -, hd⟩ := List.mem_flatMap.mp hd
  unfold entriesFor at hd
  split at hd
  · exact absurd hd List.not_mem_nil
  · exact probed_listing _ _ _ d hd

/-! ## Looking for a UUID -/

theorem strcaseeq_iff {s : CString} {d : BlockDeviceInfo} (h : Probed d) :
    strcaseeq s d.uuidString = true ↔ SameUpToCase s.bytes d.uuid := by
  unfold strcaseeq BlockDeviceInfo.uuidString SameUpToCase
  rw [decide_eq_true_iff, h.hexText.ofBytes]

/-- The first device with the UUID, or none. -/
theorem findInList_cases {type : BlockDeviceType} {s : CString} {l : List BlockDeviceInfo}
    (hl : ∀ d ∈ l, Probed d) :
    (∃ before d after, l = before ++ d :: after ∧ HasUuid type s d ∧ (∀ e ∈ before, ¬HasUuid type s e) ∧
        findInList type s l = some d.path) ∨
      (∀ d ∈ l, ¬HasUuid type s d) ∧ findInList type s l = none := by
  induction l with
  | nil => exact .inr ⟨fun d hd => absurd hd List.not_mem_nil, rfl⟩
  | cons device next ih =>
    have hprobed := hl device List.mem_cons_self
    have hmatch : (type = device.type ∧ strcaseeq s device.uuidString = true) ↔
        HasUuid type s device := by
      rw [strcaseeq_iff hprobed, eq_comm]
      exact Iff.rfl
    by_cases hfound : HasUuid type s device
    · refine .inl ⟨[], device, next, rfl, hfound, fun e he => absurd he List.not_mem_nil, ?_⟩
      rw [findInList, if_pos (hmatch.mpr hfound)]
    · have hnext : findInList type s (device :: next) = findInList type s next := by
        rw [findInList, if_neg (fun h => hfound (hmatch.mp h))]
      rcases ih fun d hd => hl d (List.mem_cons_of_mem _ hd) with
        ⟨before, d, after, rfl, hd, hbefore, hfind⟩ | ⟨hnone, hfind⟩
      · exact .inl ⟨device :: before, d, after, rfl, hd, List.forall_mem_cons.mpr ⟨hfound, hbefore⟩,
          hnext.trans hfind⟩
      · exact .inr ⟨List.forall_mem_cons.mpr ⟨hfound, hnone⟩, hnext.trans hfind⟩

theorem findBlockDeviceBySpec_uuidSpec (qsort : Qsort reverseAlphasort) (now : Moment)
    (type : BlockDeviceType) (s : CString) :
    findBlockDeviceBySpec qsort now (uuidSpec type s) =
      findInList type s (probeBlockDevices qsort now.sys now.old).2 := by
  have hrest : ∀ l : CString, l.bytes.length = 9 → afterPrefix (l ++ s) = s := by
    intro l hl
    apply CString.ext
    show ((l.bytes ++ s.bytes).drop 9).takeWhile _ = s.bytes
    rw [List.drop_left' hl, List.takeWhile_eq_self_iff.mpr]
    intro c hc
    apply decide_eq_true
    rintro rfl
    exact s.nulFree hc
  have htake : ∀ l : CString, l.bytes.length = 9 → (l ++ s).bytes.take 9 = l.bytes :=
    fun l hl => List.take_left' hl
  cases type with
  | partition =>
    have heq : (CString.ofString "PARTUUID=" ++ s).bytes.take 9 = text "PARTUUID=" := htake _ rfl
    rw [findBlockDeviceBySpec, uuidSpec, if_pos heq, hrest _ rfl]
    rfl
  | disk =>
    have heq : (CString.ofString "DISKUUID=" ++ s).bytes.take 9 = text "DISKUUID=" := htake _ rfl
    have hne : ¬(CString.ofString "DISKUUID=" ++ s).bytes.take 9 = text "PARTUUID=" := by
      rw [heq]
      decide
    rw [findBlockDeviceBySpec, uuidSpec, if_neg hne, if_pos heq, hrest _ rfl]
    rfl

/-- A UUID finds the first device of its type that has it, in any spelling, and fails when there is
none; the only device of its type with its UUID is found; and one text is never the UUID of two
different GPT entries, or of a GPT and an MBR. -/
theorem uuid_finds_device (qsort : Qsort reverseAlphasort) (now : Moment) (s : CString) :
    (∀ type,
      (∃ before d after, (probeBlockDevices qsort now.sys now.old).2 = before ++ d :: after ∧
          HasUuid type s d ∧ (∀ e ∈ before, ¬HasUuid type s e) ∧
          findBlockDeviceBySpec qsort now (uuidSpec type s) = some d.path) ∨
        (∀ d ∈ (probeBlockDevices qsort now.sys now.old).2, ¬HasUuid type s d) ∧
          findBlockDeviceBySpec qsort now (uuidSpec type s) = none) ∧
    (∀ d ∈ (probeBlockDevices qsort now.sys now.old).2, SameUpToCase s.bytes d.uuid →
      (∀ e ∈ (probeBlockDevices qsort now.sys now.old).2, e.type = d.type → e.uuid = d.uuid → e = d) →
      findBlockDeviceBySpec qsort now (uuidSpec d.type s) = some d.path) ∧
    (∀ u v : BytePtr, SameUpToCase s.bytes (uuidToStringMe u) →
      SameUpToCase s.bytes (uuidToStringMe v) → ∀ i < 16, u i = v i) ∧
    ∀ (u : BytePtr) (mbrUuid : List UInt8), IsMbrUuid mbrUuid → SameUpToCase s.bytes mbrUuid →
      ¬SameUpToCase s.bytes (uuidToStringMe u) := by
  have hprobed : ∀ d ∈ (probeBlockDevices qsort now.sys now.old).2, Probed d :=
    fun d hd => probed_of_mem hd
  refine ⟨fun type => ?_, fun d hd hsame hunique => ?_, fun u v hu hv => ?_, fun u m hm hsm hsu => ?_⟩
  · rw [findBlockDeviceBySpec_uuidSpec]
    exact findInList_cases hprobed
  · rw [findBlockDeviceBySpec_uuidSpec]
    have hcases := @findInList_cases d.type s _ hprobed
    rcases hcases with
      ⟨before, e, after, hlist, ⟨htype, he⟩, -, hfind⟩ | ⟨hnone, -⟩
    · have hmem : e ∈ (probeBlockDevices qsort now.sys now.old).2 := by
        rw [hlist]
        exact List.mem_append_right _ List.mem_cons_self
      have huuid : e.uuid = d.uuid :=
        (hprobed e hmem).hexText.eq_of_same (hprobed d hd).hexText he hsame
      rw [hfind, hunique e hmem htype huuid]
    · exact absurd ⟨rfl, hsame⟩ (hnone d hd)
  · exact uuidToStringMe_injective
      ((hexText_uuidToStringMe u).eq_of_same (hexText_uuidToStringMe v) hu hv)
  · have heq := (hexText_of_isMbrUuid hm).eq_of_same (hexText_uuidToStringMe u) hsm hsu
    have hlen := length_of_isMbrUuid hm
    rw [heq, length_uuidToStringMe] at hlen
    exact absurd hlen (by decide)

end NervesInitramfs
