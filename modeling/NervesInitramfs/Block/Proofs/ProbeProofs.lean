import NervesInitramfs.Block.Probe
import NervesInitramfs.CLib.Proofs.CNumberProofs
import Mathlib.Data.UInt
import Mathlib.Tactic.Ring

/-!
# Proofs: what probing a device depends on

A read that comes up short leaves old bytes in the buffer. A device speaks for itself when the
entries that are listed for it do not depend on them; which devices do can be told from their bytes.
-/

namespace NervesInitramfs

open CLib

/-! ## Bytes that are known -/

/-- The contents of the heap are as `known` says where it says something. -/
def Extends (known : Int → Option UInt8) (table : Heap) : Prop :=
  ∀ j b, known j = some b → table j = b

/-- The heap that holds `b` wherever nothing is known. -/
def fillHeap (known : Int → Option UInt8) (b : UInt8) : Heap := fun j => (known j).getD b

theorem extends_fillHeap (known : Int → Option UInt8) (b : UInt8) :
    Extends known (fillHeap known b) := fun j c h => by simp [fillHeap, h]

/-- What the loop over the table makes of the entry at `start`: the text of its UUID. -/
def entryUuid (table : Heap) (start : Int) : Option (List UInt8) :=
  if isZeros (table.ptr start) 16 then none else some (uuidToStringMe (table.ptr (start + 16)))

/-- An entry that the known bytes decide: its type is known to be zero, or known not to be zero with
the UUID known as well. -/
def EntryDecided (known : Int → Option UInt8) (start : Int) : Prop :=
  (∀ k < 16, known (start + (k : Nat)) = some 0) ∨
    (∃ k < 16, ∃ b, known (start + (k : Nat)) = some b ∧ b ≠ 0) ∧
      ∀ k < 16, (known (start + 16 + (k : Nat))).isSome

theorem isZeros_iff {buffer : BytePtr} {len : Nat} :
    isZeros buffer len = true ↔ ∀ i < len, buffer i = 0 := by simp [isZeros]

theorem uuidToStringMe_congr {u v : BytePtr} (h : ∀ i < 16, u i = v i) :
    uuidToStringMe u = uuidToStringMe v := by
  simp [uuidToStringMe, h]

/-- The text of a UUID determines its bytes. -/
theorem uuidToStringMe_injective {u v : BytePtr} (h : uuidToStringMe u = uuidToStringMe v) :
    ∀ i < 16, u i = v i := by
  have hmap : ∀ l : List Nat, l.flatMap (fun i => hexByte (u i)) = l.flatMap (fun i => hexByte (v i)) →
      ∀ i ∈ l, u i = v i := by
    intro l hl
    have hl' : (l.map u).flatMap hexByte = (l.map v).flatMap hexByte := by
      simpa [List.flatMap_map] using hl
    exact List.map_inj_left.mp (flatMap_hexByte_injective hl')
  unfold uuidToStringMe at h
  obtain ⟨h, h5⟩ := List.append_inj' h rfl
  obtain ⟨h, -⟩ := List.append_inj' h rfl
  obtain ⟨h, h4⟩ := List.append_inj' h rfl
  obtain ⟨h, -⟩ := List.append_inj' h rfl
  obtain ⟨h, h3⟩ := List.append_inj' h rfl
  obtain ⟨h, -⟩ := List.append_inj' h rfl
  obtain ⟨h, h2⟩ := List.append_inj' h rfl
  obtain ⟨h1, -⟩ := List.append_inj' h rfl
  intro i hi
  have hcases : i ∈ [3, 2, 1, 0] ∨ i ∈ [5, 4] ∨ i ∈ [7, 6] ∨ i ∈ [8, 9] ∨
      i ∈ [10, 11, 12, 13, 14, 15] := by
    simp only [List.mem_cons, List.not_mem_nil, or_false]
    omega
  rcases hcases with hm | hm | hm | hm | hm
  · exact hmap _ h1 i hm
  · exact hmap _ h2 i hm
  · exact hmap _ h3 i hm
  · exact hmap _ h4 i hm
  · exact hmap _ h5 i hm

theorem entryUuid_eq_of_decided {known : Int → Option UInt8} {start : Int}
    (h : EntryDecided known start) {t t' : Heap} (ht : Extends known t) (ht' : Extends known t') :
    entryUuid t start = entryUuid t' start := by
  rcases h with hzero | ⟨⟨k, hk, b, hb, hne⟩, hknown⟩
  · have hz : ∀ t : Heap, Extends known t → entryUuid t start = none := fun t ht => by
      have hz : isZeros (t.ptr start) 16 = true := isZeros_iff.mpr fun i hi => ht _ _ (hzero i hi)
      rw [entryUuid, if_pos hz]
    rw [hz t ht, hz t' ht']
  · have hnz : ∀ t : Heap, Extends known t →
        entryUuid t start = some (uuidToStringMe (t.ptr (start + 16))) := fun t ht => by
      have hzero : ¬ isZeros (t.ptr start) 16 = true := fun hz =>
        hne ((ht _ _ hb).symm.trans (isZeros_iff.mp hz k hk))
      rw [entryUuid, if_neg hzero]
    rw [hnz t ht, hnz t' ht', uuidToStringMe_congr]
    intro i hi
    obtain ⟨c, hc⟩ := Option.isSome_iff_exists.mp (hknown i hi)
    exact (ht _ _ hc).trans (ht' _ _ hc).symm

/-- An entry with a type that is zero when 1 is filled in has a type that is zero when 0 is. -/
theorem entryUuid_fill_mono {known : Int → Option UInt8} {start : Int}
    (h : (entryUuid (fillHeap known 0) start).isSome) :
    (entryUuid (fillHeap known 1) start).isSome := by
  unfold entryUuid at h ⊢
  by_cases h1 : isZeros ((fillHeap known 1).ptr start) 16
  · have h0 : isZeros ((fillHeap known 0).ptr start) 16 = true := by
      refine isZeros_iff.mpr fun i hi => ?_
      have hi1 := isZeros_iff.mp h1 i hi
      simp only [Heap.ptr, fillHeap] at hi1 ⊢
      cases hk : known (start + (i : Int)) with
      | none => rfl
      | some b => simpa [hk] using hi1
    simp [h0] at h
  · simp [h1]

/-- To see that an entry is decided it is enough to fill in 0 and 1. -/
theorem entryDecided_of_fill {known : Int → Option UInt8} {start : Int}
    (h : entryUuid (fillHeap known 0) start = entryUuid (fillHeap known 1) start) :
    EntryDecided known start := by
  unfold entryUuid at h
  by_cases h1 : isZeros ((fillHeap known 1).ptr start) 16
  · left
    intro k hk
    have hk1 := isZeros_iff.mp h1 k hk
    simp only [Heap.ptr, fillHeap] at hk1
    cases hkn : known (start + (k : Int)) with
    | none => simp [hkn] at hk1
    | some b => rw [show b = 0 by simpa [hkn] using hk1]
  · by_cases h0 : isZeros ((fillHeap known 0).ptr start) 16
    · simp [h0, h1] at h
    · right
      refine ⟨?_, fun k hk => ?_⟩
      · rw [isZeros_iff] at h0
        push Not at h0
        obtain ⟨k, hk, hne⟩ := h0
        cases hkn : known (start + (k : Int)) with
        | none => simp [Heap.ptr, fillHeap, hkn] at hne
        | some b => exact ⟨k, hk, b, hkn, by simpa [Heap.ptr, fillHeap, hkn] using hne⟩
      · simp only [h0, h1, Bool.false_eq_true, if_false, Option.some.injEq] at h
        have hk := uuidToStringMe_injective h k hk
        simp only [Heap.ptr, fillHeap] at hk
        cases hkn : known (start + 16 + (k : Int)) with
        | none => simp [hkn] at hk
        | some b => rfl

/-! ## The loop over the table -/

/-- The entry with index `i` of a table whose entry 0 would start at `first`, in the list. -/
def gptEntry (devname : CString) (size : Nat) (first : Int) (table : Heap) (i : Nat) :
    Option BlockDeviceInfo :=
  (entryUuid table (first + i * size)).map fun uuid => ⟨.partition, partitionPath devname (i + 1), uuid⟩

/-- The loop puts the entries in front of the list, in ascending order. -/
theorem gptPartitions_eq (devname : CString) (table : Heap) (size n : Nat) (first : Int)
    (devices : List BlockDeviceInfo) :
    gptPartitions devname table size n (first + n * size) devices
      = (List.range n).filterMap (gptEntry devname size first table) ++ devices := by
  induction n generalizing devices with
  | zero => simp [gptPartitions]
  | succ n ih =>
    have hstart : first + ((n + 1 : Nat) : Int) * size - size = first + n * size := by
      push_cast; ring
    rw [gptPartitions, hstart, ih, List.range_succ, List.filterMap_append, List.append_assoc]
    congr 1
    by_cases hz : isZeros (table.ptr (first + n * size)) 16 = true <;>
      simp [gptEntry, entryUuid, hz]

/-- Two selections of which the second keeps whatever the first keeps, and that give the same list,
agree everywhere. -/
theorem filterMap_eq_of_isSome {α β : Type} {f g : α → Option β} {l : List α}
    (hmono : ∀ a ∈ l, (f a).isSome → (g a).isSome) (h : l.filterMap f = l.filterMap g) :
    ∀ a ∈ l, f a = g a := by
  have hle : ∀ l : List α, (∀ a ∈ l, (f a).isSome → (g a).isSome) →
      (l.filterMap f).length ≤ (l.filterMap g).length := by
    intro l hl
    induction l with
    | nil => simp
    | cons a l ih =>
      have ih' := ih fun b hb => hl b (by simp [hb])
      have ha := hl a (by simp)
      cases hf : f a <;> cases hg : g a <;> simp_all; omega
  induction l with
  | nil => simp
  | cons a l ih =>
    have hmono' : ∀ b ∈ l, (f b).isSome → (g b).isSome := fun b hb => hmono b (by simp [hb])
    have hlen := hle l hmono'
    have ha := hmono a (by simp)
    cases hf : f a with
    | none =>
      cases hg : g a with
      | none =>
        simp only [List.filterMap_cons, hf, hg] at h
        intro b hb
        rcases List.mem_cons.mp hb with rfl | hb
        · rw [hf, hg]
        · exact ih hmono' h b hb
      | some y =>
        have hlen' := congrArg List.length h
        simp only [List.filterMap_cons, hf, hg, List.length_cons] at hlen'
        omega
    | some x =>
      cases hg : g a with
      | none => simp [hf, hg] at ha
      | some y =>
        simp only [List.filterMap_cons, hf, hg, List.cons.injEq] at h
        intro b hb
        rcases List.mem_cons.mp hb with rfl | hb
        · rw [hf, hg, h.1]
        · exact ih hmono' h.2 b hb

/-- The loop gives the same list for all contents of the unknown bytes exactly when every entry is
decided. -/
theorem gptPartitions_decided_iff (devname : CString) (known : Int → Option UInt8) (size n : Nat)
    (stop : Int) (devices : List BlockDeviceInfo) :
    (∀ t t' : Heap, Extends known t → Extends known t' →
      gptPartitions devname t size n stop devices = gptPartitions devname t' size n stop devices) ↔
      ∀ i < n, EntryDecided known (stop - n * size + i * size) := by
  have hstop : stop = stop - n * size + n * size := by ring
  constructor
  · intro h i hi
    have h01 := h _ _ (extends_fillHeap known 0) (extends_fillHeap known 1)
    rw [hstop, gptPartitions_eq, gptPartitions_eq] at h01
    have hmono : ∀ i ∈ List.range n,
        (gptEntry devname size (stop - n * size) (fillHeap known 0) i).isSome →
        (gptEntry devname size (stop - n * size) (fillHeap known 1) i).isSome := by
      intro i _ hi
      simp only [gptEntry, Option.isSome_map] at hi ⊢
      exact entryUuid_fill_mono hi
    have heq := filterMap_eq_of_isSome hmono (List.append_cancel_right h01) i (by simpa using hi)
    simp only [gptEntry] at heq
    refine entryDecided_of_fill (Option.map_injective (fun a b hab => ?_) heq)
    simpa using hab
  · intro h t t' ht ht'
    rw [hstop, gptPartitions_eq, gptPartitions_eq]
    congr 1
    refine List.filterMap_congr fun i hi => ?_
    rw [gptEntry, gptEntry, entryUuid_eq_of_decided (h i (by simpa using hi)) ht ht']

/-! ## The sectors -/

/-- A sector after the bytes `got` have been read into it. -/
def Sector.overlay (got : List UInt8) (block : Sector) : Sector :=
  fun i => (got[i.val]?).getD (block i)

/-- The second sector, as it is read over the first one. -/
def headerSector (content : List UInt8) (block : Sector) : Sector :=
  .overlay ((content.drop 512).take 512) (.overlay (content.take 512) block)

/-- The bytes of a partition table of `size` bytes that are on the device. -/
def tableBytes (content : List UInt8) (size : Nat) : Int → Option UInt8 :=
  readBytes ((content.drop 1024).take size)

/-- The GPT header in `block` announces more entries than are looked at, or a table whose entries
are all decided by the bytes that are on the device. -/
def TableDecided (content : List UInt8) (block : Sector) : Prop :=
  let count := fromLe32 (block.ptr 80)
  let size := fromLe32 (block.ptr 84)
  let tableSize := (count * size).toNat
  count > 256 ∨ ∀ i < count.toNat, EntryDecided (tableBytes content tableSize)
    (tableSize - count.toNat * size.toNat + i * size.toNat)

/-- What is listed for a device with this content follows from the content. On a device that has a
first sector only the table of a GPT can fail to; one that is too short for it must already differ
from what makes a disk in the bytes that it has. -/
def SpeaksForItself (content : List UInt8) : Prop :=
  if 512 ≤ content.length then
    content[510]? ≠ some 0x55 ∨ content[511]? ≠ some 0xaa ∨ content[450]? ≠ some 0xee ∨
      (headerSector content 0).signature ≠ gptSignature ∨
      TableDecided content (headerSector content 0)
  else
    (∃ b, content[510]? = some b ∧ b ≠ 0x55) ∨
      (content[450]? = some 0xee ∧ content.take 8 ≠ gptSignature)

theorem preadSector_ofContent (content : List UInt8) (block : Sector) (offset : Nat) :
    preadSector (.ofContent content) block offset
      = some (.overlay ((content.drop offset).take 512) block) := rfl

theorem preadHeap_ofContent (content : List UInt8) (table : Heap) (count offset : Nat) :
    ∃ table', preadHeap (.ofContent content) table count offset = some table' := ⟨_, rfl⟩

theorem extends_of_read {content : List UInt8} {table table' : Heap} {size : Nat}
    (h : preadHeap (.ofContent content) table size 1024 = some table') :
    Extends (tableBytes content size) table' := by
  obtain rfl : (fun j => (readBytes ((content.drop 1024).take size) j).getD (table j)) = table' := by
    simpa [preadHeap, Fd.ofContent] using h
  intro j b hb
  simp only [tableBytes] at hb
  simp [hb]

/-- Where the bytes are known already, reading them again changes nothing. -/
theorem read_of_extends {content : List UInt8} {table : Heap} {size : Nat}
    (h : Extends (tableBytes content size) table) :
    preadHeap (.ofContent content) table size 1024 = some table := by
  simp only [preadHeap, Fd.ofContent, Option.map_some, Option.some.injEq]
  funext j
  cases hk : readBytes ((content.drop 1024).take size) j with
  | none => rfl
  | some b => exact (h j b hk).symm

/-- A whole sector that is read leaves nothing of the old one. -/
theorem overlay_eq_of_length {got : List UInt8} (h : got.length = 512) (block block' : Sector) :
    Sector.overlay got block = Sector.overlay got block' := by
  funext i
  have hi : i.val < got.length := by omega
  simp [Sector.overlay, List.getElem?_eq_getElem hi]

theorem overlay_apply {got : List UInt8} {block : Sector} {i : Fin 512} {b : UInt8}
    (h : got[i.val]? = some b) : Sector.overlay got block i = b := by
  simp [Sector.overlay, h]

/-- A byte that the device delivers is in the buffer. -/
theorem overlay_delivered {got : List UInt8} {i : Nat} {c : UInt8} (hi : i < 512)
    (h : got[i]? = some c) (block : Sector) : Sector.overlay got block (Fin.ofNat 512 i) = c := by
  apply overlay_apply
  rw [← h, show (Fin.ofNat 512 i).val = i from Nat.mod_eq_of_lt hi]

/-- A byte that the device does not deliver stays as it is. -/
theorem overlay_kept {got : List UInt8} {i : Nat} (hi : i < 512) (h : got[i]? = none) (block : Sector) :
    Sector.overlay got block (Fin.ofNat 512 i) = block (Fin.ofNat 512 i) := by
  unfold Sector.overlay
  rw [show (Fin.ofNat 512 i).val = i from Nat.mod_eq_of_lt hi, h]
  rfl

/-- Where no byte that is delivered says something else, the mark stays. -/
theorem overlay_marked {got : List UInt8} {block : Sector} {i : Nat} {b : UInt8} (hi : i < 512)
    (hblock : block (Fin.ofNat 512 i) = b) (h : ¬∃ c, got[i]? = some c ∧ c ≠ b) :
    Sector.overlay got block (Fin.ofNat 512 i) = b := by
  cases hgot : got[i]? with
  | none => rw [overlay_kept hi hgot, hblock]
  | some c =>
    rw [overlay_delivered hi hgot]
    by_contra hne
    exact h ⟨c, hgot, hne⟩

/-- Where no mark is delivered, there is none that was not there before. -/
theorem overlay_unmarked {got : List UInt8} {block : Sector} {i : Nat} {b : UInt8} (hi : i < 512)
    (hblock : block (Fin.ofNat 512 i) ≠ b) (h : got[i]? ≠ some b) :
    Sector.overlay got block (Fin.ofNat 512 i) ≠ b := by
  cases hgot : got[i]? with
  | none =>
    rw [overlay_kept hi hgot]
    exact hblock
  | some c =>
    rw [overlay_delivered hi hgot]
    rintro rfl
    exact h hgot

theorem overlay_take_apply (content : List UInt8) (block : Sector) (i : Fin 512) :
    Sector.overlay (content.take 512) block i = (content[i.val]?).getD (block i) := by
  simp [Sector.overlay]

/-! ## Devices with a first sector -/

/-- What a GPT header in `block` makes of the list, with `table` as the partition table. -/
def gptListing (devname : CString) (devices : List BlockDeviceInfo) (block : Sector) (table : Heap) :
    List BlockDeviceInfo :=
  let devices := ⟨.disk, diskPath devname, uuidToStringMe (block.ptr 56)⟩ :: devices
  let count := fromLe32 (block.ptr 80)
  let size := fromLe32 (block.ptr 84)
  if count > 256 then devices
  else gptPartitions devname table size.toNat count.toNat (count * size).toNat devices

theorem gptListing_decided_iff (content : List UInt8) (devname : CString)
    (devices : List BlockDeviceInfo) (block : Sector) :
    (∀ t t' : Heap, Extends (tableBytes content (fromLe32 (block.ptr 80) *
        fromLe32 (block.ptr 84)).toNat) t →
      Extends (tableBytes content (fromLe32 (block.ptr 80) * fromLe32 (block.ptr 84)).toNat) t' →
      gptListing devname devices block t = gptListing devname devices block t') ↔
      TableDecided content block := by
  unfold gptListing TableDecided
  by_cases hcount : fromLe32 (block.ptr 80) > 256
  · simp only [hcount, if_true, true_or, implies_true]
  · simp only [hcount, if_false, false_or]
    exact gptPartitions_decided_iff devname _ _ _ _ _

/-- The list after probing, when the first two sectors are those of a GPT disk. -/
theorem probePartitions_gpt {content : List UInt8} (devname : CString)
    (devices : List BlockDeviceInfo) {mbr block first header : Sector} {table table' : Heap}
    (hmbr : Sector.overlay (content.take 512) mbr = first)
    (hblock : Sector.overlay (content.take 512) block = first)
    (hheader : Sector.overlay ((content.drop 512).take 512) first = header)
    (h510 : first 510 = 0x55) (h511 : first 511 = 0xaa) (h450 : first 450 = 0xee)
    (hsig : header.signature = gptSignature)
    (htable : preadHeap (.ofContent content) table
      (fromLe32 (header.ptr 80) * fromLe32 (header.ptr 84)).toNat 1024 = some table') :
    (probePartitions (some (.ofContent content)) devname devices mbr block table).2 =
      gptListing devname devices header table' := by
  have hfail : probeMbrDevices (.ofContent content) devname devices mbr = (-1, devices) := by
    simp [probeMbrDevices, preadSector_ofContent, hmbr, h510, h511, h450]
  have hgpt : (probeGptDevices (.ofContent content) devname devices block table).2
      = gptListing devname devices header table' := by
    unfold probeGptDevices gptListing
    simp only [preadSector_ofContent, List.drop_zero, hblock, h510, h511, h450, hheader, hsig]
    by_cases hcount : fromLe32 (header.ptr 80) > 256
    · simp only [hcount, if_true, ne_eq, not_true_eq_false, or_self, if_false]
    · simp only [hcount, htable, ne_eq, not_true_eq_false, or_self, if_false]
  simp [probePartitions, hfail, hgpt]

/-- A GPT that is not found adds nothing. -/
theorem probeGptDevices_not_found {content : List UInt8} (devname : CString)
    (devices : List BlockDeviceInfo) {block first : Sector} (table : Heap)
    (hblock : Sector.overlay (content.take 512) block = first)
    (hgpt : first 510 ≠ 0x55 ∨ first 511 ≠ 0xaa ∨ first 450 ≠ 0xee ∨
      (Sector.overlay ((content.drop 512).take 512) first).signature ≠ gptSignature) :
    probeGptDevices (.ofContent content) devname devices block table = (-1, devices) := by
  unfold probeGptDevices
  simp only [preadSector_ofContent, List.drop_zero, hblock]
  by_cases hmark : first 510 ≠ 0x55 ∨ first 511 ≠ 0xaa ∨ first 450 ≠ 0xee
  · rw [if_pos hmark]
  · have hsig : (Sector.overlay ((content.drop 512).take 512) first).signature ≠ gptSignature := by
      tauto
    rw [if_neg hmark, if_pos hsig]

/-- The list after probing, when there is no GPT to be found. -/
theorem probePartitions_not_gpt {content : List UInt8} {devname : CString}
    {devices : List BlockDeviceInfo} {mbr block first first' : Sector} {table : Heap}
    (hmbr : Sector.overlay (content.take 512) mbr = first)
    (hblock : Sector.overlay (content.take 512) block = first')
    (hgpt : first' 510 ≠ 0x55 ∨ first' 511 ≠ 0xaa ∨ first' 450 ≠ 0xee ∨
      (Sector.overlay ((content.drop 512).take 512) first').signature ≠ gptSignature) :
    (probePartitions (some (.ofContent content)) devname devices mbr block table).2 =
      if first 510 ≠ 0x55 ∨ first 511 ≠ 0xaa ∨ first 450 = 0xee then devices
      else mbrPartitions devname first (fromLe32 (first.ptr 440)) 4
        (⟨.disk, diskPath devname, hexWord (fromLe32 (first.ptr 440))⟩ :: devices) := by
  have hnone := probeGptDevices_not_found devname devices table hblock hgpt
  unfold probePartitions probeMbrDevices
  simp only [preadSector_ofContent, List.drop_zero, hmbr]
  by_cases hmark : first 510 ≠ 0x55 ∨ first 511 ≠ 0xaa
  · have hor : first 510 ≠ 0x55 ∨ first 511 ≠ 0xaa ∨ first 450 = 0xee := by tauto
    simp [if_pos hmark, if_pos hor, hnone]
  · by_cases h450 : first 450 = 0xee
    · have hor : first 510 ≠ 0x55 ∨ first 511 ≠ 0xaa ∨ first 450 = 0xee := by tauto
      simp [if_pos h450, if_pos hor, hnone]
    · have hor : ¬ (first 510 ≠ 0x55 ∨ first 511 ≠ 0xaa ∨ first 450 = 0xee) := by tauto
      rw [if_neg hmark, if_neg h450, if_neg hor]
      rfl

theorem speaksForItself_of_whole {content : List UInt8} (h : 512 ≤ content.length)
    (devname : CString) (devices : List BlockDeviceInfo) :
    (∀ mbr block table mbr' block' table',
      (probePartitions (some (.ofContent content)) devname devices mbr block table).2 =
        (probePartitions (some (.ofContent content)) devname devices mbr' block' table').2) ↔
      (content[510]? ≠ some 0x55 ∨ content[511]? ≠ some 0xaa ∨ content[450]? ≠ some 0xee ∨
        (headerSector content 0).signature ≠ gptSignature ∨
        TableDecided content (headerSector content 0)) := by
  have hlen : (content.take 512).length = 512 := by simp; omega
  obtain ⟨first, hfirst⟩ : ∃ first, Sector.overlay (content.take 512) 0 = first := ⟨_, rfl⟩
  have hover : ∀ block, Sector.overlay (content.take 512) block = first := fun block =>
    (overlay_eq_of_length hlen block 0).trans hfirst
  have hheader : Sector.overlay ((content.drop 512).take 512) first = headerSector content 0 := by
    rw [headerSector, hfirst]
  have hbyte : ∀ i : Fin 512, ∀ b, content[i.val]? = some b ↔ first i = b := by
    intro i b
    have hi : i.val < content.length := by omega
    rw [← hfirst, overlay_take_apply, List.getElem?_eq_getElem hi]
    simp
  have h510 := hbyte 510 0x55
  have h511 := hbyte 511 0xaa
  have h450 := hbyte 450 0xee
  simp only [Fin.isValue, show (510 : Fin 512).val = 510 from rfl,
    show (511 : Fin 512).val = 511 from rfl, show (450 : Fin 512).val = 450 from rfl]
    at h510 h511 h450
  by_cases hgpt : first 510 ≠ 0x55 ∨ first 511 ≠ 0xaa ∨ first 450 ≠ 0xee ∨
      (headerSector content 0).signature ≠ gptSignature
  · constructor
    · intro _
      simp only [ne_eq, h510, h511, h450] at hgpt ⊢
      tauto
    · intro _ mbr block table mbr' block' table'
      rw [← hheader] at hgpt
      rw [probePartitions_not_gpt (hover mbr) (hover block) hgpt,
        probePartitions_not_gpt (hover mbr') (hover block') hgpt]
  · push Not at hgpt
    obtain ⟨hb510, hb511, hb450, hsig⟩ := hgpt
    have hprobe : ∀ mbr block table table', preadHeap (.ofContent content) table
        (fromLe32 ((headerSector content 0).ptr 80) *
          fromLe32 ((headerSector content 0).ptr 84)).toNat 1024 = some table' → _ :=
      fun mbr block table table' htable => probePartitions_gpt devname devices (hover mbr)
        (hover block) hheader hb510 hb511 hb450 hsig htable
    have hdecided : (content[510]? ≠ some 0x55 ∨ content[511]? ≠ some 0xaa ∨
        content[450]? ≠ some 0xee ∨ (headerSector content 0).signature ≠ gptSignature ∨
        TableDecided content (headerSector content 0)) ↔
        TableDecided content (headerSector content 0) := by
      simp only [ne_eq, h510.mpr hb510, h511.mpr hb511, h450.mpr hb450, hsig, not_true_eq_false,
        false_or]
    rw [hdecided, ← gptListing_decided_iff content devname devices]
    constructor
    · intro hall t t' ht ht'
      rw [← hprobe 0 0 t t (read_of_extends ht), ← hprobe 0 0 t' t' (read_of_extends ht')]
      exact hall 0 0 t 0 0 t'
    · intro hall mbr block table mbr' block' table'
      obtain ⟨t, ht⟩ := preadHeap_ofContent content table (fromLe32 ((headerSector content 0).ptr 80) *
        fromLe32 ((headerSector content 0).ptr 84)).toNat 1024
      obtain ⟨t', ht'⟩ := preadHeap_ofContent content table'
        (fromLe32 ((headerSector content 0).ptr 80) *
          fromLe32 ((headerSector content 0).ptr 84)).toNat 1024
      rw [hprobe mbr block table t ht, hprobe mbr' block' table' t' ht']
      exact hall t t' (extends_of_read ht) (extends_of_read ht')

/-! ## Devices that are too short for a first sector -/

theorem length_le_gptPartitions (devname : CString) (table : Heap) (size n : Nat) (stop : Int)
    (devices : List BlockDeviceInfo) :
    devices.length ≤ (gptPartitions devname table size n stop devices).length := by
  have hstop : stop = stop - n * size + n * size := by ring
  rw [hstop, gptPartitions_eq, List.length_append]
  omega

theorem length_lt_gptListing (devname : CString) (devices : List BlockDeviceInfo) (block : Sector)
    (table : Heap) : devices.length < (gptListing devname devices block table).length := by
  unfold gptListing
  by_cases hcount : fromLe32 (block.ptr 80) > 256
  · simp [hcount]
  · simp only [hcount, if_false]
    exact Nat.lt_of_lt_of_le (by simp) (length_le_gptPartitions ..)

theorem length_le_mbrPartitions (devname : CString) (mbr : Sector) (diskUuid : UInt32) (n : Nat)
    (devices : List BlockDeviceInfo) :
    devices.length ≤ (mbrPartitions devname mbr diskUuid n devices).length := by
  induction n generalizing devices with
  | zero => simp [mbrPartitions]
  | succ n ih =>
    rw [mbrPartitions]
    refine Nat.le_trans ?_ (ih _)
    split <;> simp

/-- The buffer that a disk leaves: nothing but the mark of a boot sector. -/
def markedSector : Sector := fun i => if i.val = 510 then 0x55 else if i.val = 511 then 0xaa else 0

/-- The second read gets nothing, so the signature is looked for in the first sector again. -/
theorem signature_of_short {content : List UInt8} (h : 8 ≤ content.length) (block : Sector) :
    (Sector.overlay content block).signature = content.take 8 := by
  apply List.ext_getElem
  · simp [Sector.signature]; omega
  · intro i hi hi'
    have hi8 : i < 8 := by simpa [Sector.signature] using hi
    have hfin : (Fin.ofNat 512 (0 + i)).val = i := by simp [Fin.ofNat]; omega
    simp only [Sector.signature, Sector.ptr, List.getElem_map, List.getElem_range,
      List.getElem_take]
    exact overlay_apply (by rw [hfin, List.getElem?_eq_getElem])

section

variable {content : List UInt8}

/-- The second read of a short device gets nothing. -/
theorem overlay_next (h : content.length < 512) (first : Sector) :
    Sector.overlay ((content.drop 512).take 512) first = first := by
  rw [List.drop_of_length_le (by omega)]
  rfl

/-- The last mark of a boot sector is behind the end of the device. -/
theorem overlay_last (h : content.length < 512) (block : Sector) :
    Sector.overlay content block 511 = block 511 := by
  have hnone : content[511]? = none := List.getElem?_eq_none (by omega)
  exact overlay_kept (by decide) hnone block

/-- Where nothing that the device delivers speaks against it, the marks of another disk are taken
for its own. -/
theorem length_lt_marked (h : content.length < 512) (devname : CString)
    (devices : List BlockDeviceInfo) (h510 : ∀ b, content[510]? = some b → b = 0x55)
    (h450 : content[450]? = some 0xee → content.take 8 = gptSignature) :
    devices.length < (probePartitions (some (.ofContent content)) devname devices
      markedSector markedSector 0).2.length := by
  have htake : content.take 512 = content := List.take_of_length_le (by omega)
  obtain ⟨first, hfirst⟩ : ∃ first, Sector.overlay content markedSector = first := ⟨_, rfl⟩
  have h0 : Sector.overlay (content.take 512) markedSector = first := by rw [htake, hfirst]
  have hf511 : first 511 = 0xaa := by rw [← hfirst, overlay_last h]; rfl
  have hf510 : first 510 = 0x55 := by
    rw [← hfirst]
    refine overlay_marked (by decide) rfl ?_
    rintro ⟨b, hb, hne⟩
    exact hne (h510 b hb)
  by_cases hee : content[450]? = some 0xee
  · have hf450 : first 450 = 0xee := by
      rw [← hfirst]
      exact overlay_apply hee
    have hsig : first.signature = gptSignature := by
      have hlen : 450 < content.length := (List.getElem?_eq_some_iff.mp hee).1
      rw [← hfirst, signature_of_short (by omega), h450 hee]
    obtain ⟨table', htable⟩ := preadHeap_ofContent content 0
      (fromLe32 (first.ptr 80) * fromLe32 (first.ptr 84)).toNat 1024
    rw [probePartitions_gpt devname devices h0 h0 (overlay_next h first) hf510 hf511 hf450 hsig htable]
    exact length_lt_gptListing ..
  · have hf450 : first 450 ≠ 0xee := by
      rw [← hfirst]
      exact overlay_unmarked (by decide) (by decide) hee
    rw [probePartitions_not_gpt h0 h0 (Or.inr (Or.inr (Or.inl hf450))),
      if_neg (by simp [hf510, hf511, hf450])]
    exact Nat.lt_of_lt_of_le (by simp) (length_le_mbrPartitions ..)

/-- A byte that the device does deliver and that no boot sector has keeps it from being listed. -/
theorem probePartitions_decided (h : content.length < 512) (devname : CString)
    (devices : List BlockDeviceInfo) (hcond : (∃ b, content[510]? = some b ∧ b ≠ 0x55) ∨
      (content[450]? = some 0xee ∧ content.take 8 ≠ gptSignature)) (mbr block : Sector) (table : Heap) :
    (probePartitions (some (.ofContent content)) devname devices mbr block table).2 = devices := by
  have htake : content.take 512 = content := List.take_of_length_le (by omega)
  rcases hcond with ⟨b, hb, hne⟩ | ⟨hee, hsig⟩
  · have h510 : ∀ block : Sector, Sector.overlay content block 510 ≠ 0x55 := fun block =>
      ne_of_eq_of_ne (overlay_apply hb) hne
    rw [probePartitions_not_gpt (by rw [htake]) (by rw [htake]) (Or.inl (h510 block)),
      if_pos (Or.inl (h510 mbr))]
  · have hlen : 450 < content.length := (List.getElem?_eq_some_iff.mp hee).1
    have hsig' : (Sector.overlay ((content.drop 512).take 512)
        (Sector.overlay content block)).signature ≠ gptSignature := by
      rw [overlay_next h, signature_of_short (by omega)]
      exact hsig
    have h450 : Sector.overlay content mbr 450 = 0xee := overlay_apply hee
    rw [probePartitions_not_gpt (by rw [htake]) (by rw [htake])
      (Or.inr (Or.inr (Or.inr hsig'))), if_pos (Or.inr (Or.inr h450))]

theorem speaksForItself_of_short (h : content.length < 512) (devname : CString)
    (devices : List BlockDeviceInfo) :
    (∀ mbr block table mbr' block' table',
      (probePartitions (some (.ofContent content)) devname devices mbr block table).2 =
        (probePartitions (some (.ofContent content)) devname devices mbr' block' table').2) ↔
      ((∃ b, content[510]? = some b ∧ b ≠ 0x55) ∨
        (content[450]? = some 0xee ∧ content.take 8 ≠ gptSignature)) := by
  constructor
  · intro hall
    by_contra hcond
    push Not at hcond
    have hmarked := length_lt_marked h devname devices hcond.1 hcond.2
    have hzero : (probePartitions (some (.ofContent content)) devname devices 0 0 0).2 = devices := by
      have htake : content.take 512 = content := List.take_of_length_le (by omega)
      have hmark : Sector.overlay content 0 511 ≠ 0xaa := by rw [overlay_last h]; decide
      rw [probePartitions_not_gpt (by rw [htake]) (by rw [htake]) (Or.inr (Or.inl hmark)),
        if_pos (Or.inr (Or.inl hmark))]
    rw [hall markedSector markedSector 0 0 0 0, hzero] at hmarked
    exact Nat.lt_irrefl _ hmarked
  · intro hcond mbr block table mbr' block' table'
    rw [probePartitions_decided h devname devices hcond, probePartitions_decided h devname devices hcond]

end

/-- The entries listed for a device are the same whatever the buffers held before exactly when the
device speaks for itself. -/
theorem probe_forgets_buffers_iff (content : List UInt8) (devname : CString)
    (devices : List BlockDeviceInfo) :
    (∀ mbr block table mbr' block' table',
      (probePartitions (some (.ofContent content)) devname devices mbr block table).2 =
        (probePartitions (some (.ofContent content)) devname devices mbr' block' table').2) ↔
      SpeaksForItself content := by
  unfold SpeaksForItself
  by_cases h : 512 ≤ content.length
  · rw [if_pos h]
    exact speaksForItself_of_whole h devname devices
  · rw [if_neg h]
    exact speaksForItself_of_short (by omega) devname devices

/-- An empty device is listed as the disk whose boot sector is still in the buffer. -/
theorem probe_remembers_buffers : ¬ ∀ (content : List UInt8) (devname : CString)
    (devices : List BlockDeviceInfo) mbr block table mbr' block' table',
    (probePartitions (some (.ofContent content)) devname devices mbr block table).2 =
      (probePartitions (some (.ofContent content)) devname devices mbr' block' table').2 := by
  intro hall
  have hloop := hall [] (CString.ofString "loop0") [] 0 0 0 markedSector markedSector 0
  revert hloop
  decide

end NervesInitramfs
