import NervesInitramfs.Uboot.Env
import NervesInitramfs.Uboot.Format

/-!
# Proofs: the checksum

The table is the one of the polynomial, so that the loop of `crc32buf` computes the CRC-32, and the
four bytes that the reader puts together are the number they stand for.
-/

namespace NervesInitramfs

open CLib

/-! ## The table -/

/-- Each entry of the table is what eight bits make of its index. -/
theorem crc32Tab_eq : ∀ i < 256,
    (crc32Tab.getD i 0).toBitVec = crcBits crc32Poly 8 (BitVec.ofNat 32 i) := by
  decide +kernel

theorem crc32Poly_top : crc32Poly.getLsbD (32 - 1) := by decide

/-- One step of the loop takes one byte. -/
theorem updc32_eq (octet : UInt8) (crc : UInt32) :
    (updc32 octet crc).toBitVec = crcByte crc32Poly crc.toBitVec octet.toBitVec := by
  set r := (crc ^^^ octet.toUInt32).toBitVec with hr
  have hbyte : r = crc.toBitVec ^^^ octet.toBitVec.setWidth 32 := rfl
  have hlow : ((crc ^^^ octet.toUInt32) &&& 0xff).toNat = (r &&& 255#32).toNat := rfl
  have hlt : (r &&& 255#32).toNat < 256 := by
    rw [BitVec.toNat_and]
    exact Nat.lt_succ_of_le Nat.and_le_right
  have hshift : (crc >>> 8).toBitVec = r >>> 8 := by
    refine BitVec.eq_of_getLsbD_eq fun i hi => ?_
    have h8 : (crc >>> 8).toBitVec = crc.toBitVec >>> 8 := rfl
    rw [h8, hbyte, BitVec.getLsbD_ushiftRight, BitVec.getLsbD_ushiftRight, BitVec.getLsbD_xor,
      BitVec.getLsbD_setWidth, BitVec.getLsbD_of_ge octet.toBitVec (8 + i) (by omega)]
    simp
  calc (updc32 octet crc).toBitVec
      = (crc32Tab.getD (r &&& 255#32).toNat 0).toBitVec ^^^ (crc >>> 8).toBitVec := rfl
    _ = crcBits crc32Poly 8 (r &&& 255#32) ^^^ (r >>> 8) := by
        rw [crc32Tab_eq _ hlt, BitVec.ofNat_toNat, BitVec.setWidth_eq, hshift]
    _ = crcBits crc32Poly 8 r := (crcBits_eight r).symm

/-- `crc32buf` is the CRC-32. -/
theorem crc32buf_eq (buf : List UInt8) : (crc32buf buf).toBitVec = crc32 buf := by
  have hfold : ∀ crc : UInt32, (buf.foldl (fun crc octet => updc32 octet crc) crc).toBitVec
      = crcRegister crc32Poly crc.toBitVec (buf.map UInt8.toBitVec) := by
    induction buf with
    | nil => exact fun _ => rfl
    | cons octet buf ih =>
      intro crc
      rw [List.foldl_cons, ih, updc32_eq]
      rfl
  rw [crc32buf, UInt32.toBitVec_not, hfold]
  rfl

/-! ## The stored checksum -/

theorem storedCrc_eq {block : List UInt8} (h4 : 4 ≤ block.length) :
    (storedCrc block).toBitVec = blockCrc block := by
  match block, h4 with
  | b0 :: b1 :: b2 :: b3 :: rest, _ =>
    show (b0.toUInt32 ||| (b1.toUInt32 <<< 8) ||| (b2.toUInt32 <<< 16)
      ||| (b3.toUInt32 <<< 24)).toBitVec = crcWord 32 [b0.toBitVec, b1.toBitVec, b2.toBitVec, b3.toBitVec]
    have e8 : UInt32.toBitVec 8 % 32 = 8#32 := rfl
    have e16 : UInt32.toBitVec 16 % 32 = 16#32 := rfl
    have e24 : UInt32.toBitVec 24 % 32 = 24#32 := rfl
    refine BitVec.eq_of_getLsbD_eq fun i hi => ?_
    simp only [UInt32.toBitVec_or, UInt32.toBitVec_shiftLeft, UInt8.toBitVec_toUInt32, e8, e16, e24,
      BitVec.shiftLeft_eq', BitVec.toNat_ofNat, BitVec.getLsbD_or, BitVec.getLsbD_shiftLeft,
      BitVec.getLsbD_setWidth, hi]
    -- Bit `i` comes from the byte that it lies in.
    by_cases h1 : i < 8
    · rw [getLsbD_crcWord_cons _ _ hi, if_pos h1]
      simp [h1, show i < 16 by omega, show i < 24 by omega]
    · rw [getLsbD_crcWord_cons _ _ hi, if_neg h1, BitVec.getLsbD_of_ge b0.toBitVec i (by omega)]
      by_cases h2 : i < 16
      · rw [getLsbD_crcWord_cons _ _ (by omega), if_pos (by omega)]
        simp [h1, h2, show i < 24 by omega, show i - 8 < 32 by omega]
      · rw [getLsbD_crcWord_cons _ _ (by omega), if_neg (by omega),
          BitVec.getLsbD_of_ge b1.toBitVec (i - 8) (by omega)]
        by_cases h3 : i < 24
        · rw [getLsbD_crcWord_cons _ _ (by omega), if_pos (by omega)]
          simp [h1, h2, h3, show i - 8 - 8 = i - 16 by omega, show i - 16 < 32 by omega]
        · rw [getLsbD_crcWord_cons _ _ (by omega), if_neg (by omega),
            getLsbD_crcWord_cons _ _ (by omega), if_pos (by omega),
            BitVec.getLsbD_of_ge b2.toBitVec (i - 16) (by omega)]
          simp [h1, h2, h3, show i - 8 - 8 - 8 = i - 24 by omega, show i - 24 < 32 by omega]

/-! ## What a changed block says -/

/-- The stored checksum changes with any of its bytes. -/
theorem blockCrc_injective {block block' : List UInt8} (h4 : 4 ≤ block.length)
    (hlen : block.length = block'.length) (h : blockCrc block = blockCrc block') :
    block.take 4 = block'.take 4 := by
  have hword := crcWord_injective (by simp; omega) (by simp [hlen]) h
  exact List.map_injective_iff.mpr (fun _ _ => UInt8.toBitVec_inj.mp) hword

/-- The CRC-32 of data changes with a window of at most four bytes. -/
theorem crc32_window {before window window' after : List UInt8} (hwindow : window.length ≤ 4)
    (hlen : window.length = window'.length)
    (h : crc32 (before ++ window ++ after) = crc32 (before ++ window' ++ after)) :
    window = window' := by
  have hreg := BitVec.not_inj.mp h
  simp only [List.map_append] at hreg
  have hmap := crcRegister_window crc32Poly_top (by simp; omega) (by simp [hlen]) hreg
  exact List.map_injective_iff.mpr (fun _ _ => UInt8.toBitVec_inj.mp) hmap

end NervesInitramfs
