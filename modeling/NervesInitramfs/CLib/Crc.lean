import Mathlib.Data.List.Basic
import Mathlib.Logic.Function.Iterate

/-!
# Cyclic redundancy checks

A check sum of `n` bits as a shift register that takes the least significant bit of each byte first.
The register is linear in exclusive or, and when the polynomial has its constant term no bit of it
is lost. So a change inside as many bytes as the register has never goes unnoticed.
-/

namespace CLib

variable {n : Nat}

/-- The register after one bit. -/
def crcBit (poly r : BitVec n) : BitVec n := if r.getLsbD 0 then (r >>> 1) ^^^ poly else r >>> 1

/-- The register after `k` bits. -/
def crcBits (poly : BitVec n) : (k : Nat) → BitVec n → BitVec n
  | 0, r => r
  | k + 1, r => crcBits poly k (crcBit poly r)

/-- The register after a byte. -/
def crcByte (poly r : BitVec n) (octet : BitVec 8) : BitVec n :=
  crcBits poly 8 (r ^^^ octet.setWidth n)

/-- The register after some bytes. -/
def crcRegister (poly r : BitVec n) (data : List (BitVec 8)) : BitVec n :=
  data.foldl (crcByte poly) r

/-- The check sum: the register starts with all bits set, and is complemented at the end. -/
def crc (poly : BitVec n) (data : List (BitVec 8)) : BitVec n :=
  ~~~(crcRegister poly (BitVec.allOnes n) data)

variable {poly : BitVec n}

/-! ## Linearity -/

theorem getLsbD_crcBit (r : BitVec n) (i : Nat) :
    (crcBit poly r).getLsbD i = (r.getLsbD (1 + i) ^^ (r.getLsbD 0 && poly.getLsbD i)) := by
  unfold crcBit
  by_cases hr : r.getLsbD 0
  · simp [hr]
  · simp [hr]

theorem crcBit_xor (a b : BitVec n) : crcBit poly (a ^^^ b) = crcBit poly a ^^^ crcBit poly b := by
  refine BitVec.eq_of_getLsbD_eq fun i _ => ?_
  simp only [getLsbD_crcBit, BitVec.getLsbD_xor]
  cases a.getLsbD 0 <;> cases b.getLsbD 0 <;> cases poly.getLsbD i <;> simp

theorem crcBits_xor (k : Nat) (a b : BitVec n) :
    crcBits poly k (a ^^^ b) = crcBits poly k a ^^^ crcBits poly k b := by
  induction k generalizing a b with
  | zero => rfl
  | succ k ih => rw [crcBits, crcBit_xor, ih]; rfl

theorem crcBits_add (k m : Nat) (r : BitVec n) :
    crcBits poly (k + m) r = crcBits poly m (crcBits poly k r) := by
  induction k generalizing r with
  | zero => rw [Nat.zero_add]; rfl
  | succ k ih => rw [Nat.add_right_comm]; exact ih _

/-- Bits that are not set are shifted out. -/
theorem crcBits_shift {k : Nat} {r : BitVec n} (h : ∀ i < k, r.getLsbD i = false) :
    crcBits poly k r = r >>> k := by
  induction k generalizing r with
  | zero => rw [BitVec.ushiftRight_zero]; rfl
  | succ k ih =>
    have hbit : crcBit poly r = r >>> 1 := by
      rw [crcBit, h 0 (Nat.succ_pos k)]
      rfl
    rw [crcBits, hbit, ih, ← BitVec.shiftRight_add, Nat.add_comm]
    intro i hi
    rw [BitVec.getLsbD_ushiftRight]
    exact h (1 + i) (by omega)

/-! ## No bit is lost -/

/-- The bit that is shifted out decides the most significant bit of the new register. -/
theorem crcBit_injective (hpoly : poly.getLsbD (n - 1)) :
    Function.Injective (crcBit poly) := by
  intro a b hab
  have hn : 0 < n := by
    by_contra h0
    rw [BitVec.getLsbD_of_ge poly (n - 1) (by omega)] at hpoly
    cases hpoly
  have htop : ∀ r : BitVec n, (crcBit poly r).getLsbD (n - 1) = r.getLsbD 0 := by
    intro r
    rw [getLsbD_crcBit, hpoly, BitVec.getLsbD_of_ge r (1 + (n - 1)) (by omega), Bool.and_true,
      Bool.false_xor]
  have hlow : a.getLsbD 0 = b.getLsbD 0 := by rw [← htop, ← htop, hab]
  have hshift : a >>> 1 = b >>> 1 := by
    unfold crcBit at hab
    rw [hlow] at hab
    split_ifs at hab
    · exact (BitVec.xor_left_inj poly).mp hab
    · exact hab
  refine BitVec.eq_of_getLsbD_eq fun i _ => ?_
  cases i with
  | zero => exact hlow
  | succ i =>
    have hi := congrArg (fun r => r.getLsbD i) hshift
    simpa [BitVec.getLsbD_ushiftRight, Nat.add_comm] using hi

theorem crcBits_injective (hpoly : poly.getLsbD (n - 1)) (k : Nat) :
    Function.Injective (crcBits poly k) := by
  induction k with
  | zero => exact fun a b h => h
  | succ k ih => exact fun a b h => crcBit_injective hpoly (ih h)

theorem crcByte_injective (hpoly : poly.getLsbD (n - 1)) (octet : BitVec 8) :
    Function.Injective fun r => crcByte poly r octet := fun _ _ h =>
  (BitVec.xor_left_inj _).mp (crcBits_injective hpoly 8 h)

/-- Different registers stay different. -/
theorem crcRegister_injective (hpoly : poly.getLsbD (n - 1)) (data : List (BitVec 8)) :
    Function.Injective fun r => crcRegister poly r data := by
  induction data with
  | nil => exact fun a b h => h
  | cons octet data ih => exact fun a b h => crcByte_injective hpoly octet (ih h)

/-! ## A window of bytes -/

/-- The bytes as one word, the first of them least significant. -/
def crcWord (n : Nat) : List (BitVec 8) → BitVec n
  | [] => 0
  | octet :: data => octet.setWidth n ^^^ (crcWord n data <<< 8)

theorem getLsbD_crcWord {data : List (BitVec 8)} {i : Nat} (hi : 8 * data.length ≤ i) :
    (crcWord n data).getLsbD i = false := by
  induction data generalizing i with
  | nil => exact BitVec.getLsbD_zero
  | cons octet data ih =>
    rw [List.length_cons] at hi
    rw [crcWord, BitVec.getLsbD_xor, BitVec.getLsbD_setWidth, BitVec.getLsbD_shiftLeft,
      BitVec.getLsbD_of_ge octet i (by omega), ih (by omega)]
    simp

theorem getLsbD_crcWord_cons (octet : BitVec 8) (data : List (BitVec 8)) {i : Nat} (hi : i < n) :
    (crcWord n (octet :: data)).getLsbD i =
      if i < 8 then octet.getLsbD i else (crcWord n data).getLsbD (i - 8) := by
  rw [crcWord, BitVec.getLsbD_xor, BitVec.getLsbD_setWidth, BitVec.getLsbD_shiftLeft]
  by_cases h8 : i < 8
  · simp [h8, hi]
  · simp [h8, hi, BitVec.getLsbD_of_ge octet i (by omega)]

/-- Bytes that fit in the register are taken like one word. -/
theorem crcRegister_eq {data : List (BitVec 8)} (hdata : 8 * data.length ≤ n) (r : BitVec n) :
    crcRegister poly r data = crcBits poly (8 * data.length) (r ^^^ crcWord n data) := by
  induction data generalizing r with
  | nil => exact (congrArg (crcBits poly 0) BitVec.xor_zero).symm
  | cons octet data ih =>
    rw [List.length_cons] at hdata
    have hshift : crcBits poly 8 (crcWord n data <<< 8) = crcWord n data := by
      rw [crcBits_shift]
      · refine BitVec.eq_of_getLsbD_eq fun i hi => ?_
        rw [BitVec.getLsbD_ushiftRight, BitVec.getLsbD_shiftLeft]
        by_cases hin : 8 + i < n
        · simp [hin]
        · have hout : (crcWord n data).getLsbD i = false := getLsbD_crcWord (by omega)
          simp [hin, hout]
      · intro i hi
        simp [BitVec.getLsbD_shiftLeft, hi]
    show crcRegister poly (crcByte poly r octet) data = _
    rw [ih (by omega), List.length_cons, Nat.mul_add, Nat.add_comm, crcBits_add, crcWord, crcByte,
      ← BitVec.xor_assoc, crcBits_xor _ (r ^^^ octet.setWidth n), hshift]

theorem crcWord_injective {data data' : List (BitVec 8)} (hdata : 8 * data.length ≤ n)
    (hlen : data.length = data'.length) (h : crcWord n data = crcWord n data') : data = data' := by
  induction data generalizing data' with
  | nil => exact (List.length_eq_zero_iff.mp hlen.symm).symm
  | cons octet data ih =>
    cases data' with
    | nil => cases hlen
    | cons octet' data' =>
      rw [List.length_cons] at hdata
      have hoctet : octet = octet' := by
        refine BitVec.eq_of_getLsbD_eq fun i hi => ?_
        have hbit := congrArg (fun word => word.getLsbD i) h
        rwa [getLsbD_crcWord_cons _ _ (by omega), getLsbD_crcWord_cons _ _ (by omega), if_pos hi,
          if_pos hi] at hbit
      have hrest : crcWord n data = crcWord n data' := by
        refine BitVec.eq_of_getLsbD_eq fun i hi => ?_
        by_cases hin : i + 8 < n
        · have hbit := congrArg (fun word => word.getLsbD (i + 8)) h
          rwa [getLsbD_crcWord_cons _ _ hin, getLsbD_crcWord_cons _ _ hin, if_neg (by omega),
            if_neg (by omega), Nat.add_sub_cancel] at hbit
        · have hlen' := Nat.succ.inj hlen
          rw [getLsbD_crcWord (by omega), getLsbD_crcWord (by omega)]
      rw [hoctet, ih (by omega) (Nat.succ.inj hlen) hrest]

/-- A change inside a window of bytes that fits in the register changes what the register holds in
the end. -/
theorem crcRegister_window (hpoly : poly.getLsbD (n - 1)) {r : BitVec n}
    {before window window' after : List (BitVec 8)} (hwindow : 8 * window.length ≤ n)
    (hlen : window.length = window'.length)
    (h : crcRegister poly r (before ++ window ++ after)
      = crcRegister poly r (before ++ window' ++ after)) : window = window' := by
  have happend : ∀ (r : BitVec n) (data rest : List (BitVec 8)), crcRegister poly r (data ++ rest)
      = crcRegister poly (crcRegister poly r data) rest := fun r data rest => List.foldl_append
  rw [happend, happend, happend, happend] at h
  have hwindow' : 8 * window'.length ≤ n := by
    rw [← hlen]
    exact hwindow
  have hmid : crcRegister poly (crcRegister poly r before) window
      = crcRegister poly (crcRegister poly r before) window' := crcRegister_injective hpoly after h
  rw [crcRegister_eq hwindow, crcRegister_eq hwindow', ← hlen] at hmid
  exact crcWord_injective hwindow hlen
    ((BitVec.xor_right_inj _).mp (crcBits_injective hpoly _ hmid))

/-! ## The table -/

/-- Eight bits at once: the low byte is looked up, and the other bits move down. -/
theorem crcBits_eight (r : BitVec n) :
    crcBits poly 8 r = crcBits poly 8 (r &&& 255#n) ^^^ (r >>> 8) := by
  have hmask : ∀ i < n, (255#n).getLsbD i = decide (i < 8) := by
    intro i hi
    rw [BitVec.getLsbD_ofNat, show (255 : Nat) = 2 ^ 8 - 1 by rfl, Nat.testBit_two_pow_sub_one]
    simp [hi]
  have hsplit : r = (r &&& 255#n) ^^^ (r &&& ~~~255#n) := by
    refine BitVec.eq_of_getLsbD_eq fun i hi => ?_
    simp only [BitVec.getLsbD_xor, BitVec.getLsbD_and, BitVec.getLsbD_not, hi]
    cases r.getLsbD i <;> cases (255#n).getLsbD i <;> rfl
  have hhigh : crcBits poly 8 (r &&& ~~~255#n) = r >>> 8 := by
    rw [crcBits_shift]
    · refine BitVec.eq_of_getLsbD_eq fun i hi => ?_
      by_cases hin : 8 + i < n
      · rw [BitVec.getLsbD_ushiftRight, BitVec.getLsbD_ushiftRight, BitVec.getLsbD_and,
          BitVec.getLsbD_not, hmask _ hin]
        simp [hin]
      · simp [BitVec.getLsbD_of_ge r (8 + i) (by omega)]
    · intro i hi
      by_cases hin : i < n
      · rw [BitVec.getLsbD_and, BitVec.getLsbD_not, hmask _ hin]
        simp [hi]
      · exact BitVec.getLsbD_of_ge _ i (by omega)
  calc crcBits poly 8 r
      = crcBits poly 8 ((r &&& 255#n) ^^^ (r &&& ~~~255#n)) := congrArg _ hsplit
    _ = crcBits poly 8 (r &&& 255#n) ^^^ (r >>> 8) := by rw [crcBits_xor, hhigh]

end CLib
