import NervesInitramfs.CLib.CNumber
import Mathlib.Tactic.Ring

/-!
# Proofs: numbers and their texts

Hexadecimal texts of a fixed width determine the bytes they were made from. A numeral that is read
into an `int` keeps its value modulo `2 ^ 32`, unless it is too long to be read at all. What
`sprintf` writes for an integer is read as that integer.
-/

namespace CLib

theorem digitByte_injective {a b : Nat} (ha : a < 16) (hb : b < 16) (h : digitByte a = digitByte b) :
    a = b := by
  have key : ∀ a < 16, ∀ b < 16, digitByte a = digitByte b → a = b := by decide
  exact key a ha b hb h

@[simp] theorem hexByte_length (b : UInt8) : (hexByte b).length = 2 := rfl

theorem hexByte_injective {a b : UInt8} (h : hexByte a = hexByte b) : a = b := by
  have ha := a.toNat_lt
  have hb := b.toNat_lt
  simp only [hexByte, List.cons.injEq, and_true] at h
  have h1 := digitByte_injective (by omega) (by omega) h.1
  have h2 := digitByte_injective (by omega) (by omega) h.2
  exact UInt8.toNat_inj.mp (by omega)

/-- A sequence of bytes in hexadecimal determines the bytes. -/
theorem flatMap_hexByte_injective {a b : List UInt8} (h : a.flatMap hexByte = b.flatMap hexByte) :
    a = b := by
  induction a generalizing b with
  | nil =>
    cases b with
    | nil => rfl
    | cons y b => simp [hexByte] at h
  | cons x a ih =>
    cases b with
    | nil => simp [hexByte] at h
    | cons y b =>
      simp only [List.flatMap_cons] at h
      obtain ⟨h1, h2⟩ := List.append_inj h rfl
      rw [hexByte_injective h1, ih h2]

/-- What is left of a numeral when it has gone through `strtoul` or `strtoull` and an `int`. -/
theorem toInt_strtou {bits : Nat} (hbits : 32 ≤ bits) (base : Nat) (s : List UInt8) :
    (toInt32 (strtou bits base s)).toInt = if 2 ^ bits ≤ (scanInteger base s).2 then -1
      else (denotedInteger base s).bmod 4294967296 := by
  obtain ⟨k, hk⟩ : ∃ k : Nat, 2 ^ bits = 4294967296 * k :=
    ⟨2 ^ (bits - 32), by rw [show 4294967296 = 2 ^ 32 from rfl, ← pow_add]; congr 1; omega⟩
  have hpos : 0 < k := by
    rcases Nat.eq_zero_or_pos k with rfl | hk0
    · have := Nat.two_pow_pos bits
      omega
    · exact hk0
  unfold toInt32 strtou denotedInteger
  rw [Int32.toInt_ofInt]
  generalize scanInteger base s = m
  obtain ⟨neg, m⟩ := m
  simp only [Int32.size, hk]
  by_cases hm : 4294967296 * k ≤ m
  · have hcast : ((4294967296 * k - 1 : Nat) : Int) = 4294967296 * k - 1 := by omega
    rw [if_pos hm, if_pos hm, hcast, Int.bmod_def]
    omega
  · rw [if_neg hm, if_neg hm]
    cases neg with
    | false => rfl
    | true =>
      simp only [if_true]
      rcases Nat.eq_zero_or_pos m with rfl | hm0
      · simp
      · have hcast : ((4294967296 * k - m : Nat) : Int) = 4294967296 * k - m := by omega
        rw [Nat.mod_eq_of_lt (by omega), hcast, Int.bmod_def, Int.bmod_def]
        omega

/-! ## Decimal texts -/

/-- A byte that is a decimal digit. -/
def IsDigit (c : UInt8) : Prop := 48 ≤ c ∧ c ≤ 57

theorem isDigit_digitByte {d : Nat} (h : d < 10) : IsDigit (digitByte d) := by
  have key : ∀ d < 10, 48 ≤ digitByte d ∧ digitByte d ≤ 57 := by decide
  exact key d h

theorem digitValue_digitByte {d : Nat} (h : d < 10) : digitValue (digitByte d) = some d := by
  have key : ∀ d < 10, digitValue (digitByte d) = some d := by decide
  exact key d h

theorem digitByte_eq_zero {d : Nat} (h : d < 10) : digitByte d = 48 ↔ d = 0 := by
  have key : ∀ d < 10, digitByte d = 48 ↔ d = 0 := by decide
  exact key d h

/-- More rounds than there are digits change nothing. -/
theorem decimalDigits_fuel {fuel n : Nat} (h : n < fuel) :
    decimalDigits fuel n = decimalDigits (n + 1) n := by
  induction n using Nat.strong_induction_on generalizing fuel with
  | _ n ih =>
    obtain ⟨fuel, rfl⟩ : ∃ k, fuel = k + 1 := ⟨fuel - 1, by omega⟩
    rw [decimalDigits, decimalDigits]
    by_cases hn : n < 10
    · rw [if_pos hn, if_pos hn]
    · have hless : n / 10 < n := by omega
      have hfuel : n / 10 < fuel := by omega
      rw [if_neg hn, if_neg hn, ih (n / 10) hless hfuel, ih (n / 10) hless hless]

theorem decimal_eq (n : Nat) :
    decimal n = (if n < 10 then [] else decimal (n / 10)) ++ [digitByte (n % 10)] := by
  rw [decimal, decimalDigits, List.reverse_cons]
  by_cases hn : n < 10
  · rw [if_pos hn, if_pos hn]
    rfl
  · rw [if_neg hn, if_neg hn, decimalDigits_fuel (show n / 10 < n by omega)]
    rfl

theorem decimal_ne_nil (n : Nat) : decimal n ≠ [] := by
  rw [decimal_eq]
  simp

theorem length_decimal_le {n k : Nat} (h : n < 10 ^ (k + 1)) : (decimal n).length ≤ k + 1 := by
  induction k generalizing n with
  | zero =>
    have hn : n < 10 := h
    rw [decimal_eq, if_pos hn]
    exact Nat.le_refl 1
  | succ k ih =>
    rw [decimal_eq, List.length_append, List.length_singleton]
    by_cases hn : n < 10
    · rw [if_pos hn]
      exact Nat.succ_le_succ (Nat.zero_le _)
    · rw [if_neg hn]
      have hless : n / 10 < 10 ^ (k + 1) := by
        rw [pow_succ] at h
        omega
      exact Nat.succ_le_succ (ih hless)

theorem isDigit_of_mem_decimal {n : Nat} {c : UInt8} (h : c ∈ decimal n) : IsDigit c := by
  induction n using Nat.strong_induction_on with
  | _ n ih =>
    rw [decimal_eq, List.mem_append, List.mem_singleton] at h
    rcases h with h | rfl
    · by_cases hn : n < 10
      · rw [if_pos hn] at h
        exact nomatch h
      · rw [if_neg hn] at h
        exact ih (n / 10) (by omega) h
    · exact isDigit_digitByte (Nat.mod_lt n (by omega))

/-- The first digit is zero for the number zero only. -/
theorem head_decimal {n : Nat} (h : (decimal n).head? = some 48) : n = 0 := by
  induction n using Nat.strong_induction_on with
  | _ n ih =>
    rw [decimal_eq] at h
    by_cases hn : n < 10
    · rw [if_pos hn, Nat.mod_eq_of_lt hn] at h
      exact (digitByte_eq_zero hn).mp (Option.some.inj h)
    · rw [if_neg hn, List.head?_append_of_ne_nil _ (decimal_ne_nil _)] at h
      have hzero := ih (n / 10) (by omega) h
      omega

theorem digitsValue_append {base acc d : Nat} {l : List UInt8} {c : UInt8}
    (hl : ∀ x ∈ l, ∃ e, digitValue x = some e ∧ e < base) (hc : digitValue c = some d)
    (hd : d < base) : digitsValue base acc (l ++ [c]) = digitsValue base acc l * base + d := by
  induction l generalizing acc with
  | nil => simp only [List.nil_append, digitsValue, hc, if_pos hd]
  | cons x l ih =>
    obtain ⟨e, hx, he⟩ := hl x (.head l)
    simp only [List.cons_append, digitsValue, hx, if_pos he]
    exact ih fun y hy => hl y (.tail x hy)

theorem digitValue_of_isDigit {c : UInt8} (h : IsDigit c) : ∃ d, digitValue c = some d ∧ d < 10 := by
  obtain ⟨hlow, hhigh⟩ := h
  refine ⟨c.toNat - 48, if_pos ⟨hlow, hhigh⟩, ?_⟩
  rw [UInt8.le_iff_toNat_le] at hlow hhigh
  simp at hhigh
  omega

theorem digitsValue_decimal (n : Nat) : digitsValue 10 0 (decimal n) = n := by
  induction n using Nat.strong_induction_on with
  | _ n ih =>
    have hlast := Nat.mod_lt n (show 0 < 10 by omega)
    rw [decimal_eq]
    by_cases hn : n < 10
    · rw [if_pos hn, digitsValue_append (by simp) (digitValue_digitByte hlast) hlast]
      show 0 * 10 + n % 10 = n
      omega
    · rw [if_neg hn, digitsValue_append (fun x hx => digitValue_of_isDigit (isDigit_of_mem_decimal hx))
        (digitValue_digitByte hlast) hlast, ih (n / 10) (by omega)]
      omega

/-- A numeral that does not begin with a zero has no prefix. -/
theorem scanBase_of_ne {c : UInt8} (hc : c ≠ 48) (base : Nat) (l : List UInt8) :
    scanBase base (c :: l) = (if base = 0 then 10 else base, c :: l) := by
  unfold scanBase
  split
  · rename_i heq
    exact absurd (List.cons.inj heq).1 hc
  · rename_i heq
    exact absurd (List.cons.inj heq).1 hc
  · rfl

theorem scanBase_decimal (n : Nat) :
    digitsValue (scanBase 0 (decimal n)).1 0 (scanBase 0 (decimal n)).2 = n := by
  by_cases hn : n = 0
  · subst hn
    rfl
  · have hhead : (decimal n).head? ≠ some 48 := fun h => hn (head_decimal h)
    have hbase : scanBase 0 (decimal n) = (10, decimal n) := by
      cases hl : decimal n with
      | nil => rfl
      | cons c rest =>
        rw [hl] at hhead
        exact scanBase_of_ne (fun h => hhead (congrArg some h)) 0 rest
    rw [hbase]
    exact digitsValue_decimal n

theorem isspace_of_isDigit {c : UInt8} (h : IsDigit c) : isspace c = false := by
  obtain ⟨hlow, hhigh⟩ := h
  unfold isspace
  grind

/-- In front of a digit nothing is skipped. -/
theorem scanSign_digits {c : UInt8} (h : IsDigit c) (rest : List UInt8) :
    scanSign ((c :: rest).dropWhile isspace) = (false, c :: rest) := by
  rw [List.dropWhile_cons, if_neg (by rw [isspace_of_isDigit h]; simp)]
  obtain ⟨hlow, hhigh⟩ := h
  unfold scanSign
  split
  · rename_i heq
    obtain rfl := (List.cons.inj heq).1
    exact absurd hlow (by decide)
  · rename_i heq
    obtain rfl := (List.cons.inj heq).1
    exact absurd hlow (by decide)
  · rfl

/-- `strtoull` finds the sign and the digits that `sprintf` has written. -/
theorem scanInteger_decimalInt (k : Int) : scanInteger 0 (decimalInt k) = (decide (k < 0), k.natAbs) := by
  unfold decimalInt scanInteger
  by_cases hk : k < 0
  · rw [if_pos hk, decide_eq_true hk]
    have hspace : (45 :: decimal k.natAbs).dropWhile isspace = 45 :: decimal k.natAbs := rfl
    simp only [hspace, scanSign, scanBase_decimal]
  · rw [if_neg hk, decide_eq_false hk]
    have hsign : scanSign ((decimal k.natAbs).dropWhile isspace) = (false, decimal k.natAbs) := by
      have hdigits : ∀ c ∈ decimal k.natAbs, IsDigit c := fun c hc => isDigit_of_mem_decimal hc
      cases hl : decimal k.natAbs with
      | nil => exact absurd hl (decimal_ne_nil _)
      | cons c rest =>
        rw [hl] at hdigits
        exact scanSign_digits (hdigits c (.head rest)) rest
    simp only [hsign, scanBase_decimal]

theorem denotedInteger_decimalInt (k : Int) : denotedInteger 0 (decimalInt k) = k := by
  rw [denotedInteger, scanInteger_decimalInt]
  by_cases hk : k < 0
  · simp only [decide_eq_true hk, if_true]
    omega
  · simp only [decide_eq_false hk]
    show (k.natAbs : Int) = k
    omega

/-- An `int` that goes through `sprintf` and `strtoull` comes back. -/
theorem toInt32_decimalInt (k : Int32) : toInt32 (strtou 64 0 (decimalInt k.toInt)) = k := by
  have hlow := k.le_toInt
  have hhigh := k.toInt_lt
  apply Int32.toInt_inj.mp
  rw [toInt_strtou (by decide), scanInteger_decimalInt, denotedInteger_decimalInt, if_neg (by simp; omega),
    Int.bmod_def]
  omega

theorem nulFree_decimalInt (k : Int) : (0 : UInt8) ∉ decimalInt k := by
  have hdigits : (0 : UInt8) ∉ decimal k.natAbs := fun h =>
    absurd (isDigit_of_mem_decimal h).1 (by decide)
  unfold decimalInt
  by_cases hk : k < 0
  · rw [if_pos hk]
    intro h
    rcases List.mem_cons.mp h with h | h
    · exact absurd h (by decide)
    · exact hdigits h
  · rw [if_neg hk]
    exact hdigits

theorem decimalInt_ne_nil (k : Int) : decimalInt k ≠ [] := by
  unfold decimalInt
  by_cases hk : k < 0
  · rw [if_pos hk]
    exact List.cons_ne_nil 45 _
  · rw [if_neg hk]
    exact decimal_ne_nil k.natAbs

theorem decimalInt_injective {k l : Int} (h : decimalInt k = decimalInt l) : k = l := by
  rw [← denotedInteger_decimalInt k, h, denotedInteger_decimalInt]

/-! ## Numerals that are read in two bases -/

theorem le_digitsValue {base : Nat} (hbase : 0 < base) (acc : Nat) (l : List UInt8) :
    acc ≤ digitsValue base acc l := by
  induction l generalizing acc with
  | nil => exact Nat.le_refl acc
  | cons c l ih =>
    rw [digitsValue]
    cases digitValue c with
    | none => exact Nat.le_refl acc
    | some d =>
      by_cases hd : d < base
      · simp only [if_pos hd]
        have hgrows : acc ≤ acc * base + d := Nat.le_add_right_of_le (Nat.le_mul_of_pos_right acc hbase)
        exact hgrows.trans (ih _)
      · simp only [if_neg hd]
        exact Nat.le_refl acc

/-- Reading on in base 8 what is read on in base 10 does not catch up. -/
theorem digitsValue_octal_add {acc acc' : Nat} (h : acc ≤ acc') {l : List UInt8}
    (hl : ∀ c ∈ l, IsDigit c) : digitsValue 8 acc l + (acc' - acc) ≤ digitsValue 10 acc' l := by
  induction l generalizing acc acc' with
  | nil =>
    show acc + (acc' - acc) ≤ acc'
    omega
  | cons c l ih =>
    obtain ⟨d, hc, hd⟩ := digitValue_of_isDigit (hl c (.head l))
    rw [digitsValue, digitsValue]
    simp only [hc, if_pos hd]
    by_cases hoctal : d < 8
    · have hrest := ih (show acc * 8 + d ≤ acc' * 10 + d by omega) fun x hx => hl x (.tail c hx)
      simp only [if_pos hoctal]
      omega
    · have hrest := le_digitsValue (show 0 < 10 by omega) (acc' * 10 + d) l
      simp only [if_neg hoctal]
      omega

theorem digitsValue_octal_le {l : List UInt8} (hl : ∀ c ∈ l, IsDigit c) :
    digitsValue 8 0 l ≤ digitsValue 10 0 l := digitsValue_octal_add (Nat.le_refl 0) hl

/-- Digits have one value in base 8 and base 10 when there is one digit that counts. -/
theorem digitsValue_octal_iff {l : List UInt8} (hl : ∀ c ∈ l, IsDigit c) :
    digitsValue 8 0 l = digitsValue 10 0 l ↔ digitsValue 10 0 l < 8 := by
  induction l with
  | nil => simp [digitsValue]
  | cons c l ih =>
    obtain ⟨d, hc, hd⟩ := digitValue_of_isDigit (hl c (.head l))
    have hrest : ∀ x ∈ l, IsDigit x := fun x hx => hl x (.tail c hx)
    rw [digitsValue, digitsValue]
    simp only [hc, if_pos hd, Nat.zero_mul, Nat.zero_add]
    by_cases hoctal : d < 8
    · simp only [if_pos hoctal]
      rcases Nat.eq_zero_or_pos d with rfl | hpos
      · exact ih hrest
      · cases l with
        | nil => simp [digitsValue, hoctal]
        | cons e l =>
          obtain ⟨f, he, hf⟩ := digitValue_of_isDigit (hrest e (.head l))
          have htail : ∀ x ∈ l, IsDigit x := fun x hx => hrest x (.tail e hx)
          have hlow := le_digitsValue (show 0 < 10 by omega) (d * 10 + f) l
          rw [digitsValue, digitsValue]
          simp only [he, if_pos hf]
          by_cases hoctal' : f < 8
          · have hless := digitsValue_octal_add (show d * 8 + f ≤ d * 10 + f by omega) htail
            simp only [if_pos hoctal']
            omega
          · simp only [if_neg hoctal']
            omega
    · have hlow := le_digitsValue (show 0 < 10 by omega) d l
      simp only [if_neg hoctal]
      omega

/-- A numeral of decimal digits is read in base 8 where the base is left open and it begins with a
zero. -/
theorem scanInteger_digits {c : UInt8} {l : List UInt8} (hl : ∀ x ∈ c :: l, IsDigit x) :
    scanInteger 10 (c :: l) = (false, digitsValue 10 0 (c :: l)) ∧
      scanInteger 0 (c :: l) = (false, digitsValue (if c = 48 then 8 else 10) 0 (c :: l)) := by
  have hsign := scanSign_digits (hl c (.head l)) l
  have hprefix : ∀ x ∈ l, ¬(x = 120 ∨ x = 88) := by
    rintro x hx (rfl | rfl)
    · exact absurd (hl _ (.tail c hx)).2 (by decide)
    · exact absurd (hl _ (.tail c hx)).2 (by decide)
  have hbase : ∀ base, base = 0 ∨ base = 10 → scanBase base (c :: l) =
      (if base = 0 then if c = 48 then 8 else 10 else base, c :: l) := by
    intro base hbase
    by_cases hc : c = 48
    · subst hc
      cases l with
      | nil => rcases hbase with rfl | rfl <;> rfl
      | cons x l =>
        rw [scanBase, if_neg fun h => hprefix x (.head l) h.2.1]
        rfl
    · rw [scanBase_of_ne hc, if_neg hc]
  unfold scanInteger
  simp only [hsign, hbase 10 (.inr rfl), hbase 0 (.inl rfl)]
  exact ⟨rfl, rfl⟩

/-- A numeral with `0x` in front of a hexadecimal digit is the same where the base is left open. -/
theorem scanInteger_hex {c : UInt8} {l : List UInt8} (hc : startsHex (c :: l) = true) :
    scanInteger 16 (48 :: 120 :: c :: l) = (false, digitsValue 16 0 (c :: l)) ∧
      scanInteger 0 (48 :: 120 :: c :: l) = (false, digitsValue 16 0 (c :: l)) := by
  have hsign : scanSign ((48 :: 120 :: c :: l).dropWhile isspace) = (false, 48 :: 120 :: c :: l) :=
    rfl
  unfold scanInteger
  simp only [hsign, scanBase, hc]
  exact ⟨rfl, rfl⟩

/-- A number without a sign that has room in the type comes out as it is. -/
theorem strtou_eq {bits base m : Nat} {s : List UInt8} (h : scanInteger base s = (false, m))
    (hm : m < 2 ^ bits) : strtou bits base s = m := by
  rw [strtou, h]
  simp only [if_neg (Nat.not_le.mpr hm)]
  rfl

theorem toInt32_injective {m n : Nat} (hm : m < 2 ^ 32) (hn : n < 2 ^ 32) (h : toInt32 m = toInt32 n) :
    m = n := by
  have hint := congrArg Int32.toInt h
  unfold toInt32 at hint
  rw [Int32.toInt_ofInt, Int32.toInt_ofInt] at hint
  simp only [Int32.size, Int.bmod_def] at hint
  omega

end CLib
