import NervesInitramfs.CLib.CString
import Mathlib.Tactic.Linarith
import Mathlib.Data.List.Perm.Basic
import Mathlib.Tactic.Ring

/-!
# Proofs: C strings

`strcmp` is a linear order on C strings, `strndup` finds the string in front of a terminator again,
and the stores of `memcpy` change the bytes of their window only.
-/

namespace CLib

/-! ## `strcmp` -/

@[simp] theorem strcmpBytes_self (a : List UInt8) : strcmpBytes a a = 0 := by
  induction a with
  | nil => rfl
  | cons x a ih => simp [strcmpBytes, ih]

theorem strcmpBytes_swap (a b : List UInt8) : strcmpBytes a b = -strcmpBytes b a := by
  induction a generalizing b with
  | nil => cases b <;> simp [strcmpBytes]
  | cons x a ih =>
    cases b with
    | nil => simp [strcmpBytes]
    | cons y b =>
      by_cases h : x = y
      · simp [strcmpBytes, h, ih b]
      · have h' : ¬ y = x := fun e => h e.symm
        simp [strcmpBytes, h, h']

/-- A byte of a C string is positive. -/
theorem toNat_pos_of_ne {x : UInt8} (h : (0 : UInt8) ≠ x) : 0 < x.toNat := by
  rcases Nat.eq_zero_or_pos x.toNat with h0 | h0
  · exact absurd (UInt8.toNat_inj.mp (by simpa using h0.symm)) h
  · exact h0

theorem strcmpBytes_eq_zero {a b : List UInt8} (ha : (0 : UInt8) ∉ a) (hb : (0 : UInt8) ∉ b)
    (h : strcmpBytes a b = 0) : a = b := by
  induction a generalizing b with
  | nil =>
    cases b with
    | nil => rfl
    | cons y b =>
      have := toNat_pos_of_ne (fun e => hb (by simp [← e]) : (0 : UInt8) ≠ y)
      simp only [strcmpBytes] at h
      omega
  | cons x a ih =>
    have hx := toNat_pos_of_ne (fun e => ha (by simp [← e]) : (0 : UInt8) ≠ x)
    cases b with
    | nil => simp only [strcmpBytes] at h; omega
    | cons y b =>
      by_cases hxy : x = y
      · subst hxy
        simp only [strcmpBytes, if_true] at h
        rw [ih (fun e => ha (by simp [e])) (fun e => hb (by simp [e])) h]
      · simp only [strcmpBytes, hxy, if_false] at h
        exact absurd (UInt8.toNat_inj.mp (by omega)) hxy

theorem strcmpBytes_trans {a b c : List UInt8} (ha : (0 : UInt8) ∉ a) (hb : (0 : UInt8) ∉ b)
    (hc : (0 : UInt8) ∉ c) (hab : strcmpBytes a b ≤ 0) (hbc : strcmpBytes b c ≤ 0) :
    strcmpBytes a c ≤ 0 := by
  induction a generalizing b c with
  | nil => cases c <;> simp [strcmpBytes]
  | cons x a ih =>
    have hx := toNat_pos_of_ne (fun e => ha (by simp [← e]) : (0 : UInt8) ≠ x)
    cases b with
    | nil => simp only [strcmpBytes] at hab; omega
    | cons y b =>
      have hy := toNat_pos_of_ne (fun e => hb (by simp [← e]) : (0 : UInt8) ≠ y)
      cases c with
      | nil => simp only [strcmpBytes] at hbc; omega
      | cons z c =>
        by_cases hxy : x = y
        · subst hxy
          by_cases hxz : x = z
          · subst hxz
            simp only [strcmpBytes, if_true] at hab hbc ⊢
            exact ih (fun e => ha (by simp [e])) (fun e => hb (by simp [e]))
              (fun e => hc (by simp [e])) hab hbc
          · simpa only [strcmpBytes, hxz, if_false] using hbc
        · simp only [strcmpBytes, hxy, if_false] at hab
          have hlt : x.toNat < y.toNat := by
            have hne : x.toNat ≠ y.toNat := fun e => hxy (UInt8.toNat_inj.mp e)
            omega
          have hyz : y.toNat ≤ z.toNat := by
            by_cases e : y = z
            · rw [e]
            · simp only [strcmpBytes, e, if_false] at hbc; omega
          have hxz : ¬ x = z := fun e => by rw [e] at hlt; omega
          simp only [strcmpBytes, hxz, if_false]
          omega

theorem strcmp_eq_zero {a b : CString} : strcmp a b = 0 ↔ a = b :=
  ⟨fun h => CString.ext (strcmpBytes_eq_zero a.nulFree b.nulFree h), fun h => by simp [strcmp, h]⟩

@[simp] theorem strcmp_self (a : CString) : strcmp a a = 0 := strcmp_eq_zero.mpr rfl

theorem strcmp_trans {a b c : CString} (hab : strcmp a b ≤ 0) (hbc : strcmp b c ≤ 0) :
    strcmp a c ≤ 0 :=
  strcmpBytes_trans a.nulFree b.nulFree c.nulFree hab hbc

theorem strcmp_swap (a b : CString) : strcmp a b = -strcmp b a := strcmpBytes_swap _ _

theorem strcmp_total (a b : CString) : strcmp a b ≤ 0 ∨ strcmp b a ≤ 0 := by
  have := strcmp_swap a b
  omega

theorem strcmp_antisymm {a b : CString} (hab : strcmp a b ≤ 0) (hba : strcmp b a ≤ 0) : a = b := by
  have := strcmp_swap a b
  exact strcmp_eq_zero.mp (by omega)

/-! ## `strndup` -/

theorem takeWhile_nulFree {s : List UInt8} (hs : (0 : UInt8) ∉ s) (r : List UInt8) :
    (s ++ 0 :: r).takeWhile (· ≠ 0) = s := by
  induction s with
  | nil => simp
  | cons x s ih =>
    have hx : x ≠ 0 := fun e => hs (by simp [e])
    rw [List.cons_append, List.takeWhile_cons_of_pos (by simpa using hx),
      ih fun e => hs (by simp [e])]

theorem takeWhile_of_nulFree {s : List UInt8} (hs : (0 : UInt8) ∉ s) : s.takeWhile (· ≠ 0) = s :=
  List.takeWhile_eq_self_iff.mpr fun x hx => by
    have : x ≠ 0 := fun e => hs (e ▸ hx)
    simpa using this

theorem length_takeWhile_lt {s : List UInt8} (hs : (0 : UInt8) ∈ s) :
    (s.takeWhile (· ≠ 0)).length < s.length := by
  refine Nat.lt_of_le_of_ne (List.takeWhile_sublist _).length_le fun heq => ?_
  have hall := List.takeWhile_eq_self_iff.mp ((List.takeWhile_sublist _).eq_of_length heq) 0 hs
  exact absurd hall (by decide)

theorem CString.ofBytes_bytes (s : CString) : CString.ofBytes s.bytes = s :=
  CString.ext (takeWhile_of_nulFree s.nulFree)

/-- `strndup` with a bound that ends before the terminator copies exactly that much. -/
theorem strndup_prefix (s : CString) (r : List UInt8) : strndup (s.bytes ++ r) s.strlen = s := by
  rw [strndup, CString.strlen, List.take_left, CString.ofBytes_bytes]

/-- `strndup` with a bound that does not end before the terminator copies the whole string. -/
theorem strndup_terminated (s : CString) (r : List UInt8) {n : Nat} (hn : s.strlen ≤ n) :
    strndup (s.bytes ++ 0 :: r) n = s := by
  have hlen : s.bytes.length ≤ n := hn
  refine CString.ext ?_
  show ((s.bytes ++ 0 :: r).take n).takeWhile (· ≠ 0) = s.bytes
  rw [List.take_append, List.take_of_length_le hlen]
  cases n - s.bytes.length with
  | zero => simpa using takeWhile_of_nulFree s.nulFree
  | succ k => exact takeWhile_nulFree s.nulFree _

/-! ## Pointer differences -/

variable {w : Nat}

/-- A negative difference wraps to a number that is at least its absolute value, because that is
less than half of the address space. -/
theorem le_sizeOfDiff {v : Nat} (hv : v ≤ ptrdiffMax w) : v ≤ sizeOfDiff w (0 - (v : Int)) := by
  unfold ptrdiffMax at hv
  unfold sizeOfDiff
  rcases Nat.eq_zero_or_pos v with rfl | hpos
  · simp
  · obtain ⟨u, rfl⟩ : ∃ u, w = u + 1 := by
      cases w with
      | zero => simp at hv; omega
      | succ u => exact ⟨u, rfl⟩
    have hpow : (2 ^ (u + 1) : Int) = 2 * 2 ^ u := by ring
    have hcast : ((2 ^ u : Nat) : Int) = 2 ^ u := by simp
    have hle : v + 1 ≤ 2 ^ u := by
      have : 0 < 2 ^ u := Nat.two_pow_pos u
      simp only [Nat.add_sub_cancel] at hv
      omega
    have hle' : (v : Int) + 1 ≤ 2 ^ u := by rw [← hcast]; exact_mod_cast hle
    have hmod : (0 - (v : Int)) % (2 ^ (u + 1) : Int) = 2 ^ (u + 1) - v := by
      rw [← Int.add_emod_right, Int.emod_eq_of_lt] <;> rw [hpow] <;> omega
    rw [hmod, hpow]
    omega

theorem sizeOfDiff_natCast {n : Nat} (hn : n ≤ ptrdiffMax w) : sizeOfDiff w (n : Int) = n := by
  have hpow : 2 ^ (w - 1) ≤ 2 ^ w := Nat.pow_le_pow_right Nat.two_pos (Nat.sub_le w 1)
  have hpos : 0 < 2 ^ (w - 1) := Nat.two_pow_pos _
  have hlt : n < 2 ^ w := by
    unfold ptrdiffMax at hn
    omega
  have hmod : (n : Int) % (2 ^ w : Int) = (n : Int) :=
    Int.emod_eq_of_lt (Int.natCast_nonneg _) (by exact_mod_cast hlt)
  rw [sizeOfDiff, hmod, Int.toNat_natCast]

/-! ## Stores -/

/-- A store of `src` after the first bytes `a` of a buffer replaces the bytes that follow `a`. -/
theorem Buffer.memcpy_append {b : Buffer w} {a r : List UInt8} {p : Nat} (src : List UInt8)
    (hb : b.bytes = a ++ r) (hp : a.length = p) (hsrc : src.length ≤ r.length) :
    ∃ b', b.memcpy p src = some b' ∧ b'.bytes = a ++ src ++ r.drop src.length := by
  subst hp
  have hle : a.length + src.length ≤ b.bytes.length := by
    rw [hb, List.length_append]; omega
  unfold Buffer.memcpy
  rw [dif_pos hle]
  refine ⟨_, rfl, ?_⟩
  simp [hb, ← List.drop_drop]

theorem Buffer.store_append {b : Buffer w} {a r : List UInt8} {p : Nat} {c : UInt8}
    (hb : b.bytes = a ++ r) (hp : a.length = p) (hr : 0 < r.length) :
    ∃ b', b.store p c = some b' ∧ b'.bytes = a ++ c :: r.drop 1 := by
  obtain ⟨b', h, hbytes⟩ := Buffer.memcpy_append [c] hb hp hr
  exact ⟨b', h, by simpa using hbytes⟩

theorem Buffer.memset_whole (b : Buffer w) (c : UInt8) :
    ∃ b', b.memset c b.size = some b' ∧ b'.bytes = List.replicate b.size c := by
  obtain ⟨b', h, hbytes⟩ := Buffer.memcpy_append (b := b) (a := []) (r := b.bytes) (p := 0)
    (List.replicate b.size c) (by simp) rfl (by simp [Buffer.size])
  exact ⟨b', h, by simpa [Buffer.size] using hbytes⟩

end CLib
