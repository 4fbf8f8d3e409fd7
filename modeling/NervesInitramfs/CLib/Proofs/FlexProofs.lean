import Mathlib.Data.List.TakeWhile
import NervesInitramfs.CLib.Flex

/-!
# What a scanner finds in a text of several parts

A pattern that has no use for a byte stops in front of it. A scanner therefore finds in two texts
with such a byte between them what it finds in each of the two, as long as no match crosses the
border.
-/

namespace CLib

/-- The bytes that a part of a pattern can match. -/
def PatternPart.accepts : PatternPart → UInt8 → Bool
  | .one p | .star p | .plus p => p

def Pattern.avoids (p : Pattern) (c : UInt8) : Bool := p.all fun part => !part.accepts c

/-- The pattern of a single byte. -/
def Pattern.isByte : Pattern → Bool
  | [.one _] => true
  | _ => false

section

variable {p : UInt8 → Bool} {c : UInt8}

theorem takeWhile_stops (hc : p c = false) (l r : List UInt8) :
    (l ++ c :: r).takeWhile p = l.takeWhile p := by
  induction l with
  | nil => simp [hc]
  | cons d l ih =>
    by_cases hd : p d
    · simp [hd, ih]
    · simp [hd]

theorem dropWhile_stops (hc : p c = false) (l r : List UInt8) :
    (l ++ c :: r).dropWhile p = l.dropWhile p ++ c :: r := by
  induction l with
  | nil => simp [hc]
  | cons d l ih =>
    by_cases hd : p d
    · simp [hd, ih]
    · simp [hd]

end

/-- A match can begin with the byte, or the pattern begins with a part that may match nothing. -/
def Pattern.opens : Pattern → UInt8 → Bool
  | .one q :: _, c | .plus q :: _, c => q c
  | _, _ => true

theorem Pattern.matchLength_of_not_opens {p : Pattern} {c : UInt8} (h : p.opens c = false)
    (l : List UInt8) : p.matchLength (c :: l) = none := by
  match p, h with
  | .one q :: _, h =>
    have hc : q c = false := h
    simp [matchLength, hc]
  | .plus q :: _, h =>
    have hc : q c = false := h
    simp [matchLength, hc]

theorem Pattern.avoids_cons {part : PatternPart} {rest : Pattern} {c : UInt8} :
    Pattern.avoids (part :: rest) c = true ↔ part.accepts c = false ∧ rest.avoids c = true := by
  simp [Pattern.avoids]

/-- A match goes no further than a byte that the pattern avoids. -/
theorem Pattern.matchLength_stops {p : Pattern} {c : UInt8} (hp : p.avoids c = true)
    (l r : List UInt8) : p.matchLength (l ++ c :: r) = p.matchLength l := by
  induction p generalizing l with
  | nil => rfl
  | cons part rest ih =>
    obtain ⟨hc, hrest⟩ := avoids_cons.mp hp
    cases part with
    | one q =>
      have hc : q c = false := hc
      cases l with
      | nil => simp [matchLength, hc]
      | cons d l => simp only [List.cons_append, matchLength, ih hrest]
    | star q =>
      have hc : q c = false := hc
      simp only [matchLength, takeWhile_stops hc, dropWhile_stops hc, ih hrest]
    | plus q =>
      have hc : q c = false := hc
      simp only [matchLength, takeWhile_stops hc, dropWhile_stops hc, ih hrest]

theorem Pattern.matchLength_byte {p : Pattern} (hp : p.isByte = true) (c : UInt8)
    (l r : List UInt8) : p.matchLength (c :: l ++ r) = p.matchLength (c :: l) := by
  match p, hp with
  | [.one q], _ => simp only [List.cons_append, matchLength]

theorem drop_length_takeWhile (q : UInt8 → Bool) (l : List UInt8) :
    l.drop (l.takeWhile q).length = l.dropWhile q := by
  have h : (l.takeWhile q ++ l.dropWhile q).drop (l.takeWhile q).length = l.dropWhile q :=
    List.drop_left
  rwa [List.takeWhile_append_dropWhile] at h

theorem take_length_takeWhile (q : UInt8 → Bool) (l : List UInt8) :
    l.take (l.takeWhile q).length = l.takeWhile q := by
  have h : (l.takeWhile q ++ l.dropWhile q).take (l.takeWhile q).length = l.takeWhile q :=
    List.take_left
  rwa [List.takeWhile_append_dropWhile] at h

/-- A match is a match of the first part, of bytes of its class, and behind it one of the rest. -/
theorem Pattern.matchLength_cons {part : PatternPart} {rest : Pattern} {l : List UInt8} {n : Nat}
    (hn : matchLength (part :: rest) l = some n) :
    ∃ k m, n = k + m ∧ k ≤ l.length ∧ rest.matchLength (l.drop k) = some m ∧
      ∀ c ∈ l.take k, part.accepts c = true := by
  have hrepeated : ∀ q : UInt8 → Bool,
      (rest.matchLength (l.dropWhile q)).map (· + (l.takeWhile q).length) = some n →
      ∃ k m, n = k + m ∧ k ≤ l.length ∧ rest.matchLength (l.drop k) = some m ∧
        ∀ c ∈ l.take k, q c = true := by
    intro q hn
    obtain ⟨m, hm, rfl⟩ := Option.map_eq_some_iff.mp hn
    refine ⟨(l.takeWhile q).length, m, Nat.add_comm _ _, (List.takeWhile_sublist q).length_le, ?_, ?_⟩
    · rw [drop_length_takeWhile]
      exact hm
    · rw [take_length_takeWhile]
      exact fun c hc => List.mem_takeWhile_imp hc
  cases part with
  | one q =>
    cases l with
    | nil => exact nomatch hn
    | cons d l =>
      by_cases hd : q d
      · simp only [matchLength, hd, if_true, Option.map_eq_some_iff] at hn
        obtain ⟨m, hm, rfl⟩ := hn
        refine ⟨1, m, Nat.add_comm _ _, Nat.succ_le_succ (Nat.zero_le _), hm, fun c hc => ?_⟩
        rw [List.mem_singleton.mp hc]
        exact hd
      · simp [matchLength, hd] at hn
  | star q => exact hrepeated q hn
  | plus q =>
    by_cases hempty : (l.takeWhile q).isEmpty
    · simp [matchLength, hempty] at hn
    · simp only [matchLength, hempty, Bool.false_eq_true, if_false] at hn
      exact hrepeated q hn

theorem Pattern.matchLength_le {p : Pattern} {l : List UInt8} {n : Nat}
    (hn : p.matchLength l = some n) : n ≤ l.length := by
  induction p generalizing l n with
  | nil =>
    obtain rfl : 0 = n := Option.some.inj hn
    exact Nat.zero_le _
  | cons part rest ih =>
    obtain ⟨k, m, rfl, hk, hm, -⟩ := matchLength_cons hn
    have hle := ih hm
    rw [List.length_drop] at hle
    omega

/-- No byte that the pattern avoids is matched. -/
theorem Pattern.not_mem_matched {p : Pattern} {c : UInt8} (hp : p.avoids c = true) {l : List UInt8}
    {n : Nat} (hn : p.matchLength l = some n) : c ∉ l.take n := by
  induction p generalizing l n with
  | nil =>
    obtain rfl : 0 = n := Option.some.inj hn
    simp
  | cons part rest ih =>
    obtain ⟨hc, hrest⟩ := avoids_cons.mp hp
    obtain ⟨k, m, rfl, -, hm, hclass⟩ := matchLength_cons hn
    rw [List.take_add, List.mem_append, not_or]
    refine ⟨fun hmem => ?_, ih hrest hm⟩
    rw [hclass c hmem] at hc
    exact nomatch hc

/-! ## The longest match -/

section

variable {α : Type} {rules : List (ScanRule α)}

theorem longestMatch_congr {l l' : List UInt8}
    (h : ∀ rule ∈ rules, rule.pattern.matchLength l = rule.pattern.matchLength l') :
    longestMatch rules l = longestMatch rules l' := by
  induction rules with
  | nil => rfl
  | cons rule rules ih =>
    rw [List.forall_mem_cons] at h
    simp only [longestMatch, h.1, ih h.2]

/-- The longest match is a match of one of the rules, and not of the empty text. -/
theorem longestMatch_some {l : List UInt8} {n : Nat} {action : List UInt8 → Option α}
    (h : longestMatch rules l = some (n, action)) :
    0 < n ∧ ∃ rule ∈ rules, rule.pattern.matchLength l = some n ∧ rule.action = action := by
  induction rules with
  | nil => exact nomatch h
  | cons rule rules ih =>
    rw [longestMatch] at h
    have hothers : longestMatch rules l = some (n, action) →
        0 < n ∧ ∃ r ∈ rule :: rules, r.pattern.matchLength l = some n ∧ r.action = action := by
      intro h
      obtain ⟨hpos, r, hr, hn⟩ := ih h
      exact ⟨hpos, r, List.mem_cons_of_mem _ hr, hn⟩
    split at h
    · exact hothers h
    · exact hothers h
    · rename_i m hzero hm
      have hown : some (m, rule.action) = some (n, action) →
          0 < n ∧ ∃ r ∈ rule :: rules, r.pattern.matchLength l = some n ∧ r.action = action := by
        intro h
        obtain ⟨rfl, rfl⟩ := Prod.mk.inj (Option.some.inj h)
        exact ⟨Nat.pos_of_ne_zero (by rintro rfl; exact hzero rfl), rule, List.mem_cons_self, hm, rfl⟩
      split at h
      · exact hown h
      · rename_i k action' heq
        split at h
        · exact hothers (heq.trans h)
        · exact hown h

/-- Some rule matches when one of them does. -/
theorem longestMatch_ne_none {l : List UInt8} {rule : ScanRule α} (hrule : rule ∈ rules) {n : Nat}
    (hn : rule.pattern.matchLength l = some (n + 1)) : longestMatch rules l ≠ none := by
  induction rules with
  | nil => exact absurd hrule List.not_mem_nil
  | cons r rules ih =>
    rw [longestMatch]
    rcases List.mem_cons.mp hrule with rfl | hrule
    · simp only [hn]
      split
      · exact Option.some_ne_none _
      · split <;> exact Option.some_ne_none _
    · have hothers := ih hrule
      split
      · exact hothers
      · exact hothers
      · split
        · exact Option.some_ne_none _
        · split <;> exact Option.some_ne_none _

/-- The first rule that matches the whole text is the one that counts. -/
theorem longestMatch_whole {before after : List (ScanRule α)} {rule : ScanRule α} {l : List UInt8}
    (hl : l ≠ []) (hrule : rule.pattern.matchLength l = some l.length)
    (hbefore : ∀ r ∈ before, r.pattern.matchLength l ≠ some l.length) :
    longestMatch (before ++ rule :: after) l = some (l.length, rule.action) := by
  induction before with
  | nil =>
    obtain ⟨n, hn⟩ : ∃ n, l.length = n + 1 :=
      ⟨l.length - 1, (Nat.sub_add_cancel (List.length_pos_iff.mpr hl)).symm⟩
    rw [List.nil_append, longestMatch, hrule, hn]
    cases hothers : longestMatch after l with
    | none => rfl
    | some found =>
      obtain ⟨m, action⟩ := found
      obtain ⟨-, r, -, hm, -⟩ := longestMatch_some hothers
      have hle := r.pattern.matchLength_le hm
      show (if n + 1 < m then _ else _) = _
      rw [if_neg (by omega)]
  | cons r before ih =>
    have hothers := ih fun r hr => hbefore r (List.mem_cons_of_mem _ hr)
    rw [List.cons_append, longestMatch, hothers]
    cases hm : r.pattern.matchLength l with
    | none => rfl
    | some m =>
      have hle := r.pattern.matchLength_le hm
      have hne : m ≠ l.length := fun h => hbefore r List.mem_cons_self (h ▸ hm)
      cases m with
      | zero => rfl
      | succ m =>
        show (if m + 1 < l.length then _ else _) = _
        rw [if_pos (by omega)]

/-! ## Scanning -/

/-- More rounds than bytes change nothing. -/
theorem scanFrom_eq {l : List UInt8} {rounds : Nat} (h : l.length ≤ rounds) :
    scanFrom rules rounds l = scan rules l := by
  unfold scan
  induction rounds using Nat.strong_induction_on generalizing l with
  | h rounds ih =>
    cases l with
    | nil => cases rounds <;> rfl
    | cons c l =>
      obtain ⟨rounds, rfl⟩ : ∃ k, rounds = k + 1 := ⟨rounds - 1, by simp at h; omega⟩
      simp only [List.length_cons, Nat.add_le_add_iff_right] at h
      simp only [List.length_cons, scanFrom]
      split
      · exact ih rounds (Nat.lt_succ_self _) h
      · rename_i n action hmatch
        have hn := (longestMatch_some hmatch).1
        have hlen : ((c :: l).drop n).length ≤ l.length := by
          rw [List.length_drop, List.length_cons]
          omega
        rw [ih rounds (Nat.lt_succ_self _) (hlen.trans h)]
        rcases Nat.eq_or_lt_of_le h with rfl | hlt
        · rw [ih l.length (Nat.lt_succ_self _) hlen]
        · rw [ih l.length (by omega) hlen]

theorem scan_cons_none {c : UInt8} {l : List UInt8} (h : longestMatch rules (c :: l) = none) :
    scan rules (c :: l) = scan rules l := by
  simp only [scan, List.length_cons, scanFrom, h]

theorem scan_cons_some {c : UInt8} {l : List UInt8} {n : Nat} {action : List UInt8 → Option α}
    (h : longestMatch rules (c :: l) = some (n, action)) :
    scan rules (c :: l) =
      (action ((c :: l).take n)).toList ++ scan rules ((c :: l).drop n) := by
  have hn := (longestMatch_some h).1
  have hlen : ((c :: l).drop n).length ≤ l.length := by
    rw [List.length_drop, List.length_cons]
    omega
  rw [← scanFrom_eq hlen]
  simp only [scan, List.length_cons, scanFrom, h]

/-- Scanning goes on over a border when no match up to it depends on what is behind. `inside` is
what holds of the text up to the border wherever a round of the loop starts. -/
theorem scan_append {r : List UInt8} {inside : List UInt8 → Prop}
    (hsame : ∀ c l, inside (c :: l) → ∀ rule ∈ rules,
      rule.pattern.matchLength (c :: l ++ r) = rule.pattern.matchLength (c :: l))
    (hnone : ∀ c l, inside (c :: l) → longestMatch rules (c :: l) = none → inside l)
    (hsome : ∀ c l, inside (c :: l) → ∀ rule ∈ rules, ∀ n, 0 < n →
      rule.pattern.matchLength (c :: l) = some n → inside ((c :: l).drop n))
    {l : List UInt8} (hl : inside l) : scan rules (l ++ r) = scan rules l ++ scan rules r := by
  induction hlen : l.length using Nat.strong_induction_on generalizing l with
  | h k ih =>
    cases l with
    | nil => rfl
    | cons c l =>
      have hcongr := longestMatch_congr (hsame c l hl)
      subst hlen
      cases hmatch : longestMatch rules (c :: l) with
      | none =>
        rw [hmatch] at hcongr
        rw [List.cons_append] at hcongr ⊢
        rw [scan_cons_none hcongr, scan_cons_none hmatch]
        exact ih l.length (Nat.lt_succ_self _) (hnone c l hl hmatch) rfl
      | some found =>
        obtain ⟨n, action⟩ := found
        obtain ⟨hpos, rule, hrule, hn, -⟩ := longestMatch_some hmatch
        have hle := rule.pattern.matchLength_le hn
        rw [hmatch] at hcongr
        have hdrop : (c :: l ++ r).drop n = (c :: l).drop n ++ r := List.drop_append_of_le_length hle
        have htake : (c :: l ++ r).take n = (c :: l).take n := List.take_append_of_le_length hle
        rw [scan_cons_some hmatch, List.append_assoc]
        rw [List.cons_append] at hcongr hdrop htake ⊢
        rw [scan_cons_some hcongr, hdrop, htake]
        refine congrArg _ (ih _ ?_ (hsome c l hl rule hrule n hpos hn) rfl)
        rw [List.length_drop, List.length_cons]
        omega

end

end CLib
