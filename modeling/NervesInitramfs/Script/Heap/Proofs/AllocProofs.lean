import NervesInitramfs.CLib.Proofs.CStringProofs
import NervesInitramfs.CLib.Wp
import NervesInitramfs.Script.Heap.Parser

/-!
# Proofs: allocation

What is in the heap lies in blocks one after the other, and a new block is put behind them. An
allocation has room exactly when the rounded block fits.
-/

namespace NervesInitramfs.TermHeap

open CLib

/-! ## Rounding -/

theorem roundUp_eq {w n : Nat} (hn : n + 7 < 2 ^ w) : roundUp w n = (n + 7) / 8 * 8 := by
  have h8 : 7 < 2 ^ w := by omega
  unfold roundUp
  rw [Nat.mod_eq_of_lt hn]
  apply Nat.eq_of_testBit_eq
  intro i
  have hmask : (2 ^ w - 8).testBit i = (decide (i < w) && !(7 : Nat).testBit i) :=
    Nat.testBit_two_pow_sub_succ h8 i
  have hseven : (7 : Nat).testBit i = decide (i < 3) := Nat.testBit_two_pow_sub_one 3 i
  have hblock : ((n + 7) / 8 * 8).testBit i = (decide (3 ≤ i) && (n + 7).testBit i) := by
    rw [show (8 : Nat) = 2 ^ 3 from rfl, Nat.testBit_mul_two_pow, Nat.testBit_div_two_pow]
    by_cases hi : 3 ≤ i
    · simp [hi, Nat.sub_add_cancel hi]
    · simp [hi]
  rw [Nat.testBit_and, hmask, hseven, hblock]
  by_cases hi : i < w
  · by_cases h3 : 3 ≤ i
    · simp [hi, h3, Nat.not_lt.mpr h3]
    · simp [hi, h3, Nat.lt_of_not_le h3]
  · have hhigh : (n + 7).testBit i = false :=
      Nat.testBit_lt_two_pow (Nat.lt_of_lt_of_le hn (Nat.pow_le_pow_right (by omega) (by omega)))
    simp [hhigh]

/-- The bytes that are asked for. -/
def Cell.bytes (machine : Machine) : Cell → Nat
  | .term _ => sizeofTerm machine
  | .text s => s.strlen + 1

/-- The bytes of the block. -/
def Cell.size (machine : Machine) (c : Cell) : Nat := (c.bytes machine + 7) / 8 * 8

/-- The bytes of the block of a term. -/
def termSize (machine : Machine) : Nat := (sizeofTerm machine + 7) / 8 * 8

/-- The bytes of the block of a string. -/
def textSize (str : CString) : Nat := (str.strlen + 1 + 7) / 8 * 8

section

variable {machine : Machine}

theorem Cell.bytes_pos (machine : Machine) (c : Cell) : 0 < c.bytes machine := by
  cases c with
  | term t =>
    have := machine.wide
    simp only [Cell.bytes, sizeofTerm]
    omega
  | text s => exact Nat.succ_pos _

theorem Cell.size_pos (machine : Machine) (c : Cell) : 0 < c.size machine := by
  have := c.bytes_pos machine
  unfold Cell.size
  omega

/-! ## Blocks -/

/-- The blocks of the current heap are one behind the other, and all end before `heap_index`. -/
structure Packed (machine : Machine) (s : HeapState) : Prop where
  aligned : s.heapIndex % 8 = 0
  full : s.heapIndex ≤ heapSize
  bounded : ∀ p c, s.cells p = some c → some p.heap = s.heap → p.offset + c.size machine ≤ s.heapIndex
  apart : ∀ p q c d, s.cells p = some c → s.cells q = some d → some p.heap = s.heap →
    some q.heap = s.heap → p.offset < q.offset → p.offset + c.size machine ≤ q.offset

/-- The state after a new block has been put behind the others. -/
def HeapState.push (machine : Machine) (s : HeapState) (heap : Nat) (c : Cell) : HeapState :=
  { s with
    cells := Function.update s.cells ⟨heap, s.heapIndex⟩ (some c)
    heapIndex := s.heapIndex + c.size machine }

section

variable {s : HeapState} {h : Nat}

theorem Packed.fresh (hp : Packed machine s) (hh : s.heap = some h) {i : Nat} (hi : s.heapIndex ≤ i) :
    s.cells ⟨h, i⟩ = none := by
  cases hc : s.cells ⟨h, i⟩ with
  | none => rfl
  | some c =>
    have hbound := hp.bounded _ c hc hh.symm
    have hpos := c.size_pos machine
    simp only at hbound
    omega

theorem push_same (c : Cell) : (s.push machine h c).cells ⟨h, s.heapIndex⟩ = some c :=
  Function.update_self ..

theorem push_other {c : Cell} {p : Ptr} (hne : p ≠ ⟨h, s.heapIndex⟩) :
    (s.push machine h c).cells p = s.cells p := Function.update_of_ne hne ..

theorem push_cases {c d : Cell} {p : Ptr} (hd : (s.push machine h c).cells p = some d) :
    (p = ⟨h, s.heapIndex⟩ ∧ d = c) ∨ s.cells p = some d := by
  by_cases hp : p = ⟨h, s.heapIndex⟩
  · subst hp
    rw [push_same] at hd
    exact Or.inl ⟨rfl, (Option.some.inj hd).symm⟩
  · rw [push_other hp] at hd
    exact Or.inr hd

/-- What was there before is still there. -/
theorem Packed.push_kept (hp : Packed machine s) (hh : s.heap = some h) {c d : Cell} {p : Ptr}
    (hd : s.cells p = some d) : (s.push machine h c).cells p = some d := by
  rw [push_other]
  · exact hd
  · rintro rfl
    rw [hp.fresh hh (Nat.le_refl _)] at hd
    cases hd

theorem Packed.push (hp : Packed machine s) {c : Cell}
    (hroom : s.heapIndex + c.size machine ≤ heapSize) : Packed machine (s.push machine h c) := by
  have haligned := hp.aligned
  refine ⟨?_, hroom, ?_, ?_⟩
  · have hmod : c.size machine % 8 = 0 := Nat.mul_mod_left _ 8
    change (s.heapIndex + c.size machine) % 8 = 0
    omega
  · intro p d hd hph
    change p.offset + d.size machine ≤ s.heapIndex + c.size machine
    rcases push_cases hd with ⟨rfl, rfl⟩ | hd
    · exact Nat.le_refl _
    · have := hp.bounded p d hd hph
      omega
  · intro p q d e hd he hph hqh hlt
    rcases push_cases hd with ⟨rfl, rfl⟩ | hd'
    · rcases push_cases he with ⟨rfl, rfl⟩ | he'
      · exact absurd hlt (Nat.lt_irrefl _)
      · have := hp.bounded q e he' hqh
        simp only at hlt
        omega
    · rcases push_cases he with ⟨rfl, rfl⟩ | he'
      · exact hp.bounded p d hd' hph
      · exact hp.apart p q d e hd' he' hph hqh hlt

end

/-! ## The functions that allocate -/

section

variable {s : HeapState} {h : Nat} {post : Ptr → HeapState → Prop}
  {stop : HeapStop → HeapState → Prop}

theorem allocHeap_ensures (hp : Packed machine s) (hh : s.heap = some h) {n : Nat}
    (hpost : s.heapIndex + (n + 7) / 8 * 8 ≤ heapSize →
      post ⟨h, s.heapIndex⟩ { s with heapIndex := s.heapIndex + (n + 7) / 8 * 8 })
    (hstop : heapSize < s.heapIndex + (n + 7) / 8 * 8 → stop .outOfHeap s) :
    Ensures (allocHeap machine n) s post stop := by
  have haligned := hp.aligned
  have hfull := hp.full
  have hwide : 2 ^ 32 ≤ 2 ^ machine.bits := Nat.pow_le_pow_right (by omega) machine.wide
  unfold allocHeap
  simp only [ensures_bind, ensures_get, hh]
  unfold heapSize at *
  split
  · rw [ensures_throw]
    apply hstop
    omega
  · simp only [ensures_bind, ensures_set, ensures_pure]
    have hround : roundUp machine.bits (s.heapIndex + n) = s.heapIndex + (n + 7) / 8 * 8 := by
      rw [roundUp_eq (by omega)]
      omega
    rw [hh] at hpost
    rw [hround]
    apply hpost
    omega

theorem allocString_ensures (hp : Packed machine s) (hh : s.heap = some h) {str : CString}
    (hpost : s.heapIndex + textSize str ≤ heapSize →
      post ⟨h, s.heapIndex⟩ (s.push machine h (.text str)))
    (hstop : heapSize < s.heapIndex + textSize str → stop .outOfHeap s) :
    Ensures (allocString machine str) s post stop := by
  unfold allocString store
  simp only [ensures_bind, ensures_modify, ensures_pure]
  exact allocHeap_ensures hp hh hpost hstop

/-- Without its quotes a token is the string between them. -/
theorem allocQstring_quoted (value : CString) :
    allocQstring machine (quoted value) = allocString machine value := by
  have hbytes : (quoted value).bytes = 34 :: (value.bytes ++ [34]) := rfl
  have hlen : (quoted value).strlen - 1 = value.strlen + 1 := by
    simp [CString.strlen, hbytes]
  have htext : CString.ofBytes ((quoted value).bytes.tail.take (value.strlen + 1 - 1)) = value := by
    rw [hbytes, List.tail_cons, Nat.add_sub_cancel, CString.strlen, List.take_left,
      CString.ofBytes_bytes]
  unfold allocQstring allocString
  simp only [hlen, htext]

theorem allocTerm_ensures (hp : Packed machine s) (hh : s.heap = some h) {data : TermData}
    (hpost : s.heapIndex + termSize machine ≤ heapSize →
      post ⟨h, s.heapIndex⟩ (s.push machine h (.term ⟨data, none⟩)))
    (hstop : heapSize < s.heapIndex + termSize machine → stop .outOfHeap s) :
    Ensures (allocTerm machine data) s post stop := by
  unfold allocTerm store
  simp only [ensures_bind, ensures_modify, ensures_pure]
  exact allocHeap_ensures hp hh hpost hstop

/-- The state after a new term and its string. -/
def HeapState.pushText (machine : Machine) (s : HeapState) (heap : Nat) (t : HeapTerm)
    (str : CString) : HeapState :=
  (s.push machine heap (.term t)).push machine heap (.text str)

section

variable {t : HeapTerm} {str : CString}

theorem pushText_term : (s.pushText machine h t str).cells ⟨h, s.heapIndex⟩ = some (.term t) := by
  have hpos : 0 < termSize machine := Cell.size_pos machine (.term t)
  unfold HeapState.pushText
  rw [push_other, push_same]
  intro heq
  have : s.heapIndex = s.heapIndex + termSize machine := congrArg Ptr.offset heq
  omega

theorem pushText_text :
    (s.pushText machine h t str).cells ⟨h, s.heapIndex + termSize machine⟩ = some (.text str) :=
  push_same (s := s.push machine h (.term t)) (.text str)

theorem pushText_cases {d : Cell} {p : Ptr} (hd : (s.pushText machine h t str).cells p = some d) :
    (p = ⟨h, s.heapIndex⟩ ∧ d = .term t) ∨
      (p = ⟨h, s.heapIndex + termSize machine⟩ ∧ d = .text str) ∨ s.cells p = some d := by
  rcases push_cases hd with htext | hd
  · exact Or.inr (Or.inl htext)
  · exact (push_cases hd).imp id Or.inr

theorem pushText_other {p : Ptr} (hne : p.heap ≠ h) :
    (s.pushText machine h t str).cells p = s.cells p := by
  unfold HeapState.pushText
  rw [push_other (fun heq => hne (congrArg Ptr.heap heq)),
    push_other (fun heq => hne (congrArg Ptr.heap heq))]

/-- Only the last content of an address counts. -/
theorem pushText_replace (t' : HeapTerm) :
    { s.pushText machine h t str with
      cells := Function.update (s.pushText machine h t str).cells ⟨h, s.heapIndex⟩
        (some (.term t')) } = s.pushText machine h t' str := by
  have hpos : 0 < termSize machine := Cell.size_pos machine (.term t)
  have hne : (⟨h, s.heapIndex + termSize machine⟩ : Ptr) ≠ ⟨h, s.heapIndex⟩ := by
    intro heq
    have : s.heapIndex + termSize machine = s.heapIndex := congrArg Ptr.offset heq
    omega
  unfold HeapState.pushText HeapState.push
  simp only [HeapState.mk.injEq, and_true]
  refine ⟨?_, trivial, trivial, rfl⟩
  change Function.update (Function.update (Function.update s.cells ⟨h, s.heapIndex⟩ _)
    ⟨h, s.heapIndex + termSize machine⟩ _) ⟨h, s.heapIndex⟩ _ = _
  rw [Function.update_comm hne, Function.update_idem]
  rfl

theorem Packed.pushText (hp : Packed machine s)
    (hroom : s.heapIndex + termSize machine + textSize str ≤ heapSize) :
    Packed machine (s.pushText machine h t str) := by
  have hroom' : s.heapIndex + (Cell.term t).size machine ≤ heapSize :=
    Nat.le_trans (Nat.le_add_right _ _) hroom
  exact Packed.push (s := s.push machine h (.term t)) (hp.push hroom') hroom

theorem Packed.pushText_kept (hp : Packed machine s) (hh : s.heap = some h) {d : Cell} {p : Ptr}
    (hroom : s.heapIndex + termSize machine ≤ heapSize) (hd : s.cells p = some d) :
    (s.pushText machine h t str).cells p = some d :=
  Packed.push_kept (hp.push (c := .term t) hroom) hh (hp.push_kept hh hd)

end

theorem allocTextTerm_ensures (hp : Packed machine s) (hh : s.heap = some h) {data : Ptr → TermData}
    {str : CString}
    (hpost : s.heapIndex + termSize machine + textSize str ≤ heapSize →
      post ⟨h, s.heapIndex⟩ (s.pushText machine h ⟨data ⟨h, s.heapIndex + termSize machine⟩, none⟩ str))
    (hstop : heapSize < s.heapIndex + termSize machine + textSize str →
      ∀ s', stop .outOfHeap s') :
    Ensures (allocTextTerm machine data (allocString machine str)) s post stop := by
  have hts : 0 < termSize machine := Cell.size_pos machine (.term ⟨.number 0, none⟩)
  unfold allocTextTerm
  simp only [ensures_bind]
  refine allocHeap_ensures hp hh (fun hroom => ?_) fun hfull => hstop (by unfold termSize; omega) s
  have hp' : Packed machine { s with heapIndex := s.heapIndex + termSize machine } := by
    have haligned := hp.aligned
    have hmod : termSize machine % 8 = 0 := Nat.mul_mod_left _ 8
    refine ⟨?_, hroom, fun p c hc hph => ?_, hp.apart⟩
    · change (s.heapIndex + termSize machine) % 8 = 0
      omega
    · exact Nat.le_trans (hp.bounded p c hc hph) (Nat.le_add_right _ _)
  refine allocString_ensures hp' hh (fun hroom' => ?_) fun hfull => hstop hfull _
  unfold store
  simp only [ensures_modify, ensures_pure]
  have hne : (⟨h, s.heapIndex + termSize machine⟩ : Ptr) ≠ ⟨h, s.heapIndex⟩ := by
    intro heq
    have := congrArg Ptr.offset heq
    simp only at this
    omega
  have hstate : s.pushText machine h ⟨data ⟨h, s.heapIndex + termSize machine⟩, none⟩ str =
      { s with
        cells := Function.update (Function.update s.cells ⟨h, s.heapIndex + termSize machine⟩
          (some (.text str))) ⟨h, s.heapIndex⟩
            (some (.term ⟨data ⟨h, s.heapIndex + termSize machine⟩, none⟩))
        heapIndex := s.heapIndex + termSize machine + textSize str } := by
    unfold HeapState.pushText HeapState.push
    rw [Function.update_comm hne]
    rfl
  exact hstate ▸ hpost hroom'

end

end

end NervesInitramfs.TermHeap
