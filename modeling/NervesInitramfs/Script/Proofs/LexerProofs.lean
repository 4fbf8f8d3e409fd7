import NervesInitramfs.Script.Lexer

/-!
# Proofs: feeding the lexer

`lexer_next` takes the size of a chunk to be counted from the start of the input. The first chunk is
right, and so is a chunk that reaches the end of the input; any other is too long.
-/

namespace NervesInitramfs

open CLib

/-! ## One call -/

section

variable {input : List UInt8} {length index maxSize : Int32}

/-- The number of bytes that a call copies, when the index is inside the input. -/
def chunkSize (length index maxSize : Int) : Int :=
  if length < index + maxSize then length - index else index + maxSize

theorem toInt_lt (n : Int32) : -2147483648 ≤ n.toInt ∧ n.toInt < 2147483648 :=
  ⟨Int32.le_toInt n, Int32.toInt_lt n⟩

/-- What `n` is in `lexer_next`, when the sum of the index and the size does not overflow. -/
theorem toInt_chunk (hi : 0 ≤ index.toInt) (hil : index.toInt ≤ length.toInt)
    (hm : 0 < maxSize.toInt) (hno : index.toInt + maxSize.toInt < 2147483648) :
    (if index + maxSize > length then length - index else index + maxSize).toInt
      = chunkSize length.toInt index.toInt maxSize.toInt := by
  have hl := toInt_lt length
  have hsum : (index + maxSize).toInt = index.toInt + maxSize.toInt := by
    rw [Int32.toInt_add, Int.bmod_eq_of_le] <;> omega
  have hdiff : (length - index).toInt = length.toInt - index.toInt := by
    rw [Int32.toInt_sub, Int.bmod_eq_of_le] <;> omega
  unfold chunkSize
  by_cases h : length.toInt < index.toInt + maxSize.toInt
  · have hgt : index + maxSize > length := by
      rw [gt_iff_lt, Int32.lt_iff_toInt_lt, hsum]
      exact h
    rw [if_pos hgt, if_pos h, hdiff]
  · have hgt : ¬ index + maxSize > length := by
      rw [gt_iff_lt, Int32.lt_iff_toInt_lt, hsum]
      exact h
    rw [if_neg hgt, if_neg h, hsum]

/-- A sum that overflows makes `n` negative. -/
theorem chunk_neg (hi : 0 ≤ index.toInt) (hil : index.toInt ≤ length.toInt)
    (hover : 2147483648 ≤ index.toInt + maxSize.toInt) :
    ¬ 0 ≤ (if index + maxSize > length then length - index else index + maxSize) := by
  have hl := toInt_lt length
  have hm := toInt_lt maxSize
  have hsum : (index + maxSize).toInt = index.toInt + maxSize.toInt - 4294967296 := by
    rw [Int32.toInt_add, Int.bmod_def]
    split <;> omega
  have hgt : ¬ index + maxSize > length := by
    rw [gt_iff_lt, Int32.lt_iff_toInt_lt, hsum]
    omega
  rw [if_neg hgt, Int32.le_iff_toInt_le, hsum]
  simp
  omega

/-- What `memcpy` is asked for. -/
theorem lexerNext_some {chunk : List UInt8} {s' : LexerInput} {n : Int32}
    (hn : n = if index + maxSize > length then length - index else index + maxSize) :
    lexerNext ⟨some input, length, index⟩ maxSize = some (chunk, s') ↔
      (0 ≤ n ∧ index.toInt.toNat + n.toInt.toNat ≤ input.length) ∧
        (input.drop index.toInt.toNat).take n.toInt.toNat = chunk ∧
        (⟨some input, length, index + n⟩ : LexerInput) = s' := by
  simp only [lexerNext, ← hn]
  by_cases h : 0 ≤ n ∧ index.toInt.toNat + n.toInt.toNat ≤ input.length
  · rw [if_pos h, Option.some.injEq, Prod.mk.injEq]
    exact ⟨fun he => ⟨h, he⟩, fun he => he.2⟩
  · rw [if_neg h]
    exact ⟨nofun, fun he => absurd he.1 h⟩

/-- The position after a chunk that is right. -/
def chunkEnd (length index maxSize : Int) : Int := min length (index + maxSize)

/-- What a call copies when it copies no more than there is room for. -/
theorem lexerNext_fits {chunk : List UInt8} {s' : LexerInput} (hi : 0 ≤ index.toInt)
    (hil : index.toInt ≤ length.toInt) (hm : 0 < maxSize.toInt)
    (next : lexerNext ⟨some input, length, index⟩ maxSize = some (chunk, s'))
    (fits : (chunk.length : Int) ≤ maxSize.toInt) :
    ∃ stop : Int32, stop.toInt = chunkEnd length.toInt index.toInt maxSize.toInt ∧
      s' = ⟨some input, length, stop⟩ ∧ stop.toInt ≤ input.length ∧
      chunk = (input.drop index.toInt.toNat).take (stop.toInt - index.toInt).toNat ∧
      index.toInt + maxSize.toInt < 2147483648 ∧
      (length.toInt < index.toInt + maxSize.toInt ∨ index.toInt = 0) := by
  have hl := toInt_lt length
  obtain ⟨n, hdef⟩ : ∃ n, n = if index + maxSize > length then length - index
    else index + maxSize := ⟨_, rfl⟩
  obtain ⟨⟨hn0, hread⟩, rfl, rfl⟩ := (lexerNext_some hdef).mp next
  have hno : index.toInt + maxSize.toInt < 2147483648 := by
    by_contra hover
    exact chunk_neg hi hil (by omega) (hdef ▸ hn0)
  have hn : n.toInt = chunkSize length.toInt index.toInt maxSize.toInt :=
    hdef ▸ toInt_chunk hi hil hm hno
  rw [List.length_take, List.length_drop] at fits
  have hsize : n.toInt = chunkEnd length.toInt index.toInt maxSize.toInt - index.toInt ∧
      (length.toInt < index.toInt + maxSize.toInt ∨ index.toInt = 0) := by
    unfold chunkSize at hn
    unfold chunkEnd
    split at hn <;> omega
  have hstop : (index + n).toInt = chunkEnd length.toInt index.toInt maxSize.toInt := by
    have hend : chunkEnd length.toInt index.toInt maxSize.toInt ≤ length.toInt :=
      min_le_left _ _
    rw [Int32.toInt_add, hsize.1, Int.bmod_eq_of_le] <;> unfold chunkEnd at * <;> omega
  refine ⟨_, hstop, rfl, ?_, ?_, hno, hsize.2⟩
  · rw [hstop]
    unfold chunkEnd at *
    omega
  · rw [hstop, ← hsize.1]

/-- A call whose chunk is right goes through. -/
theorem lexerNext_of_right (hi : 0 ≤ index.toInt) (hil : index.toInt ≤ length.toInt)
    (hlen : length.toInt ≤ input.length) (hm : 0 < maxSize.toInt)
    (hno : index.toInt + maxSize.toInt < 2147483648)
    (hright : length.toInt < index.toInt + maxSize.toInt ∨ index.toInt = 0) :
    ∃ chunk s', lexerNext ⟨some input, length, index⟩ maxSize = some (chunk, s') ∧
      (chunk.length : Int) ≤ maxSize.toInt := by
  obtain ⟨n, hdef⟩ : ∃ n, n = if index + maxSize > length then length - index
    else index + maxSize := ⟨_, rfl⟩
  have hn : n.toInt = chunkSize length.toInt index.toInt maxSize.toInt :=
    hdef ▸ toInt_chunk hi hil hm hno
  unfold chunkSize at hn
  have hn0 : 0 ≤ n := by
    rw [Int32.le_iff_toInt_le, hn]
    split <;> simp <;> omega
  have hread : index.toInt.toNat + n.toInt.toNat ≤ input.length := by
    split at hn <;> omega
  refine ⟨_, _, (lexerNext_some hdef).mpr ⟨⟨hn0, hread⟩, rfl, rfl⟩, ?_⟩
  rw [List.length_take]
  split at hn <;> omega

end

/-! ## All calls -/

section

variable {input rest : List UInt8} {length index : Int32} {sizes : Nat → Int32}

/-- The calls that are made: one, or one and then the others. -/
theorem delivers_iff {s : LexerInput} :
    Delivers s sizes rest ↔ (rest = [] ∧ ∃ s', lexerNext s (sizes 0) = some ([], s')) ∨
      ∃ chunk others s', rest = chunk ++ others ∧ lexerNext s (sizes 0) = some (chunk, s') ∧
        chunk ≠ [] ∧ (chunk.length : Int) ≤ (sizes 0).toInt ∧
        Delivers s' (fun i => sizes (i + 1)) others := by
  constructor
  · intro h
    cases h with
    | done next => exact Or.inl ⟨rfl, _, next⟩
    | chunk next more fits others => exact Or.inr ⟨_, _, _, rfl, next, more, fits, others⟩
  · rintro (⟨rfl, s', next⟩ | ⟨chunk, others, s', rfl, next, more, fits, h⟩)
    · exact .done next
    · exact .chunk next more fits h

/-- Whatever is delivered from inside the input is the rest of it, as far as `length` goes. -/
theorem Delivers.eq_rest {s : LexerInput} (h : Delivers s sizes rest)
    (hpos : ∀ i, 0 < (sizes i).toInt) :
    ∀ index : Int32, s = ⟨some input, length, index⟩ → 0 ≤ index.toInt →
      index.toInt ≤ length.toInt →
      rest = (input.drop index.toInt.toNat).take (length.toInt - index.toInt).toNat := by
  induction h with
  | done next =>
    rintro index rfl hi hil
    obtain ⟨stop, hstop, -, hlen, hchunk, -, -⟩ := lexerNext_fits hi hil (hpos 0) next
      (by simpa using (hpos 0).le)
    have hsize := congrArg List.length hchunk
    have hm := hpos 0
    rw [List.length_take, List.length_drop, List.length_nil] at hsize
    unfold chunkEnd at hstop
    rw [show (length.toInt - index.toInt).toNat = 0 by omega, List.take_zero]
  | @chunk s s' sizes chunk rest next more fits others ih =>
    rintro index rfl hi hil
    obtain ⟨stop, hstop, rfl, hlen, rfl, -, -⟩ := lexerNext_fits hi hil (hpos 0) next fits
    have hm := hpos 0
    unfold chunkEnd at hstop
    rw [ih (fun i => hpos (i + 1)) stop rfl (by omega) (by omega)]
    have hsplit : (length.toInt - index.toInt).toNat
        = (stop.toInt - index.toInt).toNat + (length.toInt - stop.toInt).toNat := by omega
    rw [hsplit, List.take_add, List.drop_drop]
    congr 3
    omega

/-- At the end of the input the next call returns 0. -/
theorem delivers_at_end (sizes : Nat → Int32) (hlen : length.toInt = input.length)
    (hm : 0 < (sizes 0).toInt) :
    Delivers ⟨some input, length, length⟩ sizes [] ↔
      length.toInt + (sizes 0).toInt < 2147483648 := by
  have hl : 0 ≤ length.toInt := by omega
  constructor
  · intro h
    rcases delivers_iff.mp h with ⟨-, s', next⟩ | ⟨chunk, others, s', hnil, -, more, -, -⟩
    · obtain ⟨-, -, -, -, -, hno, -⟩ := lexerNext_fits hl le_rfl hm next (by simpa using hm.le)
      exact hno
    · exact absurd (List.append_eq_nil_iff.mp hnil.symm).1 more
  · intro hno
    obtain ⟨chunk, s', next, fits⟩ := lexerNext_of_right hl le_rfl hlen.le hm hno
      (Or.inl (by omega))
    obtain ⟨stop, hstop, -, -, hchunk, -, -⟩ := lexerNext_fits hl le_rfl hm next fits
    unfold chunkEnd at hstop
    rw [show (stop.toInt - length.toInt).toNat = 0 by omega, List.take_zero] at hchunk
    rw [hchunk] at next
    exact Delivers.done next

/-- From inside the input the rest is delivered when the next chunk is not a full one. -/
theorem delivers_inside (hlen : length.toInt = input.length) (hi : 0 < index.toInt)
    (hil : index.toInt < length.toInt) (hpos : ∀ i, 0 < (sizes i).toInt) :
    Delivers ⟨some input, length, index⟩ sizes (input.drop index.toInt.toNat) ↔
      length.toInt < index.toInt + (sizes 0).toInt ∧
        index.toInt + (sizes 0).toInt < 2147483648 ∧
        length.toInt + (sizes 1).toInt < 2147483648 := by
  have hm := hpos 0
  have hend := delivers_at_end (fun i => sizes (i + 1)) hlen (hpos 1)
  constructor
  · intro h
    rcases delivers_iff.mp h with ⟨hnil, -⟩ | ⟨chunk, others, s', -, next, -, fits, h⟩
    · have hsize := congrArg List.length hnil
      rw [List.length_drop, List.length_nil] at hsize
      omega
    · obtain ⟨stop, hstop, rfl, -, -, hno, hright⟩ := lexerNext_fits hi.le hil.le hm next fits
      unfold chunkEnd at hstop
      obtain rfl : stop = length := Int32.toInt_inj.mp (by omega)
      have hnil := h.eq_rest (fun i => hpos (i + 1)) stop rfl (by omega) le_rfl
      rw [Int.sub_self, Int.toNat_zero, List.take_zero] at hnil
      rw [hnil] at h
      exact ⟨by omega, hno, hend.mp h⟩
  · rintro ⟨hlast, hno, hno'⟩
    obtain ⟨chunk, s', next, fits⟩ := lexerNext_of_right hi.le hil.le hlen.le hm hno (Or.inl hlast)
    obtain ⟨stop, hstop, rfl, -, rfl, -, -⟩ := lexerNext_fits hi.le hil.le hm next fits
    unfold chunkEnd at hstop
    obtain rfl : stop = length := Int32.toInt_inj.mp (by omega)
    have hall : (input.drop index.toInt.toNat).take (stop.toInt - index.toInt).toNat
        = input.drop index.toInt.toNat := by
      rw [List.take_of_length_le]
      rw [List.length_drop]
      omega
    rw [hall] at next fits
    have hmore : input.drop index.toInt.toNat ≠ [] := by
      intro hnil
      have hsize := congrArg List.length hnil
      rw [List.length_drop, List.length_nil] at hsize
      omega
    have h := Delivers.chunk next hmore fits (hend.mpr hno')
    rwa [List.append_nil] at h

/-- The first chunk is always right. -/
theorem delivers_start (stop : Int32) (hlen : length.toInt = input.length) (hne : input ≠ [])
    (hpos : ∀ i, 0 < (sizes i).toInt)
    (hstop : stop.toInt = min length.toInt (sizes 0).toInt) :
    Delivers ⟨some input, length, 0⟩ sizes input ↔
      Delivers ⟨some input, length, stop⟩ (fun i => sizes (i + 1))
        (input.drop stop.toInt.toNat) := by
  have hm := hpos 0
  have hl := toInt_lt (sizes 0)
  have hi : (0 : Int32).toInt = 0 := Int32.toInt_zero
  have hnonempty : 0 < input.length := List.length_pos_iff.mpr hne
  have hfirst : ∀ {chunk s'}, lexerNext ⟨some input, length, 0⟩ (sizes 0) = some (chunk, s') →
      (chunk.length : Int) ≤ (sizes 0).toInt →
      s' = ⟨some input, length, stop⟩ ∧ chunk = input.take stop.toInt.toNat := by
    intro chunk s' next fits
    obtain ⟨stop', hstop', rfl, -, rfl, -, -⟩ :=
      lexerNext_fits hi.ge (by omega) hm next fits
    unfold chunkEnd at hstop'
    obtain rfl : stop' = stop := Int32.toInt_inj.mp (by omega)
    simp
  constructor
  · intro h
    rcases delivers_iff.mp h with ⟨hnil, -⟩ | ⟨chunk, others, s', heq, next, -, fits, h⟩
    · exact absurd hnil hne
    · obtain ⟨rfl, hchunk⟩ := hfirst next fits
      rw [hchunk] at heq
      have hdrop := congrArg (List.drop stop.toInt.toNat) heq
      rw [List.drop_append, List.drop_take, Nat.sub_self, List.take_zero, List.nil_append,
        List.length_take, Nat.min_eq_left (by omega), Nat.sub_self, List.drop_zero] at hdrop
      rwa [hdrop]
  · intro h
    obtain ⟨chunk, s', next, fits⟩ :=
      lexerNext_of_right hi.ge (by omega) hlen.le hm (by omega) (Or.inr hi)
    obtain ⟨rfl, rfl⟩ := hfirst next fits
    have hmore : input.take stop.toInt.toNat ≠ [] := by
      intro hnil
      have hsize := congrArg List.length hnil
      rw [List.length_take, List.length_nil] at hsize
      omega
    have h := Delivers.chunk next hmore fits h
    rwa [List.take_append_drop] at h

end

/-- The sizes that deliver an input of `n` bytes: it is empty, or the first chunk takes all of it,
or the second chunk takes the rest and is not a full one. No sum that is made reaches `2 ^ 31`. -/
def InTwoChunks (n : Nat) (sizes : Nat → Int32) : Prop :=
  n < 2147483648 ∧
    (n = 0 ∨
      (n ≤ (sizes 0).toInt ∧ n + (sizes 1).toInt < 2147483648) ∨
      ((sizes 0).toInt < n ∧ n < (sizes 0).toInt + (sizes 1).toInt ∧
        (sizes 0).toInt + (sizes 1).toInt < 2147483648 ∧ n + (sizes 2).toInt < 2147483648))

/-- The input has been set, in one of the two ways. -/
inductive InputSet : List UInt8 → LexerInput → Prop
  | string (input : CString) : InputSet input.bytes (lexerSetInput input)
  | file {s s' : LexerInput} {opened sought got : Reply}
    (set : lexerSetFile s opened sought got = (0, s')) : InputSet got.bytes s'

theorem InputSet.holding {input : List UInt8} {s : LexerInput} (h : InputSet input s) :
    s = LexerInput.holding input := by
  cases h with
  | string input => rfl
  | @file s s' opened sought got set =>
    simp only [lexerSetFile] at set
    split at set
    · simp at set
    · split at set
      · simp at set
      · split at set
        · simp at set
        case isFalse hgot =>
          obtain ⟨-, hlen⟩ : got.ok = true ∧ got.bytes.length = sought.count := by
            simpa using hgot
          rw [← (Prod.mk.injEq ..).mp set |>.2, ← hlen, LexerInput.holding]

theorem toInt_toInt32 {n : Nat} (h : n < 2147483648) : (toInt32 n).toInt = n := by
  have hsize : Int32.size = 4294967296 := rfl
  rw [toInt32, Int32.toInt_ofInt, hsize, Int.bmod_eq_of_le] <;> omega

/-- A string as long as `2 ^ 31` is never delivered: its length is not an `int`. -/
theorem Delivers.length_lt {input : List UInt8} {sizes : Nat → Int32}
    (h : Delivers (.holding input) sizes input) (hpos : ∀ i, 0 < (sizes i).toInt) :
    input.length < 2147483648 := by
  by_cases hneg : 0 ≤ (toInt32 input.length).toInt
  · have hrest := h.eq_rest hpos 0 rfl (by simp) (by simpa using hneg)
    have hsize := congrArg List.length hrest
    have hl := toInt_lt (toInt32 input.length)
    simp only [Int32.toInt_zero, Int.toNat_zero, List.drop_zero, List.length_take] at hsize
    omega
  · exfalso
    have hm := hpos 0
    have hstuck : ∀ chunk s', lexerNext (.holding input) (sizes 0) ≠ some (chunk, s') := by
      intro chunk s' next
      have hn0 := ((lexerNext_some rfl).mp next).1.1
      have hgt : 0 + sizes 0 > toInt32 input.length := by
        rw [gt_iff_lt, Int32.lt_iff_toInt_lt, Int32.zero_add]
        omega
      rw [if_pos hgt, Int32.sub_zero, Int32.le_iff_toInt_le] at hn0
      exact hneg hn0
    cases h with
    | done next => exact hstuck _ _ next
    | chunk next more fits others => exact hstuck _ _ next

theorem delivers_holding {input : List UInt8} {sizes : Nat → Int32}
    (hpos : ∀ i, 0 < (sizes i).toInt) :
    Delivers (.holding input) sizes input ↔ InTwoChunks input.length sizes := by
  by_cases hbound : input.length < 2147483648
  case neg => exact ⟨fun h => absurd (h.length_lt hpos) hbound, fun h => absurd h.1 hbound⟩
  have hlen := toInt_toInt32 hbound
  have hm := hpos 0
  have hl := toInt_lt (sizes 0)
  unfold InTwoChunks
  by_cases hne : input = []
  · subst hne
    have h : Delivers (.holding []) sizes [] :=
      (delivers_at_end sizes hlen hm).mpr (by rw [hlen, List.length_nil]; omega)
    exact ⟨fun _ => ⟨hbound, Or.inl rfl⟩, fun _ => h⟩
  have hnonempty : 0 < input.length := List.length_pos_iff.mpr hne
  by_cases hall : (input.length : Int) ≤ (sizes 0).toInt
  · rw [LexerInput.holding, delivers_start (toInt32 input.length) hlen hne hpos (by omega),
      hlen, Int.toNat_natCast, List.drop_length, delivers_at_end _ hlen (hpos 1), hlen]
    simp only [Nat.zero_add]
    omega
  · rw [LexerInput.holding, delivers_start (sizes 0) hlen hne hpos (by omega),
      delivers_inside hlen hm (by omega) fun i => hpos (i + 1), hlen]
    simp only [Nat.zero_add, Nat.reduceAdd]
    omega

/-! ## The result -/

/-- The chunks that the lexer is fed are the input, with nothing skipped or repeated, exactly when
no chunk after the first is a full one. -/
theorem fed_once_iff {input : List UInt8} {s : LexerInput} {sizes : Nat → Int32}
    (hset : InputSet input s) (hpos : ∀ i, 0 < (sizes i).toInt) :
    Delivers s sizes input ↔ InTwoChunks input.length sizes := by
  rw [hset.holding]
  exact delivers_holding hpos

theorem fed_once_short :
    Delivers (lexerSetInput (.ofString "run_repl = true")) (fun _ => 8192)
      (CString.ofString "run_repl = true").bytes :=
  (fed_once_iff (.string (.ofString "run_repl = true")) fun _ => by decide).mpr (by
    unfold InTwoChunks
    decide)

/-- A file of which everything can be read. -/
theorem inputSet_of_file (bytes : List UInt8) : InputSet bytes (.holding bytes) := by
  have hset : lexerSetFile ⟨none, 0, 0⟩ ⟨true, 0, [], [], [], 0⟩
      ⟨true, bytes.length, [], [], [], 0⟩ ⟨true, bytes.length, bytes, [], [], 0⟩
      = (0, .holding bytes) := by
    simp [lexerSetFile, LexerInput.holding]
  exact .file hset

/-- A file of 20000 bytes is fed in chunks of 8192 bytes, of which the second has 16384. -/
theorem not_fed_once :
    ¬ ∀ (input : List UInt8) (s : LexerInput) (sizes : Nat → Int32), InputSet input s →
      (∀ i, 0 < (sizes i).toInt) → Delivers s sizes input := by
  intro h
  have hfed := (delivers_holding fun _ => by decide).mp
    (h _ _ (fun _ => 8192) (inputSet_of_file (List.replicate 20000 32)) fun _ => by decide)
  unfold InTwoChunks at hfed
  rw [List.length_replicate] at hfed
  revert hfed
  decide

end NervesInitramfs
