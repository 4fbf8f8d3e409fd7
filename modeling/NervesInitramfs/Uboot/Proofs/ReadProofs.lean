import NervesInitramfs.CLib.Proofs.CStringProofs
import NervesInitramfs.Uboot.Format

/-!
# Proofs: the reader and the layout

The two scanning loops stop at the first `=` and the first NUL. From that the loop over the entries
accepts exactly the data of the layout and links the pairs in reverse.
-/

namespace NervesInitramfs

open CLib

variable {w : Nat}

/-! ## The scanning loops -/

theorem scanEndname_append {pre : List UInt8} (h0 : (0 : UInt8) ∉ pre) (h61 : (61 : UInt8) ∉ pre)
    (post : List UInt8) : scanEndname (pre ++ 61 :: post) = some pre.length := by
  induction pre with
  | nil => simp [scanEndname]
  | cons c pre ih =>
    have hc0 : ¬ c = 0 := fun e => h0 (by simp [e])
    have hc61 : ¬ c = 61 := fun e => h61 (by simp [e])
    have ih' := ih (fun e => h0 (by simp [e])) (fun e => h61 (by simp [e]))
    simp [scanEndname, hc0, hc61, ih']

theorem scanEndname_some {s : List UInt8} {k : Nat} (h : scanEndname s = some k) :
    ∃ pre post, s = pre ++ 61 :: post ∧ pre.length = k ∧ (0 : UInt8) ∉ pre ∧ (61 : UInt8) ∉ pre := by
  induction s generalizing k with
  | nil => simp [scanEndname] at h
  | cons c s ih =>
    by_cases hc0 : c = 0
    · simp [scanEndname, hc0] at h
    · by_cases hc61 : c = 61
      · have hk : 0 = k := by simpa [scanEndname, hc0, hc61] using h
        exact ⟨[], s, by simp [hc61], by simpa using hk, by simp, by simp⟩
      · simp only [scanEndname, hc0, hc61, if_false, Option.map_eq_some_iff] at h
        obtain ⟨j, hj, rfl⟩ := h
        obtain ⟨pre, post, rfl, rfl, h0, h61⟩ := ih hj
        exact ⟨c :: pre, post, by simp, by simp, by simp [h0, Ne.symm hc0],
          by simp [h61, Ne.symm hc61]⟩

theorem scanEndvalue_append {pre : List UInt8} (h0 : (0 : UInt8) ∉ pre) (post : List UInt8) :
    scanEndvalue (pre ++ 0 :: post) = some pre.length := by
  induction pre with
  | nil => simp [scanEndvalue]
  | cons c pre ih =>
    have hc0 : ¬ c = 0 := fun e => h0 (by simp [e])
    simp [scanEndvalue, hc0, ih fun e => h0 (by simp [e])]

theorem scanEndvalue_some {s : List UInt8} {k : Nat} (h : scanEndvalue s = some k) :
    ∃ pre post, s = pre ++ 0 :: post ∧ pre.length = k ∧ (0 : UInt8) ∉ pre := by
  induction s generalizing k with
  | nil => simp [scanEndvalue] at h
  | cons c s ih =>
    by_cases hc0 : c = 0
    · have hk : 0 = k := by simpa [scanEndvalue, hc0] using h
      exact ⟨[], s, by simp [hc0], by simpa using hk, by simp⟩
    · simp only [scanEndvalue, hc0, if_false, Option.map_eq_some_iff] at h
      obtain ⟨j, hj, rfl⟩ := h
      obtain ⟨pre, post, rfl, rfl, h0⟩ := ih hj
      exact ⟨c :: pre, post, by simp, by simp, by simp [h0, Ne.symm hc0]⟩

/-! ## The loop over the entries -/

theorem entryBytes_length (pair : UbootNameValue) :
    (entryBytes pair).length = pair.name.strlen + pair.value.strlen + 2 := by
  simp [entryBytes, CString.strlen]; omega

@[simp] theorem entriesBytes_nil : entriesBytes [] = [] := rfl

@[simp] theorem entriesBytes_cons (pair : UbootNameValue) (pairs : List UbootNameValue) :
    entriesBytes (pair :: pairs) = entryBytes pair ++ entriesBytes pairs := rfl

theorem entriesBytes_perm_length {l l' : List UbootNameValue} (h : l.Perm l') :
    (entriesBytes l).length = (entriesBytes l').length :=
  (h.flatMap_right entryBytes).length_eq

/-- One round of the loop: an entry of the layout is linked as the pair it encodes. -/
theorem readEntries_entry {pair : UbootNameValue} (hrep : Representable pair.name)
    (hval : pair.value.strlen ≤ ptrdiffMax w) (rest : List UInt8) (vars : List UbootNameValue) :
    readEntries w (entryBytes pair ++ rest) vars = readEntries w rest (pair :: vars) := by
  obtain ⟨hne, h61⟩ := hrep
  have hnul := pair.name.nulFree
  cases hn : pair.name.bytes with
  | nil => exact absurd hn hne
  | cons c tl =>
    rw [hn] at h61 hnul
    have hc0 : ¬ c = 0 := fun e => hnul (by simp [e])
    have htl : (0 : UInt8) ∉ tl := fun e => hnul (by simp [e])
    have hdata : entryBytes pair ++ rest
        = c :: (tl ++ 61 :: (pair.value.bytes ++ 0 :: rest)) := by
      simp [entryBytes, hn]
    have hname : strndup (c :: (tl ++ 61 :: (pair.value.bytes ++ 0 :: rest))) (tl.length + 1)
        = pair.name := by
      have h := strndup_prefix pair.name (61 :: (pair.value.bytes ++ 0 :: rest))
      simpa [CString.strlen, hn] using h
    have hvalue := strndup_terminated pair.value rest (le_sizeOfDiff hval)
    have hdrop : (tl ++ 61 :: (pair.value.bytes ++ 0 :: rest)).drop (tl.length + 1)
        = pair.value.bytes ++ 0 :: rest := by simp
    have hdrop' : (pair.value.bytes ++ 0 :: rest).drop (pair.value.bytes.length + 1) = rest := by
      simp
    rw [hdata, readEntries]
    simp only [hc0, if_false, scanEndname_append htl h61, hdrop,
      scanEndvalue_append pair.value.nulFree, hdrop', hname]
    rw [show pair.value.bytes.length = pair.value.strlen from rfl, hvalue]

theorem readEntries_entries {pairs : List UbootNameValue} (hrep : ∀ pair ∈ pairs, Representable pair.name)
    (hval : ∀ pair ∈ pairs, pair.value.strlen ≤ ptrdiffMax w) (rest : List UInt8)
    (vars : List UbootNameValue) :
    readEntries w (entriesBytes pairs ++ rest) vars = readEntries w rest (pairs.reverse ++ vars) := by
  induction pairs generalizing vars with
  | nil => simp
  | cons pair pairs ih =>
    rw [entriesBytes_cons, List.append_assoc,
      readEntries_entry (hrep pair (by simp)) (hval pair (by simp)),
      ih (fun p hp => hrep p (by simp [hp])) (fun p hp => hval p (by simp [hp]))]
    simp

@[simp] theorem readEntries_nil (vars : List UbootNameValue) : readEntries w [] vars = (0, vars) := by
  rw [readEntries]

@[simp] theorem readEntries_zero (rest : List UInt8) (vars : List UbootNameValue) :
    readEntries w (0 :: rest) vars = (0, vars) := by
  rw [readEntries]; simp

theorem value_length_le {pair : UbootNameValue} {pairs : List UbootNameValue} (h : pair ∈ pairs) :
    pair.value.strlen ≤ (entriesBytes pairs).length := by
  obtain ⟨l1, l2, rfl⟩ := List.append_of_mem h
  simp only [entriesBytes, List.flatMap_append, List.flatMap_cons, List.length_append,
    entryBytes_length]
  omega

/-- Data of the layout is accepted, and the pairs are linked in reverse. -/
theorem readEntries_of_lists {data : List UInt8} {pairs : List UbootNameValue}
    (h : Lists data pairs) (hsize : data.length ≤ ptrdiffMax w) :
    readEntries w data [] = (0, pairs.reverse) := by
  obtain ⟨hrep, hdata⟩ := h
  have hle : (entriesBytes pairs).length ≤ data.length := by
    rcases hdata with rfl | ⟨rest, rfl⟩ <;> simp
  have hval : ∀ pair ∈ pairs, pair.value.strlen ≤ ptrdiffMax w := fun pair hp =>
    (value_length_le hp).trans (hle.trans hsize)
  rcases hdata with rfl | ⟨rest, rfl⟩
  · simpa using readEntries_entries hrep hval [] []
  · simpa using readEntries_entries hrep hval (0 :: rest) []

/-- The data starts with a name that no `=` follows, or with a value that no NUL follows. -/
def Malformed (data : List UInt8) : Prop :=
  ∃ c s, data = c :: s ∧ c ≠ 0 ∧
    (scanEndname s = none ∨ ∃ k, scanEndname s = some k ∧ scanEndvalue (s.drop (k + 1)) = none)

/-- How data can start. -/
theorem data_cases (data : List UInt8) :
    (data = [] ∨ ∃ rest, data = 0 :: rest) ∨ Malformed data ∨
      ∃ pair rest, data = entryBytes pair ++ rest ∧ Representable pair.name := by
  cases data with
  | nil => exact Or.inl (Or.inl rfl)
  | cons c s =>
    by_cases hc0 : c = 0
    · exact Or.inl (Or.inr ⟨s, by rw [hc0]⟩)
    · cases hk : scanEndname s with
      | none => exact Or.inr (Or.inl ⟨c, s, rfl, hc0, Or.inl hk⟩)
      | some k =>
        obtain ⟨tl, post, rfl, rfl, htl0, htl61⟩ := scanEndname_some hk
        have hdrop : (tl ++ 61 :: post).drop (tl.length + 1) = post := by simp
        cases hv : scanEndvalue post with
        | none => exact Or.inr (Or.inl ⟨c, _, rfl, hc0, Or.inr ⟨tl.length, hk, by rw [hdrop, hv]⟩⟩)
        | some v =>
          obtain ⟨val, rest, rfl, -, hval0⟩ := scanEndvalue_some hv
          have hname0 : (0 : UInt8) ∉ c :: tl := by simp [htl0, Ne.symm hc0]
          refine Or.inr (Or.inr ⟨⟨⟨c :: tl, hname0⟩, ⟨val, hval0⟩⟩, rest, ?_, ?_, ?_⟩)
          · simp [entryBytes]
          · simp
          · simpa using htl61

theorem readEntries_malformed {data : List UInt8} (h : Malformed data) (vars : List UbootNameValue) :
    readEntries w data vars = (-1, vars) := by
  obtain ⟨c, s, rfl, hc0, hk | ⟨k, hk, hv⟩⟩ := h
  · rw [readEntries]
    simp only [hc0, if_false, hk]
  · rw [readEntries]
    simp only [hc0, if_false, hk, hv]

/-- One round of the loop seen from the data: either it ends, or it fails, or the data starts with
an entry of the layout, which is linked. -/
theorem readEntries_cases {data : List UInt8} {vars vars' : List UbootNameValue} {rc : Int}
    (hsize : data.length ≤ ptrdiffMax w) (h : readEntries w data vars = (rc, vars')) :
    (rc = 0 ∧ vars' = vars ∧ (data = [] ∨ ∃ rest, data = 0 :: rest)) ∨
      (rc = -1 ∧ vars' = vars ∧ Malformed data) ∨
      ∃ pair rest, data = entryBytes pair ++ rest ∧ Representable pair.name ∧
        readEntries w rest (pair :: vars) = (rc, vars') := by
  rcases data_cases data with hend | hbad | ⟨pair, rest, rfl, hrep⟩
  · have hzero : readEntries w data vars = (0, vars) := by
      rcases hend with rfl | ⟨rest, rfl⟩
      · exact readEntries_nil vars
      · exact readEntries_zero rest vars
    rw [hzero, Prod.mk.injEq] at h
    exact Or.inl ⟨h.1.symm, h.2.symm, hend⟩
  · rw [readEntries_malformed hbad, Prod.mk.injEq] at h
    exact Or.inr (Or.inl ⟨h.1.symm, h.2.symm, hbad⟩)
  · have hlen : pair.value.strlen ≤ ptrdiffMax w := by
      rw [List.length_append, entryBytes_length] at hsize
      omega
    rw [readEntries_entry hrep hlen] at h
    exact Or.inr (Or.inr ⟨pair, rest, rfl, hrep, h⟩)

/-- What the loop accepts is data of the layout. -/
theorem lists_of_readEntries {data : List UInt8} {vars vars' : List UbootNameValue}
    (hsize : data.length ≤ ptrdiffMax w) (h : readEntries w data vars = (0, vars')) :
    ∃ pairs, Lists data pairs ∧ vars' = pairs.reverse ++ vars := by
  induction hn : data.length using Nat.strong_induction_on generalizing data vars with
  | _ n ih =>
    rcases readEntries_cases hsize h with ⟨-, rfl, hend⟩ | ⟨hrc, -⟩ | ⟨pair, rest, rfl, hrep, hrec⟩
    · refine ⟨[], ⟨by simp, ?_⟩, by simp⟩
      rcases hend with rfl | ⟨rest, rfl⟩
      · exact Or.inl rfl
      · exact Or.inr ⟨rest, rfl⟩
    · exact absurd hrc (by decide)
    · simp only [List.length_append, entryBytes_length] at hn hsize
      obtain ⟨pairs, ⟨hreps, hrest⟩, hvars⟩ := ih rest.length (by omega) (by omega) hrec rfl
      refine ⟨pair :: pairs, ⟨?_, ?_⟩, by simp [hvars]⟩
      · intro p hp
        rcases List.mem_cons.mp hp with rfl | hp
        · exact hrep
        · exact hreps p hp
      · rcases hrest with rfl | ⟨tail, rfl⟩
        · exact Or.inl rfl
        · exact Or.inr ⟨tail, by simp⟩

/-! ## `ubootEnvRead` -/

/-- The data of a block of `n` bytes. -/
def blockBytes (n : Nat) (buffer : Buffer w) : List UInt8 := (buffer.bytes.take n).drop 4

theorem blockBytes_length_le (n : Nat) (buffer : Buffer w) :
    (blockBytes n buffer).length ≤ ptrdiffMax w := by
  have := buffer.size_le
  simp only [blockBytes, List.length_drop, List.length_take]
  omega

/-- The reader without its access check. -/
theorem ubootEnvRead_eq {env : UbootEnv} {buffer : Buffer w} (h4 : 4 ≤ env.envSize)
    (hsize : env.envSize ≤ buffer.size) :
    ubootEnvRead env buffer =
      if storedCrc (buffer.bytes.take env.envSize) = crc32buf (blockBytes env.envSize buffer) then
        some ((readEntries w (blockBytes env.envSize buffer) []).1,
          ⟨env.envSize, (readEntries w (blockBytes env.envSize buffer) []).2⟩)
      else some (-1, ⟨env.envSize, []⟩) := by
  have hcond : ¬ ((ubootEnvFree env).envSize < 4 ∨ buffer.size < (ubootEnvFree env).envSize) := by
    simp only [ubootEnvFree]; omega
  unfold ubootEnvRead
  rw [if_neg hcond]
  by_cases hcrc : storedCrc (buffer.bytes.take env.envSize) = crc32buf (blockBytes env.envSize buffer)
  · rw [if_pos hcrc]
    exact if_neg (not_not.mpr hcrc)
  · rw [if_neg hcrc]
    exact if_pos hcrc

/-- The loop returns one of two codes. -/
theorem readEntries_code (data : List UInt8) (vars : List UbootNameValue) :
    (readEntries w data vars).1 = 0 ∨ (readEntries w data vars).1 = -1 := by
  fun_induction readEntries w data vars with
  | case1 | case2 => exact Or.inl rfl
  | case3 | case4 => exact Or.inr rfl
  | case5 => assumption

/-- The reader accepts a block exactly when its checksum is right and its data is of the layout. -/
theorem ubootEnvRead_iff {env env' : UbootEnv} {buffer : Buffer w} (h4 : 4 ≤ env.envSize)
    (hsize : env.envSize ≤ buffer.size) :
    ubootEnvRead env buffer = some (0, env') ↔
      storedCrc (buffer.bytes.take env.envSize) = crc32buf (blockBytes env.envSize buffer) ∧
        ∃ pairs, Lists (blockBytes env.envSize buffer) pairs ∧ env' = ⟨env.envSize, pairs.reverse⟩ := by
  have hlen := blockBytes_length_le env.envSize buffer
  rw [ubootEnvRead_eq h4 hsize]
  split_ifs with hcrc
  · simp only [hcrc, true_and, Option.some.injEq, Prod.mk.injEq]
    constructor
    · rintro ⟨hrc, rfl⟩
      obtain ⟨pairs, hl, hvars⟩ := lists_of_readEntries hlen (Prod.ext hrc rfl)
      exact ⟨pairs, hl, by simp [hvars]⟩
    · rintro ⟨pairs, hl, rfl⟩
      simp [readEntries_of_lists hl hlen]
  · simp [hcrc]

/-- A read stays inside the block only when there is a checksum. -/
theorem four_le_of_read {env : UbootEnv} {buffer : Buffer w} {r : Int × UbootEnv}
    (h : ubootEnvRead env buffer = some r) : 4 ≤ env.envSize := by
  by_contra hlt
  have hfour : (ubootEnvFree env).envSize < 4 := by
    simp only [ubootEnvFree]
    omega
  rw [ubootEnvRead, if_pos (Or.inl hfour)] at h
  cases h

theorem ubootEnvRead_code {env env' : UbootEnv} {buffer : Buffer w} {rc : Int}
    (h : ubootEnvRead env buffer = some (rc, env')) : rc = 0 ∨ rc = -1 := by
  simp only [ubootEnvRead] at h
  split_ifs at h
  · exact Or.inr (congrArg Prod.fst (Option.some.inj h)).symm
  · obtain rfl := congrArg Prod.fst (Option.some.inj h)
    exact readEntries_code _ _

end NervesInitramfs
