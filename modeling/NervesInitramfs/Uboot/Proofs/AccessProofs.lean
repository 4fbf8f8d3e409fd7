import NervesInitramfs.Uboot.Access
import NervesInitramfs.Uboot.Proofs.CrcProofs
import NervesInitramfs.Uboot.Proofs.RoundTripProofs

/-!
# Proofs: what the reader looks at

The loops with pointers do what the loops over lists do, and never leave the block on the way. From
that the reader accepts exactly the blocks of the layout, and one that it refuses leaves the pairs
behind that come before the first malformed entry.
-/

namespace NervesInitramfs

open CLib

variable {w : Nat}

/-- The bytes of the block from a pointer on. -/
def bytesFrom (buffer : Buffer w) (stop p : Nat) : List UInt8 := (buffer.bytes.take stop).drop p

section

variable {buffer : Buffer w} {stop p : Nat}

/-! ## The loops -/

/-- There is a byte in front of the end. -/
theorem load_before (hp : p < stop) (hstop : stop ≤ buffer.size) :
    ∃ c, buffer.load p = some c ∧ bytesFrom buffer stop p = c :: bytesFrom buffer stop (p + 1) := by
  have hsize : p < buffer.bytes.length := Nat.lt_of_lt_of_le hp hstop
  have htake : p < (buffer.bytes.take stop).length := by
    rw [List.length_take]
    exact Nat.lt_min.mpr ⟨hp, hsize⟩
  refine ⟨buffer.bytes[p], List.getElem?_eq_getElem hsize, ?_⟩
  rw [bytesFrom, List.drop_eq_getElem_cons htake, List.getElem_take]
  rfl

theorem load_of_bytesFrom {c : UInt8} {rest : List UInt8}
    (h : bytesFrom buffer stop p = c :: rest) (hstop : stop ≤ buffer.size) :
    buffer.load p = some c ∧ bytesFrom buffer stop (p + 1) = rest := by
  have hlt : p < stop := by
    by_contra hge
    rw [bytesFrom, List.drop_eq_nil_of_le] at h
    · cases h
    · exact (List.length_take_le _ _).trans (Nat.le_of_not_lt hge)
  obtain ⟨d, hload, hcons⟩ := load_before hlt hstop
  rw [h] at hcons
  obtain ⟨rfl, rfl⟩ := List.cons.inj hcons
  exact ⟨hload, rfl⟩

theorem bytesFrom_stop (buffer : Buffer w) (stop : Nat) : bytesFrom buffer stop stop = [] := by
  rw [bytesFrom, List.drop_eq_nil_iff]
  exact List.length_take_le _ _

theorem length_bytesFrom (hstop : stop ≤ buffer.size) :
    (bytesFrom buffer stop p).length = stop - p := by
  have hlen : stop ≤ buffer.bytes.length := hstop
  rw [bytesFrom, List.length_drop, List.length_take, Nat.min_eq_left hlen]

theorem bytesFrom_add (p k : Nat) :
    bytesFrom buffer stop (p + k) = (bytesFrom buffer stop p).drop k := by
  rw [bytesFrom, bytesFrom, List.drop_drop]

theorem endnameAt_eq (hp : p ≤ stop) (hstop : stop ≤ buffer.size) :
    endnameAt buffer stop p = some ((scanEndname (bytesFrom buffer stop p)).map (p + ·)) := by
  induction hn : stop - p generalizing p with
  | zero =>
    obtain rfl : p = stop := by omega
    rw [endnameAt, if_pos rfl, bytesFrom_stop]
    rfl
  | succ n ih =>
    have hlt : p < stop := by omega
    obtain ⟨c, hload, hbytes⟩ := load_before hlt hstop
    have hrest := ih (p := p + 1) hlt (by omega)
    rw [endnameAt, if_neg (Nat.ne_of_lt hlt), hbytes]
    split
    · rename_i hnone
      rw [hload] at hnone
      cases hnone
    · rename_i d hd
      obtain rfl := Option.some.inj (hload.symm.trans hd)
      by_cases h0 : c = 0
      · rw [if_pos h0, scanEndname, if_pos h0]
        rfl
      · by_cases h61 : c = 61
        · rw [if_neg h0, if_pos h61, scanEndname, if_neg h0, if_pos h61]
          rfl
        · rw [if_neg h0, if_neg h61, hrest, scanEndname, if_neg h0, if_neg h61, Option.map_map]
          refine congrArg (fun f => some (Option.map f _)) (funext fun k => ?_)
          exact (Nat.add_assoc p 1 k).trans (congrArg (p + ·) (Nat.add_comm 1 k))

theorem endvalueAt_eq (hp : p ≤ stop) (hstop : stop ≤ buffer.size) :
    endvalueAt buffer stop p = some ((scanEndvalue (bytesFrom buffer stop p)).map (p + ·)) := by
  induction hn : stop - p generalizing p with
  | zero =>
    obtain rfl : p = stop := by omega
    rw [endvalueAt, if_pos rfl, bytesFrom_stop]
    rfl
  | succ n ih =>
    have hlt : p < stop := by omega
    obtain ⟨c, hload, hbytes⟩ := load_before hlt hstop
    have hrest := ih (p := p + 1) hlt (by omega)
    rw [endvalueAt, if_neg (Nat.ne_of_lt hlt), hbytes]
    split
    · rename_i hnone
      rw [hload] at hnone
      cases hnone
    · rename_i d hd
      obtain rfl := Option.some.inj (hload.symm.trans hd)
      by_cases h0 : c = 0
      · rw [if_pos h0, scanEndvalue, if_pos h0]
        rfl
      · rw [if_neg h0, hrest, scanEndvalue, if_neg h0, Option.map_map]
        refine congrArg (fun f => some (Option.map f _)) (funext fun k => ?_)
        exact (Nat.add_assoc p 1 k).trans (congrArg (p + ·) (Nat.add_comm 1 k))

/-- `strndup` copies up to the NUL, or up to its bound. -/
theorem strndupAt_eq {pre post : List UInt8} (hpre : (0 : UInt8) ∉ pre) {n : Nat}
    (hbytes : bytesFrom buffer stop p = pre ++ post)
    (hn : n = pre.length ∨ pre.length < n ∧ ∃ rest, post = 0 :: rest) (hstop : stop ≤ buffer.size) :
    strndupAt buffer p n = some pre := by
  induction pre generalizing p n with
  | nil =>
    rcases hn with rfl | ⟨hn, rest, rfl⟩
    · rfl
    · obtain ⟨n, rfl⟩ : ∃ m, n = m + 1 := ⟨n - 1, by simp at hn; omega⟩
      rw [strndupAt, (load_of_bytesFrom hbytes hstop).1]
      rfl
  | cons c pre ih =>
    obtain ⟨n, rfl⟩ : ∃ m, n = m + 1 := ⟨n - 1, by simp at hn; omega⟩
    obtain ⟨hload, hrest⟩ := load_of_bytesFrom hbytes hstop
    have hc : ¬ c = 0 := fun e => hpre (by simp [e])
    have htail := ih (p := p + 1) (n := n) (fun e => hpre (List.mem_cons_of_mem _ e)) hrest
      (by simpa using hn)
    rw [strndupAt, hload, Option.bind_eq_bind, Option.bind_some, if_neg hc, htail]
    rfl

/-- One round of the loop: an entry of the layout is linked as the pair it encodes. -/
theorem readEntriesAt_entry {pair : UbootNameValue} (hrep : Representable pair.name)
    {rest : List UInt8} (hbytes : bytesFrom buffer stop p = entryBytes pair ++ rest)
    (hstop : stop ≤ buffer.size) (rounds : Nat) (vars : List UbootNameValue) :
    readEntriesAt buffer stop (rounds + 1) p vars
      = readEntriesAt buffer stop rounds (p + (entryBytes pair).length) (pair :: vars) := by
  obtain ⟨hne, h61⟩ := hrep
  have hnul := pair.name.nulFree
  have hlen := length_bytesFrom (p := p) hstop
  rw [hbytes, List.length_append, entryBytes_length] at hlen
  have hlt : p < stop := by omega
  obtain ⟨c, tl, hname⟩ := List.exists_cons_of_ne_nil hne
  rw [hname] at h61 hnul
  have hc0 : ¬ c = 0 := fun e => hnul (by simp [e])
  have htl : (0 : UInt8) ∉ tl := fun e => hnul (by simp [e])
  have hstrlen : pair.name.strlen = tl.length + 1 := congrArg List.length hname
  have hdata : bytesFrom buffer stop p = c :: (tl ++ 61 :: (pair.value.bytes ++ 0 :: rest)) := by
    rw [hbytes]
    simp [entryBytes, hname]
  obtain ⟨hload, htail⟩ := load_of_bytesFrom hdata hstop
  have hvalue : bytesFrom buffer stop (p + 1 + tl.length + 1) = pair.value.bytes ++ 0 :: rest := by
    rw [Nat.add_assoc (p + 1), bytesFrom_add, htail]
    simp
  have hendname : endnameAt buffer stop (p + 1) = some (some (p + 1 + tl.length)) := by
    rw [endnameAt_eq hlt hstop, htail, scanEndname_append htl h61]
    rfl
  have hendvalue : endvalueAt buffer stop (p + 1 + tl.length + 1)
      = some (some (p + 1 + tl.length + 1 + pair.value.strlen)) := by
    rw [endvalueAt_eq (by omega) hstop, hvalue, scanEndvalue_append pair.value.nulFree]
    rfl
  have hcopy : strndupAt buffer p (tl.length + 1) = some pair.name.bytes := by
    have hsplit : bytesFrom buffer stop p = (c :: tl) ++ 61 :: (pair.value.bytes ++ 0 :: rest) := hdata
    rw [hname]
    exact strndupAt_eq hnul hsplit (Or.inl rfl) hstop
  have hmax : buffer.size ≤ ptrdiffMax w := buffer.size_le
  have hbound : pair.value.strlen ≤ sizeOfDiff w (0 - (pair.value.strlen : Int)) :=
    le_sizeOfDiff (by omega)
  have hcopy' : strndupAt buffer (p + 1 + tl.length + 1)
      (sizeOfDiff w (0 - (pair.value.strlen : Int))) = some pair.value.bytes := by
    refine strndupAt_eq pair.value.nulFree hvalue ?_ hstop
    rcases Nat.eq_or_lt_of_le hbound with heq | hlt
    · exact Or.inl heq.symm
    · exact Or.inr ⟨hlt, rest, rfl⟩
  have hpair : (⟨.ofBytes pair.name.bytes, .ofBytes pair.value.bytes⟩ : UbootNameValue) = pair := by
    rw [CString.ofBytes_bytes, CString.ofBytes_bytes]
  have hnext : p + 1 + tl.length + 1 + pair.value.strlen + 1 = p + (entryBytes pair).length := by
    rw [entryBytes_length]
    omega
  have hdist : p + 1 + tl.length - p = tl.length + 1 := by omega
  have hback : ((p + 1 + tl.length + 1 : Nat) : Int) -
      ((p + 1 + tl.length + 1 + pair.value.strlen : Nat) : Int) = 0 - (pair.value.strlen : Int) := by
    omega
  rw [readEntriesAt, if_neg (Nat.ne_of_lt hlt), hload]
  simp only [Option.bind_eq_bind, Option.bind_some, if_neg hc0, hendname, hendvalue, hdist, hback,
    hcopy, hcopy', hpair, hnext]

theorem readEntriesAt_end {rounds : Nat}
    (hend : bytesFrom buffer stop p = [] ∨ ∃ rest, bytesFrom buffer stop p = 0 :: rest)
    (hp : p ≤ stop) (hstop : stop ≤ buffer.size) (vars : List UbootNameValue) :
    readEntriesAt buffer stop (rounds + 1) p vars = some (0, vars) := by
  rcases hend with hnil | ⟨rest, hzero⟩
  · have hlen := length_bytesFrom (p := p) hstop
    rw [hnil, List.length_nil] at hlen
    rw [readEntriesAt, if_pos (by omega)]
  · by_cases hps : p = stop
    · rw [readEntriesAt, if_pos hps]
    · rw [readEntriesAt, if_neg hps, (load_of_bytesFrom hzero hstop).1]
      rfl

theorem readEntriesAt_malformed {rounds : Nat} (h : Malformed (bytesFrom buffer stop p))
    (hp : p ≤ stop) (hstop : stop ≤ buffer.size) (vars : List UbootNameValue) :
    readEntriesAt buffer stop (rounds + 1) p vars = some (-1, vars) := by
  obtain ⟨c, s, hdata, hc0, hscan⟩ := h
  obtain ⟨hload, hrest⟩ := load_of_bytesFrom hdata hstop
  have hlen := length_bytesFrom (p := p) hstop
  rw [hdata, List.length_cons] at hlen
  have hname := endnameAt_eq (p := p + 1) (by omega) hstop
  rw [hrest] at hname
  rw [readEntriesAt, if_neg (by omega), hload]
  simp only [Option.bind_eq_bind, Option.bind_some, if_neg hc0, hname]
  rcases hscan with hk | ⟨k, hk, hv⟩
  · simp only [hk]
    rfl
  · obtain ⟨tl, post, hs, hlk, -⟩ := scanEndname_some hk
    have hls := congrArg List.length hs
    rw [List.length_append, List.length_cons] at hls
    have hvalue := endvalueAt_eq (p := p + 1 + (k + 1)) (by omega) hstop
    rw [bytesFrom_add, hrest, hv] at hvalue
    rw [← Nat.add_assoc] at hvalue
    simp only [hk, Option.map_some, Option.bind_some, hvalue]
    rfl

/-- The loop with pointers links the pairs that the loop over lists links. -/
theorem readEntriesAt_eq {rounds : Nat} (hp : p ≤ stop) (hstop : stop ≤ buffer.size)
    (hrounds : stop - p < rounds) (vars : List UbootNameValue) :
    readEntriesAt buffer stop rounds p vars = some (readEntries w (bytesFrom buffer stop p) vars) := by
  have hmax : buffer.size ≤ ptrdiffMax w := buffer.size_le
  induction rounds generalizing p vars with
  | zero => omega
  | succ rounds ih =>
    have hlen := length_bytesFrom (p := p) hstop
    rcases data_cases (bytesFrom buffer stop p) with hend | hbad | ⟨pair, rest, hdata, hrep⟩
    · rw [readEntriesAt_end hend hp hstop]
      rcases hend with hnil | ⟨rest, hzero⟩
      · rw [hnil, readEntries_nil]
      · rw [hzero, readEntries_zero]
    · rw [readEntriesAt_malformed hbad hp hstop, readEntries_malformed hbad]
    · have hrest : bytesFrom buffer stop (p + (entryBytes pair).length) = rest := by
        rw [bytesFrom_add, hdata, List.drop_left]
      rw [hdata, List.length_append, entryBytes_length] at hlen
      rw [readEntriesAt_entry hrep hdata hstop,
        ih (by rw [entryBytes_length]; omega) (by rw [entryBytes_length]; omega), hrest, hdata,
        readEntries_entry hrep (by omega)]

/-! ## The checksum -/

theorem crc32Loop_eq {len : Nat} (hlen : p + len ≤ buffer.size) (crc : UInt32) :
    crc32Loop buffer p len crc =
      some ((bytesFrom buffer (p + len) p).foldl (fun crc octet => updc32 octet crc) crc) := by
  induction len generalizing p crc with
  | zero => rw [Nat.add_zero, bytesFrom_stop]; rfl
  | succ len ih =>
    obtain ⟨c, hload, hbytes⟩ := load_before (Nat.lt_add_of_pos_right (Nat.succ_pos len)) hlen
    have hnext : p + 1 + len = p + (len + 1) := by omega
    have hrest := ih (p := p + 1) (by omega) (updc32 c crc)
    rw [hnext] at hrest
    rw [crc32Loop, hload, hbytes, List.foldl_cons]
    exact hrest

end

/-- The reader with pointers never leaves the block, and does what the reader over lists does. -/
theorem ubootEnvReadAt_eq {env : UbootEnv} {buffer : Buffer w} {rounds : Nat} (h4 : 4 ≤ env.envSize)
    (hsize : env.envSize ≤ buffer.size) (hrounds : env.envSize ≤ rounds) :
    ubootEnvReadAt rounds env buffer = ubootEnvRead env buffer := by
  have hmax : buffer.size ≤ ptrdiffMax w := buffer.size_le
  have hstored : ∀ i < 4, buffer.load i = some ((buffer.bytes.take env.envSize).getD i 0) := by
    intro i hi
    have hin : i < buffer.bytes.length := Nat.lt_of_lt_of_le (by omega) hsize
    rw [Buffer.load, List.getElem?_eq_getElem hin, List.getD_eq_getElem?_getD, List.getElem?_take,
      if_pos (by omega), List.getElem?_eq_getElem hin]
    rfl
  have hdata : bytesFrom buffer env.envSize 4 = blockBytes env.envSize buffer := rfl
  have hlen : sizeOfDiff w ((env.envSize : Int) - 4) = env.envSize - 4 := by
    have hcast : (env.envSize : Int) - 4 = ((env.envSize - 4 : Nat) : Int) := by omega
    rw [hcast, sizeOfDiff_natCast (by omega)]
  have hcrc : crc32bufAt buffer 4 (env.envSize - 4)
      = some (crc32buf (blockBytes env.envSize buffer)) := by
    rw [crc32bufAt, crc32Loop_eq (by omega), Nat.add_sub_cancel' h4, hdata]
    rfl
  have hread := @readEntriesAt_eq w buffer env.envSize 4 rounds h4 hsize (by omega) []
  rw [ubootEnvRead_eq h4 hsize, ubootEnvReadAt]
  simp only [ubootEnvFree, hstored 0 (by omega), hstored 1 (by omega), hstored 2 (by omega),
    hstored 3 (by omega), Option.bind_eq_bind, Option.bind_some, hlen, hcrc]
  rw [hdata] at hread
  by_cases hright : storedCrc (buffer.bytes.take env.envSize)
      = crc32buf (blockBytes env.envSize buffer)
  · rw [if_pos hright]
    refine (if_neg (not_not.mpr hright)).trans ?_
    rw [hread]
    rfl
  · rw [if_neg hright]
    exact if_pos hright

/-! ## What the reader accepts -/

/-- The reader on a block that fills the buffer. -/
theorem ubootEnvRead_block {env : UbootEnv} {buffer : Buffer w} (h4 : 4 ≤ env.envSize)
    (hsize : buffer.size = env.envSize) :
    ubootEnvRead env buffer =
      if blockCrc buffer.bytes = crc32 (buffer.bytes.drop 4) then
        some ((readEntries w (buffer.bytes.drop 4) []).1,
          ⟨env.envSize, (readEntries w (buffer.bytes.drop 4) []).2⟩)
      else some (-1, ⟨env.envSize, []⟩) := by
  have hwhole : buffer.bytes.take env.envSize = buffer.bytes :=
    List.take_of_length_le (Nat.le_of_eq hsize)
  have hlen : 4 ≤ buffer.bytes.length := h4.trans (Nat.le_of_eq hsize.symm)
  rw [ubootEnvRead_eq h4 hsize.ge, blockBytes, hwhole]
  simp only [← UInt32.toBitVec_inj, storedCrc_eq hlen, crc32buf_eq]

theorem ubootEnvRead_block_iff {env env' : UbootEnv} {buffer : Buffer w} (h4 : 4 ≤ env.envSize)
    (hsize : buffer.size = env.envSize) :
    ubootEnvRead env buffer = some (0, env') ↔
      blockCrc buffer.bytes = crc32 (buffer.bytes.drop 4) ∧
        ∃ pairs, Lists (buffer.bytes.drop 4) pairs ∧ env' = ⟨env.envSize, pairs.reverse⟩ := by
  have hwhole : buffer.bytes.take env.envSize = buffer.bytes :=
    List.take_of_length_le (Nat.le_of_eq hsize)
  have hlen : 4 ≤ buffer.bytes.length := h4.trans (Nat.le_of_eq hsize.symm)
  rw [ubootEnvRead_iff h4 hsize.ge, blockBytes, hwhole, ← UInt32.toBitVec_inj, storedCrc_eq hlen,
    crc32buf_eq]

/-- The reader accepts exactly the blocks of the layout with the right checksum, and looks at no
byte outside the block on the way. -/
theorem reader_accepts_iff {env : UbootEnv} {buffer : Buffer w} {rounds : Nat} (h4 : 4 ≤ env.envSize)
    (hsize : buffer.size = env.envSize) (hrounds : env.envSize ≤ rounds) :
    ∃ rc env', ubootEnvReadAt rounds env buffer = some (rc, env') ∧
      (rc = 0 ↔ blockCrc buffer.bytes = crc32 (buffer.bytes.drop 4) ∧
        ∃ pairs, Lists (buffer.bytes.drop 4) pairs) ∧
      (rc = 0 → ∀ pairs, Lists (buffer.bytes.drop 4) pairs → env'.vars = pairs.reverse) := by
  have hmax : (buffer.bytes.drop 4).length ≤ ptrdiffMax w := by
    have hle := buffer.size_le
    rw [List.length_drop]
    omega
  obtain ⟨rc, env', hread⟩ : ∃ rc env', ubootEnvRead env buffer = some (rc, env') := by
    rw [ubootEnvRead_block h4 hsize]
    split_ifs
    · exact ⟨_, _, rfl⟩
    · exact ⟨_, _, rfl⟩
  refine ⟨rc, env', by rw [ubootEnvReadAt_eq h4 hsize.ge hrounds, hread], ⟨?_, ?_⟩, ?_⟩
  · rintro rfl
    obtain ⟨hcrc, pairs, hl, -⟩ := (ubootEnvRead_block_iff h4 hsize).mp hread
    exact ⟨hcrc, pairs, hl⟩
  · rintro ⟨hcrc, pairs, hl⟩
    have hzero := (ubootEnvRead_block_iff h4 hsize).mpr ⟨hcrc, pairs, hl, rfl⟩
    rw [hread] at hzero
    exact congrArg Prod.fst (Option.some.inj hzero)
  · rintro rfl pairs hl
    obtain ⟨-, pairs', hl', rfl⟩ := (ubootEnvRead_block_iff h4 hsize).mp hread
    rw [lists_unique hmax hl hl']

/-- A block that lists `a=1` and then `a=2`. -/
def twiceBuffer : Buffer 64 := ⟨twiceBlock "2", by decide⟩

theorem reader_accepts_twice :
    ∃ env', ubootEnvReadAt 16 (twiceEnv "1") twiceBuffer = some (0, env') ∧
      env'.vars = (twiceEnv "2").vars := by
  have h4 : 4 ≤ (twiceEnv "1").envSize := by decide
  have hsize : twiceBuffer.size = (twiceEnv "1").envSize := rfl
  have hlists : Lists (twiceBuffer.bytes.drop 4) (twiceEnv "2").vars.reverse :=
    lists_blockData (by decide)
  obtain ⟨rc, env', hread, hrc, hvars⟩ := reader_accepts_iff h4 hsize (Nat.le_refl 16)
  obtain rfl := hrc.mpr ⟨by decide +kernel, _, hlists⟩
  refine ⟨env', hread, ?_⟩
  rw [hvars rfl _ hlists, List.reverse_reverse]

/-! ## What a refused block leaves behind -/

/-- The pairs that are linked stay linked. -/
theorem readEntries_suffix (data : List UInt8) (vars : List UbootNameValue) :
    vars <:+ (readEntries w data vars).2 := by
  fun_induction readEntries w data vars with
  | case1 | case2 | case3 | case4 => exact List.suffix_rfl
  | case5 => exact (List.suffix_cons _ _).trans ‹_›

/-- The loop links a pair before it fails exactly when the data starts with an entry. -/
theorem leaves_nothing_iff {data : List UInt8} (hsize : data.length ≤ ptrdiffMax w) :
    ((readEntries w data []).1 = -1 → (readEntries w data []).2 = []) ↔
      (∃ pairs, Lists data pairs) ∨
        ¬ ∃ pair rest, Representable pair.name ∧ data = entryBytes pair ++ rest := by
  constructor
  · intro h
    by_contra hnot
    rw [not_or, not_not] at hnot
    obtain ⟨hlists, pair, rest, hrep, rfl⟩ := hnot
    have hrc : (readEntries w (entryBytes pair ++ rest) []).1 = -1 := by
      refine (readEntries_code _ _).resolve_left fun hzero => hlists ?_
      obtain ⟨pairs, hl, -⟩ := lists_of_readEntries hsize (Prod.ext hzero rfl)
      exact ⟨pairs, hl⟩
    have hnil := h hrc
    rw [List.length_append, entryBytes_length] at hsize
    rw [readEntries_entry hrep (by omega)] at hnil
    have hsuffix := readEntries_suffix (w := w) rest [pair]
    rw [hnil] at hsuffix
    exact absurd (List.suffix_nil.mp hsuffix) (List.cons_ne_nil pair [])
  · intro h hrc
    rcases data_cases data with hend | hbad | ⟨pair, rest, hdata, hrep⟩
    · rcases hend with rfl | ⟨rest, rfl⟩
      · rw [readEntries_nil]
      · rw [readEntries_zero]
    · rw [readEntries_malformed hbad]
    · rcases h with ⟨pairs, hl⟩ | hnone
      · rw [readEntries_of_lists hl hsize] at hrc
        exact absurd hrc (show ¬ (0 : Int) = -1 by decide)
      · exact absurd ⟨pair, rest, hrep, hdata⟩ hnone

/-- A block leaves no pair behind in being refused exactly when its checksum is wrong, or it is of
the layout and so not refused, or it does not even start with an entry. -/
theorem refused_leaves_nothing_iff {env : UbootEnv} {buffer : Buffer w} (h4 : 4 ≤ env.envSize)
    (hsize : buffer.size = env.envSize) :
    (∀ env', ubootEnvRead env buffer = some (-1, env') → env'.vars = []) ↔
      blockCrc buffer.bytes ≠ crc32 (buffer.bytes.drop 4) ∨
        (∃ pairs, Lists (buffer.bytes.drop 4) pairs) ∨
        ¬ ∃ pair rest, Representable pair.name ∧ buffer.bytes.drop 4 = entryBytes pair ++ rest := by
  have hmax : (buffer.bytes.drop 4).length ≤ ptrdiffMax w := by
    have hle := buffer.size_le
    rw [List.length_drop]
    omega
  rw [ubootEnvRead_block h4 hsize]
  by_cases hcrc : blockCrc buffer.bytes = crc32 (buffer.bytes.drop 4)
  · rw [if_pos hcrc, or_iff_right (not_not.mpr hcrc), ← leaves_nothing_iff hmax]
    constructor
    · intro h hrc
      exact h ⟨env.envSize, _⟩ (by rw [hrc])
    · intro h env' heq
      obtain ⟨hrc, rfl⟩ := Prod.mk.inj (Option.some.inj heq)
      exact h hrc
  · rw [if_neg hcrc]
    refine iff_of_true (fun env' h => ?_) (Or.inl hcrc)
    rw [← (Prod.mk.inj (Option.some.inj h)).2]

theorem refused_leaves_nothing_sevens : ∃ env',
    ubootEnvRead (twiceEnv "1") sixteenBytes = some (-1, env') ∧ env'.vars = [] := by
  have h4 : 4 ≤ (twiceEnv "1").envSize := by decide
  have hsize : sixteenBytes.size = (twiceEnv "1").envSize := rfl
  have hread : ubootEnvRead (twiceEnv "1") sixteenBytes = some (-1, ⟨16, []⟩) := by decide +kernel
  exact ⟨_, hread, (refused_leaves_nothing_iff h4 hsize).mpr (Or.inl (by decide +kernel)) _ hread⟩

/-- The entry `a=1`, and a name without a value. -/
def brokenData : List UInt8 := entryBytes ⟨.ofString "a", .ofString "1"⟩ ++ [98, 0]

def brokenBuffer : Buffer 64 := ⟨crcBytes (crc32buf brokenData) ++ brokenData, by decide⟩

theorem refused_leaves_pair :
    ¬ ∀ (env env' : UbootEnv) (buffer : Buffer 64), 4 ≤ env.envSize → buffer.size = env.envSize →
      ubootEnvRead env buffer = some (-1, env') → env'.vars = [] := by
  intro h
  have hread : ubootEnvRead ⟨10, []⟩ brokenBuffer
      = some (-1, ⟨10, [⟨.ofString "a", .ofString "1"⟩]⟩) := by decide +kernel
  cases h _ _ _ (by decide) rfl hread

end NervesInitramfs
