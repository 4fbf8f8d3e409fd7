import NervesInitramfs.Uboot.Proofs.ReadProofs

/-!
# Proofs: the writer and the layout

The loop that adds the pairs lays out exactly their entries, or stops because they do not fit. From
that a block that is written consists of its checksum, the entries in the sorted order, and the
fill.
-/

namespace NervesInitramfs

open CLib

variable {w : Nat}

/-- One round of the loop that adds the pairs: the four stores lay out the entry. -/
theorem writeEntries_cons {stop p : Nat} (pair : UbootNameValue) {buffer : Buffer w}
    {a r : List UInt8} (hb : buffer.bytes = a ++ r) (hp : a.length = p)
    (hfit : p + (entryBytes pair).length ≤ stop) (hstop : stop ≤ buffer.size) :
    ∃ buffer' : Buffer w, buffer'.bytes = a ++ entryBytes pair ++ r.drop (entryBytes pair).length ∧
      ∀ rest, writeEntries stop (pair :: rest) p buffer
        = writeEntries stop rest (p + (entryBytes pair).length) buffer' := by
  have hlen := entryBytes_length pair
  have hr : (entryBytes pair).length ≤ r.length := by
    have : buffer.size = a.length + r.length := by simp [Buffer.size, hb]
    omega
  have hn : pair.name.bytes.length = pair.name.strlen := rfl
  have hv : pair.value.bytes.length = pair.value.strlen := rfl
  obtain ⟨b1, h1, e1⟩ := Buffer.memcpy_append pair.name.bytes hb hp (by omega)
  obtain ⟨b2, h2, e2⟩ := b1.store_append (c := 61) e1 (p := p + pair.name.strlen)
    (by simp [hp, hn]) (by simp; omega)
  rw [List.drop_drop] at e2
  obtain ⟨b3, h3, e3⟩ := Buffer.memcpy_append pair.value.bytes (b := b2)
    (a := a ++ pair.name.bytes ++ [61]) (r := r.drop (pair.name.bytes.length + 1))
    (p := p + pair.name.strlen + 1) (by simpa using e2) (by simp [hp, hn]; omega) (by simp; omega)
  rw [List.drop_drop] at e3
  obtain ⟨b4, h4, e4⟩ := b3.store_append (c := 0) (p := p + pair.name.strlen + 1 + pair.value.strlen)
    e3 (by simp [hp, hn, hv]; omega) (by simp; omega)
  rw [List.drop_drop] at e4
  refine ⟨b4, ?_, fun rest => ?_⟩
  · rw [e4, hlen]
    simp only [entryBytes, List.append_assoc, List.cons_append, List.nil_append, hn, hv]
    rw [show pair.name.strlen + 1 + pair.value.strlen + 1
      = pair.name.strlen + pair.value.strlen + 2 by omega]
  · have hge : ¬ p + pair.name.strlen + 1 + pair.value.strlen ≥ stop := by omega
    simp only [writeEntries, if_neg hge, h1, h2, h3, h4, Option.bind_eq_bind, Option.bind_some]
    rw [hlen]
    congr 1
    omega

/-- The loop that adds the pairs, when their entries end at `stop` or before it. -/
theorem writeEntries_fits (stop : Nat) (pairs : List UbootNameValue) {p : Nat} {buffer : Buffer w}
    {a r : List UInt8} (hb : buffer.bytes = a ++ r) (hp : a.length = p)
    (hfit : p + (entriesBytes pairs).length ≤ stop) (hstop : stop ≤ buffer.size) :
    ∃ buffer' : Buffer w,
      writeEntries stop pairs p buffer = some (0, p + (entriesBytes pairs).length, buffer') ∧
        buffer'.bytes = a ++ entriesBytes pairs ++ r.drop (entriesBytes pairs).length := by
  induction pairs generalizing p buffer a r with
  | nil => exact ⟨buffer, by simp [writeEntries], by simpa using hb⟩
  | cons pair pairs ih =>
    rw [entriesBytes_cons, List.length_append] at hfit
    obtain ⟨b1, e1, hstep⟩ := writeEntries_cons pair hb hp (by omega) hstop
    have hsize : stop ≤ b1.size := by
      have h1 : buffer.size = a.length + r.length := by simp [Buffer.size, hb]
      simp only [Buffer.size, e1, List.length_append, List.length_drop]
      omega
    obtain ⟨b2, hrun, e2⟩ := ih (p := p + (entryBytes pair).length) e1 (by simp [hp]) (by omega) hsize
    refine ⟨b2, ?_, ?_⟩
    · rw [hstep, hrun, entriesBytes_cons, List.length_append]
      simp [Nat.add_assoc]
    · rw [e2, entriesBytes_cons, List.length_append, List.drop_drop]
      simp [List.append_assoc]

/-- The loop that adds the pairs, when their entries would end after `stop`. -/
theorem writeEntries_overflows (stop : Nat) (pairs : List UbootNameValue) {p : Nat}
    {buffer : Buffer w} {a r : List UInt8} (hb : buffer.bytes = a ++ r) (hp : a.length = p)
    (hps : p ≤ stop) (hover : stop < p + (entriesBytes pairs).length) (hstop : stop ≤ buffer.size) :
    ∃ p' buffer', writeEntries stop pairs p buffer = some (-1, p', buffer') := by
  induction pairs generalizing p buffer a r with
  | nil => simp at hover; omega
  | cons pair pairs ih =>
    have hlen := entryBytes_length pair
    by_cases hge : p + pair.name.strlen + 1 + pair.value.strlen ≥ stop
    · exact ⟨p, buffer, by simp [writeEntries, hge]⟩
    · rw [entriesBytes_cons, List.length_append] at hover
      obtain ⟨b1, e1, hstep⟩ := writeEntries_cons pair hb hp (by omega) hstop
      have hsize : stop ≤ b1.size := by
        have h1 : buffer.size = a.length + r.length := by simp [Buffer.size, hb]
        simp only [Buffer.size, e1, List.length_append, List.length_drop]
        omega
      obtain ⟨p', b2, hrun⟩ := ih (p := p + (entryBytes pair).length) e1 (by simp [hp]) (by omega)
        (by omega) hsize
      exact ⟨p', b2, by rw [hstep, hrun]⟩

/-! ## The checksum -/

@[simp] theorem crcBytes_length (crc : UInt32) : (crcBytes crc).length = 4 := rfl

/-- The four checksum bytes are read back as the checksum. -/
theorem storedCrc_crcBytes (crc : UInt32) (data : List UInt8) :
    storedCrc (crcBytes crc ++ data) = crc := by
  show crc.toUInt8.toUInt32 ||| ((crc >>> 8).toUInt8.toUInt32 <<< 8) |||
    ((crc >>> 16).toUInt8.toUInt32 <<< 16) ||| ((crc >>> 24).toUInt8.toUInt32 <<< 24) = crc
  have e8 : UInt32.toBitVec 8 % 32 = 8#32 := rfl
  have e16 : UInt32.toBitVec 16 % 32 = 16#32 := rfl
  have e24 : UInt32.toBitVec 24 % 32 = 24#32 := rfl
  refine UInt32.toBitVec_inj.mp (BitVec.eq_of_getLsbD_eq fun i hi => ?_)
  simp only [UInt32.toBitVec_or, UInt32.toBitVec_shiftLeft, UInt8.toBitVec_toUInt32,
    UInt32.toBitVec_toUInt8, UInt32.toBitVec_shiftRight, e8, e16, e24, BitVec.shiftLeft_eq',
    BitVec.ushiftRight_eq', BitVec.toNat_ofNat, BitVec.getLsbD_or, BitVec.getLsbD_shiftLeft,
    BitVec.getLsbD_setWidth, BitVec.getLsbD_ushiftRight, hi]
  -- Bit `i` comes from the byte that it lies in.
  by_cases h1 : i < 8
  · simp [h1, show i < 16 by omega, show i < 24 by omega]
  · by_cases h2 : i < 16
    · simp [h1, h2, show i < 24 by omega, show i - 8 < 8 by omega, show 8 + (i - 8) = i by omega,
        show i - 8 < 32 by omega]
    · by_cases h3 : i < 24
      · simp [h1, h2, h3, show ¬ i - 8 < 8 by omega, show i - 16 < 8 by omega,
          show 16 + (i - 16) = i by omega, show i - 16 < 32 by omega]
      · simp [h1, h2, h3, show ¬ i - 8 < 8 by omega, show ¬ i - 16 < 8 by omega,
          show i - 24 < 8 by omega, show 24 + (i - 24) = i by omega, show i - 24 < 32 by omega]

/-! ## `ubootEnvWrite` -/

theorem ubootEnvSort_eq (qsort : Qsort envNameCompare) (env : UbootEnv) :
    ubootEnvSort qsort env = { env with vars := qsort.sort env.vars } := by
  unfold ubootEnvSort
  split_ifs with h
  · obtain ⟨n, vars⟩ := env
    obtain rfl : vars = [] := List.length_eq_zero_iff.mp h
    have := (qsort.perm []).eq_nil
    simp [this]
  · rfl

theorem sort_length (qsort : Qsort envNameCompare) (pairs : List UbootNameValue) :
    (entriesBytes (qsort.sort pairs)).length = (entriesBytes pairs).length :=
  entriesBytes_perm_length (qsort.perm pairs)

/-- A block that is written consists of the checksum of its data and the data, which holds the
entries in the sorted order; nothing is left of what the buffer held. -/
theorem ubootEnvWrite_fits (qsort : Qsort envNameCompare) {env : UbootEnv} {buffer : Buffer w}
    (hsize : buffer.size = env.envSize)
    (hfit : 4 + (entriesBytes env.vars).length + 2 ≤ env.envSize) (h8 : 8 ≤ env.envSize) :
    ∃ block : Buffer w,
      ubootEnvWrite qsort env buffer = some (0, { env with vars := qsort.sort env.vars }, block) ∧
        block.bytes = crcBytes (crc32buf (blockData (env.envSize - 4) (qsort.sort env.vars)))
          ++ blockData (env.envSize - 4) (qsort.sort env.vars) := by
  set pairs := qsort.sort env.vars with hpairs
  have hlen : (entriesBytes pairs).length = (entriesBytes env.vars).length := sort_length qsort _
  obtain ⟨b1, h1, e1⟩ := buffer.memset_whole 0xff
  rw [hsize] at h1 e1
  have hb1 : b1.bytes = List.replicate 4 0xff ++ List.replicate (env.envSize - 4) 0xff := by
    rw [e1, List.replicate_append_replicate]; congr 1; omega
  have hs1 : b1.size = env.envSize := by simp [Buffer.size, e1]
  obtain ⟨b2, h2, e2⟩ := writeEntries_fits (env.envSize - 2) pairs hb1 (p := 4) (by simp)
    (by omega) (by omega)
  rw [List.drop_replicate] at e2
  obtain ⟨b3, h3, e3⟩ := b2.store_append (c := 0) e2 (p := 4 + (entriesBytes pairs).length)
    (by simp; omega) (by simp; omega)
  have hb3 : b3.bytes = List.replicate 4 0xff ++ blockData (env.envSize - 4) pairs := by
    rw [e3]; simp [blockData, List.drop_replicate]
  have hdata : (blockData (env.envSize - 4) pairs).length = env.envSize - 4 := by
    simp [blockData]; omega
  have htake : (b3.bytes.take env.envSize).drop 4 = blockData (env.envSize - 4) pairs := by
    rw [List.take_of_length_le (by simp [hb3, hdata]; omega), hb3]
    simp
  obtain ⟨b4, h4, e4⟩ := Buffer.memcpy_append (b := b3) (a := [])
    (crcBytes (crc32buf (blockData (env.envSize - 4) pairs))) (p := 0) (by simpa using hb3) rfl (by simp)
  refine ⟨b4, ?_, by simpa using e4⟩
  unfold ubootEnvWrite
  rw [if_neg (by omega)]
  simp only [h1, ubootEnvSort_eq, ← hpairs, h2, h3, htake, h4, Option.bind_eq_bind, Option.bind_some]
  rfl

/-- An environment whose entries and final NUL do not end in front of the last byte is refused. -/
theorem ubootEnvWrite_overflows (qsort : Qsort envNameCompare) {env : UbootEnv} {buffer : Buffer w}
    (hsize : buffer.size = env.envSize)
    (hover : env.envSize < 4 + (entriesBytes env.vars).length + 2) :
    ∃ env' block, ubootEnvWrite qsort env buffer = some (-1, env', block) ∧
      (env' = env ∨ env' = { env with vars := qsort.sort env.vars }) := by
  unfold ubootEnvWrite
  by_cases h8 : env.envSize < 8
  · exact ⟨env, buffer, by rw [if_pos h8], Or.inl rfl⟩
  · set pairs := qsort.sort env.vars with hpairs
    have hlen : (entriesBytes pairs).length = (entriesBytes env.vars).length := sort_length qsort _
    obtain ⟨b1, h1, e1⟩ := buffer.memset_whole 0xff
    rw [hsize] at h1 e1
    have hs1 : b1.size = env.envSize := by simp [Buffer.size, e1]
    have hb1 : b1.bytes = List.replicate 4 0xff ++ List.replicate (env.envSize - 4) 0xff := by
      rw [e1, List.replicate_append_replicate]; congr 1; omega
    obtain ⟨p', b2, h2⟩ := writeEntries_overflows (env.envSize - 2) pairs hb1 (p := 4)
      (by simp) (by omega) (by omega) (by omega)
    refine ⟨{ env with vars := pairs }, b2, ?_, Or.inr rfl⟩
    rw [if_neg h8]
    simp only [h1, ubootEnvSort_eq, ← hpairs, h2, Option.bind_eq_bind, Option.bind_some]
    rfl

/-- What a successful write says: the entries fitted, and the block is as in
`ubootEnvWrite_fits`. -/
theorem ubootEnvWrite_ok {qsort : Qsort envNameCompare} {env env' : UbootEnv}
    {buffer block : Buffer w} (hsize : buffer.size = env.envSize)
    (h : ubootEnvWrite qsort env buffer = some (0, env', block)) :
    8 ≤ env.envSize ∧ 4 + (entriesBytes env.vars).length + 2 ≤ env.envSize ∧
      env' = { env with vars := qsort.sort env.vars } ∧
      block.bytes = crcBytes (crc32buf (blockData (env.envSize - 4) (qsort.sort env.vars)))
        ++ blockData (env.envSize - 4) (qsort.sort env.vars) := by
  have h8 : 8 ≤ env.envSize := by
    by_contra hlt
    rw [ubootEnvWrite, if_pos (by omega)] at h
    simp at h
  by_cases hfit : 4 + (entriesBytes env.vars).length + 2 ≤ env.envSize
  · obtain ⟨block', hw, hb⟩ := ubootEnvWrite_fits qsort hsize hfit h8
    rw [hw] at h
    simp only [Option.some.injEq, Prod.mk.injEq, true_and] at h
    obtain ⟨rfl, rfl⟩ := h
    exact ⟨h8, hfit, rfl, hb⟩
  · obtain ⟨env1, block1, hw, -⟩ := ubootEnvWrite_overflows qsort hsize (by omega)
    rw [hw] at h
    simp at h

/-- A write succeeds, or is refused and leaves the pairs as they are apart from sorting them. -/
theorem ubootEnvWrite_cases (qsort : Qsort envNameCompare) {env : UbootEnv} {buffer : Buffer w}
    (hsize : buffer.size = env.envSize) :
    (∃ block, ubootEnvWrite qsort env buffer
      = some (0, { env with vars := qsort.sort env.vars }, block)) ∨
    ∃ env' block, ubootEnvWrite qsort env buffer = some (-1, env', block) ∧
      (env' = env ∨ env' = { env with vars := qsort.sort env.vars }) := by
  by_cases hfit : 4 + (entriesBytes env.vars).length + 2 ≤ env.envSize
  · by_cases h8 : 8 ≤ env.envSize
    · obtain ⟨block, hw, -⟩ := ubootEnvWrite_fits qsort hsize hfit h8
      exact Or.inl ⟨block, hw⟩
    · refine Or.inr ⟨env, buffer, ?_, Or.inl rfl⟩
      rw [ubootEnvWrite, if_pos (by omega)]
  · exact Or.inr (ubootEnvWrite_overflows qsort hsize (by omega))

end NervesInitramfs
