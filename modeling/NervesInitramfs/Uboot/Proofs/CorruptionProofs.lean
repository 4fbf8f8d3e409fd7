import NervesInitramfs.Uboot.Proofs.AccessProofs

/-!
# Proofs: corruption is noticed

A block that was accepted and then changed in its stored checksum, or in a window of at most four
bytes of its data, is refused.
-/

namespace NervesInitramfs

open CLib

variable {w : Nat}

/-- Two blocks have the same bytes outside of a window. -/
def AgreeOutside (start len : Nat) (s s' : List UInt8) : Prop :=
  ∀ i, i < start ∨ start + len ≤ i → s[i]? = s'[i]?

section

variable {start len : Nat} {s s' : List UInt8}

theorem AgreeOutside.take (h : AgreeOutside start len s s') : s.take start = s'.take start := by
  refine List.ext_getElem? fun i => ?_
  rw [List.getElem?_take, List.getElem?_take]
  split_ifs with hi
  · exact h i (Or.inl hi)
  · rfl

theorem AgreeOutside.drop (h : AgreeOutside start len s s') :
    s.drop (start + len) = s'.drop (start + len) := by
  refine List.ext_getElem? fun i => ?_
  rw [List.getElem?_drop, List.getElem?_drop]
  exact h _ (Or.inr (Nat.le_add_right _ _))

theorem agreeOutside_drop {n : Nat} (h : AgreeOutside (n + start) len s s') :
    AgreeOutside start len (s.drop n) (s'.drop n) := by
  intro i hi
  rw [List.getElem?_drop, List.getElem?_drop]
  exact h _ (by omega)

/-- The CRC-32 tells blocks of one length apart that differ inside a window of four bytes. -/
theorem crc32_agreeOutside (h : AgreeOutside start 4 s s') (hlen : s.length = s'.length)
    (hcrc : crc32 s = crc32 s') : s = s' := by
  have hsplit : ∀ t : List UInt8, t = t.take start ++ (t.drop start).take 4 ++ t.drop (start + 4) := by
    intro t
    rw [List.append_assoc, ← List.drop_drop, List.take_append_drop, List.take_append_drop]
  have hwindow : (s.drop start).take 4 = (s'.drop start).take 4 := by
    rw [hsplit s, hsplit s', h.take, h.drop] at hcrc
    refine crc32_window (List.length_take_le _ _) ?_ hcrc
    rw [List.length_take, List.length_take, List.length_drop, List.length_drop, hlen]
  rw [hsplit s, hsplit s', h.take, h.drop, hwindow]

end

/-- A block that was accepted is refused once it is changed in the four bytes of its checksum only,
or in at most four consecutive bytes of its data. -/
theorem corruption_detected {env env1 env2 : UbootEnv} {block block' : Buffer w}
    (h8 : 8 ≤ env.envSize) (hsize : block.size = env.envSize)
    (hread : ubootEnvRead env block = some (0, env1))
    (henv2 : env2.envSize = env.envSize) (hsize' : block'.size = env.envSize)
    (hdiff : block'.bytes ≠ block.bytes)
    (hwhere : AgreeOutside 0 4 block.bytes block'.bytes ∨
      ∃ k, 4 ≤ k ∧ AgreeOutside k 4 block.bytes block'.bytes) :
    ∃ env', ubootEnvRead env2 block' = some (-1, env') := by
  obtain ⟨hcrc, -⟩ := (ubootEnvRead_block_iff (by omega) hsize).mp hread
  have hlen : block.bytes.length = block'.bytes.length := hsize.trans hsize'.symm
  have h4 : 4 ≤ block.bytes.length := by
    have : block.bytes.length = env.envSize := hsize
    omega
  have hhalves : ∀ {s s' : List UInt8}, s.take 4 = s'.take 4 → s.drop 4 = s'.drop 4 → s = s' := by
    intro s s' htake hdrop
    rw [← List.take_append_drop 4 s, htake, hdrop, List.take_append_drop]
  have hwrong : blockCrc block'.bytes ≠ crc32 (block'.bytes.drop 4) := by
    intro hcrc'
    rcases hwhere with hstored | ⟨k, hk, hdata⟩
    · -- The data is the same, and so is its CRC-32.
      have hdrop : block.bytes.drop 4 = block'.bytes.drop 4 := hstored.drop
      have htake := blockCrc_injective h4 hlen (hcrc.trans ((congrArg crc32 hdrop).trans hcrc'.symm))
      exact hdiff (hhalves htake hdrop).symm
    · obtain ⟨k, rfl⟩ := Nat.exists_eq_add_of_le hk
      have htake : block.bytes.take 4 = block'.bytes.take 4 := by
        refine List.ext_getElem? fun i => ?_
        rw [List.getElem?_take, List.getElem?_take]
        split_ifs with hi
        · exact hdata i (Or.inl (by omega))
        · rfl
      have hstored : blockCrc block.bytes = blockCrc block'.bytes := by
        rw [blockCrc, htake, blockCrc]
      have hdrop := crc32_agreeOutside (agreeOutside_drop hdata) (by simp [hlen])
        (hcrc.symm.trans (hstored.trans hcrc'))
      exact hdiff (hhalves htake hdrop).symm
  exact ⟨_, (ubootEnvRead_block (by omega) (by omega)).trans (if_neg hwrong)⟩

/-- The block that lists `a=1` and `a=2`, with the `2` changed to a `3`. -/
def changedBuffer : Buffer 64 := ⟨twiceBuffer.bytes.set 10 51, by decide⟩

theorem corruption_detected_twice : ∃ env', ubootEnvRead (twiceEnv "1") changedBuffer = some (-1, env') := by
  have h8 : 8 ≤ (twiceEnv "1").envSize := by decide
  have hread : ubootEnvRead (twiceEnv "1") twiceBuffer = some (0, twiceEnv "2") := by decide +kernel
  refine corruption_detected h8 rfl hread rfl rfl (by decide +kernel) (Or.inr ⟨8, by decide, ?_⟩)
  intro i hi
  rw [changedBuffer, List.getElem?_set_ne (by omega)]

end NervesInitramfs
