import NervesInitramfs.CLib.Proofs.CStringProofs
import NervesInitramfs.Cmd.SystemCmd

/-!
# Proofs: the captured output of a command

After each `read` the buffer holds the first bytes of what has been read so far.
-/

namespace NervesInitramfs

open CLib

variable {w : Nat}

/-- The buffer holds the first bytes of `seen`, and `index` is where the next one goes. -/
structure Holds (size : Nat) (seen : List UInt8) (index : Nat) (buffer : Buffer w) : Prop where
  index_eq : index = min seen.length (size - 1)
  bytes_eq : buffer.bytes = firstBytes seen size

theorem firstBytes_of_le {seen : List UInt8} {size : Nat} (h : seen.length ≤ size - 1) :
    firstBytes seen size = seen ++ List.replicate (size - seen.length) 0 := by
  rw [firstBytes, List.take_of_length_le h, Nat.min_eq_left h]

theorem firstBytes_append {seen : List UInt8} {size : Nat} (h : size - 1 ≤ seen.length)
    (got : List UInt8) : firstBytes (seen ++ got) size = firstBytes seen size := by
  have hmin : min (seen ++ got).length (size - 1) = min seen.length (size - 1) := by
    rw [List.length_append]
    omega
  rw [firstBytes, firstBytes, List.take_append_of_le_length h, hmin]

/-- A `read` into the buffer. -/
theorem Holds.store {size : Nat} {seen : List UInt8} {index : Nat} {buffer : Buffer w}
    (h : Holds size seen index buffer) (got : List UInt8) (hfit : index + got.length ≤ size - 1)
    (hroom : index < size - 1) :
    ∃ buffer', buffer.memcpy index got = some buffer' ∧
      Holds size (seen ++ got) (index + got.length) buffer' := by
  have hindex := h.index_eq
  have hlen : seen.length = index := by omega
  have hbytes : buffer.bytes = seen ++ List.replicate (size - seen.length) 0 := by
    rw [h.bytes_eq, firstBytes_of_le (by omega)]
  have hsrc : got.length ≤ (List.replicate (size - seen.length) (0 : UInt8)).length := by
    rw [List.length_replicate]
    omega
  obtain ⟨buffer', hstore, hbytes'⟩ := Buffer.memcpy_append got hbytes hlen hsrc
  refine ⟨buffer', hstore, ?_, ?_⟩
  · rw [List.length_append]
    omega
  · have hall : (seen ++ got).length ≤ size - 1 := by
      rw [List.length_append]
      omega
    rw [hbytes', firstBytes_of_le hall, List.drop_replicate, List.length_append, Nat.sub_sub]

/-- A `read` that is thrown away. -/
theorem Holds.throwAway {size : Nat} {seen : List UInt8} {index : Nat} {buffer : Buffer w}
    (h : Holds size seen index buffer) (got : List UInt8) (hfull : ¬index < size - 1) :
    Holds size (seen ++ got) index buffer := by
  have hindex := h.index_eq
  refine ⟨?_, ?_⟩
  · rw [List.length_append]
    omega
  · rw [h.bytes_eq, firstBytes_append (by omega)]

theorem hasRoom_iff {size index : Nat} (hsize : 0 < size) :
    hasRoom ((size : Int) - 1) index = true ↔ index < size - 1 := by
  unfold hasRoom
  rw [decide_eq_true_iff]
  omega

theorem amountToRead_pos (length : Int) (index : Nat) : 0 < amountToRead length index := by
  unfold amountToRead
  by_cases hroom : hasRoom length index = true
  · have hlt := of_decide_eq_true hroom
    rw [if_pos hroom]
    omega
  · rw [if_neg hroom]
    decide

/-- The loop reads everything, and leaves the first bytes of all that has been read. -/
theorem readOutput_eq {pipe : Pipe} (hpipe : pipe.Delivers) {size : Nat} (hsize : 0 < size)
    (left : List UInt8) {step index : Nat} {seen : List UInt8} {buffer : Buffer w}
    (h : Holds size seen index buffer) :
    ∃ final, readOutput pipe ((size : Int) - 1) step index left buffer = some (final, []) ∧
      final.bytes = firstBytes (seen ++ left) size := by
  induction hn : left.length using Nat.strong_induction_on generalizing left step index seen buffer with
  | _ n ih =>
    subst hn
    rw [readOutput]
    have hle := pipe.amount_le step (amountToRead ((size : Int) - 1) index) left.length
    cases left with
    | nil =>
      have hend : pipe.amount step (amountToRead ((size : Int) - 1) index) [].length ≤ 0 := hle.2
      rw [dif_pos hend]
      exact ⟨buffer, rfl, by rw [List.append_nil, h.bytes_eq]⟩
    | cons c rest =>
      have hpos := hpipe step _ (c :: rest).length (amountToRead_pos ((size : Int) - 1) index)
        (Nat.succ_pos rest.length)
      rw [dif_neg (Int.not_le.mpr hpos)]
      generalize hamount : pipe.amount step (amountToRead ((size : Int) - 1) index) (c :: rest).length = k
        at hle hpos
      generalize hleft : c :: rest = left at hle ih
      have hgot : (left.take k.toNat).length = k.toNat := by
        rw [List.length_take]
        omega
      have hshorter : (left.drop k.toNat).length < left.length := by
        rw [List.length_drop]
        omega
      by_cases hroom : hasRoom ((size : Int) - 1) index = true
      · have hlt := (hasRoom_iff hsize).mp hroom
        have hasked : amountToRead ((size : Int) - 1) index = size - 1 - index := by
          rw [amountToRead, if_pos hroom]
          omega
        rw [hasked] at hle
        obtain ⟨buffer', hstore, hholds⟩ := h.store (left.take k.toNat) (by omega) hlt
        obtain ⟨final, hrun, hbytes⟩ := ih _ hshorter _ hholds rfl
        rw [hgot] at hrun
        refine ⟨final, ?_, ?_⟩
        · rw [if_pos hroom, hstore]
          exact hrun
        · rw [hbytes, List.append_assoc, List.take_append_drop]
      · have hfull : ¬index < size - 1 := fun hlt => hroom ((hasRoom_iff hsize).mpr hlt)
        obtain ⟨final, hrun, hbytes⟩ :=
          ih _ hshorter _ (h.throwAway (left.take k.toNat) hfull) rfl
        refine ⟨final, ?_, ?_⟩
        · rw [if_neg hroom]
          exact hrun
        · rw [hbytes, List.append_assoc, List.take_append_drop]

/-- However the output arrives, the buffer is left with its first bytes and zeros, every store is in
the buffer, and nothing is unread when the child is waited for. -/
theorem captured_output {pipe : Pipe} (hpipe : pipe.Delivers) (output : List UInt8) (status : Option Int)
    (outputBuffer : Buffer w) (hsize : 0 < outputBuffer.size) :
    ∃ final, systemCmd (some pipe) output status outputBuffer outputBuffer.size
        = some ⟨status.getD (-1), final, []⟩ ∧
      final.bytes = firstBytes output outputBuffer.size := by
  obtain ⟨cleared, hclear, hzeros⟩ := outputBuffer.memset_whole 0
  have hholds : Holds outputBuffer.size [] 0 cleared := by
    refine ⟨(Nat.zero_min _).symm, ?_⟩
    rw [hzeros, firstBytes_of_le (Nat.zero_le _)]
    rfl
  obtain ⟨final, hrun, hbytes⟩ := @readOutput_eq w pipe hpipe _ hsize output 0 0 [] cleared hholds
  refine ⟨final, ?_, hbytes⟩
  have hlength : 0 < (outputBuffer.size : Int) := by omega
  unfold systemCmd
  simp only [if_pos hlength, Int.toNat_natCast, hclear, hrun, Option.bind_eq_bind, Option.bind_some]

/-- A pipe that delivers one byte at a time. -/
def bytewise : Pipe where
  amount _ asked left := min (min asked left) 1
  amount_le _ _ _ := by omega

/-- `hello` arrives one byte at a time in a buffer for four. -/
theorem captured_output_bytewise :
    ∃ final : Buffer 64, systemCmd (some bytewise) (CString.ofString "hello").bytes (some 0) ⟨[1, 2, 3, 4], by decide⟩ 4
        = some ⟨0, final, []⟩ ∧
      final.bytes = [104, 101, 108, 0] :=
  captured_output (fun _ _ _ hasked hleft => by simp only [bytewise]; omega) (CString.ofString "hello").bytes (some 0)
    ⟨[1, 2, 3, 4], by decide⟩ (by decide)

end NervesInitramfs
