import NervesInitramfs.CLib.CString

/-!
# Running a command (`cmd.c`)

`system_cmd` reads what the child writes into a pipe. How much of it each `read` delivers is up to
the kernel, and a parameter.
-/

namespace NervesInitramfs

open CLib

/-- How a pipe delivers: the number of bytes that the `read` with this number in the sequence
returns when it asks for so many and so many are still to come, or a negative number when it
fails. -/
structure Pipe where
  amount : (step asked left : Nat) → Int
  amount_le : ∀ step asked left, amount step asked left ≤ asked ∧ amount step asked left ≤ left

/-- Each `read` delivers something up to the end of the file. -/
def Pipe.Delivers (pipe : Pipe) : Prop :=
  ∀ step asked left, 0 < asked → 0 < left → 0 < pipe.amount step asked left

/-- The size of `throwaway`. -/
def throwawaySize : Nat := 256

/-- Whether there is still room in the buffer in front of its last byte. -/
def hasRoom (length : Int) (index : Nat) : Bool := 0 < length - index

/-- `amount_to_read` -/
def amountToRead (length : Int) (index : Nat) : Nat :=
  if hasRoom length index then (length - index).toNat else throwawaySize

variable {w : Nat}

/-- The loop of `system_cmd`. `left` is what the child has written or will write and has not been
read. It ends with the buffer and with what has still not been read; `none` stands for a store
behind the end of the buffer. -/
def readOutput (pipe : Pipe) (length : Int) (step index : Nat) (left : List UInt8)
    (outputBuffer : Buffer w) : Option (Buffer w × List UInt8) :=
  let amountRead := pipe.amount step (amountToRead length index) left.length
  if h : amountRead ≤ 0 then some (outputBuffer, left)
  else if hasRoom length index then do
    let outputBuffer ← outputBuffer.memcpy index (left.take amountRead.toNat)
    readOutput pipe length (step + 1) (index + amountRead.toNat) (left.drop amountRead.toNat)
      outputBuffer
  else readOutput pipe length (step + 1) index (left.drop amountRead.toNat) outputBuffer
termination_by left.length
decreasing_by
  all_goals
    have hle := (pipe.amount_le step (amountToRead length index) left.length).2
    rw [List.length_drop]
    omega

/-- What `system_cmd` leaves: what it returns, the buffer, and what had not been read when it waited
for the child. -/
structure Captured (w : Nat) where
  rc : Int
  buffer : Buffer w
  unread : List UInt8

/-- `system_cmd` in the parent. `pipe` is `none` when there is none to be had, and `status` is
`none` when `waitpid` does not return the child. -/
def systemCmd (pipe : Option Pipe) (output : List UInt8) (status : Option Int) (outputBuffer : Buffer w)
    (length : Int) : Option (Captured w) :=
  match pipe with
  | none => some ⟨-1, outputBuffer, output⟩
  | some pipe => do
    let outputBuffer ← if 0 < length then outputBuffer.memset 0 length.toNat else some outputBuffer
    let length := if 0 < length then length - 1 else length
    let (outputBuffer, unread) ← readOutput pipe length 0 0 output outputBuffer
    some ⟨status.getD (-1), outputBuffer, unread⟩

/-- The first bytes of an output that leave room for a NUL, and zeros up to the size of the
buffer. -/
def firstBytes (output : List UInt8) (size : Nat) : List UInt8 :=
  output.take (size - 1) ++ List.replicate (size - min output.length (size - 1)) 0

end NervesInitramfs
