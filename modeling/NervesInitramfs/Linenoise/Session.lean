import NervesInitramfs.Linenoise.Edit

/-!
# Reading a line from a terminal (`linenoise.c`)

What each key does, and `linenoise` for a terminal, for one that knows no escape sequences, and for a
file. The program sets no limit to the history, so that it has the default one.
-/

namespace NervesInitramfs.Linenoise

open CLib

/-! ## `enum KEY_ACTION` -/

/-- To the beginning of the line. -/
def CTRL_A : UInt8 := 1
/-- To the left. -/
def CTRL_B : UInt8 := 2
/-- The line is given up, and stays in the history. -/
def CTRL_C : UInt8 := 3
/-- The character at the cursor is deleted; in an empty line, the end of the input. -/
def CTRL_D : UInt8 := 4
/-- To the end of the line. -/
def CTRL_E : UInt8 := 5
/-- To the right. -/
def CTRL_F : UInt8 := 6
/-- The character in front of the cursor is deleted. -/
def CTRL_H : UInt8 := 8
/-- The line ends at the cursor. -/
def CTRL_K : UInt8 := 11
/-- The screen is cleared. -/
def CTRL_L : UInt8 := 12
/-- The line is complete. -/
def ENTER : UInt8 := 13
/-- The next line of the history. -/
def CTRL_N : UInt8 := 14
/-- The line before in the history. -/
def CTRL_P : UInt8 := 16
/-- The character at the cursor changes places with the one in front of it. -/
def CTRL_T : UInt8 := 20
/-- The whole line is deleted. -/
def CTRL_U : UInt8 := 21
/-- The word in front of the cursor is deleted. -/
def CTRL_W : UInt8 := 23
/-- The first byte of an escape sequence. -/
def ESC : UInt8 := 27
/-- The same as `CTRL_H`. -/
def BACKSPACE : UInt8 := 127

section

variable {w : Nat}

/-- `history_len--; free(history[history_len]);` -/
def popHistory : Edit w Unit := do
  let history ← defined (← get).history.pop
  modify fun l => { l with history := history }

/-- A byte of an escape sequence; `none` when `read` fails. -/
def readSeq : Edit w (Option UInt8) := do
  match ← read with
  | .byte c => pure (some c)
  | .eof stale => pure (some stale)
  | .error => pure none

/-- What `ESC [` and a byte that is no digit do: the arrows, home and end. -/
def bracketKey (c : UInt8) : Edit w Unit :=
  if c = 65 then linenoiseEditHistoryNext true
  else if c = 66 then linenoiseEditHistoryNext false
  else if c = 67 then linenoiseEditMoveRight
  else if c = 68 then linenoiseEditMoveLeft
  else if c = 72 then linenoiseEditMoveHome
  else if c = 70 then linenoiseEditMoveEnd
  else pure ()

/-- What follows `ESC`. After `ESC [` and a digit there is one more byte, and only `ESC [3~`, the
delete key, does anything. -/
def escapeKey : Edit w Unit := do
  match ← readSeq with
  | none => pure ()
  | some seq0 =>
    match ← readSeq with
    | none => pure ()
    | some seq1 =>
      if seq0 = 91 then
        if 48 ≤ seq1 ∧ seq1 ≤ 57 then do
          match ← readSeq with
          | none => pure ()
          | some seq2 =>
            if seq2 = 126 then if seq1 = 51 then linenoiseEditDelete else pure ()
            else pure ()
        else bracketKey seq1
      else if seq0 = 79 then
        if seq1 = 72 then linenoiseEditMoveHome
        else if seq1 = 70 then linenoiseEditMoveEnd
        else pure ()
      else pure ()

/-- `return l.len`, which is an `int`. -/
def Editor.count (l : Editor w) : Int := (toInt32 l.len).toInt

/-- `switch(c)`: what a key does. `go` is what `break` leads to. -/
def editKey (c : UInt8) (go : Edit w Int) : Edit w Int := do
  let l ← get
  if c = ENTER then do popHistory; pure l.count
  else if c = CTRL_C then pure (-1)
  else if c = BACKSPACE ∨ c = CTRL_H then do linenoiseEditBackspace; go
  else if c = CTRL_D then
    if 0 < l.len then do linenoiseEditDelete; go
    else do popHistory; pure (-1)
  else if c = CTRL_T then do transposeChars; go
  else if c = CTRL_B then do linenoiseEditMoveLeft; go
  else if c = CTRL_F then do linenoiseEditMoveRight; go
  else if c = CTRL_P then do linenoiseEditHistoryNext true; go
  else if c = CTRL_N then do linenoiseEditHistoryNext false; go
  else if c = ESC then do escapeKey; go
  else if c = CTRL_U then do cutAt 0; go
  else if c = CTRL_K then do cutAt l.pos; go
  else if c = CTRL_A then do linenoiseEditMoveHome; go
  else if c = CTRL_E then do linenoiseEditMoveEnd; go
  else if c = CTRL_L then do linenoiseClearScreen; refreshSingleLine; go
  else if c = CTRL_W then do linenoiseEditDeletePrevWord; go
  else do
    let failed ← linenoiseEditInsert c
    if failed ≠ 0 then pure (-1) else go

/-- `while(1)`; every round reads at least once, so that there are no more rounds than reads. -/
def editLoop : (rounds : Nat) → Edit w Int
  | 0 => throw .waiting
  | rounds + 1 => do
    match ← read with
    | .byte c => editKey c (editLoop rounds)
    | _ => pure (← get).count

/-- `linenoiseEdit`: an empty line is put at the end of the history, where the line that is edited
will be, and keys are read. The buffer is the one in the state, of `buflen` bytes. -/
def linenoiseEdit (buflen : Nat) (prompt : CString) : Edit w Int := do
  modify fun l => { l with buflen := buflen, prompt := prompt, pos := 0, len := 0, historyIndex := 0 }
  storeByte 0 0
  modify fun l => { l with buflen := sizeDiff w buflen 1 }
  let (_, history) ← defined (linenoiseHistoryAdd w (← get).history (.ofBytes []))
  modify fun l => { l with history := history }
  if ← write prompt.bytes then editLoop ((← get).reads.length + 1) else pure (-1)

end

end NervesInitramfs.Linenoise
