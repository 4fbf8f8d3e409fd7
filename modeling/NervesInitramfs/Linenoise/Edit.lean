import NervesInitramfs.CLib.CNumber
import NervesInitramfs.CLib.Wp
import NervesInitramfs.Linenoise.History
import NervesInitramfs.Util.Trim

/-!
# Editing a line (`linenoise.c`)

The line editor with its buffer, the screen and the terminal. The program sets no callbacks and does
not use the multi line mode. A terminal sends what each `read` of one byte returns, and accepts some
of what is written to it.
-/

namespace NervesInitramfs.Linenoise

open CLib

/-- What `read` of one byte returns. At the end of the input the byte keeps the value that it had. -/
inductive ReadResult
  /-- 1, with the byte. -/
  | byte (c : UInt8)
  /-- 0, with the value that the byte had. -/
  | eof (stale : UInt8)
  /-- -1. -/
  | error

/-- Why editing comes to no result. -/
inductive Halt
  /-- An access outside an object. -/
  | undefined
  /-- The terminal sends nothing more. -/
  | waiting
  /-- A loop that does not end. -/
  | endless
deriving DecidableEq

/-- `struct linenoiseState`, the history, and the terminal. -/
structure Editor (w : Nat) where
  /-- The line, with a NUL behind it. -/
  buf : Buffer w
  /-- The size of `buf`, less one for the NUL. -/
  buflen : Nat
  /-- What stands in front of the line. -/
  prompt : CString
  /-- Where in the line the cursor is. -/
  pos : Nat
  /-- The length of the line. -/
  len : Nat
  /-- The width of the terminal. -/
  cols : Nat
  /-- How far back in the history the line has been taken from. -/
  historyIndex : Int
  /-- The lines before this one, which is the last. -/
  history : History
  /-- What the terminal will send. -/
  reads : List ReadResult
  /-- Whether it accepts what is written; it does when there is nothing more in the list. -/
  writes : List Bool
  /-- What has been written, call by call. -/
  written : List (List UInt8)

/-- A part of the editor. -/
abbrev Edit (w : Nat) := EStateM Halt (Editor w)

section

variable {w : Nat}

/-- An access that must be inside an object. -/
def defined {α : Type} : Option α → Edit w α
  | some a => pure a
  | none => throw .undefined

/-- `read(l->ifd, &c, 1)` -/
def read : Edit w ReadResult := do
  let l ← get
  match l.reads with
  | [] => throw .waiting
  | r :: rest => do
    set { l with reads := rest }
    pure r

/-- `write`, which returns -1 when the terminal does not accept it. -/
def write (bytes : List UInt8) : Edit w Bool := do
  let l ← get
  set { l with writes := l.writes.tail, written := l.written ++ [bytes] }
  pure (l.writes.headD true)

/-- `l->buf[p] = c` -/
def storeByte (p : Nat) (c : UInt8) : Edit w Unit := do
  let buf ← defined ((← get).buf.store p c)
  modify fun l => { l with buf := buf }

/-- `memmove(l->buf + p, l->buf + src, n)` -/
def moveBytes (p src n : Nat) : Edit w Unit := do
  let buf ← defined ((← get).buf.memmove p src n)
  modify fun l => { l with buf := buf }

/-- A difference of two `size_t`. -/
def sizeDiff (w a b : Nat) : Nat := sizeOfDiff w ((a : Int) - b)

/-! ## The screen -/

/-- `abAppend`: `s` is what there is from the pointer on. The sum of the lengths must be an `int`; a
size of 0 frees the old block, and without memory nothing is appended. -/
def abAppend (w : Nat) (ab s : List UInt8) (len : Int) : Option (List UInt8) :=
  let sum := ab.length + len
  let size := sizeOfDiff w sum
  if 2 ^ 31 ≤ sum then none
  else if size = 0 then (if ab = [] then some [] else none)
  else if ptrdiffMax w < size then some ab
  else if sizeOfDiff w len ≤ s.length then some (ab ++ s.take (sizeOfDiff w len))
  else none

/-- The part of the line that `refreshSingleLine` shows. -/
structure Window where
  /-- Where in the line it begins; `buf` is a pointer there. -/
  buf : Nat
  /-- How long it is. -/
  len : Nat
  /-- Where in it the cursor is. -/
  pos : Nat
deriving DecidableEq

/-- `while((plen+pos) >= l->cols)`: what is shown begins further to the right, until the cursor is in
the row; `none` when it takes more steps. -/
def scroll (w plen cols : Nat) : (steps : Nat) → Window → Option Window
  | steps, v =>
    if (plen + v.pos) % 2 ^ w < cols then some v
    else
      match steps with
      | 0 => none
      | steps + 1 => scroll w plen cols steps ⟨v.buf + 1, sizeDiff w v.len 1, sizeDiff w v.pos 1⟩

/-- `while (plen+len > l->cols)`: what is shown ends at the margin. -/
def shorten (w plen cols : Nat) : (steps : Nat) → Nat → Option Nat
  | steps, len =>
    if (plen + len) % 2 ^ w ≤ cols then some len
    else
      match steps with
      | 0 => none
      | steps + 1 => shorten w plen cols steps (sizeDiff w len 1)

/-- What `refreshSingleLine` writes: the prompt, the part of the line that fits, and where the cursor
goes. -/
def singleLine (l : Editor w) (v : Window) : Option (List UInt8) := do
  let seq := (CString.ofString "\r").bytes
  let ab ← abAppend w [] seq seq.length
  let ab ← abAppend w ab l.prompt.bytes l.prompt.strlen
  let ab ← abAppend w ab (l.buf.bytes.drop v.buf) (toInt32 v.len).toInt
  let seq := (CString.ofString "\x1b[0K").bytes
  let ab ← abAppend w ab seq seq.length
  let seq := (CString.ofString "\r\x1b[").bytes ++
    decimalInt (toInt32 ((v.pos + l.prompt.strlen) % 2 ^ w)).toInt ++ (CString.ofString "C").bytes
  abAppend w ab seq seq.length

/-- `refreshSingleLine`: the row is written anew. The loops need no more steps than they have here, or
they do not end. -/
def refreshSingleLine : Edit w Unit := do
  let l ← get
  let plen := l.prompt.strlen
  match scroll w plen l.cols (plen + l.pos + 1) ⟨0, l.len, l.pos⟩ with
  | none => throw .endless
  | some v =>
    match shorten w plen l.cols (plen + v.len + 1) v.len with
    | none => throw .endless
    | some len => do
      let ab ← defined (singleLine l { v with len := len })
      let _ ← write ab

/-- The cursor goes to the upper left corner and the screen is erased. -/
def linenoiseClearScreen : Edit w Unit := do
  let _ ← write (CString.ofString "\x1b[H\x1b[2J").bytes

/-! ## The line -/

/-- A character comes in at the cursor when there is room for it. At the end of a line that is shown
in full it is all that is written, and the result is -1 when the terminal does not accept it. -/
def linenoiseEditInsert (c : UInt8) : Edit w Int := do
  let l ← get
  if l.len < l.buflen then
    if l.len = l.pos then do
      storeByte l.pos c
      modify fun l => { l with pos := l.pos + 1, len := l.len + 1 }
      storeByte (l.len + 1) 0
      if (l.prompt.strlen + (l.len + 1)) % 2 ^ w < l.cols then do
        if ← write [c] then pure 0 else pure (-1)
      else do
        refreshSingleLine
        pure 0
    else do
      moveBytes (l.pos + 1) l.pos (sizeDiff w l.len l.pos)
      storeByte l.pos c
      modify fun l => { l with pos := l.pos + 1, len := l.len + 1 }
      storeByte (l.len + 1) 0
      refreshSingleLine
      pure 0
  else pure 0

/-- `l->pos = p`, and the line is shown again. -/
def moveTo (p : Nat) : Edit w Unit := do
  modify fun l => { l with pos := p }
  refreshSingleLine

/-- One to the left, unless the cursor is at the beginning. -/
def linenoiseEditMoveLeft : Edit w Unit := do
  let l ← get
  if 0 < l.pos then moveTo (l.pos - 1) else pure ()

/-- One to the right, unless the cursor is at the end. -/
def linenoiseEditMoveRight : Edit w Unit := do
  let l ← get
  if l.pos ≠ l.len then moveTo (l.pos + 1) else pure ()

/-- To the beginning. -/
def linenoiseEditMoveHome : Edit w Unit := do
  let l ← get
  if l.pos ≠ 0 then moveTo 0 else pure ()

/-- To the end. -/
def linenoiseEditMoveEnd : Edit w Unit := do
  let l ← get
  if l.pos ≠ l.len then moveTo l.len else pure ()

/-- `strncpy(buf, s, n)`, which fills up with NULs and ends in none when `s` is too long. -/
def strncpy (buf : Buffer w) (s : CString) (n : Nat) : Option (Buffer w) :=
  buf.memcpy 0 (s.bytes.take n ++ List.replicate (n - s.strlen) 0)

/-- The line goes into its place in the history, and the one before or after it there is edited. The
argument is whether `dir` is `LINENOISE_HISTORY_PREV`. -/
def linenoiseEditHistoryNext (prev : Bool) : Edit w Unit := do
  let l ← get
  if 1 < l.history.historyLen then do
    let n ← defined (strlenAt l.buf 0)
    let history ← defined (l.history.storeLine w (l.history.historyLen - 1 - l.historyIndex)
      (strndup l.buf.bytes n))
    modify fun l => { l with history := history }
    let index := l.historyIndex + if prev then 1 else -1
    if index < 0 then modify fun l => { l with historyIndex := 0 }
    else if history.historyLen ≤ index then
      modify fun l => { l with historyIndex := history.historyLen - 1 }
    else do
      let line ← defined (history.line (history.historyLen - 1 - index))
      let buf ← defined (strncpy l.buf line l.buflen)
      modify fun l => { l with buf := buf, historyIndex := index }
      storeByte (sizeDiff w l.buflen 1) 0
      let n ← defined (strlenAt (← get).buf 0)
      modify fun l => { l with len := n, pos := n }
      refreshSingleLine
  else pure ()

/-- The character at the cursor goes, with its place. -/
def linenoiseEditDelete : Edit w Unit := do
  let l ← get
  if 0 < l.len ∧ l.pos < l.len then do
    moveBytes l.pos (l.pos + 1) (sizeDiff w l.len (l.pos + 1))
    modify fun l => { l with len := l.len - 1 }
    storeByte (l.len - 1) 0
    refreshSingleLine
  else pure ()

/-- The character in front of the cursor goes, with its place. -/
def linenoiseEditBackspace : Edit w Unit := do
  let l ← get
  if 0 < l.pos ∧ 0 < l.len then do
    moveBytes (l.pos - 1) l.pos (sizeDiff w l.len l.pos)
    modify fun l => { l with pos := l.pos - 1, len := l.len - 1 }
    storeByte (l.len - 1) 0
    refreshSingleLine
  else pure ()

/-- `while (l->pos > 0 && p(l->buf[l->pos-1])) l->pos--;` -/
def skipBack (p : UInt8 → Bool) (buf : Buffer w) : Nat → Option Nat
  | 0 => some 0
  | pos + 1 => do
    let c ← buf.load pos
    if p c then skipBack p buf pos else some (pos + 1)

/-- The word in front of the cursor goes, and the blanks behind it. -/
def linenoiseEditDeletePrevWord : Edit w Unit := do
  let l ← get
  let pos ← defined (skipBack (· = 32) l.buf l.pos)
  let pos ← defined (skipBack (· ≠ 32) l.buf pos)
  modify fun l => { l with pos := pos }
  moveBytes pos l.pos (sizeDiff w (l.len + 1) l.pos)
  modify fun l' => { l' with len := sizeDiff w l.len (sizeDiff w l.pos pos) }
  refreshSingleLine

/-- ctrl-t: the character at the cursor and the one in front of it change places. -/
def transposeChars : Edit w Unit := do
  let l ← get
  if 0 < l.pos ∧ l.pos < l.len then do
    let aux ← defined (l.buf.load (l.pos - 1))
    let c ← defined (l.buf.load l.pos)
    storeByte (l.pos - 1) c
    storeByte l.pos aux
    if l.pos ≠ l.len - 1 then modify fun l => { l with pos := l.pos + 1 } else pure ()
    refreshSingleLine
  else pure ()

/-- ctrl-k when `p` is the position, ctrl-u when it is 0. -/
def cutAt (p : Nat) : Edit w Unit := do
  storeByte p 0
  modify fun l => { l with pos := p, len := p }
  refreshSingleLine

end

end NervesInitramfs.Linenoise
