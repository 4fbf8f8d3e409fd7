import NervesInitramfs.CLib.CString
import NervesInitramfs.CLib.Ownership

/-!
# The lines that were typed before (`linenoise.c`)

The history is an array of pointers to strings that were allocated one by one. A result `none` stands
for an access outside the array, through a pointer that is `NULL`, or to a string that has been freed.
-/

namespace NervesInitramfs.Linenoise

open CLib

/-- `history`, `history_len` and `history_max_len`, with the strings that `strdup` has returned. The
array is `NULL` until there is a line. -/
structure History where
  /-- The strings that have been allocated and not freed. -/
  strings : Store CString
  /-- The array of pointers. -/
  history : Option (List (Option Nat))
  /-- How many of its entries hold a line. -/
  historyLen : Nat
  /-- How many there may be. -/
  historyMaxLen : Nat

/-- The globals when the program starts, with `LINENOISE_DEFAULT_HISTORY_MAX_LEN`. -/
def History.start : History := ⟨.empty, none, 0, 100⟩

/-- `history[i]` -/
def History.slot (h : History) (i : Int) : Option (Option Nat) := do
  let slots ← h.history
  if i < 0 then none else slots[i.toNat]?

/-- The string that `history[i]` points to. -/
def History.line (h : History) (i : Int) : Option CString := do
  let p ← (← h.slot i)
  h.strings.cells p

/-- `free(history[i])` -/
def History.freeSlot (h : History) (i : Int) : Option History := do
  let p ← h.slot i
  let strings ← h.strings.free p
  pure { h with strings := strings }

/-- `history[i] = p` -/
def History.setSlot (h : History) (i : Int) (p : Option Nat) : Option History := do
  let slots ← h.history
  if 0 ≤ i ∧ i.toNat < slots.length then
    pure { h with history := some (slots.set i.toNat p) }
  else none

/-- The loops that free `history[j]`, `history[j + 1]` and so on. -/
def History.freeSlots (h : History) : (j n : Nat) → Option History
  | _, 0 => some h
  | j, n + 1 => do
    let h ← h.freeSlot j
    freeSlots h (j + 1) n

/-- `history_len--; free(history[history_len]);` -/
def History.pop (h : History) : Option History :=
  if h.historyLen = 0 then none
  else { h with historyLen := h.historyLen - 1 }.freeSlot (h.historyLen - 1 : Nat)

section

variable (w : Nat)

/-- `strdup`, on a machine with `w`-bit addresses. -/
def strdup (m : Store CString) (s : CString) : Option Nat × Store CString :=
  if s.strlen + 1 ≤ ptrdiffMax w then (some m.next, m.alloc s) else (none, m)

/-- `free(history[i]); history[i] = strdup(line);` -/
def History.storeLine (h : History) (i : Int) (line : CString) : Option History := do
  let h ← h.freeSlot i
  let (p, strings) := strdup w h.strings line
  { h with strings := strings }.setSlot i p

/-- The allocation of the array in the first call; `none` when `malloc` fails. -/
def History.allocate (h : History) : Option History :=
  match h.history with
  | some _ => some h
  | none =>
    if h.historyMaxLen * (w / 8) ≤ ptrdiffMax w then
      some { h with history := some (List.replicate h.historyMaxLen none) }
    else none

/-- `history_len && !strcmp(history[history_len-1], line)` -/
def History.repeats (h : History) (line : CString) : Option Bool :=
  if h.historyLen = 0 then some false
  else do
    let last ← h.line (h.historyLen - 1)
    pure (strcmp last line = 0)

/-- The oldest line is freed and the others are moved down. -/
def History.dropOldest (h : History) : Option History := do
  let h ← h.freeSlot 0
  let slots ← h.history
  if h.historyMaxLen ≤ slots.length then
    pure { h with
      history := some (slots.tail.take (h.historyMaxLen - 1) ++ slots.drop (h.historyMaxLen - 1))
      historyLen := h.historyLen - 1 }
  else none

/-- `linenoiseHistoryAdd`, with what it returns. A line that repeats the one before is not added, and
a full array loses its oldest line. -/
def linenoiseHistoryAdd (h : History) (line : CString) : Option (Int × History) :=
  if h.historyMaxLen = 0 then some (0, h)
  else
    match h.allocate w with
    | none => some (0, h)
    | some h => do
      if ← h.repeats line then pure (0, h)
      else
        match strdup w h.strings line with
        | (none, _) => pure (0, h)
        | (some linecopy, strings) => do
          let h : History := { h with strings := strings }
          let h ← (if h.historyLen = h.historyMaxLen then h.dropOldest else pure h)
          let h ← h.setSlot h.historyLen (some linecopy)
          pure (1, { h with historyLen := h.historyLen + 1 })

end

/-- `freeHistory`, which leaves these strings. -/
def freeHistory (h : History) : Option (Store CString) :=
  match h.history with
  | none => some h.strings
  | some _ => (h.freeSlots 0 h.historyLen).map History.strings

end NervesInitramfs.Linenoise
