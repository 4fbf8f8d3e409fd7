import NervesInitramfs.CLib.TextCursor
import NervesInitramfs.Linenoise.Session

/-!
# A line that is being edited

What linenoise is for, without its buffer, its array and its pointers: a text with a cursor and the
lines that were typed before it, the last of which is kept for the text itself. The keys are commands
on them, which end in one of a few ways.
-/

namespace NervesInitramfs.Linenoise

open CLib

/-- The lines after another one has been added: none twice in a row, and no more than `limit`. -/
def remembered (limit : Nat) (lines : List CString) (line : CString) : List CString :=
  if lines.getLast? = some line then lines
  else (if lines.length = limit then lines.tail else lines) ++ [line]

/-- The history has these lines, the oldest one first. There is one string for each of them. -/
structure Keeps (w : Nat) (h : History) (lines : List CString) : Prop where
  limit : 0 < h.historyMaxLen
  fits : h.historyMaxLen * (w / 8) ≤ ptrdiffMax w
  len : h.historyLen = lines.length
  bound : lines.length ≤ h.historyMaxLen
  owned : ∃ ps, h.strings.Owns ps lines ∧ (h.history = none → ps = []) ∧
    ∀ slots, h.history = some slots →
      slots.length = h.historyMaxLen ∧ ∃ rest, slots = ps.map some ++ rest

/-- The text, and the line of the history that it stands for between older and newer ones. -/
structure Draft where
  cursor : Cursor UInt8
  older : List CString
  here : CString
  newer : List CString

inductive Command
  | insert (c : UInt8)
  | edit (f : Cursor UInt8 → Cursor UInt8)
  | older | newer
  | enter | cancel | deleteOrEnd | hangUp

inductive Ending
  | entered | cancelled | endOfFile | hungUp | writeFailed | waiting
deriving DecidableEq

namespace Draft

def text (d : Draft) : List UInt8 := d.cursor.text

def lines (d : Draft) : List CString := d.older ++ d.here :: d.newer

/-- The text is kept up to its first NUL. -/
def kept (d : Draft) : Draft := { d with here := .ofBytes d.text }

/-- A line from the history is the new text, with room for one more character. -/
def fromHistory (limit : Nat) (line : CString) : Cursor UInt8 :=
  .atEnd (line.bytes.take (limit - 1))

def goOlder (limit : Nat) (d : Draft) : Draft :=
  match d.older.getLast? with
  | none => d.kept
  | some line => ⟨fromHistory limit line, d.older.dropLast, line, d.kept.here :: d.newer⟩

def goNewer (limit : Nat) (d : Draft) : Draft :=
  match d.newer with
  | [] => d.kept
  | line :: rest => ⟨fromHistory limit line, d.older ++ [d.kept.here], line, rest⟩

/-- The text has at most `limit` bytes. Nothing happens in the history when there is one line. -/
def apply (limit : Nat) (d : Draft) : Command → Draft
  | .insert c => if d.text.length < limit then { d with cursor := d.cursor.insert c } else d
  | .edit f => { d with cursor := f d.cursor }
  | .older => if d.lines.length = 1 then d else d.goOlder limit
  | .newer => if d.lines.length = 1 then d else d.goNewer limit
  | .deleteOrEnd => { d with cursor := d.cursor.delete }
  | .enter | .cancel | .hangUp => d

/-- The commands after which there is no more to edit. -/
def ending (d : Draft) : Command → Option Ending
  | .enter => some .entered
  | .cancel => some .cancelled
  | .deleteOrEnd => if d.text = [] then some .endOfFile else none
  | .hangUp => some .hungUp
  | _ => none

/-- An empty text, with the latest line for it. -/
def start (limit : Nat) (lines : List CString) : Draft :=
  ⟨.atEnd [], (remembered limit lines (.ofBytes [])).dropLast, .ofBytes [], []⟩

end Draft

/-! ## The screen -/

/-- The part of the text that is seen in `room` columns: the cursor is in front of the last one at
most. -/
def window (room : Nat) (c : Cursor UInt8) : Cursor UInt8 :=
  let before := c.before.drop (c.before.length + 1 - room)
  ⟨before, c.after.take (room - before.length)⟩

/-- What is written to show the text behind the prompt in `cols` columns. -/
def frame (prompt : CString) (cols : Nat) (c : Cursor UInt8) : List UInt8 :=
  let seen := window (cols - prompt.strlen) c
  (CString.ofString "\r").bytes ++ prompt.bytes ++ seen.text ++ (CString.ofString "\x1b[0K").bytes ++
    ((CString.ofString "\r\x1b[").bytes ++ decimal (seen.before.length + prompt.strlen) ++
      (CString.ofString "C").bytes)

/-- What is written after the text has changed, or when it is still the same. A character that is typed
at the end of a short text is written alone; an escape is none. -/
inductive Draws (prompt : CString) (cols : Nat) :
    Cursor UInt8 → List (List UInt8) → Cursor UInt8 → Prop
  | same {c : Cursor UInt8} : Draws prompt cols c [] c
  | typed {before : List UInt8} (x : UInt8) (hx : x ≠ ESC)
      (h : prompt.strlen + (before.length + 1) < cols) :
      Draws prompt cols (.atEnd before) [[x]] (.atEnd (before ++ [x]))
  | redrawn {c c' : Cursor UInt8} : Draws prompt cols c [frame prompt cols c'] c'
  | cleared {c : Cursor UInt8} :
      Draws prompt cols c [(CString.ofString "\x1b[H\x1b[2J").bytes, frame prompt cols c] c

/-! ## Keys -/

/-- The keys that insert nothing. -/
def keys : List (UInt8 × Command) :=
  [(ENTER, .enter), (CTRL_C, .cancel), (BACKSPACE, .edit .backspace), (CTRL_H, .edit .backspace),
   (CTRL_D, .deleteOrEnd), (CTRL_T, .edit .transpose), (CTRL_B, .edit .left),
   (CTRL_F, .edit .right), (CTRL_P, .older), (CTRL_N, .newer), (CTRL_U, .edit fun _ => .atEnd []),
   (CTRL_K, .edit .cut), (CTRL_A, .edit .home), (CTRL_E, .edit .toEnd), (CTRL_L, .edit id),
   (CTRL_W, .edit (.deleteWord (· = 32)))]

/-- The escape sequences that do something. -/
def escapes : List (List UInt8 × Command) :=
  [((CString.ofString "[A").bytes, .older), ((CString.ofString "[B").bytes, .newer),
   ((CString.ofString "[C").bytes, .edit .right), ((CString.ofString "[D").bytes, .edit .left),
   ((CString.ofString "[H").bytes, .edit .home), ((CString.ofString "[F").bytes, .edit .toEnd),
   ((CString.ofString "[3~").bytes, .edit .delete), ((CString.ofString "OH").bytes, .edit .home),
   ((CString.ofString "OF").bytes, .edit .toEnd)]

def Command.ofKey (c : UInt8) : Command := (keys.lookup c).getD (.insert c)

def Command.ofEscape (seq : List UInt8) : Command := (escapes.lookup seq).getD (.edit id)

/-- The byte that a variable has after a `read` that does not fail. -/
def ReadResult.value : ReadResult → Option UInt8
  | .byte c => some c
  | .eof stale => some stale
  | .error => none

/-- A sequence ends where `read` fails. It has a third byte when it starts with `[` and a digit. -/
def nextEscape : List ReadResult → Option (Command × List ReadResult)
  | [] => none
  | a :: rest =>
    match a.value, rest with
    | none, rest => some (.edit id, rest)
    | some _, [] => none
    | some a, b :: rest =>
      match b.value with
      | none => some (.edit id, rest)
      | some b =>
        if a = 91 ∧ 48 ≤ b ∧ b ≤ 57 then
          match rest with
          | [] => none
          | c :: rest => some ((c.value.map fun c => .ofEscape [a, b, c]).getD (.edit id), rest)
        else some (.ofEscape [a, b], rest)

/-- The next command, when the terminal sends one. -/
def nextCommand : List ReadResult → Option (Command × List ReadResult)
  | [] => none
  | .byte c :: rest => if c = ESC then nextEscape rest else some (.ofKey c, rest)
  | _ :: rest => some (.hangUp, rest)

/-- From a draft and what the terminal sends to what is written to it and to the last draft. A write
may fail. -/
inductive Edits (limit : Nat) (prompt : CString) (cols : Nat) :
    Draft → List ReadResult → List (List UInt8) → Ending → Draft → Prop
  | waiting {d : Draft} {reads : List ReadResult} (h : nextCommand reads = none) :
      Edits limit prompt cols d reads [] .waiting d
  | writeFailed {d : Draft} {reads : List ReadResult} :
      Edits limit prompt cols d reads [] .writeFailed d
  | ends {d : Draft} {reads rest : List ReadResult} {command : Command} {ending : Ending}
      (h : nextCommand reads = some (command, rest)) (hend : d.ending command = some ending) :
      Edits limit prompt cols d reads [] ending d
  | step {d last : Draft} {reads rest : List ReadResult} {ws ws' : List (List UInt8)}
      {command : Command} {ending : Ending}
      (h : nextCommand reads = some (command, rest)) (hend : d.ending command = none)
      (hdraw : Draws prompt cols d.cursor ws (d.apply limit command).cursor)
      (hrest : Edits limit prompt cols (d.apply limit command) rest ws' ending last) :
      Edits limit prompt cols d reads (ws ++ ws') ending last

/-- The lines that are left in the history: a line that was entered has to be added again. -/
def Ending.leaves (ending : Ending) (d : Draft) : List CString :=
  match ending with
  | .entered | .endOfFile => d.lines.dropLast
  | _ => d.lines

/-- What `linenoiseEdit` returns. -/
def Ending.count (ending : Ending) (d : Draft) : Int :=
  match ending with
  | .entered | .hungUp => d.text.length
  | _ => -1

/-- The state of the editor stands for a draft, and the prompt leaves room on the screen. -/
structure Shows {w : Nat} (l : Editor w) (d : Draft) : Prop where
  text : ∃ rest, l.buf.bytes = d.text ++ 0 :: rest
  size : l.buf.size = l.buflen + 1
  room : 0 < l.buflen
  pos : l.pos = d.cursor.before.length
  len : l.len = d.text.length
  wide : l.prompt.strlen < l.cols
  cols : l.cols + 64 ≤ 2 ^ 31
  index : l.historyIndex = d.newer.length
  history : Keeps w l.history d.lines

/-- What is left when the editing has come to an end. -/
structure Leaves {w : Nat} (l : Editor w) (ending : Ending) (d : Draft) : Prop where
  text : ∃ rest, l.buf.bytes = d.text ++ 0 :: rest
  len : l.len = d.text.length
  pos : l.pos = d.cursor.before.length
  history : Keeps w l.history (ending.leaves d)

/-- The editing comes to an end without any more being read or written. -/
structure Ends {w : Nat} (l : Editor w) (d : Draft) (l' : Editor w) (ending : Ending) : Prop where
  leaves : Leaves l' ending d
  limit : l'.history.historyMaxLen = l.history.historyMaxLen
  writes : l'.writes <:+ l.writes
  written : l'.written = l.written

/-- How editing a draft comes out. -/
structure Outcome {w : Nat} (l : Editor w) (d : Draft) (l' : Editor w) (ending : Ending)
    (last : Draft) : Prop where
  edits : ∃ ws, Edits l.buflen l.prompt l.cols d l.reads ws ending last ∧ l'.written = l.written ++ ws
  leaves : Leaves l' ending last
  limit : l'.history.historyMaxLen = l.history.historyMaxLen
  failed : ending = .writeFailed → false ∈ l.writes

/-- From one draft to another one, as the screen shows. -/
structure Moves {w : Nat} (l : Editor w) (d : Draft) (l' : Editor w) (d' : Draft) : Prop where
  shows : Shows l' d'
  buflen : l'.buflen = l.buflen
  prompt : l'.prompt = l.prompt
  cols : l'.cols = l.cols
  limit : l'.history.historyMaxLen = l.history.historyMaxLen
  reads : l'.reads = l.reads
  writes : l'.writes <:+ l.writes
  drawn : ∃ ws, l'.written = l.written ++ ws ∧ Draws l.prompt l.cols d.cursor ws d'.cursor

end NervesInitramfs.Linenoise
