import NervesInitramfs.Linenoise.Session

/-!
# The next line (`linenoise.c`, `nerves_initramfs.c`)

`linenoise` on a terminal, on one that knows no escape sequences and on a file, and the loop of `repl`
that takes the lines. What `eval_string` does with a line is a parameter here.
-/

namespace NervesInitramfs.Linenoise

open CLib

/-- What the terminal does during one call: whether it takes the raw mode, what the buffer on the stack
holds, and as in the editor. Input that is left over is discarded when the mode is set. -/
structure Call (w : Nat) where
  raw : Bool
  buf : Buffer w
  size : buf.size = 4096
  cols : Nat
  reads : List ReadResult
  writes : List Bool

/-- The standard input. A file and a simple terminal send bytes until the end of the input. -/
inductive Stdin (w : Nat)
  | terminal (calls : List (Call w))
  | unsupported (input : List UInt8)
  | file (input : List UInt8)

/-- The prompt of the REPL leaves room on the terminal, whose width is an `int`. -/
def Stdin.Wide {w : Nat} : Stdin w → Prop
  | .terminal calls => ∀ call ∈ calls, 18 < call.cols ∧ call.cols + 64 ≤ 2 ^ 31
  | _ => True

/-- The state of `repl`. -/
structure Shell (w : Nat) (σ : Type) where
  /-- What is still to be read. -/
  stdin : Stdin w
  history : History
  /-- The state of `eval_string`: the variables, and what the scanner has not read yet. -/
  own : σ

/-- Why the program does not come to the end of `repl`. -/
inductive Ended (ε : Type)
  /-- `linenoise` does not return. -/
  | reading (halt : Halt)
  /-- `eval_string` stops the program. -/
  | evaluating (e : ε)

section

variable {w : Nat} {σ ε : Type}

/-! ## A terminal -/

def linenoiseRaw (raw : Bool) (buflen : Nat) (prompt : CString) : Edit w Int :=
  if buflen = 0 then pure (-1)
  else if raw then linenoiseEdit buflen prompt
  else pure (-1)

/-- `strdup(buf)` -/
def strdupBuffer (buf : Buffer w) : Option (Option CString) := do
  let n ← strlenAt buf 0
  if n + 1 ≤ ptrdiffMax w then pure (some (strndup buf.bytes n)) else pure none

def Call.editor (call : Call w) (prompt : CString) (history : History) : Editor w :=
  ⟨call.buf, 4096, prompt, 0, 0, call.cols, 0, history, call.reads, call.writes, []⟩

/-- `linenoise` on a terminal. -/
def linenoiseTerminal (raw : Bool) (prompt : CString) : Edit w (Option CString) := do
  let count ← linenoiseRaw raw 4096 prompt
  if count = -1 then pure none else defined (strdupBuffer (← get).buf)

/-! ## A terminal without escape sequences -/

/-- `fgets(buf, n, stdin)`: the bytes before the NUL, and the input that is left. -/
def fgets (n : Nat) (input : List UInt8) : Option (List UInt8 × List UInt8) :=
  let line := (input.takeWhile (· ≠ 10) ++ (input.dropWhile (· ≠ 10)).take 1).take (n - 1)
  if input = [] then none else some (line, input.drop line.length)

/-- The loop that overwrites the line breaks at the end with NULs. -/
def chomp (buf : Buffer w) : Nat → Option (Buffer w)
  | 0 => some buf
  | len + 1 => do
    let c ← buf.load len
    if c = 10 ∨ c = 13 then chomp (← buf.store len 0) len else some buf

/-- `linenoise` on such a terminal. -/
def linenoiseUnsupported (buf : Buffer w) (input : List UInt8) :
    Option (Option CString × List UInt8) :=
  match fgets 4096 input with
  | none => some (none, input)
  | some (line, rest) => do
    let buf ← buf.memcpy 0 (line ++ [0])
    let buf ← chomp buf (← strlenAt buf 0)
    pure (← strdupBuffer buf, rest)

/-! ## A file -/

/-- `realloc`, whose new bytes are not initialised; any content will do for them. -/
def realloc (line : Option (Buffer w)) (n : Nat) : Option (Buffer w) := do
  let new ← malloc w n
  match line with
  | none => pure new
  | some line => new.memcpy 0 (line.bytes.take n)

/-- The start of a round: there is room for one more byte, or the line is given up. -/
def grow (line : Option (Buffer w)) (len maxlen : Nat) : Option (Buffer w × Nat) :=
  if len = maxlen then
    let maxlen := (if maxlen = 0 then 16 else maxlen) * 2 % 2 ^ w
    (realloc line maxlen).map fun line => (line, maxlen)
  else line.map fun line => (line, maxlen)

/-- `line[len] = '\0'; return line;` -/
def finishLine (line : Buffer w) (len : Nat) : Option CString := do
  let line ← line.store len 0
  pure (strndup line.bytes (← strlenAt line 0))

/-- `while(1)`: the result of the function and the input that is left. -/
def readLine : (input : List UInt8) → (line : Option (Buffer w)) → (len maxlen : Nat) →
    Option (Option CString × List UInt8)
  | [], line, len, maxlen =>
    match grow line len maxlen with
    | none => some (none, [])
    | some (line, _) =>
      if len = 0 then some (none, []) else (finishLine line len).map fun line => (some line, [])
  | c :: rest, line, len, maxlen =>
    match grow line len maxlen with
    | none => some (none, c :: rest)
    | some (line, maxlen) =>
      if c = 10 then (finishLine line len).map fun line => (some line, rest)
      else do
        let line ← line.store len c
        readLine rest (some line) (len + 1) maxlen

def linenoiseNoTTY (w : Nat) (input : List UInt8) : Option (Option CString × List UInt8) :=
  readLine (w := w) input none 0 0

/-! ## The loop -/

/-- `linenoise(prompt)`; the terminal waits when there are no more calls. -/
def linenoise (prompt : CString) : EStateM Halt (Shell w σ) (Option CString) := do
  let s ← get
  match s.stdin with
  | .terminal [] => throw .waiting
  | .terminal (call :: calls) =>
    match linenoiseTerminal call.raw prompt (call.editor prompt s.history) with
    | .ok line l => do
      set ({ s with stdin := .terminal calls, history := l.history } : Shell w σ)
      pure line
    | .error halt l => do
      set ({ s with stdin := .terminal calls, history := l.history } : Shell w σ)
      throw halt
  | .unsupported input =>
    match malloc w 4096 with
    | none => throw .undefined
    | some buf =>
      match linenoiseUnsupported buf input with
      | none => throw .undefined
      | some (line, rest) => do
        set ({ s with stdin := .unsupported rest } : Shell w σ)
        pure line
  | .file input =>
    match linenoiseNoTTY w input with
    | none => throw .undefined
    | some (line, rest) => do
      set ({ s with stdin := .file rest } : Shell w σ)
      pure line

/-- A step of `eval_string`, which has a state of its own. -/
def evaluating (m : EStateM ε σ Unit) : EStateM (Ended ε) (Shell w σ) Unit := fun s =>
  match m s.own with
  | .ok _ own => .ok () { s with own := own }
  | .error e own => .error (.evaluating e) { s with own := own }

/-- The loop of `repl`; every round takes a call of the terminal or some of the input. `evalString`
is `eval_string` with the print of what the line comes to. It may stop the program. -/
def repl (evalString : CString → EStateM ε σ Unit) :
    (rounds : Nat) → EStateM (Ended ε) (Shell w σ) Unit
  | 0 => throw (.reading .waiting)
  | rounds + 1 => do
    match ← EStateM.adaptExcept .reading (linenoise (.ofString "nerves_initramfs> ")) with
    | none => pure ()
    | some line => do
      let s ← get
      match linenoiseHistoryAdd w s.history line with
      | none => throw (.reading .undefined)
      | some (_, history) => do
        set ({ s with history := history } : Shell w σ)
        evaluating (evalString line)
        repl evalString rounds

end

end NervesInitramfs.Linenoise
