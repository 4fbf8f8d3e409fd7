import NervesInitramfs.CLib.Proofs.CNumberProofs

/-!
# A row of a terminal

What a terminal shows in the row of its cursor after some bytes. Terminals differ in what they do with
most control characters and sequences and at the right margin, which is left open here.
-/

namespace CLib

/-- The cells up to the last one that is not blank, and the column of the cursor. -/
structure TerminalRow where
  cells : List UInt8
  column : Nat
deriving DecidableEq

/-- What has been received of an escape sequence. -/
inductive Pending
  | nothing
  | escape
  | control (parameters : List UInt8)
deriving DecidableEq

structure Screen where
  row : TerminalRow
  pending : Pending
deriving DecidableEq

/-- The number of columns, and what is left open: the effect of other characters and sequences. -/
structure Terminal where
  cols : Nat
  character : UInt8 → TerminalRow → TerminalRow
  sequence : List UInt8 → UInt8 → TerminalRow → TerminalRow

def Printable (c : UInt8) : Prop := 32 ≤ c ∧ c < 127

instance (c : UInt8) : Decidable (Printable c) := instDecidableAnd

theorem Printable.ne {c : UInt8} (h : Printable c) : c ≠ 27 ∧ c ≠ 13 := by
  constructor
  · rintro rfl
    exact absurd h (by decide)
  · rintro rfl
    exact absurd h (by decide)

def TerminalRow.put (r : TerminalRow) (c : UInt8) : TerminalRow :=
  ⟨r.cells.take r.column ++ List.replicate (r.column - r.cells.length) 32 ++
    c :: r.cells.drop (r.column + 1), r.column + 1⟩

namespace Terminal

variable (t : Terminal)

/-- A carriage return, or a character in front of the margin. -/
def receive (r : TerminalRow) (c : UInt8) : TerminalRow :=
  if c = 13 then { r with column := 0 }
  else if Printable c ∧ r.column + 1 < t.cols then r.put c
  else t.character c r

/-- `ESC [ n C` is one column to the right at least, `ESC [ 0 K` erases from the cursor on. -/
def control (parameters : List UInt8) (c : UInt8) (r : TerminalRow) : TerminalRow :=
  let n := digitsValue 10 0 parameters
  if c = 67 then { r with column := min (t.cols - 1) (r.column + max 1 n) }
  else if c = 75 ∧ n = 0 then { r with cells := r.cells.take r.column }
  else t.sequence parameters c r

def step (s : Screen) (c : UInt8) : Screen :=
  if c = 27 then ⟨s.row, .escape⟩
  else
    match s.pending with
    | .nothing => ⟨t.receive s.row c, .nothing⟩
    | .escape => if c = 91 then ⟨s.row, .control []⟩ else ⟨t.sequence [] c s.row, .nothing⟩
    | .control parameters =>
      if 48 ≤ c ∧ c ≤ 63 then ⟨s.row, .control (parameters ++ [c])⟩
      else ⟨t.control parameters c s.row, .nothing⟩

def feed (s : Screen) (bytes : List UInt8) : Screen := bytes.foldl t.step s

variable {t} {r : TerminalRow} {s : Screen}

@[simp] theorem feed_nil : t.feed s [] = s := rfl

@[simp] theorem feed_cons (c : UInt8) (bytes : List UInt8) :
    t.feed s (c :: bytes) = t.feed (t.step s c) bytes := rfl

theorem feed_append (a b : List UInt8) : t.feed s (a ++ b) = t.feed (t.feed s a) b :=
  List.foldl_append

/-! ## Characters -/

theorem step_nothing {c : UInt8} (hc : c ≠ 27) :
    t.step ⟨r, .nothing⟩ c = ⟨t.receive r c, .nothing⟩ := if_neg hc

/-- Without an escape no sequence begins. -/
theorem feed_pending {bytes : List UInt8} (h : 27 ∉ bytes) (hs : s.pending = .nothing) :
    (t.feed s bytes).pending = .nothing := by
  induction bytes generalizing s with
  | nil => exact hs
  | cons c rest ih =>
    obtain ⟨r, pending⟩ := s
    obtain rfl : pending = .nothing := hs
    have hc : c ≠ 27 := by
      rintro rfl
      exact h List.mem_cons_self
    rw [feed_cons, step_nothing hc]
    exact ih (fun hin => h (List.mem_cons_of_mem _ hin)) rfl

theorem put_eq (before after : List UInt8) (c : UInt8) :
    TerminalRow.put ⟨before ++ after, before.length⟩ c =
      ⟨(before ++ [c]) ++ after.drop 1, (before ++ [c]).length⟩ := by
  have hnone : before.length - (before ++ after).length = 0 := by
    rw [List.length_append]
    omega
  unfold TerminalRow.put
  rw [List.take_left, hnone, List.replicate_zero, List.append_nil, List.drop_append,
    List.drop_of_length_le (Nat.le_succ _), List.nil_append, List.append_assoc,
    List.length_append, List.length_singleton, Nat.add_sub_cancel_left]
  rfl

/-- What is printed replaces what is there. -/
theorem feed_printable (before after : List UInt8) {bytes : List UInt8} (h : ∀ c ∈ bytes, Printable c)
    (hfits : before.length + bytes.length < t.cols) :
    t.feed ⟨⟨before ++ after, before.length⟩, .nothing⟩ bytes =
      ⟨⟨(before ++ bytes) ++ after.drop bytes.length, (before ++ bytes).length⟩, .nothing⟩ := by
  induction bytes generalizing before after with
  | nil => simp
  | cons c rest ih =>
    rw [List.length_cons] at hfits
    obtain ⟨hc, hrest⟩ := List.forall_mem_cons.mp h
    have hput : t.receive ⟨before ++ after, before.length⟩ c =
        ⟨(before ++ [c]) ++ after.drop 1, (before ++ [c]).length⟩ := by
      unfold receive
      rw [if_neg hc.ne.2, if_pos ⟨hc, by dsimp only; omega⟩, put_eq]
    rw [feed_cons, step_nothing hc.ne.1, hput, ih _ _ hrest (by
      rw [List.length_append, List.length_singleton]
      omega)]
    simp only [List.append_assoc, List.singleton_append, List.drop_drop, List.length_cons,
      Nat.add_comm]

/-! ## Sequences -/

theorem feed_return : t.feed ⟨r, .nothing⟩ [13] = ⟨⟨r.cells, 0⟩, .nothing⟩ := rfl

theorem feed_parameters {digits parameters : List UInt8} (h : ∀ c ∈ digits, IsDigit c) :
    t.feed ⟨r, .control parameters⟩ digits = ⟨r, .control (parameters ++ digits)⟩ := by
  induction digits generalizing parameters with
  | nil => simp
  | cons c rest ih =>
    obtain ⟨⟨hlow, hhigh⟩, hrest⟩ := List.forall_mem_cons.mp h
    have hc : c ≠ 27 := by
      rintro rfl
      exact absurd hlow (by decide)
    have hstep : t.step ⟨r, .control parameters⟩ c = ⟨r, .control (parameters ++ [c])⟩ := by
      unfold step
      rw [if_neg hc]
      exact if_pos ⟨hlow, UInt8.le_trans hhigh (by decide)⟩
    rw [feed_cons, hstep, ih hrest, List.append_assoc, List.singleton_append]

/-- `ESC [ n C` -/
theorem feed_forward (n : Nat) :
    t.feed ⟨r, .nothing⟩ (27 :: 91 :: (decimal n ++ [67])) =
      ⟨⟨r.cells, min (t.cols - 1) (r.column + max 1 n)⟩, .nothing⟩ := by
  have hstart : t.step (t.step ⟨r, .nothing⟩ 27) 91 = ⟨r, .control []⟩ := rfl
  rw [feed_cons, feed_cons, hstart, feed_append,
    feed_parameters fun c hc => isDigit_of_mem_decimal hc, List.nil_append]
  change (⟨{ r with
    column := min (t.cols - 1) (r.column + max 1 (digitsValue 10 0 (decimal n))) }, .nothing⟩ : Screen) = _
  rw [digitsValue_decimal]

/-- `ESC [ 0 K`, also where another sequence is unfinished. -/
theorem feed_erase {pending : Pending} :
    t.feed ⟨r, pending⟩ [27, 91, 48, 75] = ⟨⟨r.cells.take r.column, r.column⟩, .nothing⟩ := rfl

end Terminal

end CLib
