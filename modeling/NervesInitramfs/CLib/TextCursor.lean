import Mathlib.Data.List.DropRight

/-!
# A text with a cursor

What an editor of one line works on when there is no buffer: the characters before the cursor, and
those from the cursor on.
-/

namespace CLib

structure Cursor (α : Type) where
  before : List α
  after : List α

namespace Cursor

variable {α : Type}

def text (c : Cursor α) : List α := c.before ++ c.after

/-- A text with the cursor at its end. -/
def atEnd (l : List α) : Cursor α := ⟨l, []⟩

def insert (c : Cursor α) (a : α) : Cursor α := ⟨c.before ++ [a], c.after⟩

def left (c : Cursor α) : Cursor α := ⟨c.before.dropLast, c.before.getLast?.toList ++ c.after⟩

def right (c : Cursor α) : Cursor α := ⟨c.before ++ c.after.head?.toList, c.after.tail⟩

def home (c : Cursor α) : Cursor α := ⟨[], c.text⟩

def toEnd (c : Cursor α) : Cursor α := atEnd c.text

def delete (c : Cursor α) : Cursor α := ⟨c.before, c.after.tail⟩

def backspace (c : Cursor α) : Cursor α := ⟨c.before.dropLast, c.after⟩

/-- The characters on both sides of the cursor change places, and the cursor goes behind them unless
there is only one more. -/
def transpose (c : Cursor α) : Cursor α :=
  match c.before.getLast?, c.after with
  | some a, [b] => ⟨c.before.dropLast ++ [b], [a]⟩
  | some a, b :: rest => ⟨c.before.dropLast ++ [b, a], rest⟩
  | _, _ => c

/-- What follows the cursor is deleted. -/
def cut (c : Cursor α) : Cursor α := ⟨c.before, []⟩

/-- The word before the cursor is deleted, with the blanks after it. -/
def deleteWord (blank : α → Bool) (c : Cursor α) : Cursor α :=
  ⟨(c.before.rdropWhile blank).rdropWhile fun a => !blank a, c.after⟩

@[simp] theorem text_atEnd (l : List α) : (atEnd l).text = l := List.append_nil l

theorem length_text (c : Cursor α) : c.text.length = c.before.length + c.after.length :=
  List.length_append

@[simp] theorem text_left (c : Cursor α) : c.left.text = c.text := by
  rcases List.eq_nil_or_concat c.before with h | ⟨l, a, h⟩
  · simp [text, left, h]
  · simp [text, left, h]

@[simp] theorem text_right (c : Cursor α) : c.right.text = c.text := by
  rcases h : c.after with _ | ⟨a, rest⟩
  · simp [text, right, h]
  · simp [text, right, h]

@[simp] theorem text_home (c : Cursor α) : c.home.text = c.text := rfl

@[simp] theorem text_toEnd (c : Cursor α) : c.toEnd.text = c.text := text_atEnd c.text

/-- A letter that has been typed can be taken back. -/
@[simp] theorem backspace_insert (c : Cursor α) (a : α) : (c.insert a).backspace = c := by
  simp [insert, backspace]

end Cursor

end CLib
