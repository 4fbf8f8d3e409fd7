import NervesInitramfs.CLib.TerminalRow
import NervesInitramfs.Linenoise.Proofs.SessionProofs

/-!
# Proofs: what the terminal shows

What is written for a draft makes a terminal show it, key after key. Whatever the text does to the
terminal, the sequences behind it are received as such.
-/

namespace NervesInitramfs.Linenoise

open CLib

variable {w : Nat} {l l' : Editor w} {d d' last : Draft} {limit : Nat}

/-! ## What is shown -/

variable {t : Terminal} {s : Screen} {prompt : CString} {c c' : Cursor UInt8}

/-- The text can be shown as it is, with the prompt and the cursor in one row. -/
def Legible (prompt : CString) (cols : Nat) (c : Cursor UInt8) : Prop :=
  (∀ x ∈ c.text, Printable x) ∧ prompt.strlen + c.text.length < cols

/-- The text behind the prompt, with the cursor at its place. -/
def shown (prompt : CString) (c : Cursor UInt8) : TerminalRow :=
  ⟨prompt.bytes ++ c.text, prompt.strlen + c.before.length⟩

/-- No sequence is unfinished, and what can be shown is shown. -/
structure Seen (prompt : CString) (cols : Nat) (c : Cursor UInt8) (s : Screen) : Prop where
  pending : s.pending = .nothing
  row : Legible prompt cols c → s.row = shown prompt c

/-- A short text is seen as a whole. -/
theorem window_eq {room : Nat} (h : c.text.length < room) : window room c = c := by
  rw [Cursor.length_text] at h
  have hnone : c.before.length + 1 - room = 0 := by omega
  have hall : c.after.take (room - c.before.length) = c.after := List.take_of_length_le (by omega)
  unfold window
  rw [hnone, List.drop_zero]
  dsimp only
  rw [hall]

theorem frame_eq (prompt : CString) (cols : Nat) (c : Cursor UInt8) :
    frame prompt cols c = (13 :: (prompt.bytes ++ (window (cols - prompt.strlen) c).text)) ++
      ([27, 91, 48, 75] ++ ([13] ++ 27 :: 91 ::
        (decimal ((window (cols - prompt.strlen) c).before.length + prompt.strlen) ++ [67]))) := by
  have hreturn : (CString.ofString "\r").bytes = [13] := by decide
  have herase : (CString.ofString "\x1b[0K").bytes = [27, 91, 48, 75] := by decide
  have hmove : (CString.ofString "\r\x1b[").bytes = [13, 27, 91] := by decide
  have hend : (CString.ofString "C").bytes = [67] := by decide
  unfold frame
  rw [hreturn, herase, hmove, hend]
  simp only [List.append_assoc, List.cons_append, List.nil_append]

/-- After the frame only what it shows matters, not what has been in the row. -/
theorem frame_seen (hprompt : ∀ x ∈ prompt.bytes, Printable x) (hsome : 0 < prompt.strlen)
    (hs : s.pending = .nothing) :
    Seen prompt t.cols c (t.feed s (frame prompt t.cols c)) := by
  obtain ⟨r, pending⟩ := s
  obtain rfl : pending = .nothing := hs
  obtain ⟨seen, hseen⟩ : ∃ seen, seen = window (t.cols - prompt.strlen) c := ⟨_, rfl⟩
  rw [frame_eq, ← hseen, Terminal.feed_append, Terminal.feed_append, Terminal.feed_append]
  obtain ⟨s1, hs1⟩ : ∃ s1, s1 = t.feed ⟨r, .nothing⟩ (13 :: (prompt.bytes ++ seen.text)) := ⟨_, rfl⟩
  rw [← hs1]
  obtain ⟨r1, pending⟩ := s1
  rw [Terminal.feed_erase, Terminal.feed_return, Terminal.feed_forward]
  refine ⟨rfl, ?_⟩
  rintro ⟨hprintable, hfits⟩
  have hwhole : seen = c := hseen.trans (window_eq (by omega))
  rw [hwhole] at hs1 ⊢
  have hlength : ([] : List UInt8).length + (prompt.bytes ++ c.text).length < t.cols := by
    rw [List.length_append]
    exact Nat.lt_of_le_of_lt (Nat.zero_add _).le hfits
  have hprint := Terminal.feed_printable [] r.cells
    (List.forall_mem_append.mpr ⟨hprompt, hprintable⟩) hlength
  have hreturn : t.feed ⟨r, .nothing⟩ (13 :: (prompt.bytes ++ c.text)) =
      t.feed ⟨⟨[] ++ r.cells, ([] : List UInt8).length⟩, .nothing⟩ (prompt.bytes ++ c.text) := rfl
  rw [hreturn, hprint] at hs1
  obtain ⟨rfl, -⟩ := Screen.mk.inj hs1
  have hbefore : c.before.length ≤ c.text.length := by
    rw [Cursor.length_text]
    exact Nat.le_add_right _ _
  have hcolumn : min (t.cols - 1) (0 + max 1 (c.before.length + prompt.strlen)) =
      prompt.strlen + c.before.length := by omega
  change (⟨List.take _ _, _⟩ : TerminalRow) = shown prompt c
  rw [hcolumn, List.take_left, List.nil_append]
  rfl

/-- One step for each way of drawing. A character that is written alone comes behind what is there. -/
theorem draws_seen (hprompt : ∀ x ∈ prompt.bytes, Printable x) (hsome : 0 < prompt.strlen)
    {ws : List (List UInt8)} (hdraw : Draws prompt t.cols c ws c') (hs : Seen prompt t.cols c s) :
    Seen prompt t.cols c' (t.feed s ws.flatten) := by
  cases hdraw with
  | same => exact hs
  | @typed before x hx h =>
    have hescape : (27 : UInt8) ∉ [x] := fun hin => hx (List.mem_singleton.mp hin).symm
    refine ⟨Terminal.feed_pending hescape hs.pending, ?_⟩
    rintro ⟨hprintable, hfits⟩
    rw [Cursor.text_atEnd] at hprintable hfits
    rw [List.length_append, List.length_singleton] at hfits
    obtain ⟨hold, hnew⟩ := List.forall_mem_append.mp hprintable
    have hrow := hs.row ⟨by rwa [Cursor.text_atEnd], by rw [Cursor.text_atEnd]; omega⟩
    obtain ⟨r, pending⟩ := s
    obtain rfl : pending = .nothing := hs.pending
    obtain rfl : r = shown prompt (.atEnd before) := hrow
    have hlength : (prompt.bytes ++ before).length = prompt.strlen + before.length :=
      List.length_append
    have hprint := Terminal.feed_printable (t := t) (prompt.bytes ++ before) [] hnew (by
      rw [hlength, List.length_singleton]
      omega)
    have hshown : shown prompt (.atEnd before) =
        ⟨(prompt.bytes ++ before) ++ [], (prompt.bytes ++ before).length⟩ := by
      rw [hlength, List.append_nil, shown, Cursor.text_atEnd]
      rfl
    change (t.feed ⟨shown prompt (.atEnd before), .nothing⟩ [x]).row = _
    rw [hshown, hprint, shown, Cursor.text_atEnd, List.drop_nil, List.append_nil,
      List.append_assoc, List.length_append]
    rfl
  | redrawn =>
    rw [List.flatten_singleton]
    exact frame_seen hprompt hsome hs.pending
  | cleared =>
    have hclear : (CString.ofString "\x1b[H\x1b[2J").bytes = [27, 91, 72, 27, 91, 50, 74] := by decide
    obtain ⟨r, pending⟩ := s
    obtain rfl : pending = .nothing := hs.pending
    rw [List.flatten_cons, List.flatten_singleton, Terminal.feed_append, hclear]
    exact frame_seen hprompt hsome rfl

/-- Induction on the edits, with the invariant that the draft is seen. -/
theorem edits_seen (hprompt : ∀ x ∈ prompt.bytes, Printable x) (hsome : 0 < prompt.strlen)
    {reads : List ReadResult} {ws : List (List UInt8)} {ending : Ending}
    (h : Edits limit prompt t.cols d reads ws ending last) (hs : Seen prompt t.cols d.cursor s) :
    Seen prompt t.cols last.cursor (t.feed s ws.flatten) := by
  induction h generalizing s with
  | waiting _ => exact hs
  | writeFailed => exact hs
  | ends _ _ => exact hs
  | step _ _ hdraw _ ih =>
    rw [List.flatten_append, Terminal.feed_append]
    exact ih (draws_seen hprompt hsome hdraw hs)

/-- When nothing but the prompt has been written, an empty text is seen. -/
theorem prompt_seen (hprompt : ∀ x ∈ prompt.bytes, Printable x) :
    Seen prompt t.cols (.atEnd []) (t.feed ⟨⟨[], 0⟩, .nothing⟩ prompt.bytes) := by
  refine ⟨Terminal.feed_pending (fun hin => (hprompt _ hin).ne.1 rfl) rfl, ?_⟩
  rintro ⟨-, hfits⟩
  have hprint := Terminal.feed_printable (t := t) [] [] hprompt (by
    rw [List.length_nil, Nat.zero_add]
    exact hfits)
  have hempty : (⟨[] ++ [], ([] : List UInt8).length⟩ : TerminalRow) = ⟨[], 0⟩ := rfl
  rw [← hempty, hprint, List.drop_nil, List.append_nil, List.nil_append]
  change (⟨prompt.bytes, prompt.bytes.length⟩ : TerminalRow) = shown prompt (.atEnd [])
  rw [shown, Cursor.text_atEnd, List.append_nil]
  rfl

/-- The editor has come to a text and a place in it, and what has been written since `l` makes the
terminal show them. -/
structure Displayed (t : Terminal) (prompt : CString) (s : Screen) (l l' : Editor w)
    (last : Cursor UInt8) : Prop where
  text : ∃ rest, l'.buf.bytes = last.text ++ 0 :: rest
  len : l'.len = last.text.length
  pos : l'.pos = last.before.length
  seen : ∃ ws, l'.written = l.written ++ ws ∧ Seen prompt t.cols last (t.feed s ws.flatten)

/-- From a draft that is seen the loop comes to one that is seen. -/
theorem editLoop_seen (hw : 32 ≤ w) (hs : Shows l d) (hsmall : l.buflen < 2 ^ 31) {rounds : Nat}
    (hrounds : l.reads.length < rounds) (hprompt : ∀ x ∈ l.prompt.bytes, Printable x)
    (hsome : 0 < l.prompt.strlen) (hcols : l.cols = t.cols)
    (hseen : Seen l.prompt t.cols d.cursor s) :
    Ensures (editLoop rounds) l (fun _ l' => ∃ last, Displayed t l.prompt s l l' last)
      (fun halt l' => halt = .waiting ∧ ∃ last, Displayed t l.prompt s l l' last) := by
  have hdisplayed : ∀ ending last l', Outcome l d l' ending last →
      Displayed t l.prompt s l l' last.cursor := by
    intro ending last l' ho
    obtain ⟨ws, hedits, hwritten⟩ := ho.edits
    rw [hcols] at hedits
    exact ⟨ho.leaves.text, ho.leaves.len, ho.leaves.pos, ws, hwritten,
      edits_seen hprompt hsome hedits hseen⟩
  refine (editLoop_outcome hw hs hsmall hrounds).mono ?_ ?_
  · rintro n l' ⟨ending, last, ho, -⟩
    exact ⟨_, hdisplayed ending last l' ho⟩
  · rintro halt l' ⟨hhalt, last, ho, -⟩
    exact ⟨hhalt, _, hdisplayed .waiting last l' ho⟩

/-- A terminal that leaves its row as it is when nothing else is asked for. -/
def plainTerminal : Terminal where
  cols := 80
  character _ r := r
  sequence _ _ r := r

end NervesInitramfs.Linenoise
