import NervesInitramfs.Linenoise.Proofs.RecallProofs

/-!
# Proofs: keys

Each key does what its command does to the draft, and the reads that it takes are those of the command.
-/

namespace NervesInitramfs.Linenoise

open CLib

variable {w : Nat} {l l' : Editor w} {d d' : Draft}

/-! ## Reading -/

theorem read_bind {α : Type} {r : ReadResult} {rest : List ReadResult} (hreads : l.reads = r :: rest)
    (f : ReadResult → Edit w α) : (read >>= f) l = f r { l with reads := rest } := by
  apply bind_of_ok
  unfold read
  rw [get_bind, hreads]
  rfl

theorem read_nil {α : Type} (hreads : l.reads = []) (f : ReadResult → Edit w α) :
    (read >>= f) l = .error .waiting l := by
  apply bind_of_error
  unfold read
  rw [get_bind, hreads]
  rfl

theorem readSeq_bind {α : Type} {r : ReadResult} {rest : List ReadResult}
    (hreads : l.reads = r :: rest) (f : Option UInt8 → Edit w α) :
    (readSeq >>= f) l = f r.value { l with reads := rest } := by
  apply bind_of_ok
  unfold readSeq
  rw [read_bind hreads]
  rcases r with c | c | _ <;> rfl

theorem readSeq_nil {α : Type} (hreads : l.reads = []) (f : Option UInt8 → Edit w α) :
    (readSeq >>= f) l = .error .waiting l := by
  apply bind_of_error
  unfold readSeq
  exact read_nil hreads _

/-- A read changes nothing that is shown. -/
theorem Shows.reads (hs : Shows l d) (reads : List ReadResult) : Shows { l with reads := reads } d :=
  ⟨hs.text, hs.size, hs.room, hs.pos, hs.len, hs.wide, hs.cols, hs.index, hs.history⟩

/-! ## Escape sequences -/

/-- Any other sequence does nothing. -/
theorem ofEscape_other {seq : List UInt8}
    (h : seq ∉ ([[91, 65], [91, 66], [91, 67], [91, 68], [91, 72], [91, 70], [91, 51, 126], [79, 72],
      [79, 70]] : List (List UInt8))) : Command.ofEscape seq = .edit id := by
  have hnone : escapes.lookup seq = none := by
    rw [List.lookup_eq_none_iff]
    intro p hp
    have hmem : p.1 ∈ escapes.map Prod.fst := List.mem_map_of_mem hp
    rw [bne_iff_ne]
    rintro rfl
    exact h hmem
  rw [Command.ofEscape, hnone]
  rfl

theorem bracketKey_moves (hw : 32 ≤ w) (hs : Shows l d) {c : UInt8} :
    ∃ l', bracketKey c l = .ok () l' ∧ Moves l d l' (d.apply l.buflen (.ofEscape [91, c])) := by
  unfold bracketKey
  by_cases h65 : c = 65
  · rw [if_pos h65, h65]
    exact historyNext_older hw hs
  rw [if_neg h65]
  by_cases h66 : c = 66
  · rw [if_pos h66, h66]
    exact historyNext_newer hw hs
  rw [if_neg h66]
  by_cases h67 : c = 67
  · rw [if_pos h67, h67]
    exact moveRight_moves hw hs
  rw [if_neg h67]
  by_cases h68 : c = 68
  · rw [if_pos h68, h68]
    exact moveLeft_moves hw hs
  rw [if_neg h68]
  by_cases h72 : c = 72
  · rw [if_pos h72, h72]
    exact moveHome_moves hw hs
  rw [if_neg h72]
  by_cases h70 : c = 70
  · rw [if_pos h70, h70]
    exact moveEnd_moves hw hs
  rw [if_neg h70]
  rw [ofEscape_other (by simp [h65, h66, h67, h68, h72, h70])]
  exact ⟨l, rfl, .refl hs⟩

/-- The editor waits for the whole sequence. -/
theorem escapeKey_waiting (h : nextEscape l.reads = none) :
    escapeKey l = .error .waiting { l with reads := [] } := by
  unfold escapeKey
  rcases hreads : l.reads with _ | ⟨a, reads⟩
  · rw [readSeq_nil hreads, ← hreads]
  rw [hreads] at h
  rw [readSeq_bind hreads]
  rcases ha : a.value with _ | a'
  · simp [nextEscape, ha] at h
  dsimp only
  simp only [nextEscape, ha] at h
  rcases reads with _ | ⟨b, reads⟩
  · exact readSeq_nil rfl _
  rw [readSeq_bind rfl]
  rcases hb : b.value with _ | b'
  · simp [hb] at h
  simp only [hb] at h
  dsimp only
  by_cases hdigit : a' = 91 ∧ 48 ≤ b' ∧ b' ≤ 57
  · rw [if_pos hdigit] at h
    rcases reads with _ | ⟨c, reads⟩
    · rw [if_pos hdigit.1, if_pos hdigit.2]
      exact readSeq_nil rfl _
    · simp at h
  · simp [if_neg hdigit] at h

/-- What follows `ESC` does what the sequence stands for. -/
theorem escapeKey_moves (hw : 32 ≤ w) (hs : Shows l d) {command : Command} {rest : List ReadResult}
    (h : nextEscape l.reads = some (command, rest)) :
    ∃ l', escapeKey l = .ok () l' ∧
      Moves { l with reads := rest } d l' (d.apply l.buflen command) := by
  unfold escapeKey
  rcases hreads : l.reads with _ | ⟨a, reads⟩
  · simp [hreads, nextEscape] at h
  rw [hreads] at h
  rw [readSeq_bind hreads]
  rcases ha : a.value with _ | a'
  · simp only [nextEscape, ha, Option.some.injEq, Prod.mk.injEq] at h
    obtain ⟨rfl, rfl⟩ := h
    exact ⟨_, rfl, .refl (hs.reads _)⟩
  dsimp only
  simp only [nextEscape, ha] at h
  rcases reads with _ | ⟨b, reads⟩
  · simp at h
  rw [readSeq_bind rfl]
  rcases hb : b.value with _ | b'
  · simp only [hb, Option.some.injEq, Prod.mk.injEq] at h
    obtain ⟨rfl, rfl⟩ := h
    exact ⟨_, rfl, .refl (hs.reads _)⟩
  simp only [hb] at h
  dsimp only
  by_cases hdigit : a' = 91 ∧ 48 ≤ b' ∧ b' ≤ 57
  · rw [if_pos hdigit] at h
    rw [if_pos hdigit.1, if_pos hdigit.2]
    rcases reads with _ | ⟨c, reads⟩
    · simp at h
    rw [readSeq_bind rfl]
    simp only [Option.some.injEq, Prod.mk.injEq] at h
    obtain ⟨hcommand, rfl⟩ := h
    have hs' := hs.reads reads
    rcases hc : c.value with _ | c'
    · obtain rfl : Command.edit id = command := by simpa [hc] using hcommand
      exact ⟨_, rfl, .refl hs'⟩
    obtain rfl : Command.ofEscape [91, b', c'] = command := by
      simpa [hc, hdigit.1] using hcommand
    dsimp only
    by_cases htilde : c' = 126
    · rw [if_pos htilde, htilde]
      by_cases hthree : b' = 51
      · rw [if_pos hthree, hthree]
        exact editDelete_moves hw hs'
      · rw [if_neg hthree, ofEscape_other (by simp [hthree])]
        exact ⟨_, rfl, .refl hs'⟩
    · rw [if_neg htilde, ofEscape_other (by simp [htilde])]
      exact ⟨_, rfl, .refl hs'⟩
  · rw [if_neg hdigit] at h
    simp only [Option.some.injEq, Prod.mk.injEq] at h
    obtain ⟨rfl, rfl⟩ := h
    have hs' := hs.reads reads
    by_cases hbracket : a' = 91
    · rw [if_pos hbracket, if_neg fun hb => hdigit ⟨hbracket, hb⟩, hbracket]
      exact bracketKey_moves hw hs'
    rw [if_neg hbracket]
    by_cases hO : a' = 79
    · rw [if_pos hO, hO]
      by_cases hH : b' = 72
      · rw [if_pos hH, hH]
        exact moveHome_moves hw hs'
      rw [if_neg hH]
      by_cases hF : b' = 70
      · rw [if_pos hF, hF]
        exact moveEnd_moves hw hs'
      · rw [if_neg hF, ofEscape_other (by simp [hH, hF])]
        exact ⟨_, rfl, .refl hs'⟩
    · rw [if_neg hO, ofEscape_other (by simp [hbracket, hO])]
      exact ⟨_, rfl, .refl hs'⟩

/-! ## Keys -/

theorem count_eq (hs : Shows l d) (hsmall : l.buflen < 2 ^ 31) : l.count = d.text.length := by
  have hlt := hs.len_lt
  have hsize := hs.size
  rw [Buffer.size] at hsize
  rw [Editor.count, toInt_toInt32_of_lt (by omega), hs.len]

/-- The line that stands for the text is given up. -/
theorem popHistory_ends (hs : Shows l d) (ending : Ending)
    (hleaves : ending.leaves d = d.lines.dropLast) :
    ∃ l', popHistory l = .ok () l' ∧ Ends l d l' ending := by
  have hne : d.lines ≠ [] := by simp [Draft.lines]
  have hk : Keeps w l.history (d.lines.dropLast ++ [d.lines.getLast hne]) := by
    rw [List.dropLast_append_getLast hne]
    exact hs.history
  obtain ⟨h', hpop, hlimit, hk'⟩ := hk.pop
  refine ⟨{ l with history := h' }, ?_, ⟨hs.text, hs.len, hs.pos, ?_⟩, hlimit, List.suffix_refl _, rfl⟩
  · unfold popHistory
    rw [get_bind, defined_bind hpop]
    rfl
  · rw [hleaves]
    exact hk'

/-- What a key leads to: the editing ends, or it goes on with the next draft unless a write fails. -/
def KeyDone (c : UInt8) (go : Edit w Int) (l : Editor w) (d : Draft) : Prop :=
  (∃ ending l', d.ending (.ofKey c) = some ending ∧ editKey c go l = .ok (ending.count d) l' ∧
    Ends l d l' ending) ∨
  (d.ending (.ofKey c) = none ∧ ∃ l', Moves l d l' (d.apply l.buflen (.ofKey c)) ∧
    (editKey c go l = go l' ∨ (editKey c go l = .ok (-1) l' ∧ false ∈ l.writes)))

theorem keyDone_of_moves {c : UInt8} {go : Edit w Int} {m : Edit w Unit}
    (hmoves : ∃ l', m l = .ok () l' ∧ Moves l d l' (d.apply l.buflen (.ofKey c)))
    (hend : d.ending (.ofKey c) = none) (hkey : editKey c go l = (m >>= fun _ => go) l) :
    KeyDone c go l d := by
  obtain ⟨l', hrun, hmoves⟩ := hmoves
  refine Or.inr ⟨hend, l', hmoves, Or.inl ?_⟩
  rw [hkey, bind_of_ok hrun]

/-- The screen is cleared before the line is shown again. -/
theorem clear_moves (hw : 32 ≤ w) (hs : Shows l d) :
    ∃ l', (do linenoiseClearScreen; refreshSingleLine : Edit w Unit) l = .ok () l' ∧
      Moves l d l' d := by
  have hs' : Shows { l with
      writes := l.writes.tail
      written := l.written ++ [(CString.ofString "\x1b[H\x1b[2J").bytes] } d :=
    ⟨hs.text, hs.size, hs.room, hs.pos, hs.len, hs.wide, hs.cols, hs.index, hs.history⟩
  refine ⟨_, refreshSingleLine_eq hw hs', ?_⟩
  exact {
    shows := ⟨hs.text, hs.size, hs.room, hs.pos, hs.len, hs.wide, hs.cols, hs.index, hs.history⟩
    buflen := rfl
    prompt := rfl
    cols := rfl
    limit := rfl
    reads := rfl
    writes := (List.tail_suffix _).trans (List.tail_suffix _)
    drawn := ⟨_, List.append_assoc _ _ _, .cleared⟩ }

/-- Any other key is a character. -/
theorem ofKey_other {c : UInt8} (h : c ∉ keys.map Prod.fst) : Command.ofKey c = .insert c := by
  have hnone : keys.lookup c = none := by
    rw [List.lookup_eq_none_iff]
    intro p hp
    have hmem : p.1 ∈ keys.map Prod.fst := List.mem_map_of_mem hp
    rw [bne_iff_ne]
    rintro rfl
    exact h hmem
  rw [Command.ofKey, hnone]
  rfl

theorem editKey_done (hw : 32 ≤ w) (hs : Shows l d) (hsmall : l.buflen < 2 ^ 31) {c : UInt8}
    (hesc : c ≠ ESC) (go : Edit w Int) : KeyDone c go l d := by
  have hkeys : keys.map Prod.fst = [ENTER, CTRL_C, BACKSPACE, CTRL_H, CTRL_D, CTRL_T, CTRL_B, CTRL_F,
    CTRL_P, CTRL_N, CTRL_U, CTRL_K, CTRL_A, CTRL_E, CTRL_L, CTRL_W] := rfl
  by_cases hmem : c ∈ keys.map Prod.fst
  · rw [hkeys] at hmem
    simp only [List.mem_cons, List.not_mem_nil, or_false] at hmem
    rcases hmem with rfl | rfl | rfl | rfl | rfl | rfl | rfl | rfl | rfl | rfl | rfl | rfl | rfl |
      rfl | rfl | rfl
    · obtain ⟨l', hrun, hends⟩ := popHistory_ends hs .entered rfl
      refine Or.inl ⟨.entered, l', rfl, ?_, hends⟩
      have hkey : editKey ENTER go l = (do popHistory; pure l.count) l := rfl
      rw [hkey, bind_of_ok hrun, count_eq hs hsmall]
      rfl
    · exact Or.inl ⟨.cancelled, l, rfl, rfl, ⟨hs.text, hs.len, hs.pos, hs.history⟩, rfl,
        List.suffix_refl _, rfl⟩
    · exact keyDone_of_moves (editBackspace_moves hw hs) rfl rfl
    · exact keyDone_of_moves (editBackspace_moves hw hs) rfl rfl
    · have hkey : editKey CTRL_D go l = (if 0 < l.len then do linenoiseEditDelete; go
          else do popHistory; pure (-1)) l := rfl
      have hending : d.ending (.ofKey CTRL_D) = if d.text = [] then some .endOfFile else none := rfl
      have hlen := hs.len
      by_cases hempty : d.text = []
      · obtain ⟨l', hrun, hends⟩ := popHistory_ends hs .endOfFile rfl
        rw [hempty, List.length_nil] at hlen
        refine Or.inl ⟨.endOfFile, l', by rw [hending, if_pos hempty], ?_, hends⟩
        rw [hkey, if_neg (by omega), bind_of_ok hrun]
        rfl
      · have hpos : 0 < l.len := hlen ▸ List.length_pos_iff.mpr hempty
        rw [if_pos hpos] at hkey
        exact keyDone_of_moves (editDelete_moves hw hs) (by rw [hending, if_neg hempty]) hkey
    · exact keyDone_of_moves (transposeChars_moves hw hs) rfl rfl
    · exact keyDone_of_moves (moveLeft_moves hw hs) rfl rfl
    · exact keyDone_of_moves (moveRight_moves hw hs) rfl rfl
    · exact keyDone_of_moves (historyNext_older hw hs) rfl rfl
    · exact keyDone_of_moves (historyNext_newer hw hs) rfl rfl
    · exact keyDone_of_moves (cutAt_moves (x := []) hw hs rfl) rfl rfl
    · have hcut := cutAt_moves (x := d.cursor.before) hw hs rfl
      rw [← hs.pos] at hcut
      exact keyDone_of_moves hcut rfl rfl
    · exact keyDone_of_moves (moveHome_moves hw hs) rfl rfl
    · exact keyDone_of_moves (moveEnd_moves hw hs) rfl rfl
    · exact keyDone_of_moves (clear_moves hw hs) rfl rfl
    · exact keyDone_of_moves (deletePrevWord_moves hw hs) rfl rfl
  · obtain ⟨r, l', hrun, hmoves, hfailed⟩ := editInsert_moves hw hs hesc
    have hinsert : Command.ofKey c = .insert c := ofKey_other hmem
    have hkey : editKey c go l = (linenoiseEditInsert c >>= fun failed =>
        if failed ≠ 0 then pure (-1) else go) l := by
      rw [hkeys] at hmem
      simp only [List.mem_cons, List.not_mem_nil, or_false, not_or] at hmem
      obtain ⟨h1, h2, h3, h4, h5, h6, h7, h8, h9, h10, h11, h12, h13, h14, h15, h16⟩ := hmem
      unfold editKey
      rw [get_bind]
      simp only [h1, h2, h3, h4, h5, h6, h7, h8, h9, h10, hesc, h11, h12, h13, h14, h15, h16, or_self,
        if_false]
    refine Or.inr ⟨by rw [hinsert]; rfl, l', hinsert ▸ hmoves, ?_⟩
    rw [hkey, bind_of_ok hrun]
    by_cases hr : r = 0
    · rw [if_neg (not_not_intro hr)]
      exact Or.inl rfl
    · rw [if_pos hr]
      exact Or.inr ⟨rfl, hfailed hr⟩

end NervesInitramfs.Linenoise
