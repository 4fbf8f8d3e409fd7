import NervesInitramfs.Linenoise.Proofs.HistoryProofs
import NervesInitramfs.Linenoise.Proofs.RefreshProofs
import NervesInitramfs.Util.Proofs.TrimProofs

/-!
# Proofs: editing a line

Each function on the buffer does what its command does to the draft, and it stays inside the buffer.
-/

namespace NervesInitramfs.Linenoise

open CLib

variable {w : Nat} {l l' : Editor w} {d d' : Draft}

/-! ## Steps -/

theorem get_bind {α : Type} (f : Editor w → Edit w α) : (get >>= f : Edit w α) l = f l l := rfl

theorem modify_bind {α : Type} (g : Editor w → Editor w) (f : PUnit → Edit w α) :
    (modify g >>= f : Edit w α) l = f ⟨⟩ (g l) := rfl

theorem defined_bind {α β : Type} {x : Option α} {a : α} (hx : x = some a) (f : α → Edit w β) :
    (defined x >>= f) l = f a l := by
  rw [hx]
  rfl

theorem write_bind {α : Type} (bytes : List UInt8) (f : Bool → Edit w α) :
    (write bytes >>= f) l = f (l.writes.headD true)
      { l with writes := l.writes.tail, written := l.written ++ [bytes] } := rfl

theorem storeByte_of {α : Type} {p : Nat} {c : UInt8} {buf : Buffer w}
    (hstore : l.buf.store p c = some buf) (f : PUnit → Edit w α) :
    (storeByte p c >>= f) l = f ⟨⟩ { l with buf := buf } := by
  apply bind_of_ok
  unfold storeByte
  rw [get_bind, defined_bind hstore]
  rfl

theorem moveBytes_of {α : Type} {p src n : Nat} {buf : Buffer w}
    (hmove : l.buf.memmove p src n = some buf) (f : PUnit → Edit w α) :
    (moveBytes p src n >>= f) l = f ⟨⟩ { l with buf := buf } := by
  apply bind_of_ok
  unfold moveBytes
  rw [get_bind, defined_bind hmove]
  rfl

/-! ## The buffer -/

variable {buf : Buffer w} {a r : List UInt8}

theorem size_memcpy {p : Nat} {src : List UInt8} {buf' : Buffer w}
    (h : buf.memcpy p src = some buf') : buf'.size = buf.size := by
  unfold Buffer.memcpy at h
  split at h
  · rename_i hle
    obtain rfl := Option.some.inj h
    simp only [Buffer.size, List.length_append, List.length_take, List.length_drop]
    omega
  · cases h

theorem size_memmove {p src n : Nat} {buf' : Buffer w} (h : buf.memmove p src n = some buf') :
    buf'.size = buf.size := by
  unfold Buffer.memmove at h
  split at h
  · exact size_memcpy h
  · cases h

theorem exists_memmove {p n : Nat} (src : Nat) (hbytes : buf.bytes = a ++ r) (hp : a.length = p)
    (hsrc : src + n ≤ buf.size) (hr : n ≤ r.length) :
    ∃ buf', buf.memmove p src n = some buf' ∧
      buf'.bytes = a ++ (buf.bytes.drop src).take n ++ r.drop n := by
  have hlen : ((buf.bytes.drop src).take n).length = n := by
    rw [Buffer.size] at hsrc
    rw [List.length_take, List.length_drop]
    omega
  obtain ⟨buf', hmove, hbuf⟩ := Buffer.memcpy_append ((buf.bytes.drop src).take n) hbytes hp
    (by rw [hlen]; exact hr)
  rw [hlen] at hbuf
  exact ⟨buf', by rw [Buffer.memmove, if_pos hsrc, hmove], hbuf⟩

/-- The last step of the operations. -/
theorem redraw (hw : 32 ≤ w) (h : Shows l' d')
    (hsame : { l' with
      buf := l.buf
      pos := l.pos
      len := l.len
      historyIndex := l.historyIndex
      history := l.history } = l)
    (hlimit : l'.history.historyMaxLen = l.history.historyMaxLen) :
    ∃ l'', refreshSingleLine l' = .ok () l'' ∧ Moves l d l'' d' := by
  refine ⟨_, refreshSingleLine_eq hw h, ?_⟩
  rw [← hsame]
  exact {
    shows := ⟨h.text, h.size, h.room, h.pos, h.len, h.wide, h.cols, h.index, h.history⟩
    buflen := rfl
    prompt := rfl
    cols := rfl
    limit := hlimit
    reads := rfl
    writes := List.tail_suffix _
    drawn := ⟨_, rfl, .redrawn⟩ }

theorem Moves.refl (h : Shows l d) : Moves l d l d :=
  ⟨h, rfl, rfl, rfl, rfl, rfl, List.suffix_refl _, [], (List.append_nil _).symm, .same⟩

/-! ## The cursor -/

/-- Only the position is another one. -/
theorem moveTo_moves (hw : 32 ≤ w) (h : Shows l d) {c : Cursor UInt8} (hc : c.text = d.text) {p : Nat}
    (hp : c.before.length = p) :
    ∃ l', moveTo p l = .ok () l' ∧ Moves l d l' { d with cursor := c } := by
  have hshows : Shows { l with pos := p } { d with cursor := c } := {
    text := by rw [Draft.text, hc]; exact h.text
    size := h.size
    room := h.room
    pos := hp.symm
    len := by rw [Draft.text, hc]; exact h.len
    wide := h.wide
    cols := h.cols
    index := h.index
    history := h.history }
  exact redraw hw hshows rfl rfl

theorem moveLeft_moves (hw : 32 ≤ w) (h : Shows l d) :
    ∃ l', linenoiseEditMoveLeft l = .ok () l' ∧ Moves l d l' { d with cursor := d.cursor.left } := by
  unfold linenoiseEditMoveLeft
  rw [get_bind]
  have hpos := h.pos
  rcases List.eq_nil_or_concat d.cursor.before with hnil | ⟨before, a, hbefore⟩
  · have hsame : d.cursor.left = d.cursor := by
      rcases hc : d.cursor with ⟨before, after⟩
      obtain rfl : before = [] := by rw [← hnil, hc]
      rfl
    rw [if_neg (by rw [hpos, hnil]; exact Nat.lt_irrefl 0), hsame]
    exact ⟨l, rfl, .refl h⟩
  · rw [hbefore, List.length_concat] at hpos
    rw [if_pos (by omega)]
    exact moveTo_moves hw h d.cursor.text_left (by simp [Cursor.left, hbefore, hpos])

theorem moveRight_moves (hw : 32 ≤ w) (h : Shows l d) :
    ∃ l', linenoiseEditMoveRight l = .ok () l' ∧
      Moves l d l' { d with cursor := d.cursor.right } := by
  unfold linenoiseEditMoveRight
  rw [get_bind]
  have hpos := h.pos
  have hlen := h.len
  rw [Draft.text, Cursor.length_text] at hlen
  rcases hafter : d.cursor.after with _ | ⟨a, after⟩
  · have hsame : d.cursor.right = d.cursor := by
      rcases hc : d.cursor with ⟨before, after⟩
      obtain rfl : after = [] := by rw [← hafter, hc]
      simp [Cursor.right]
    rw [hafter] at hlen
    rw [if_neg (by rw [hpos, hlen]; simp), hsame]
    exact ⟨l, rfl, .refl h⟩
  · rw [hafter, List.length_cons] at hlen
    rw [if_pos (by omega)]
    exact moveTo_moves hw h d.cursor.text_right (by simp [Cursor.right, hafter, hpos])

theorem moveHome_moves (hw : 32 ≤ w) (h : Shows l d) :
    ∃ l', linenoiseEditMoveHome l = .ok () l' ∧ Moves l d l' { d with cursor := d.cursor.home } := by
  unfold linenoiseEditMoveHome
  rw [get_bind]
  by_cases hzero : l.pos = 0
  · have hsame : d.cursor.home = d.cursor := by
      rcases hc : d.cursor with ⟨before, after⟩
      obtain rfl : before = [] := by
        apply List.length_eq_zero_iff.mp
        rw [← hzero, h.pos, hc]
      rfl
    rw [if_neg (not_not_intro hzero), hsame]
    exact ⟨l, rfl, .refl h⟩
  · rw [if_pos hzero]
    exact moveTo_moves hw h d.cursor.text_home rfl

theorem moveEnd_moves (hw : 32 ≤ w) (h : Shows l d) :
    ∃ l', linenoiseEditMoveEnd l = .ok () l' ∧ Moves l d l' { d with cursor := d.cursor.toEnd } := by
  unfold linenoiseEditMoveEnd
  rw [get_bind]
  by_cases hend : l.pos = l.len
  · have hsame : d.cursor.toEnd = d.cursor := by
      have hlen := h.len
      rw [← hend, h.pos, Draft.text, Cursor.length_text] at hlen
      rcases hc : d.cursor with ⟨before, after⟩
      rw [hc] at hlen
      obtain rfl : after = [] := List.length_eq_zero_iff.mp (by simp only at hlen; omega)
      simp [Cursor.toEnd, Cursor.atEnd, Cursor.text]
    rw [if_neg (not_not_intro hend), hsame]
    exact ⟨l, rfl, .refl h⟩
  · rw [if_pos hend]
    exact moveTo_moves hw h d.cursor.text_toEnd h.len.symm

/-! ## The text -/

/-- The buffer holds another text. -/
theorem Shows.change (h : Shows l d) {buf : Buffer w} {c : Cursor UInt8} (rest : List UInt8)
    (hbuf : buf.bytes = c.text ++ 0 :: rest) (hsize : buf.size = l.buf.size) {p n : Nat}
    (hp : c.before.length = p) (hn : c.text.length = n) :
    Shows { l with buf := buf, pos := p, len := n } { d with cursor := c } where
  text := ⟨rest, hbuf⟩
  size := hsize.trans h.size
  room := h.room
  pos := hp.symm
  len := hn.symm
  wide := h.wide
  cols := h.cols
  index := h.index
  history := h.history

/-- A character behind the text, which may be written alone. -/
theorem editInsert_atEnd (hw : 32 ≤ w) (h : Shows l d) {before : List UInt8}
    (hd : d.cursor = .atEnd before) (hfits : l.len < l.buflen) {c : UInt8} (hesc : c ≠ ESC) :
    ∃ r l', linenoiseEditInsert c l = .ok r l' ∧
      Moves l d l' { d with cursor := .atEnd (before ++ [c]) } ∧ (r ≠ 0 → false ∈ l.writes) := by
  obtain ⟨rest, hbytes⟩ := h.text
  have htext : d.text = before := by rw [Draft.text, hd, Cursor.text_atEnd]
  have hlen : l.len = before.length := by rw [h.len, htext]
  have hpos : l.pos = before.length := by
    rw [h.pos, hd]
    rfl
  have hsize := h.size
  rw [Buffer.size, hbytes, htext, List.length_append, List.length_cons] at hsize
  rw [htext] at hbytes
  unfold linenoiseEditInsert
  rw [get_bind, if_pos hfits, if_pos (hlen.trans hpos.symm)]
  obtain ⟨b1, hstore1, hb1⟩ := Buffer.store_append (c := c) hbytes hpos.symm (Nat.succ_pos _)
  have hb1' : b1.bytes = (before ++ [c]) ++ rest := by simpa using hb1
  obtain ⟨b2, hstore2, hb2⟩ := Buffer.store_append (p := l.len + 1) (c := 0) hb1' (by simp [hlen])
    (by omega)
  have hshows : Shows { l with buf := b2, pos := l.pos + 1, len := l.len + 1 }
      { d with cursor := .atEnd (before ++ [c]) } := by
    apply h.change (rest.drop 1)
    · simpa using hb2
    · exact (size_memcpy hstore2).trans (size_memcpy hstore1)
    · simp [Cursor.atEnd, hpos]
    · simp [hlen]
  rw [storeByte_of hstore1, modify_bind, storeByte_of hstore2]
  by_cases hshort : (l.prompt.strlen + (l.len + 1)) % 2 ^ w < l.cols
  · have hplen : l.prompt.strlen + (l.len + 1) < 2 ^ w := by
      have htwo := two_ptrdiffMax_lt (w := w) (by omega)
      have hmax := ptrdiffMax_ge hw
      have hle := l.buf.size_le
      have hlt := h.len_lt
      have hwide := h.wide
      have hcols := h.cols
      omega
    rw [if_pos hshort, write_bind]
    rw [Nat.mod_eq_of_lt hplen] at hshort
    have hmoves : Moves l d { l with
        buf := b2
        pos := l.pos + 1
        len := l.len + 1
        writes := l.writes.tail
        written := l.written ++ [[c]] } { d with cursor := .atEnd (before ++ [c]) } := {
      shows := ⟨hshows.text, hshows.size, hshows.room, hshows.pos, hshows.len, hshows.wide,
        hshows.cols, hshows.index, hshows.history⟩
      buflen := rfl
      prompt := rfl
      cols := rfl
      limit := rfl
      reads := rfl
      writes := List.tail_suffix _
      drawn := ⟨_, rfl, hd ▸ .typed c hesc (hlen ▸ hshort)⟩ }
    rcases hwrites : l.writes with _ | ⟨ok, writes⟩
    · rw [hwrites] at hmoves
      exact ⟨0, _, rfl, hmoves, fun hr => absurd rfl hr⟩
    · rw [hwrites] at hmoves
      rcases ok with _ | _
      · exact ⟨-1, _, rfl, hmoves, fun _ => List.mem_cons_self⟩
      · exact ⟨0, _, rfl, hmoves, fun hr => absurd rfl hr⟩
  · rw [if_neg hshort]
    obtain ⟨l', hrefresh, hmoves⟩ := redraw (l := l) hw hshows rfl rfl
    exact ⟨0, l', bind_of_ok hrefresh, hmoves, fun hr => absurd rfl hr⟩

/-- A character in front of others, which are moved to make room for it. -/
theorem editInsert_inside (hw : 32 ≤ w) (h : Shows l d) {before after : List UInt8} {a : UInt8}
    (hd : d.cursor = ⟨before, a :: after⟩) (hfits : l.len < l.buflen) (c : UInt8) :
    ∃ l', linenoiseEditInsert c l = .ok 0 l' ∧
      Moves l d l' { d with cursor := ⟨before ++ [c], a :: after⟩ } := by
  obtain ⟨rest, hbytes⟩ := h.text
  have htext : d.text = before ++ a :: after := by rw [Draft.text, hd, Cursor.text]
  have hlen : l.len = before.length + (after.length + 1) := by
    rw [h.len, htext, List.length_append, List.length_cons]
  have hpos : l.pos = before.length := by
    rw [h.pos, hd]
  have hbufsize : l.buf.size = before.length + (after.length + 1) + (rest.length + 1) := by
    rw [Buffer.size, hbytes, htext]
    simp
    omega
  have hsize := h.size
  have hcount : sizeDiff w l.len l.pos = after.length + 1 := by
    have hmax := l.buf.size_le
    rw [Buffer.size] at hbufsize
    rw [sizeDiff_of_le (by omega) (by omega)]
    omega
  have hsplit : l.buf.bytes = (before ++ [a]) ++ (after ++ 0 :: rest) := by simp [hbytes, htext]
  unfold linenoiseEditInsert
  rw [get_bind, if_pos hfits, if_neg (by omega), hcount]
  obtain ⟨b1, hmove1, hb1⟩ := exists_memmove (p := l.pos + 1) (n := after.length + 1) l.pos
    hsplit (by simp [hpos]) (by omega) (by simp)
  have hmoved : b1.bytes = before ++ (a :: a :: after ++ rest) := by
    rw [hb1, hbytes, htext, hpos]
    simp [List.drop_append]
  obtain ⟨b2, hstore2, hb2⟩ := Buffer.store_append (c := c) hmoved hpos.symm (Nat.succ_pos _)
  have hstored : b2.bytes = (before ++ c :: a :: after) ++ rest := by simpa using hb2
  obtain ⟨b3, hstore3, hb3⟩ := Buffer.store_append (p := l.len + 1) (c := 0) hstored
    (by simp [hlen]; omega) (by omega)
  have hshows : Shows { l with buf := b3, pos := l.pos + 1, len := l.len + 1 }
      { d with cursor := ⟨before ++ [c], a :: after⟩ } := by
    apply h.change (rest.drop 1)
    · simpa [Cursor.text] using hb3
    · exact (size_memcpy hstore3).trans ((size_memcpy hstore2).trans (size_memmove hmove1))
    · simp [hpos]
    · simp [Cursor.text, hlen]
      omega
  obtain ⟨l', hrefresh, hmoves⟩ := redraw (l := l) hw hshows rfl rfl
  rw [moveBytes_of hmove1, storeByte_of hstore2, modify_bind, storeByte_of hstore3]
  exact ⟨l', bind_of_ok hrefresh, hmoves⟩

theorem editInsert_moves (hw : 32 ≤ w) (h : Shows l d) {c : UInt8} (hesc : c ≠ ESC) :
    ∃ r l', linenoiseEditInsert c l = .ok r l' ∧
      Moves l d l' (d.apply l.buflen (.insert c)) ∧ (r ≠ 0 → false ∈ l.writes) := by
  have happly : d.apply l.buflen (.insert c) =
      if d.text.length < l.buflen then { d with cursor := d.cursor.insert c } else d := rfl
  rw [happly, ← h.len]
  by_cases hfits : l.len < l.buflen
  · rw [if_pos hfits]
    rcases hd : d.cursor with ⟨before, _ | ⟨a, after⟩⟩
    · exact editInsert_atEnd hw h hd hfits hesc
    · obtain ⟨l', hrun, hmoves⟩ := editInsert_inside hw h hd hfits c
      exact ⟨0, l', hrun, hmoves, fun hr => absurd rfl hr⟩
  · rw [if_neg hfits]
    refine ⟨0, l, ?_, .refl h, fun hr => absurd rfl hr⟩
    unfold linenoiseEditInsert
    rw [get_bind, if_neg hfits]
    rfl

/-- A byte is taken out of the text. -/
theorem exists_remove (h : Shows l d) {x y : List UInt8} {b : UInt8} (htext : d.text = x ++ b :: y) :
    ∃ b1 b2 rest, l.buf.memmove x.length (x.length + 1) y.length = some b1 ∧
      b1.store (x.length + y.length) 0 = some b2 ∧ b2.bytes = x ++ y ++ 0 :: rest ∧
      b2.size = l.buf.size := by
  obtain ⟨rest, hbytes⟩ := h.text
  have hsplit : l.buf.bytes = x ++ (b :: y ++ 0 :: rest) := by simp [hbytes, htext]
  have hsize : l.buf.size = x.length + (y.length + 1) + (rest.length + 1) := by
    rw [Buffer.size, hsplit]
    simp
    omega
  obtain ⟨b1, hmove, hb1⟩ := exists_memmove (p := x.length) (n := y.length) (x.length + 1)
    hsplit rfl (by omega) (by simp; omega)
  have hdrop : l.buf.bytes.drop (x.length + 1) = y ++ 0 :: rest := by
    have hbehind : l.buf.bytes = (x ++ [b]) ++ (y ++ 0 :: rest) := by simp [hbytes, htext]
    rw [hbehind]
    exact List.drop_left' (by simp)
  have htail : (b :: y ++ 0 :: rest).drop y.length = ((b :: y).drop y.length) ++ 0 :: rest :=
    List.drop_append_of_le_length (by simp)
  have hb1' : b1.bytes = (x ++ y) ++ ((b :: y).drop y.length ++ 0 :: rest) := by
    rw [hb1, htail, hdrop, List.take_left]
  obtain ⟨b2, hstore, hb2⟩ := Buffer.store_append (p := x.length + y.length) (c := 0) hb1'
    List.length_append (by simp)
  exact ⟨b1, b2, _, hmove, hstore, hb2, (size_memcpy hstore).trans (size_memmove hmove)⟩

theorem editDelete_moves (hw : 32 ≤ w) (h : Shows l d) :
    ∃ l', linenoiseEditDelete l = .ok () l' ∧ Moves l d l' { d with cursor := d.cursor.delete } := by
  have hpos := h.pos
  have hlen := h.len
  rw [Draft.text, Cursor.length_text] at hlen
  unfold linenoiseEditDelete
  rw [get_bind]
  rcases hd : d.cursor with ⟨before, _ | ⟨b, after⟩⟩
  · rw [hd] at hpos hlen
    have hsame : (⟨before, []⟩ : Cursor UInt8).delete = d.cursor := hd.symm
    rw [if_neg (by simp only [List.length_nil] at hpos hlen; omega), hsame]
    exact ⟨l, rfl, .refl h⟩
  · rw [hd] at hpos hlen
    simp only [List.length_cons] at hpos hlen
    have htext : d.text = before ++ b :: after := by rw [Draft.text, hd, Cursor.text]
    obtain ⟨b1, b2, rest, hmove, hstore, hb2, hsize⟩ := exists_remove h htext
    have hmax := l.buf.size_le
    have hlt := h.len_lt
    have hcount : sizeDiff w l.len (l.pos + 1) = after.length := by
      rw [sizeDiff_of_le (by omega) (by omega)]
      omega
    have hshows : Shows { l with buf := b2, len := l.len - 1 }
        { d with cursor := ⟨before, after⟩ } := by
      apply h.change (p := l.pos) (n := l.len - 1) _ hb2 hsize
      · exact hpos.symm
      · rw [Cursor.length_text]
        simp only
        omega
    have hend : l.len - 1 = before.length + after.length := by omega
    obtain ⟨l', hrefresh, hmoves⟩ := redraw (l := l) hw hshows rfl rfl
    rw [if_pos ⟨by omega, by omega⟩, hcount, hpos, moveBytes_of hmove, modify_bind, hend,
      storeByte_of hstore]
    refine ⟨l', ?_, hmoves⟩
    rw [← hrefresh, hend]

theorem editBackspace_moves (hw : 32 ≤ w) (h : Shows l d) :
    ∃ l', linenoiseEditBackspace l = .ok () l' ∧
      Moves l d l' { d with cursor := d.cursor.backspace } := by
  have hpos := h.pos
  have hlen := h.len
  rw [Draft.text, Cursor.length_text] at hlen
  unfold linenoiseEditBackspace
  rw [get_bind]
  rcases List.eq_nil_or_concat d.cursor.before with hnil | ⟨before, b, hbefore⟩
  · have hsame : d.cursor.backspace = d.cursor := by
      rcases hd : d.cursor with ⟨before, after⟩
      obtain rfl : before = [] := by rw [← hnil, hd]
      rfl
    rw [hnil, List.length_nil] at hpos
    rw [if_neg (by omega), hsame]
    exact ⟨l, rfl, .refl h⟩
  · rw [List.concat_eq_append] at hbefore
    have hcursor : d.cursor.backspace = ⟨before, d.cursor.after⟩ := by
      simp [Cursor.backspace, hbefore]
    have htext : d.text = before ++ b :: d.cursor.after := by
      simp [Draft.text, Cursor.text, hbefore]
    obtain ⟨b1, b2, rest, hmove, hstore, hb2, hsize⟩ := exists_remove h htext
    rw [hbefore, List.length_append, List.length_singleton] at hpos hlen
    have hmax := l.buf.size_le
    have hlt := h.len_lt
    have hcount : sizeDiff w l.len l.pos = d.cursor.after.length := by
      rw [sizeDiff_of_le (by omega) (by omega)]
      omega
    have hbehind : l.pos - 1 = before.length := by omega
    have hend : l.len - 1 = before.length + d.cursor.after.length := by omega
    have hshows : Shows { l with buf := b2, pos := l.pos - 1, len := l.len - 1 }
        { d with cursor := d.cursor.backspace } := by
      rw [hcursor]
      apply h.change _ hb2 hsize
      · exact hbehind.symm
      · rw [Cursor.length_text]
        exact hend.symm
    obtain ⟨l', hrefresh, hmoves⟩ := redraw (l := l) hw hshows rfl rfl
    refine ⟨l', ?_, hmoves⟩
    rw [← hrefresh, if_pos ⟨by omega, by omega⟩, hcount, hbehind]
    rw [hpos, moveBytes_of hmove, modify_bind, hend, storeByte_of hstore]
    simp only [hpos, Nat.add_sub_cancel]

/-- The text is cut off. -/
theorem cutAt_moves (hw : 32 ≤ w) (h : Shows l d) {x y : List UInt8} (htext : d.text = x ++ y) :
    ∃ l', cutAt x.length l = .ok () l' ∧ Moves l d l' { d with cursor := .atEnd x } := by
  obtain ⟨rest, hbytes⟩ := h.text
  have hsplit : l.buf.bytes = x ++ (y ++ 0 :: rest) := by simp [hbytes, htext]
  obtain ⟨b1, hstore, hb1⟩ := Buffer.store_append (c := 0) hsplit rfl (by simp)
  have hshows : Shows { l with buf := b1, pos := x.length, len := x.length }
      { d with cursor := .atEnd x } := by
    apply h.change ((y ++ 0 :: rest).drop 1) _ (size_memcpy hstore)
    · rfl
    · rw [Cursor.text_atEnd]
    · rw [Cursor.text_atEnd]
      exact hb1
  obtain ⟨l', hrefresh, hmoves⟩ := redraw (l := l) hw hshows rfl rfl
  refine ⟨l', ?_, hmoves⟩
  unfold cutAt
  rw [storeByte_of hstore, modify_bind]
  exact hrefresh

theorem transposeChars_moves (hw : 32 ≤ w) (h : Shows l d) :
    ∃ l', transposeChars l = .ok () l' ∧ Moves l d l' { d with cursor := d.cursor.transpose } := by
  obtain ⟨rest, hbytes⟩ := h.text
  have hpos := h.pos
  have hlen := h.len
  rw [Draft.text, Cursor.length_text] at hlen
  unfold transposeChars
  rw [get_bind]
  rcases hd : d.cursor with ⟨before, after⟩
  rw [hd] at hpos hlen
  simp only at hpos hlen
  rcases List.eq_nil_or_concat before with rfl | ⟨front, a, rfl⟩
  · have hsame : (⟨[], after⟩ : Cursor UInt8).transpose = d.cursor := by
      rw [hd]
      rcases after with _ | ⟨b, _ | ⟨b', behind⟩⟩ <;> rfl
    rw [List.length_nil] at hpos
    rw [if_neg (by omega), hsame]
    exact ⟨l, rfl, .refl h⟩
  rcases after with _ | ⟨b, behind⟩
  · have hsame : (⟨front.concat a, []⟩ : Cursor UInt8).transpose = d.cursor := by
      rw [hd, Cursor.transpose]
      simp
    rw [List.length_nil] at hlen
    rw [if_neg (by omega), hsame]
    exact ⟨l, rfl, .refl h⟩
  rw [List.concat_eq_append] at hd hpos hlen ⊢
  rw [List.length_append, List.length_singleton] at hpos hlen
  rw [List.length_cons] at hlen
  have hfront : l.pos - 1 = front.length := by omega
  have hsplit : l.buf.bytes = front ++ (a :: b :: behind ++ 0 :: rest) := by
    simp [hbytes, Draft.text, Cursor.text, hd]
  have hfirst : l.buf.load (l.pos - 1) = some a := by
    rw [hfront]
    exact load_append hsplit
  have hsecond : l.buf.load l.pos = some b := by
    have hafter : l.buf.bytes = (front ++ [a]) ++ b :: (behind ++ 0 :: rest) := by simp [hsplit]
    rw [hpos, ← List.length_singleton (a := a), ← List.length_append]
    exact load_append hafter
  obtain ⟨b1, hstore1, hb1⟩ := Buffer.store_append (c := b) hsplit hfront.symm (Nat.succ_pos _)
  have hb1' : b1.bytes = (front ++ [b]) ++ (b :: behind ++ 0 :: rest) := by simpa using hb1
  obtain ⟨b2, hstore2, hb2⟩ := Buffer.store_append (p := l.pos) (c := a) hb1' (by simp [hpos])
    (Nat.succ_pos _)
  rw [if_pos ⟨by omega, by omega⟩, defined_bind hfirst, defined_bind hsecond, storeByte_of hstore1,
    storeByte_of hstore2]
  rcases behind with _ | ⟨b', behind⟩
  · rw [List.length_nil] at hlen
    rw [if_neg (by omega)]
    have hcursor : (⟨front ++ [a], [b]⟩ : Cursor UInt8).transpose = ⟨front ++ [b], [a]⟩ := by
      simp [Cursor.transpose]
    have hshows : Shows { l with buf := b2 } { d with cursor := ⟨front ++ [b], [a]⟩ } := by
      apply h.change (p := l.pos) (n := l.len) rest _
        ((size_memcpy hstore2).trans (size_memcpy hstore1))
      · simp [hpos]
      · simp [Cursor.text, hlen]
      · simpa [Cursor.text] using hb2
    rw [hcursor]
    exact redraw hw hshows rfl rfl
  · rw [List.length_cons] at hlen
    rw [if_pos (by omega)]
    have hcursor : (⟨front ++ [a], b :: b' :: behind⟩ : Cursor UInt8).transpose =
        ⟨front ++ [b, a], b' :: behind⟩ := by
      simp [Cursor.transpose]
    have hshows : Shows { l with buf := b2, pos := l.pos + 1 }
        { d with cursor := ⟨front ++ [b, a], b' :: behind⟩ } := by
      apply h.change (p := l.pos + 1) (n := l.len) rest _
        ((size_memcpy hstore2).trans (size_memcpy hstore1))
      · simp [hpos]
      · simp [Cursor.text, hlen]
        omega
      · simpa [Cursor.text] using hb2
    rw [hcursor]
    exact redraw hw hshows rfl rfl

/-- The loops that look for the start of a word. -/
theorem skipBack_eq {buf : Buffer w} {x y : List UInt8} {p : UInt8 → Bool}
    (hbytes : buf.bytes = x ++ y) : skipBack p buf x.length = some (x.rdropWhile p).length := by
  induction x using List.reverseRecOn generalizing y with
  | nil => rfl
  | append_singleton x c ih =>
    have hload : buf.load x.length = some c := load_append (by simpa using hbytes)
    rw [List.length_append, List.length_singleton, skipBack, hload]
    simp only [Option.bind_eq_bind, Option.bind_some]
    by_cases hp : p c
    · rw [if_pos hp, List.rdropWhile_concat_pos _ _ _ hp]
      exact ih (by simpa using hbytes)
    · rw [if_neg hp, List.rdropWhile_concat_neg _ _ _ hp, List.length_append, List.length_singleton]

theorem deletePrevWord_moves (hw : 32 ≤ w) (h : Shows l d) :
    ∃ l', linenoiseEditDeletePrevWord l = .ok () l' ∧
      Moves l d l' { d with cursor := d.cursor.deleteWord (· = 32) } := by
  obtain ⟨rest, hbytes⟩ := h.text
  have hpos := h.pos
  have hlen := h.len
  have hmax := l.buf.size_le
  have hlt := h.len_lt
  rw [Draft.text, Cursor.length_text] at hlen
  obtain ⟨blanks, hblanks⟩ := List.rdropWhile_prefix (fun c => c = 32) d.cursor.before
  obtain ⟨word, hword⟩ := List.rdropWhile_prefix (fun c => c ≠ 32)
    (d.cursor.before.rdropWhile fun c => c = 32)
  obtain ⟨x, hx⟩ : ∃ x, x = (d.cursor.before.rdropWhile fun c => c = 32).rdropWhile
    fun c => c ≠ 32 := ⟨_, rfl⟩
  have hcursor : d.cursor.deleteWord (· = 32) = ⟨x, d.cursor.after⟩ := by
    simp [Cursor.deleteWord, hx]
  have hbefore : d.cursor.before = x ++ (word ++ blanks) := by
    rw [← hblanks, ← hword, hx, List.append_assoc]
  have hlonger : d.cursor.before.length = x.length + (word ++ blanks).length := by
    rw [hbefore, List.length_append]
  have hsplit : l.buf.bytes = d.cursor.before ++ (d.cursor.after ++ 0 :: rest) := by
    simp [hbytes, Draft.text, Cursor.text]
  have hword' : l.buf.bytes = (d.cursor.before.rdropWhile fun c => c = 32) ++
      (blanks ++ (d.cursor.after ++ 0 :: rest)) := by
    rw [hsplit, ← List.append_assoc _ blanks, hblanks]
  have hskip1 : skipBack (· = 32) l.buf l.pos =
      some (d.cursor.before.rdropWhile fun c => c = 32).length := by
    rw [hpos]
    exact skipBack_eq hsplit
  have hskip2 := skipBack_eq (p := (· ≠ 32)) hword'
  rw [← hx] at hskip2
  have hmoved : l.buf.bytes = x ++ (word ++ blanks ++ (d.cursor.after ++ 0 :: rest)) := by
    rw [hsplit, hbefore]
    simp
  have hsize : l.buf.size = d.cursor.before.length + (d.cursor.after.length + (rest.length + 1)) := by
    rw [Buffer.size, hsplit]
    simp
  have hcount : sizeDiff w (l.len + 1) l.pos = d.cursor.after.length + 1 := by
    rw [sizeDiff_of_le (by omega) (by omega)]
    omega
  have hdiff : sizeDiff w l.len (sizeDiff w l.pos x.length) = x.length + d.cursor.after.length := by
    rw [sizeDiff_of_le (a := l.pos) (by omega) (by omega), sizeDiff_of_le (by omega) (by omega)]
    omega
  obtain ⟨b1, hmove, hb1⟩ := exists_memmove (p := x.length)
    (n := d.cursor.after.length + 1) l.pos hmoved rfl (by omega) (by simp; omega)
  have htaken : (l.buf.bytes.drop l.pos).take (d.cursor.after.length + 1) =
      d.cursor.after ++ [0] := by
    rw [hsplit, hpos, List.drop_left]
    have hnul : d.cursor.after ++ 0 :: rest = (d.cursor.after ++ [0]) ++ rest := by simp
    rw [hnul]
    exact List.take_left' (by simp)
  have hshows : Shows { l with buf := b1, pos := x.length, len := x.length + d.cursor.after.length }
      { d with cursor := d.cursor.deleteWord (· = 32) } := by
    have hb1' : b1.bytes = (x ++ d.cursor.after) ++
        0 :: (word ++ blanks ++ (d.cursor.after ++ 0 :: rest)).drop (d.cursor.after.length + 1) := by
      rw [hb1, htaken, ← List.append_assoc x, List.append_assoc (x ++ d.cursor.after)]
      rfl
    rw [hcursor]
    exact h.change (c := ⟨x, d.cursor.after⟩) _ hb1' (size_memmove hmove) rfl (Cursor.length_text _)
  obtain ⟨l', hrefresh, hmoves⟩ := redraw (l := l) hw hshows rfl rfl
  refine ⟨l', ?_, hmoves⟩
  unfold linenoiseEditDeletePrevWord
  rw [get_bind, defined_bind hskip1, defined_bind hskip2, modify_bind, hcount,
    moveBytes_of (l := { l with pos := x.length }) hmove, modify_bind, hdiff]
  exact hrefresh

end NervesInitramfs.Linenoise
