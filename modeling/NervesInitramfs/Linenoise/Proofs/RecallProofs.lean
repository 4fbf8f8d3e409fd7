import NervesInitramfs.Linenoise.Proofs.EditProofs

/-!
# Proofs: older and newer lines

The text goes into the history before another line takes its place. A line that is too long for the
buffer is cut off.
-/

namespace NervesInitramfs.Linenoise

open CLib

variable {w : Nat} {l l' : Editor w} {d d' : Draft} {h h' : History}

/-! ## Strings in the buffer -/

/-- The string at the start of the buffer is the text up to its first NUL. -/
theorem exists_string (text rest : List UInt8) :
    ∃ r, text ++ 0 :: rest = (CString.ofBytes text).bytes ++ 0 :: r := by
  induction text with
  | nil => exact ⟨rest, rfl⟩
  | cons c text ih =>
    by_cases hc : c = 0
    · subst hc
      exact ⟨text ++ 0 :: rest, rfl⟩
    · obtain ⟨r, hr⟩ := ih
      refine ⟨r, ?_⟩
      have hmore : (CString.ofBytes (c :: text)).bytes = c :: (CString.ofBytes text).bytes := by
        unfold CString.ofBytes
        exact List.takeWhile_cons_of_pos (p := fun x => decide (x ≠ 0)) (decide_eq_true hc)
      rw [hmore, List.cons_append, List.cons_append, hr]

/-- A string at the start of the buffer. -/
theorem strlenAt_zero {buf : Buffer w} {str rest : List UInt8} (h : buf.bytes = str ++ 0 :: rest)
    (hstr : (0 : UInt8) ∉ str) : strlenAt buf 0 = some str.length := by
  have hbytes : buf.bytes = [] ++ (str ++ 0 :: rest) := h
  exact strlenAt_eq hbytes hstr

theorem strlenAt_text {buf : Buffer w} {text rest : List UInt8}
    (hbytes : buf.bytes = text ++ 0 :: rest) :
    strlenAt buf 0 = some (CString.ofBytes text).strlen := by
  obtain ⟨r, hr⟩ := exists_string text rest
  exact strlenAt_zero (hbytes.trans hr) (CString.ofBytes text).nulFree

theorem strndup_text {buf : Buffer w} {text rest : List UInt8}
    (hbytes : buf.bytes = text ++ 0 :: rest) :
    strndup buf.bytes (CString.ofBytes text).strlen = .ofBytes text := by
  obtain ⟨r, hr⟩ := exists_string text rest
  rw [hbytes, hr]
  exact strndup_prefix _ _

/-- A line is copied into the buffer, as much of it as fits. -/
theorem exists_strncpy (hs : Shows l d) (line : CString) :
    ∃ b1 b2 r, strncpy l.buf line l.buflen = some b1 ∧ b1.store (l.buflen - 1) 0 = some b2 ∧
      b2.bytes = line.bytes.take (l.buflen - 1) ++ 0 :: r ∧ b2.size = l.buf.size := by
  obtain ⟨n, hn⟩ : ∃ n, l.buflen = n + 1 := ⟨l.buflen - 1, by have := hs.room; omega⟩
  have hsize := hs.size
  rw [Buffer.size] at hsize
  obtain ⟨src, hsrc⟩ : ∃ src, src =
    line.bytes.take l.buflen ++ List.replicate (l.buflen - line.strlen) 0 := ⟨_, rfl⟩
  have hlen : src.length = l.buflen := by
    rw [hsrc, CString.strlen, List.length_append, List.length_take, List.length_replicate]
    omega
  have hcut : src.take n = line.bytes.take n ++ List.replicate (n - line.strlen) 0 := by
    rw [hsrc, hn, CString.strlen, List.take_append, List.take_take, List.take_replicate,
      List.length_take, Nat.min_eq_left (Nat.le_succ n)]
    congr 2
    omega
  obtain ⟨b1, hcopy, hb1⟩ := Buffer.memcpy_append (b := l.buf) (a := []) (r := l.buf.bytes) (p := 0)
    src rfl rfl (by omega)
  have hb1' : b1.bytes = src.take n ++ (src.drop n ++ l.buf.bytes.drop src.length) := by
    rw [hb1, List.nil_append, ← List.append_assoc, List.take_append_drop]
  obtain ⟨b2, hstore, hb2⟩ := Buffer.store_append (p := n) (c := 0) hb1'
    (by rw [List.length_take]; omega) (by rw [List.length_append, List.length_drop]; omega)
  have hnul : ∀ (k : Nat) (r : List UInt8), ∃ r', List.replicate k 0 ++ 0 :: r = 0 :: r' := by
    intro k r
    rcases k with _ | k
    · exact ⟨r, rfl⟩
    · exact ⟨List.replicate k 0 ++ 0 :: r, rfl⟩
  obtain ⟨r, hr⟩ := hnul (n - line.strlen) ((src.drop n ++ l.buf.bytes.drop src.length).drop 1)
  have hn' : l.buflen - 1 = n := by omega
  rw [hn']
  have hstrncpy : strncpy l.buf line l.buflen = some b1 := by rw [strncpy, ← hsrc, hcopy]
  refine ⟨b1, b2, r, hstrncpy, hstore, ?_, (size_memcpy hstore).trans (size_memcpy hcopy)⟩
  rw [hb2, hcut, List.append_assoc, hr]

/-! ## The history -/

theorem Shows.keep (hs : Shows l d) :
    ∃ h', strlenAt l.buf 0 = some (CString.ofBytes d.text).strlen ∧
      l.history.storeLine w ((l.history.historyLen : Int) - 1 - l.historyIndex)
        (strndup l.buf.bytes (CString.ofBytes d.text).strlen) = some h' ∧
      h'.historyMaxLen = l.history.historyMaxLen ∧ Keeps w h' d.kept.lines := by
  obtain ⟨rest, hbytes⟩ := hs.text
  have hfits : (CString.ofBytes d.text).strlen + 1 ≤ ptrdiffMax w := by
    obtain ⟨r, hr⟩ := exists_string d.text rest
    have hsize := l.buf.size_le
    rw [hbytes, hr, List.length_append, List.length_cons] at hsize
    rw [CString.strlen]
    omega
  obtain ⟨h', hstore, hlimit, hk⟩ := Keeps.storeLine hs.history hfits
  have hslot : (l.history.historyLen : Int) - 1 - l.historyIndex = d.older.length := by
    rw [hs.history.len, hs.index, Draft.lines, List.length_append, List.length_cons]
    omega
  rw [hslot, strndup_text hbytes]
  exact ⟨h', strlenAt_text hbytes, hstore, hlimit, hk⟩

/-- Another line is shown, which is in the history. -/
theorem recall_moves (hw : 32 ≤ w) (hs : Shows l d) {line : CString} {older newer : List CString}
    (hk : Keeps w h' (older ++ line :: newer))
    (hlimit : h'.historyMaxLen = l.history.historyMaxLen) :
    ∃ b1 b2 l', strncpy l.buf line l.buflen = some b1 ∧ b1.store (l.buflen - 1) 0 = some b2 ∧
      strlenAt b2 0 = some (line.bytes.take (l.buflen - 1)).length ∧
      refreshSingleLine { l with
        buf := b2
        pos := (line.bytes.take (l.buflen - 1)).length
        len := (line.bytes.take (l.buflen - 1)).length
        historyIndex := newer.length
        history := h' } = .ok () l' ∧
      Moves l d l' ⟨Draft.fromHistory l.buflen line, older, line, newer⟩ := by
  obtain ⟨b1, b2, r, hcopy, hstore, hb2, hsize⟩ := exists_strncpy hs line
  have hshows : Shows { l with
      buf := b2
      pos := (line.bytes.take (l.buflen - 1)).length
      len := (line.bytes.take (l.buflen - 1)).length
      historyIndex := newer.length
      history := h' } ⟨Draft.fromHistory l.buflen line, older, line, newer⟩ := {
    text := ⟨r, by rw [Draft.text, Draft.fromHistory, Cursor.text_atEnd]; exact hb2⟩
    size := hsize.trans hs.size
    room := hs.room
    pos := rfl
    len := by rw [Draft.text, Draft.fromHistory, Cursor.text_atEnd]
    wide := hs.wide
    cols := hs.cols
    index := rfl
    history := hk }
  obtain ⟨l', hrefresh, hmoves⟩ := redraw (l := l) hw hshows rfl hlimit
  refine ⟨b1, b2, l', hcopy, hstore, ?_, hrefresh, hmoves⟩
  exact strlenAt_zero hb2 fun hin => line.nulFree (List.mem_of_mem_take hin)

/-- At the end of the history only the text is kept. -/
theorem kept_moves (hs : Shows l d) (hk : Keeps w h' d.kept.lines)
    (hlimit : h'.historyMaxLen = l.history.historyMaxLen) {i : Int} (hi : i = d.newer.length) :
    Moves l d { l with history := h', historyIndex := i } d.kept where
  shows := ⟨hs.text, hs.size, hs.room, hs.pos, hs.len, hs.wide, hs.cols, hi, hk⟩
  buflen := rfl
  prompt := rfl
  cols := rfl
  limit := hlimit
  reads := rfl
  writes := List.suffix_refl _
  drawn := ⟨[], (List.append_nil _).symm, .same⟩

/-- The common part of both directions: the line at the new index is shown. -/
theorem showLine_moves (hw : 32 ≤ w) (hs : Shows l d) {line : CString} {older newer : List CString}
    {index i : Int} (hk : Keeps w h' (older ++ line :: newer))
    (hlimit : h'.historyMaxLen = l.history.historyMaxLen) (hindex : index = newer.length)
    (hi : i = older.length) :
    ∃ l', (do
      let line ← defined (h'.line i)
      let buf ← defined (strncpy l.buf line l.buflen)
      modify fun l => { l with buf := buf, historyIndex := index }
      storeByte (sizeDiff w l.buflen 1) 0
      let n ← defined (strlenAt (← get).buf 0)
      modify fun l => { l with len := n, pos := n }
      refreshSingleLine : Edit w Unit) { l with history := h' } = .ok () l' ∧
      Moves l d l' ⟨Draft.fromHistory l.buflen line, older, line, newer⟩ := by
  obtain ⟨b1, b2, l', hcopy, hstore, hstrlen, hrefresh, hmoves⟩ := recall_moves hw hs hk hlimit
  have hroom := hs.room
  have hmax := l.buf.size_le
  have hsize := hs.size
  have hbuflen : sizeDiff w l.buflen 1 = l.buflen - 1 := by
    rw [Buffer.size] at hsize
    exact sizeDiff_of_le (by omega) (by omega)
  subst hindex hi
  refine ⟨l', ?_, hmoves⟩
  rw [defined_bind hk.line_eq, defined_bind hcopy, modify_bind, hbuflen,
    storeByte_of (l := { l with buf := b1, historyIndex := newer.length, history := h' }) hstore,
    get_bind, defined_bind hstrlen, modify_bind]
  exact hrefresh

theorem historyNext_older (hw : 32 ≤ w) (hs : Shows l d) :
    ∃ l', linenoiseEditHistoryNext true l = .ok () l' ∧
      Moves l d l' (d.apply l.buflen .older) := by
  have hlines := hs.history.len
  have hdlines : d.lines.length = d.older.length + (d.newer.length + 1) := by
    rw [Draft.lines, List.length_append, List.length_cons]
  have happly : d.apply l.buflen .older =
      if d.lines.length = 1 then d else d.goOlder l.buflen := rfl
  unfold linenoiseEditHistoryNext
  rw [get_bind, happly]
  by_cases hone : d.lines.length = 1
  · rw [if_pos hone, if_neg (by omega)]
    exact ⟨l, rfl, .refl hs⟩
  obtain ⟨h', hstrlen, hstore, hlimit, hk⟩ := hs.keep
  have hlen : h'.historyLen = d.lines.length := hk.len.trans (by simp [Draft.lines, Draft.kept])
  have hindex := hs.index
  rw [if_neg hone, if_pos (by omega), defined_bind hstrlen, defined_bind hstore, modify_bind]
  simp only [if_true]
  rcases List.eq_nil_or_concat d.older with hnil | ⟨older, line, holder⟩
  · have hgo : d.goOlder l.buflen = d.kept := by
      rw [Draft.goOlder, hnil]
      rfl
    rw [hnil, List.length_nil] at hdlines
    rw [if_neg (by omega), if_pos (by omega), hgo]
    exact ⟨_, rfl, kept_moves hs hk hlimit (by omega)⟩
  · have hgo : d.goOlder l.buflen =
        ⟨Draft.fromHistory l.buflen line, older, line, d.kept.here :: d.newer⟩ := by
      simp [Draft.goOlder, holder]
    have hk' : Keeps w h' (older ++ line :: (d.kept.here :: d.newer)) := by
      simpa [Draft.lines, Draft.kept, holder] using hk
    rw [holder, List.length_concat] at hdlines
    rw [if_neg (by omega), if_neg (by omega), hgo]
    exact showLine_moves hw hs hk' hlimit (by rw [hindex, List.length_cons]; omega) (by omega)

theorem historyNext_newer (hw : 32 ≤ w) (hs : Shows l d) :
    ∃ l', linenoiseEditHistoryNext false l = .ok () l' ∧
      Moves l d l' (d.apply l.buflen .newer) := by
  have hlines := hs.history.len
  have hdlines : d.lines.length = d.older.length + (d.newer.length + 1) := by
    rw [Draft.lines, List.length_append, List.length_cons]
  have happly : d.apply l.buflen .newer =
      if d.lines.length = 1 then d else d.goNewer l.buflen := rfl
  unfold linenoiseEditHistoryNext
  rw [get_bind, happly]
  by_cases hone : d.lines.length = 1
  · rw [if_pos hone, if_neg (by omega)]
    exact ⟨l, rfl, .refl hs⟩
  obtain ⟨h', hstrlen, hstore, hlimit, hk⟩ := hs.keep
  have hlen : h'.historyLen = d.lines.length := hk.len.trans (by simp [Draft.lines, Draft.kept])
  have hindex := hs.index
  rw [if_neg hone, if_pos (by omega), defined_bind hstrlen, defined_bind hstore, modify_bind]
  simp only [Bool.false_eq_true, if_false]
  rcases hnewer : d.newer with _ | ⟨line, newer⟩
  · have hgo : d.goNewer l.buflen = d.kept := by
      rw [Draft.goNewer, hnewer]
    rw [hnewer, List.length_nil] at hindex
    rw [if_pos (by omega), hgo]
    exact ⟨_, rfl, kept_moves hs hk hlimit (by rw [hnewer]; rfl)⟩
  · have hgo : d.goNewer l.buflen =
        ⟨Draft.fromHistory l.buflen line, d.older ++ [d.kept.here], line, newer⟩ := by
      rw [Draft.goNewer, hnewer]
    have hk' : Keeps w h' ((d.older ++ [d.kept.here]) ++ line :: newer) := by
      simpa [Draft.lines, Draft.kept, hnewer] using hk
    rw [hnewer, List.length_cons] at hindex hdlines
    rw [if_neg (by omega), if_neg (by omega), hgo]
    exact showLine_moves hw hs hk' hlimit (by omega)
      (by rw [List.length_append, List.length_singleton]; omega)

end NervesInitramfs.Linenoise
