import NervesInitramfs.CLib.Proofs.CNumberProofs
import NervesInitramfs.CLib.Proofs.CStringProofs
import NervesInitramfs.Linenoise.Draft

/-!
# Proofs: the line on the screen

When the prompt leaves a column, the loops of `refreshSingleLine` end with the part of the line around
the cursor that fits. When it does not, the lengths wrap around.
-/

namespace NervesInitramfs.Linenoise

open CLib

variable {w : Nat}

/-! ## The loops -/

theorem sizeDiff_of_le {a b : Nat} (hb : b ≤ a) (ha : a - b ≤ ptrdiffMax w) :
    sizeDiff w a b = a - b := by
  have hcast : (a : Int) - b = (a - b : Nat) := by omega
  rw [sizeDiff, hcast, sizeOfDiff_natCast ha]

theorem two_ptrdiffMax_lt (hw : 0 < w) : 2 * ptrdiffMax w < 2 ^ w := by
  obtain ⟨u, rfl⟩ : ∃ u, w = u + 1 := ⟨w - 1, by omega⟩
  have hpos : 0 < 2 ^ u := Nat.two_pow_pos u
  unfold ptrdiffMax
  rw [Nat.add_sub_cancel, Nat.pow_succ]
  omega

/-- Subtraction of a `size_t` agrees with that of the integer that it stands for. -/
theorem sizeDiff_sizeOfDiff (n : Int) : sizeDiff w (sizeOfDiff w n) 1 = sizeOfDiff w (n - 1) := by
  have hnonneg : 0 ≤ n % (2 ^ w : Int) := Int.emod_nonneg _ (by positivity)
  unfold sizeDiff sizeOfDiff
  rw [Int.toNat_of_nonneg hnonneg, Nat.cast_one, Int.emod_sub_emod]

theorem add_sizeOfDiff {a : Nat} {n : Int} (hlow : 0 ≤ a + n) (hhigh : a + n < 2 ^ w) :
    (a + sizeOfDiff w n) % 2 ^ w = (a + n).toNat := by
  have hnonneg : 0 ≤ n % (2 ^ w : Int) := Int.emod_nonneg _ (by positivity)
  apply Int.ofNat_inj.mp
  unfold sizeOfDiff
  rw [Int.toNat_of_nonneg hlow, Int.natCast_mod, Nat.cast_add, Int.toNat_of_nonneg hnonneg,
    Nat.cast_pow, Nat.cast_ofNat, Int.add_emod_emod, Int.emod_eq_of_lt hlow hhigh]

/-- The cursor is moved in front of the last column. It becomes negative when the prompt fills the
columns. -/
theorem scroll_eq {plen cols steps b k : Nat} {len pos : Int} (hcols : 0 < cols)
    (hlow : 0 ≤ plen + pos) (hhigh : plen + pos < 2 ^ w) (hk : k = (plen + pos + 1 - cols).toNat)
    (hsteps : k ≤ steps) :
    scroll w plen cols steps ⟨b, sizeOfDiff w len, sizeOfDiff w pos⟩ =
      some ⟨b + k, sizeOfDiff w (len - k), sizeOfDiff w (pos - k)⟩ := by
  induction steps generalizing b k len pos with
  | zero =>
    obtain rfl : k = 0 := by omega
    rw [scroll, add_sizeOfDiff hlow hhigh, if_pos (by omega)]
    simp
  | succ steps ih =>
    rw [scroll, add_sizeOfDiff hlow hhigh]
    by_cases hseen : (plen + pos).toNat < cols
    · obtain rfl : k = 0 := by omega
      rw [if_pos hseen]
      simp
    · obtain ⟨k', rfl⟩ : ∃ k', k = k' + 1 := ⟨k - 1, by omega⟩
      rw [if_neg hseen, sizeDiff_sizeOfDiff, sizeDiff_sizeOfDiff,
        ih (by omega) (by omega) (k := k') (by omega) (by omega)]
      simp only [Nat.cast_add, Nat.cast_one, Option.some.injEq, Window.mk.injEq]
      refine ⟨by omega, ?_, ?_⟩
      · congr 1
        omega
      · congr 1
        omega

/-- The end of the line is left out when it does not fit. -/
theorem shorten_eq {plen cols steps : Nat} {len : Int} (hlow : 0 ≤ plen + len)
    (hhigh : plen + len < 2 ^ w) (hsteps : (plen + len - cols).toNat ≤ steps) :
    shorten w plen cols steps (sizeOfDiff w len) = some (sizeOfDiff w (min len (cols - plen))) := by
  induction steps generalizing len with
  | zero =>
    rw [shorten, add_sizeOfDiff hlow hhigh, if_pos (by omega), min_eq_left (by omega)]
  | succ steps ih =>
    rw [shorten, add_sizeOfDiff hlow hhigh]
    by_cases hseen : (plen + len).toNat ≤ cols
    · rw [if_pos hseen, min_eq_left (by omega)]
    · rw [if_neg hseen, sizeDiff_sizeOfDiff, ih (by omega) (by omega) (by omega),
        min_eq_right (by omega), min_eq_right (by omega)]

/-! ## What is written -/

theorem ptrdiffMax_ge (hw : 32 ≤ w) : 2 ^ 31 - 1 ≤ ptrdiffMax w := by
  have hle : 2 ^ 31 ≤ 2 ^ (w - 1) := Nat.pow_le_pow_right (by decide) (by omega)
  unfold ptrdiffMax
  omega

theorem abAppend_eq (hw : 32 ≤ w) {ab s : List UInt8} {n : Nat} (hn : n ≤ s.length)
    (hfits : ab.length + n < 2 ^ 31) : abAppend w ab s n = some (ab ++ s.take n) := by
  have hmax := ptrdiffMax_ge hw
  have hsum : ((ab.length : Int) + n) = (ab.length + n : Nat) := by omega
  have hsize : sizeOfDiff w ((ab.length : Int) + n) = ab.length + n := by
    rw [hsum, sizeOfDiff_natCast (by omega)]
  have hcount : sizeOfDiff w (n : Int) = n := sizeOfDiff_natCast (by omega)
  unfold abAppend
  simp only [hsize, hcount]
  rw [if_neg (by omega)]
  by_cases hzero : ab.length + n = 0
  · obtain rfl : ab = [] := List.length_eq_zero_iff.mp (by omega)
    obtain rfl : n = 0 := by omega
    rw [if_pos hzero]
    rfl
  · rw [if_neg hzero, if_neg (by omega), if_pos hn]

theorem abAppend_whole (hw : 32 ≤ w) {ab s : List UInt8} (hfits : ab.length + s.length < 2 ^ 31) :
    abAppend w ab s s.length = some (ab ++ s) := by
  rw [abAppend_eq hw (Nat.le_refl _) hfits, List.take_length]

theorem toInt_toInt32_of_lt {n : Nat} (h : n < 2 ^ 31) : (toInt32 n).toInt = n := by
  unfold toInt32
  rw [Int32.toInt_ofInt_of_le (by omega) (by omega)]

theorem decimalInt_natCast (n : Nat) : decimalInt n = decimal n := by
  rw [decimalInt, if_neg (by omega), Int.natAbs_natCast]

theorem length_decimalInt_le (i : Int32) : (decimalInt i.toInt).length ≤ 11 := by
  have hlow := i.le_toInt
  have hhigh := i.toInt_lt
  have hdigits : (decimal i.toInt.natAbs).length ≤ 10 := length_decimal_le (by omega)
  unfold decimalInt
  split
  · rw [List.length_cons]
    omega
  · omega

/-- The parts of the line fit into the `int` that counts them. -/
theorem singleLine_some (hw : 32 ≤ w) {l : Editor w} {k n p : Nat}
    (hn : n ≤ (l.buf.bytes.drop k).length) (hfits : l.prompt.strlen + n + 64 ≤ 2 ^ 31) :
    singleLine l ⟨k, n, p⟩ = some ((CString.ofString "\r").bytes ++ l.prompt.bytes ++
      (l.buf.bytes.drop k).take n ++ (CString.ofString "\x1b[0K").bytes ++
      ((CString.ofString "\r\x1b[").bytes ++
        decimalInt (toInt32 ((p + l.prompt.strlen) % 2 ^ w)).toInt ++
        (CString.ofString "C").bytes)) := by
  have hcr : (CString.ofString "\r").bytes.length = 1 := rfl
  have hel : (CString.ofString "\x1b[0K").bytes.length = 4 := rfl
  have hcsi : (CString.ofString "\r\x1b[").bytes.length = 3 := rfl
  have hc : (CString.ofString "C").bytes.length = 1 := rfl
  have hdigits := length_decimalInt_le (toInt32 ((p + l.prompt.strlen) % 2 ^ w))
  have hprompt : l.prompt.strlen = l.prompt.bytes.length := rfl
  have htaken := List.length_take_le n (l.buf.bytes.drop k)
  have hsmall : n < 2 ^ 31 := by omega
  rw [hprompt] at hdigits ⊢
  rw [singleLine]
  simp only [Option.bind_eq_bind, hprompt, toInt_toInt32_of_lt hsmall]
  rw [abAppend_whole hw (by rw [hcr, List.length_nil]; omega), Option.bind_some, List.nil_append,
    abAppend_whole hw (by rw [hcr]; omega), Option.bind_some,
    abAppend_eq hw hn (by rw [List.length_append, hcr]; omega), Option.bind_some,
    abAppend_whole hw (by simp only [List.length_append, hcr, hel]; omega), Option.bind_some,
    abAppend_whole hw (by simp only [List.length_append, hcr, hel, hcsi, hc]; omega)]

/-- The bytes that are shown are those of the window. -/
theorem text_window (c : Cursor UInt8) {room : Nat} (hroom : 0 < room) :
    (c.text.drop (c.before.length + 1 - room)).take
      (min (c.text.length - (c.before.length + 1 - room)) room) = (window room c).text := by
  have hlen := c.length_text
  have hdrop : c.text.drop (c.before.length + 1 - room) =
      c.before.drop (c.before.length + 1 - room) ++ c.after :=
    List.drop_append_of_le_length (by omega)
  rw [hdrop, List.take_append]
  unfold window Cursor.text
  simp only [List.length_drop, List.length_append]
  rw [List.take_of_length_le (by rw [List.length_drop]; omega)]
  by_cases hall : c.before.length + c.after.length - (c.before.length + 1 - room) ≤ room
  · rw [Nat.min_eq_left hall, List.take_of_length_le (by omega), List.take_of_length_le (by omega)]
  · rw [Nat.min_eq_right (by omega)]

theorem length_window_before (c : Cursor UInt8) (room : Nat) :
    (window room c).before.length = c.before.length - (c.before.length + 1 - room) := by
  rw [window, List.length_drop]

/-- The window is no wider than the room that there is. -/
theorem length_window_le (c : Cursor UInt8) {room : Nat} (hroom : 0 < room) :
    (window room c).text.length ≤ room := by
  rw [Cursor.length_text, length_window_before]
  unfold window
  simp only [List.length_take, List.length_drop]
  omega

section

variable {l : Editor w} {d : Draft}

theorem Shows.len_lt (h : Shows l d) : l.len < l.buf.bytes.length := by
  obtain ⟨rest, hbytes⟩ := h.text
  rw [hbytes, h.len, List.length_append, List.length_cons]
  omega

theorem Shows.pos_le (h : Shows l d) : l.pos ≤ l.len := by
  rw [h.pos, h.len, Draft.text, Cursor.length_text]
  exact Nat.le_add_right _ _

/-- What is written is the frame of the draft. -/
theorem singleLine_eq (hw : 32 ≤ w) (h : Shows l d) :
    singleLine l ⟨l.prompt.strlen + l.pos + 1 - l.cols,
      min (l.len - (l.prompt.strlen + l.pos + 1 - l.cols)) (l.cols - l.prompt.strlen),
      l.pos - (l.prompt.strlen + l.pos + 1 - l.cols)⟩ = some (frame l.prompt l.cols d.cursor) := by
  obtain ⟨rest, hbytes⟩ := h.text
  have hwide := h.wide
  have hcols := h.cols
  have hpos := h.pos_le
  obtain ⟨room, hroom⟩ : ∃ room, room = l.cols - l.prompt.strlen := ⟨_, rfl⟩
  have hk : l.prompt.strlen + l.pos + 1 - l.cols = d.cursor.before.length + 1 - room := by
    rw [h.pos]
    omega
  have hseen : (window room d.cursor).text.length ≤ room := length_window_le d.cursor (by omega)
  have hbefore := length_window_before d.cursor room
  have hcursor : (window room d.cursor).before.length + l.prompt.strlen < l.cols := by omega
  have hshown : (l.buf.bytes.drop (d.cursor.before.length + 1 - room)).take
      (min (l.len - (d.cursor.before.length + 1 - room)) room) = (window room d.cursor).text := by
    rw [hbytes, h.len, ← text_window d.cursor (by omega)]
    have hle := h.len
    rw [List.drop_append_of_le_length (by rw [h.pos] at hpos; omega),
      List.take_append_of_le_length (by rw [List.length_drop]; exact Nat.min_le_left _ _)]
    rfl
  have hseenlen : min (l.len - (d.cursor.before.length + 1 - room)) room ≤
      (l.buf.bytes.drop (d.cursor.before.length + 1 - room)).length := by
    have hlt := h.len_lt
    rw [List.length_drop]
    omega
  have hcol : (l.pos - (d.cursor.before.length + 1 - room) + l.prompt.strlen) % 2 ^ w =
      (window room d.cursor).before.length + l.prompt.strlen := by
    have hpow : 2 ^ 32 ≤ 2 ^ w := Nat.pow_le_pow_right (by decide) hw
    rw [hbefore, ← h.pos]
    apply Nat.mod_eq_of_lt
    rw [hbefore, ← h.pos] at hcursor
    omega
  rw [hk, ← hroom, singleLine_some hw hseenlen (by omega), hshown, hcol,
    toInt_toInt32_of_lt (by omega), decimalInt_natCast, frame, ← hroom]

/-- The line is written again, whatever has been on the screen. -/
theorem refreshSingleLine_eq (hw : 32 ≤ w) (h : Shows l d) :
    refreshSingleLine l = .ok () { l with
      writes := l.writes.tail
      written := l.written ++ [frame l.prompt l.cols d.cursor] } := by
  have hmax := ptrdiffMax_ge hw
  have htwo := two_ptrdiffMax_lt (w := w) (by omega)
  have hlt := h.len_lt
  have hsize := l.buf.size_le
  have hwide := h.wide
  have hcols := h.cols
  have hpos := h.pos_le
  obtain ⟨k, hk⟩ : ∃ k, k = l.prompt.strlen + l.pos + 1 - l.cols := ⟨_, rfl⟩
  have hlen : sizeOfDiff w (l.len : Int) = l.len := sizeOfDiff_natCast (by omega)
  have hposition : sizeOfDiff w (l.pos : Int) = l.pos := sizeOfDiff_natCast (by omega)
  have hlenk : (l.len : Int) - k = (l.len - k : Nat) := by omega
  have hposk : (l.pos : Int) - k = (l.pos - k : Nat) := by omega
  have hlen' : sizeOfDiff w ((l.len : Int) - k) = l.len - k := by
    rw [hlenk, sizeOfDiff_natCast (by omega)]
  have hposition' : sizeOfDiff w ((l.pos : Int) - k) = l.pos - k := by
    rw [hposk, sizeOfDiff_natCast (by omega)]
  have htwo' : 2 * (ptrdiffMax w : Int) < 2 ^ w := by exact_mod_cast htwo
  have hscroll : scroll w l.prompt.strlen l.cols (l.prompt.strlen + l.pos + 1)
      ⟨0, sizeOfDiff w l.len, sizeOfDiff w l.pos⟩ =
      some ⟨0 + k, sizeOfDiff w ((l.len : Int) - k), sizeOfDiff w ((l.pos : Int) - k)⟩ :=
    scroll_eq (by omega) (by omega) (by omega) (by omega) (by omega)
  have hshorten : shorten w l.prompt.strlen l.cols (l.prompt.strlen + (l.len - k) + 1)
      (sizeOfDiff w ((l.len : Int) - k)) =
      some (sizeOfDiff w (min ((l.len : Int) - k) (l.cols - l.prompt.strlen))) :=
    shorten_eq (by omega) (by omega) (by omega)
  have hmin : min ((l.len : Int) - k) (l.cols - l.prompt.strlen) =
      (min (l.len - k) (l.cols - l.prompt.strlen) : Nat) := by omega
  rw [hlen, hposition, hlen', hposition', Nat.zero_add] at hscroll
  rw [hlen', hmin, sizeOfDiff_natCast (by omega)] at hshorten
  subst hk
  unfold refreshSingleLine
  rw [bind_of_ok (rfl : (get : Edit w (Editor w)) l = .ok l l)]
  simp only [hscroll, hshorten, singleLine_eq hw h]
  rfl

/-! ## A narrow terminal -/

/-- The conversion of a negative number to `size_t` and then to `int` leaves it as it is. -/
theorem toInt_toInt32_sizeOfDiff (hw : 32 ≤ w) {n : Int} (hlow : -2 ^ 31 ≤ n) (hhigh : n < 2 ^ 31) :
    (toInt32 (sizeOfDiff w n)).toInt = n := by
  have hnonneg : 0 ≤ n % (2 ^ w : Int) := Int.emod_nonneg _ (by positivity)
  have hdvd : ((2 ^ 32 : Nat) : Int) ∣ 2 ^ w := by exact_mod_cast pow_dvd_pow 2 hw
  have hbmod : (n % (2 ^ w : Int)).bmod (2 ^ 32) = n.bmod (2 ^ 32) := by
    rw [← Int.emod_bmod (n % _), ← Int.emod_bmod n, Int.emod_emod_of_dvd n hdvd]
  unfold toInt32 sizeOfDiff
  rw [Int32.toInt_ofInt, Int.toNat_of_nonneg hnonneg]
  change (n % (2 ^ w : Int)).bmod (2 ^ 32) = n
  rw [hbmod, Int.bmod_eq_of_le (by omega) (by omega)]

/-- A negative length makes `memcpy` read and write outside the objects. -/
theorem abAppend_negative (hw : 32 ≤ w) {ab s : List UInt8} {n : Int} (hneg : n < 0)
    (hab : 0 < ab.length + n) (hfits : ab.length < 2 ^ 31) (hs : s.length ≤ ptrdiffMax w) :
    abAppend w ab s n = none := by
  have hmax := ptrdiffMax_ge hw
  have htwo := two_ptrdiffMax_lt (w := w) (by omega)
  have hpow : 2 ^ 32 ≤ 2 ^ w := Nat.pow_le_pow_right (by decide) hw
  have hpow' : (2 ^ 32 : Int) ≤ 2 ^ w := by exact_mod_cast hpow
  have hsum : ((ab.length : Int) + n) = ((ab.length + n).toNat : Nat) := by omega
  have hsize : sizeOfDiff w ((ab.length : Int) + n) = (ab.length + n).toNat := by
    rw [hsum, sizeOfDiff_natCast (by omega), Int.toNat_natCast]
  have hcount : (sizeOfDiff w n : Int) = 2 ^ w + n := by
    unfold sizeOfDiff
    rw [← Int.add_emod_left, Int.emod_eq_of_lt (by omega) (by omega),
      Int.toNat_of_nonneg (by omega)]
  have htwo' : 2 * (ptrdiffMax w : Int) < 2 ^ w := by exact_mod_cast htwo
  unfold abAppend
  simp only [hsize]
  rw [if_neg (by omega), if_neg (by omega), if_neg (by omega), if_neg (by omega)]

/-- Without a column the first loop does not end. -/
theorem scroll_endless {plen steps : Nat} {v : Window} : scroll w plen 0 steps v = none := by
  induction steps generalizing v with
  | zero => rfl
  | succ steps ih =>
    rw [scroll, if_neg (Nat.not_lt_zero _)]
    exact ih

/-- The line can be shown exactly when the prompt leaves a column, or when it fills the columns and the
cursor is not behind the text. -/
theorem refreshSingleLine_iff (hw : 32 ≤ w) (hpos : l.pos ≤ l.len) (hlen : l.len < l.buf.size)
    (hprompt : l.prompt.strlen + 64 ≤ 2 ^ 31) (hcols : l.cols + 64 ≤ 2 ^ 31) :
    (∃ l', refreshSingleLine l = .ok () l') ↔
      l.prompt.strlen < l.cols ∨
        (l.prompt.strlen = l.cols ∧ 0 < l.cols ∧ l.pos < l.len) := by
  rcases Nat.eq_zero_or_pos l.cols with hzero | hpositive
  · have hrun : refreshSingleLine l = .error .endless l := by
      unfold refreshSingleLine
      rw [bind_of_ok (rfl : (get : Edit w (Editor w)) l = .ok l l)]
      simp only [hzero, scroll_endless]
      rfl
    constructor
    · rintro ⟨l', hok⟩
      rw [hrun] at hok
      cases hok
    · omega
  have hmax := ptrdiffMax_ge hw
  have htwo := two_ptrdiffMax_lt (w := w) (by omega)
  have htwo' : 2 * (ptrdiffMax w : Int) < 2 ^ w := by exact_mod_cast htwo
  have hsize := l.buf.size_le
  rw [Buffer.size] at hlen
  obtain ⟨k, hk⟩ : ∃ k, k = l.prompt.strlen + l.pos + 1 - l.cols := ⟨_, rfl⟩
  obtain ⟨n, hn⟩ : ∃ n, n = min ((l.len : Int) - k) (l.cols - l.prompt.strlen) := ⟨_, rfl⟩
  have hstart : (⟨0, l.len, l.pos⟩ : Window) =
      ⟨0, sizeOfDiff w (l.len : Int), sizeOfDiff w (l.pos : Int)⟩ := by
    rw [sizeOfDiff_natCast (by omega), sizeOfDiff_natCast (by omega)]
  have hscroll : scroll w l.prompt.strlen l.cols (l.prompt.strlen + l.pos + 1)
      ⟨0, sizeOfDiff w l.len, sizeOfDiff w l.pos⟩ =
      some ⟨0 + k, sizeOfDiff w ((l.len : Int) - k), sizeOfDiff w ((l.pos : Int) - k)⟩ :=
    scroll_eq hpositive (by omega) (by omega) (by omega) (by omega)
  have hleft : ((l.len : Int) - k).toNat ≤ sizeOfDiff w ((l.len : Int) - k) := by
    by_cases hk' : k ≤ l.len
    · have hcast : (l.len : Int) - k = (l.len - k : Nat) := by omega
      rw [hcast, sizeOfDiff_natCast (by omega), Int.toNat_natCast]
    · rw [Int.toNat_of_nonpos (by omega)]
      exact Nat.zero_le _
  have hshorten : shorten w l.prompt.strlen l.cols
      (l.prompt.strlen + sizeOfDiff w ((l.len : Int) - k) + 1) (sizeOfDiff w ((l.len : Int) - k)) =
      some (sizeOfDiff w (min ((l.len : Int) - k) (l.cols - l.prompt.strlen))) :=
    shorten_eq (by omega) (by omega) (by omega)
  have hrun : refreshSingleLine l = (do
      let ab ← defined (singleLine l ⟨0 + k, sizeOfDiff w n, sizeOfDiff w ((l.pos : Int) - k)⟩)
      let _ ← write ab) l := by
    unfold refreshSingleLine
    rw [bind_of_ok (rfl : (get : Edit w (Editor w)) l = .ok l l)]
    simp only [hstart, hscroll, hshorten, ← hn]
  by_cases hneg : n < 0
  · have hnone : singleLine l ⟨0 + k, sizeOfDiff w n, sizeOfDiff w ((l.pos : Int) - k)⟩ = none := by
      have hcr : (CString.ofString "\r").bytes.length = 1 := rfl
      have hplen : l.prompt.strlen = l.prompt.bytes.length := rfl
      rw [singleLine]
      simp only [Option.bind_eq_bind, hplen, toInt_toInt32_sizeOfDiff hw (n := n) (by omega) (by omega)]
      rw [abAppend_whole hw (by rw [hcr, List.length_nil]; omega), Option.bind_some, List.nil_append,
        abAppend_whole hw (by rw [hcr]; omega), Option.bind_some,
        abAppend_negative hw hneg (by rw [List.length_append, hcr]; omega)
          (by rw [List.length_append, hcr]; omega) (by rw [List.length_drop]; omega)]
      rfl
    rw [hnone] at hrun
    constructor
    · rintro ⟨l', hok⟩
      rw [hrun] at hok
      cases hok
    · omega
  · have hcast : n = (n.toNat : Nat) := by omega
    have hshown := singleLine_some (l := l) (k := 0 + k) (n := n.toNat)
      (p := sizeOfDiff w ((l.pos : Int) - k)) hw (by rw [List.length_drop]; omega) (by omega)
    rw [hcast, sizeOfDiff_natCast (by omega), hshown] at hrun
    constructor
    · intro _
      omega
    · intro _
      exact ⟨_, hrun⟩

end

/-- The cursor is behind the text on a terminal that the prompt of the REPL fills. -/
def narrowEditor : Editor 64 where
  buf := ⟨[97, 0], by decide⟩
  buflen := 1
  prompt := .ofString "nerves_initramfs> "
  pos := 1
  len := 1
  cols := 18
  historyIndex := 0
  history := .start
  reads := []
  writes := []
  written := []

theorem refreshSingleLine_iff_narrow : ¬ ∃ l', refreshSingleLine narrowEditor = .ok () l' := by
  have hiff := refreshSingleLine_iff (l := narrowEditor) (by decide) (by decide) (by decide)
    (by decide) (by decide)
  intro hok
  exact absurd (hiff.mp hok) (by decide)

end NervesInitramfs.Linenoise
