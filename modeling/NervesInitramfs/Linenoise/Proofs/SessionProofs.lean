import NervesInitramfs.Linenoise.Proofs.KeyProofs

/-!
# Proofs: reading a line

The loop over the keys refines the edits of a draft. It gets to an end whatever the terminal sends, or
it waits for the terminal, and it never leaves the buffer or the history.
-/

namespace NervesInitramfs.Linenoise

open CLib

variable {w : Nat} {l l' l1 : Editor w} {d d1 last : Draft} {ending : Ending}

/-! ## Rounds -/

/-- No sequence ends the editing. -/
theorem ending_ofEscape (seq : List UInt8) : d.ending (.ofEscape seq) = none := by
  by_cases hmem : seq ∈ ([[91, 65], [91, 66], [91, 67], [91, 68], [91, 72], [91, 70], [91, 51, 126],
    [79, 72], [79, 70]] : List (List UInt8))
  · simp only [List.mem_cons, List.not_mem_nil, or_false] at hmem
    rcases hmem with rfl | rfl | rfl | rfl | rfl | rfl | rfl | rfl | rfl <;> rfl
  · rw [ofEscape_other hmem]
    rfl

theorem nextEscape_some {reads rest : List ReadResult} {command : Command}
    (h : nextEscape reads = some (command, rest)) :
    rest.length ≤ reads.length ∧ d.ending command = none := by
  rcases reads with _ | ⟨a, reads⟩
  · simp [nextEscape] at h
  rcases ha : a.value with _ | a'
  · simp only [nextEscape, ha, Option.some.injEq, Prod.mk.injEq] at h
    obtain ⟨rfl, rfl⟩ := h
    exact ⟨Nat.le_succ _, rfl⟩
  rcases reads with _ | ⟨b, reads⟩
  · simp [nextEscape, ha] at h
  rcases hb : b.value with _ | b'
  · simp only [nextEscape, ha, hb, Option.some.injEq, Prod.mk.injEq] at h
    obtain ⟨rfl, rfl⟩ := h
    exact ⟨Nat.le_add_right _ 2, rfl⟩
  simp only [nextEscape, ha, hb] at h
  by_cases hdigit : a' = 91 ∧ 48 ≤ b' ∧ b' ≤ 57
  · rw [if_pos hdigit] at h
    rcases reads with _ | ⟨c, reads⟩
    · simp at h
    simp only [Option.some.injEq, Prod.mk.injEq] at h
    obtain ⟨rfl, rfl⟩ := h
    refine ⟨Nat.le_add_right _ 3, ?_⟩
    rcases c.value with _ | c'
    · rfl
    · exact ending_ofEscape _
  · rw [if_neg hdigit] at h
    simp only [Option.some.injEq, Prod.mk.injEq] at h
    obtain ⟨rfl, rfl⟩ := h
    exact ⟨Nat.le_add_right _ 2, ending_ofEscape _⟩

/-- A command does not end the editing because of the terminal. -/
theorem ending_ne {command : Command} (h : d.ending command = some ending) :
    ending ≠ .waiting ∧ ending ≠ .writeFailed := by
  constructor
  · rintro rfl
    rcases command <;> simp [Draft.ending] at h
  · rintro rfl
    rcases command <;> simp [Draft.ending] at h

theorem Shows.leaves (hs : Shows l d) (hkept : ending.leaves d = d.lines) : Leaves l ending d :=
  ⟨hs.text, hs.len, hs.pos, hkept ▸ hs.history⟩

theorem Ends.outcome {l0 : Editor w} (he : Ends l0 d l' ending) {command : Command}
    {rest : List ReadResult} (hnext : nextCommand l.reads = some (command, rest))
    (hend : d.ending command = some ending) (hl : { l with reads := l0.reads } = l0) :
    Outcome l d l' ending d := by
  rw [← hl] at he
  refine ⟨⟨[], .ends hnext hend, ?_⟩, he.leaves, he.limit, ?_⟩
  · rw [he.written, List.append_nil]
  · exact fun hfailed => absurd hfailed (ending_ne hend).2

/-- One more round, before the others. -/
theorem Outcome.step (ho : Outcome l1 d1 l' ending last) {l0 : Editor w} {command : Command}
    {rest : List ReadResult} (hnext : nextCommand l.reads = some (command, rest))
    (hend : d.ending command = none) (hl : { l with reads := rest } = l0)
    (hm : Moves l0 d l1 d1) (hd1 : d1 = d.apply l.buflen command) :
    Outcome l d l' ending last := by
  subst hl hd1
  obtain ⟨ws', hedits, hwritten'⟩ := ho.edits
  obtain ⟨ws, hwritten, hdraw⟩ := hm.drawn
  rw [hm.buflen, hm.prompt, hm.cols, hm.reads] at hedits
  refine ⟨⟨ws ++ ws', .step hnext hend hdraw hedits, ?_⟩, ho.leaves, ho.limit.trans hm.limit, ?_⟩
  · rw [hwritten', hwritten, List.append_assoc]
  · exact fun hfailed => hm.writes.subset (ho.failed hfailed)

/-- A write that fails ends the editing in the next draft. -/
theorem Moves.failed {l0 : Editor w} (hm : Moves l0 d l1 d1) (hfalse : false ∈ l0.writes) {command : Command}
    {rest : List ReadResult} (hnext : nextCommand l.reads = some (command, rest))
    (hend : d.ending command = none) (hl : { l with reads := rest } = l0)
    (hd1 : d1 = d.apply l.buflen command) : Outcome l d l1 .writeFailed d1 := by
  subst hl hd1
  obtain ⟨ws, hwritten, hdraw⟩ := hm.drawn
  refine ⟨⟨ws ++ [], .step hnext hend hdraw .writeFailed, ?_⟩, hm.shows.leaves rfl, hm.limit,
    fun _ => hfalse⟩
  rw [List.append_nil]
  exact hwritten

/-- At the end of the input, and when `read` fails, the text is left as it is. -/
theorem hangUp_outcome (hs : Shows l d) (hsmall : l.buflen < 2 ^ 31) {r : ReadResult}
    {rest : List ReadResult} (hreads : l.reads = r :: rest)
    (hnext : nextCommand (r :: rest) = some (.hangUp, rest)) {f : ReadResult → Edit w Int}
    (hf : f r = do pure (← get).count) {stop : Halt → Editor w → Prop} :
    Ensures (read >>= f) l
      (fun n l' => ∃ ending last, Outcome l d l' ending last ∧ ending ≠ .waiting ∧
        n = ending.count last) stop := by
  refine Ensures.of_eq ?_ (read_bind hreads _)
  rw [hf]
  have hs0 := hs.reads rest
  have hend : d.ending .hangUp = some .hungUp := rfl
  refine ⟨.hungUp, d, ⟨⟨[], .ends (hreads ▸ hnext) hend, (List.append_nil _).symm⟩,
    hs0.leaves rfl, rfl, fun h => ?_⟩, ?_, count_eq hs0 hsmall⟩
  · cases h
  · decide

/-- The invariant of the loop is that the state shows a draft. Each round takes what the terminal sends
for one command. -/
theorem editLoop_outcome (hw : 32 ≤ w) {rounds : Nat} (hs : Shows l d) (hsmall : l.buflen < 2 ^ 31)
    (hrounds : l.reads.length < rounds) :
    Ensures (editLoop rounds) l
      (fun n l' => ∃ ending last, Outcome l d l' ending last ∧ ending ≠ .waiting ∧
        n = ending.count last)
      (fun halt l' => halt = .waiting ∧ ∃ last, Outcome l d l' .waiting last ∧ Shows l' last) := by
  induction rounds generalizing l d with
  | zero => exact absurd hrounds (Nat.not_lt_zero _)
  | succ rounds ih =>
    unfold editLoop
    rcases hreads : l.reads with _ | ⟨r, rest⟩
    · refine ensures_of_error (read_nil hreads _) ⟨rfl, d, ?_, hs⟩
      refine ⟨⟨[], .waiting ?_, (List.append_nil _).symm⟩, hs.leaves rfl, rfl, fun h => ?_⟩
      · rw [hreads]
        rfl
      · cases h
    have hs0 := hs.reads rest
    rw [hreads, List.length_cons] at hrounds
    rcases r with c | stale | _
    · refine Ensures.of_eq ?_ (read_bind hreads _)
      dsimp only
      by_cases hesc : c = ESC
      · subst hesc
        have hkey : editKey ESC (editLoop rounds) { l with reads := rest } =
            (escapeKey >>= fun _ => editLoop rounds) { l with reads := rest } := rfl
        have hnext : nextCommand l.reads = nextEscape rest := by
          rw [hreads, nextCommand, if_pos rfl]
        rcases hcommand : nextEscape rest with _ | ⟨command, rest'⟩
        · have hrun := bind_of_error (f := fun _ => editLoop rounds)
            (escapeKey_waiting (l := { l with reads := rest }) hcommand)
          refine ensures_of_error (hkey.trans hrun) ⟨rfl, d, ?_, hs.reads []⟩
          refine ⟨⟨[], .waiting (hnext.trans hcommand), (List.append_nil _).symm⟩,
            (hs.reads []).leaves rfl, rfl, fun h => ?_⟩
          cases h
        · obtain ⟨hlen, hend⟩ := nextEscape_some (d := d) hcommand
          obtain ⟨l1, hrun, hm⟩ := escapeKey_moves (l := { l with reads := rest }) hw hs0 hcommand
          have hfewer : l1.reads.length < rounds := by
            rw [hm.reads]
            exact Nat.lt_of_le_of_lt hlen (Nat.lt_of_succ_lt_succ hrounds)
          have hrest := ih hm.shows (hm.buflen ▸ hsmall) hfewer
          refine (hrest.of_eq (hkey.trans (bind_of_ok hrun))).mono ?_ ?_
          · rintro n l' ⟨ending, last, ho, hgo⟩
            exact ⟨ending, last, ho.step (hnext.trans hcommand) hend rfl hm rfl, hgo⟩
          · rintro halt l' ⟨hhalt, last, ho, hs'⟩
            exact ⟨hhalt, last, ho.step (hnext.trans hcommand) hend rfl hm rfl, hs'⟩
      · have hnext : nextCommand l.reads = some (.ofKey c, rest) := by
          rw [hreads]
          exact if_neg hesc
        rcases editKey_done hw hs0 hsmall hesc (editLoop rounds) with
          ⟨ending, l', hend, hrun, hends⟩ | ⟨hend, l1, hm, hrun | ⟨hrun, hfalse⟩⟩
        · exact ensures_of_ok hrun ⟨ending, d, hends.outcome hnext hend rfl, (ending_ne hend).1, rfl⟩
        · have hfewer : l1.reads.length < rounds := by
            rw [hm.reads]
            exact Nat.lt_of_succ_lt_succ hrounds
          have hrest := ih hm.shows (hm.buflen ▸ hsmall) hfewer
          refine (hrest.of_eq hrun).mono ?_ ?_
          · rintro n l' ⟨ending, last, ho, hgo⟩
            exact ⟨ending, last, ho.step hnext hend rfl hm rfl, hgo⟩
          · rintro halt l' ⟨hhalt, last, ho, hs'⟩
            exact ⟨hhalt, last, ho.step hnext hend rfl hm rfl, hs'⟩
        · refine ensures_of_ok hrun ⟨.writeFailed, _, hm.failed hfalse hnext hend rfl rfl, ?_, rfl⟩
          decide
    · exact hangUp_outcome hs hsmall hreads rfl rfl
    · exact hangUp_outcome hs hsmall hreads rfl rfl

/-! ## A session -/

/-- The draft that a session starts with, when the history has taken the empty line. -/
theorem shows_start {buf : Buffer w} {rest : List UInt8} {h : History} {lines : List CString}
    (hbuf : buf.bytes = 0 :: rest) (hsize : buf.size = l.buf.size) (hbuflen : 2 ≤ l.buf.size)
    {prompt : CString} (hwide : prompt.strlen < l.cols) (hcols : l.cols + 64 ≤ 2 ^ 31)
    {limit : Nat} (hk : Keeps w h (remembered limit lines (.ofBytes []))) (writes : List Bool)
    (written : List (List UInt8)) :
    Shows { l with
      buf := buf
      buflen := l.buf.size - 1
      prompt := prompt
      pos := 0
      len := 0
      historyIndex := 0
      history := h
      writes := writes
      written := written } (Draft.start limit lines) where
  text := ⟨rest, hbuf⟩
  size := by rw [hsize]; exact (Nat.sub_add_cancel (by omega)).symm
  room := Nat.sub_pos_of_lt hbuflen
  pos := rfl
  len := rfl
  wide := hwide
  cols := hcols
  index := rfl
  history := by
    have hlines : (Draft.start limit lines).lines = remembered limit lines (.ofBytes []) :=
      (remembered_eq limit lines _).symm
    rw [hlines]
    exact hk

/-- Before the loop the history takes the empty line and the prompt is written. -/
theorem linenoiseEdit_begins (hw : 32 ≤ w) (htwo : 2 ≤ l.buf.size) {lines : List CString}
    (hk : Keeps w l.history lines) {prompt : CString} (hwide : prompt.strlen < l.cols)
    (hcols : l.cols + 64 ≤ 2 ^ 31) :
    ∃ buf h, h.historyMaxLen = l.history.historyMaxLen ∧
      linenoiseEdit l.buf.size prompt l =
        (do if ← write prompt.bytes then editLoop ((← get).reads.length + 1) else pure (-1)) { l with
          buf := buf
          buflen := l.buf.size - 1
          prompt := prompt
          pos := 0
          len := 0
          historyIndex := 0
          history := h } ∧
      ∀ writes written, Shows { l with
        buf := buf
        buflen := l.buf.size - 1
        prompt := prompt
        pos := 0
        len := 0
        historyIndex := 0
        history := h
        writes := writes
        written := written } (Draft.start l.history.historyMaxLen lines) := by
  have hmax := l.buf.size_le
  have hbytes : l.buf.bytes = [] ++ l.buf.bytes := rfl
  obtain ⟨buf, hstore, hbuf⟩ := Buffer.store_append (p := 0) (c := 0) hbytes rfl
    (by rw [Buffer.size] at htwo; omega)
  have hless : sizeDiff w l.buf.size 1 = l.buf.size - 1 :=
    sizeDiff_of_le (by omega) (by rw [Buffer.size]; omega)
  have hempty : (CString.ofBytes []).strlen + 1 ≤ ptrdiffMax w := by
    have hge := ptrdiffMax_ge hw
    change 0 + 1 ≤ ptrdiffMax w
    omega
  obtain ⟨r, h, hadd, hlimit, hk'⟩ := hk.add hempty
  refine ⟨buf, h, hlimit, ?_, shows_start (l := l) hbuf (size_memcpy hstore) htwo hwide hcols hk'⟩
  unfold linenoiseEdit
  rw [modify_bind, storeByte_of (l := { l with
      buflen := l.buf.size
      prompt := prompt
      pos := 0
      len := 0
      historyIndex := 0 }) hstore, modify_bind, get_bind, hless, defined_bind hadd]
  rfl

/-- What the whole buffer is edited to. -/
theorem linenoiseEdit_outcome (hw : 32 ≤ w) (htwo : 2 ≤ l.buf.size) (hsmall : l.buf.size ≤ 2 ^ 31)
    {lines : List CString} (hk : Keeps w l.history lines) {prompt : CString}
    (hwide : prompt.strlen < l.cols) (hcols : l.cols + 64 ≤ 2 ^ 31) :
    Ensures (linenoiseEdit l.buf.size prompt) l
      (fun n l' => ∃ ending last, Outcome { l with
          buflen := l.buf.size - 1
          prompt := prompt
          written := l.written ++ [prompt.bytes] }
        (Draft.start l.history.historyMaxLen lines) l' ending last ∧
        ending ≠ .waiting ∧ n = ending.count last)
      (fun halt l' => halt = .waiting ∧ ∃ last, Outcome { l with
          buflen := l.buf.size - 1
          prompt := prompt
          written := l.written ++ [prompt.bytes] }
        (Draft.start l.history.historyMaxLen lines) l' .waiting last ∧ Shows l' last) := by
  obtain ⟨buf, h, hlimit, hrun, hshows⟩ := linenoiseEdit_begins hw htwo hk hwide hcols
  have hs := hshows l.writes.tail (l.written ++ [prompt.bytes])
  refine Ensures.of_eq ?_ (hrun.trans (write_bind _ _))
  rcases hwrites : l.writes.headD true with _ | _
  · refine ⟨.writeFailed, _, ⟨⟨[], .writeFailed, (List.append_nil _).symm⟩, hs.leaves rfl, hlimit,
      fun _ => ?_⟩, ?_, rfl⟩
    · rcases hall : l.writes with _ | ⟨ok, writes⟩
      · rw [hall] at hwrites
        cases hwrites
      · rw [hall] at hwrites
        exact List.mem_cons.mpr (Or.inl hwrites.symm)
    · decide
  · have hroom : l.buf.size - 1 < 2 ^ 31 := by omega
    refine (editLoop_outcome hw hs hroom (Nat.lt_succ_self _)).mono ?_ ?_
    · rintro n l' ⟨ending, last, ho, hgo⟩
      exact ⟨ending, last, ⟨ho.edits, ho.leaves, ho.limit.trans hlimit,
        fun hfailed => List.mem_of_mem_tail (ho.failed hfailed)⟩, hgo⟩
    · rintro halt l' ⟨hhalt, last, ho, hs'⟩
      exact ⟨hhalt, last, ⟨ho.edits, ho.leaves, ho.limit.trans hlimit,
        fun hfailed => List.mem_of_mem_tail (ho.failed hfailed)⟩, hs'⟩

/-- A terminal on which `a`, the left key and ENTER are pressed. -/
def sampleEditor : Editor 64 where
  buf := ⟨List.replicate 8 0, by decide⟩
  buflen := 8
  prompt := .ofString "> "
  pos := 0
  len := 0
  cols := 80
  historyIndex := 0
  history := .start
  reads := [.byte 97, .byte ESC, .byte 91, .byte 68, .byte ENTER]
  writes := []
  written := []

end NervesInitramfs.Linenoise
