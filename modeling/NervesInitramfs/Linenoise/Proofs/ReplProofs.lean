import NervesInitramfs.Linenoise.Proofs.LineProofs

/-!
# Proofs: the loop of the REPL

The history is in order after any number of lines, from whatever input they come, and it can be freed.
-/

namespace NervesInitramfs.Linenoise

open CLib

variable {w : Nat} {σ ε : Type}

/-! ## A terminal without escape sequences -/

/-- The loop leaves the line without the line breaks at its end. -/
theorem chomp_eq {buf : Buffer w} {text r : List UInt8} (hbytes : buf.bytes = text ++ 0 :: r) :
    ∃ buf' r', chomp buf text.length = some buf' ∧
      buf'.bytes = (text.rdropWhile fun c => c = 10 ∨ c = 13) ++ 0 :: r' := by
  induction text using List.reverseRecOn generalizing buf r with
  | nil => exact ⟨buf, r, rfl, hbytes⟩
  | append_singleton text c ih =>
    have hsplit : buf.bytes = text ++ c :: (0 :: r) := by simpa using hbytes
    rw [List.length_append, List.length_singleton, chomp, load_append hsplit]
    simp only [Option.bind_eq_bind, Option.bind_some]
    by_cases hc : c = 10 ∨ c = 13
    · obtain ⟨buf1, hstore, hbuf1⟩ := Buffer.store_append (c := 0) hsplit rfl (Nat.succ_pos _)
      rw [if_pos hc, hstore, List.rdropWhile_concat_pos _ _ _ (by simpa using hc)]
      exact ih hbuf1
    · rw [if_neg hc, List.rdropWhile_concat_neg _ _ _ (by simpa using hc)]
      exact ⟨buf, r, rfl, hbytes⟩

theorem strdupBuffer_eq {buf : Buffer w} {text r : List UInt8} (hbytes : buf.bytes = text ++ 0 :: r) :
    strdupBuffer buf = some (some (.ofBytes text)) ∧
      (CString.ofBytes text).strlen + 1 ≤ ptrdiffMax w := by
  have hfits : (CString.ofBytes text).strlen + 1 ≤ ptrdiffMax w := by
    have hlen := strlen_ofBytes_le text
    have hsize := buf.size_le
    rw [hbytes, List.length_append, List.length_cons] at hsize
    omega
  refine ⟨?_, hfits⟩
  unfold strdupBuffer
  rw [strlenAt_text hbytes]
  simp only [Option.bind_eq_bind, Option.bind_some]
  rw [if_pos hfits, strndup_text hbytes]
  rfl

theorem length_fgets {n : Nat} {input line rest : List UInt8} (h : fgets n input = some (line, rest)) :
    line.length ≤ n - 1 := by
  unfold fgets at h
  dsimp only at h
  split at h
  · cases h
  · obtain ⟨rfl, -⟩ := Prod.mk.inj (Option.some.inj h)
    exact List.length_take_le _ _

/-- The line is cut off after 4095 bytes, and at a NUL. -/
theorem linenoiseUnsupported_eq {buf : Buffer w} (hsize : buf.size = 4096)
    {input line rest : List UInt8} (h : fgets 4096 input = some (line, rest)) :
    ∃ text, linenoiseUnsupported buf input = some (some text, rest) ∧
      text.bytes = ((CString.ofBytes line).bytes.rdropWhile fun c => c = 10 ∨ c = 13) ∧
      text.strlen + 1 ≤ ptrdiffMax w := by
  have hlen := length_fgets h
  obtain ⟨buf1, hcopy, hbuf1⟩ := Buffer.memcpy_append (b := buf) (a := []) (r := buf.bytes) (p := 0)
    (line ++ [0]) rfl rfl (by rw [← Buffer.size, hsize, List.length_append, List.length_singleton]; omega)
  obtain ⟨r, hr⟩ := exists_string line (buf.bytes.drop (line ++ [0]).length)
  have hstring : buf1.bytes = (CString.ofBytes line).bytes ++ 0 :: r := by
    rw [← hr, hbuf1]
    simp
  obtain ⟨buf2, r', hchomp, hbuf2⟩ := chomp_eq hstring
  obtain ⟨hdup, hfits⟩ := strdupBuffer_eq hbuf2
  have hstrlen : strlenAt buf1 0 = some (CString.ofBytes line).bytes.length :=
    strlenAt_zero hstring (CString.ofBytes line).nulFree
  refine ⟨_, ?_, ?_, hfits⟩
  · unfold linenoiseUnsupported
    rw [h]
    simp only [Option.bind_eq_bind, hcopy, Option.bind_some, hstrlen, hchomp, hdup]
    rfl
  · refine takeWhile_of_nulFree fun hin => (CString.ofBytes line).nulFree ?_
    exact (List.rdropWhile_prefix _ _).subset hin

/-! ## The next line -/

/-- The history is in order, with the same limit as before. -/
def Tidy (w limit : Nat) (h : History) : Prop := h.historyMaxLen = limit ∧ ∃ lines, Keeps w h lines

/-- `linenoise` on a terminal returns the string that is in the buffer. -/
theorem linenoiseTerminal_tidy (hw : 32 ≤ w) {h : History} {limit : Nat} (ht : Tidy w limit h)
    (call : Call w) (prompt : CString) (hwide : prompt.strlen < call.cols)
    (hcols : call.cols + 64 ≤ 2 ^ 31) :
    Ensures (linenoiseTerminal call.raw prompt) (call.editor prompt h)
      (fun line l => Tidy w limit l.history ∧ ∀ s, line = some s → s.strlen + 1 ≤ ptrdiffMax w)
      (fun halt l => halt = .waiting ∧ Tidy w limit l.history) := by
  obtain ⟨hlimit, lines, hk⟩ := ht
  have hsize : (call.editor prompt h).buf.size = 4096 := call.size
  unfold linenoiseTerminal linenoiseRaw
  rcases call.raw with _ | _
  · exact ensures_of_ok (a := none) rfl ⟨⟨hlimit, lines, hk⟩, fun s hs => by cases hs⟩
  · have hedit := linenoiseEdit_outcome (l := call.editor prompt h) hw (by rw [hsize]; decide)
      (by rw [hsize]; decide) hk hwide hcols
    rw [hsize] at hedit
    refine Ensures.bind (hedit.mono (fun _ _ hpost => hpost) ?_) ?_
    · rintro halt l ⟨hhalt, last, ho, -⟩
      exact ⟨hhalt, ho.limit.trans hlimit, _, ho.leaves.history⟩
    · rintro n l ⟨ending, last, ho, -, -⟩
      have ht : Tidy w limit l.history := ⟨ho.limit.trans hlimit, _, ho.leaves.history⟩
      by_cases hn : n = -1
      · rw [if_pos hn]
        exact ⟨ht, fun s hs => by cases hs⟩
      · obtain ⟨r, hbytes⟩ := ho.leaves.text
        obtain ⟨hdup, hfits⟩ := strdupBuffer_eq hbytes
        rw [if_neg hn]
        refine ensures_of_ok (a := some (.ofBytes last.text)) ?_ ⟨ht, fun s hs => ?_⟩
        · rw [get_bind, hdup]
          rfl
        · obtain rfl := Option.some.inj hs
          exact hfits

/-- One line, from whatever input. -/
theorem linenoise_tidy (hw : 32 ≤ w) {s : Shell w σ} {limit : Nat} (ht : Tidy w limit s.history)
    (hwide : s.stdin.Wide) {prompt : CString} (hprompt : prompt.strlen = 18) :
    Ensures (linenoise prompt) s
      (fun line s' => Tidy w limit s'.history ∧ s'.stdin.Wide ∧
        ∀ l, line = some l → l.strlen + 1 ≤ ptrdiffMax w)
      (fun halt s' => halt = .waiting ∧ Tidy w limit s'.history) := by
  obtain ⟨stdin, history, own⟩ := s
  unfold linenoise
  rw [ensures_bind, ensures_get]
  rcases stdin with (_ | ⟨call, calls⟩) | input | input
  · exact ⟨rfl, ht⟩
  · obtain ⟨hcall, hcalls⟩ := List.forall_mem_cons.mp hwide
    have hterminal := linenoiseTerminal_tidy hw ht call prompt (by omega) hcall.2
    dsimp only
    rcases hrun : linenoiseTerminal call.raw prompt (call.editor prompt history) with
      ⟨line, l⟩ | ⟨halt, l⟩
    · obtain ⟨ht', hfits⟩ := hterminal.ok hrun
      exact ⟨ht', hcalls, hfits⟩
    · exact hterminal.error hrun
  · have hge := ptrdiffMax_ge hw
    obtain ⟨buf, hmalloc, hbuf⟩ := malloc_eq (w := w) (n := 4096) (by omega)
    have hsize : buf.size = 4096 := by rw [Buffer.size, hbuf, List.length_replicate]
    dsimp only
    rw [hmalloc]
    dsimp only
    rcases hfgets : fgets 4096 input with _ | ⟨line, rest⟩
    · have hnull : linenoiseUnsupported buf input = some (none, input) := by
        unfold linenoiseUnsupported
        rw [hfgets]
      rw [hnull]
      exact ⟨ht, trivial, fun l hl => by cases hl⟩
    · obtain ⟨text, hline, -, hfits⟩ := linenoiseUnsupported_eq hsize hfgets
      rw [hline]
      refine ⟨ht, trivial, fun l hl => ?_⟩
      obtain rfl := Option.some.inj hl
      exact hfits
  · dsimp only
    rcases linenoiseNoTTY_eq hw input with ⟨hline, hfits⟩ | ⟨hnull, -⟩
    · rw [hline]
      exact ⟨ht, trivial, hfits⟩
    · rcases hline : linenoiseNoTTY w input with _ | ⟨line, rest⟩
      · rw [hline] at hnull
        cases hnull
      · rw [hline] at hnull
        obtain rfl := Option.some.inj hnull
        exact ⟨ht, trivial, fun l hl => by cases hl⟩

/-- The history is in order after every line, whether the input has come to its end or not. -/
theorem repl_tidy (hw : 32 ≤ w) {s : Shell w σ} {limit : Nat} (ht : Tidy w limit s.history)
    (hwide : s.stdin.Wide) (evalString : CString → EStateM ε σ Unit) (rounds : Nat) :
    Ensures (repl evalString rounds) s (fun _ s' => Tidy w limit s'.history)
      (fun stop s' => (∀ halt, stop = .reading halt → halt = .waiting) ∧
        Tidy w limit s'.history) := by
  induction rounds generalizing s with
  | zero => exact ⟨fun _ hstop => (Ended.reading.inj hstop).symm, ht⟩
  | succ rounds ih =>
    unfold repl
    rw [ensures_bind, ensures_adaptExcept]
    refine (linenoise_tidy hw ht hwide rfl).mono ?_ fun halt s' h =>
      ⟨fun _ hstop => (Ended.reading.inj hstop).symm.trans h.1, h.2⟩
    rintro (_ | line) s' ⟨ht', hwide', hfits⟩
    · exact ht'
    obtain ⟨hlimit, lines, hk⟩ := ht'
    obtain ⟨r, h, hadd, hlimit', hk'⟩ := hk.add (hfits line rfl)
    dsimp only
    rw [ensures_bind, ensures_get, hadd]
    dsimp only
    rw [ensures_bind, ensures_set, ensures_bind, ensures_evaluating]
    rcases heval : evalString line s'.own with ⟨_, own⟩ | ⟨e, own⟩
    · exact ensures_of_ok heval (ih ⟨hlimit'.trans hlimit, _, hk'⟩ hwide')
    · refine ensures_of_error heval ⟨?_, hlimit'.trans hlimit, _, hk'⟩
      intro halt hstop
      cases hstop

/-- Whatever the input is, the REPL stays inside its buffers and the history. There are never more than
100 lines in it, and when the program exits every string is freed once. -/
theorem repl_frees (hw : 32 ≤ w) {stdin : Stdin w} (hwide : stdin.Wide)
    (evalString : CString → EStateM ε σ Unit) (own : σ) (rounds : Nat) :
    Ensures (repl evalString rounds) ⟨stdin, .start, own⟩
      (fun _ s => s.history.historyLen ≤ 100 ∧
        ∃ m, freeHistory s.history = some m ∧ ∀ p, m.cells p = none)
      (fun stop s => (∀ halt, stop = .reading halt → halt = .waiting) ∧
        s.history.historyLen ≤ 100 ∧
        ∃ m, freeHistory s.history = some m ∧ ∀ p, m.cells p = none) := by
  have hfreed : ∀ h, Tidy w 100 h → h.historyLen ≤ 100 ∧
      ∃ m, freeHistory h = some m ∧ ∀ p, m.cells p = none := by
    rintro h ⟨hlimit, lines, hk⟩
    exact ⟨hlimit ▸ hk.len ▸ hk.bound, hk.freeHistory⟩
  have hstart : Tidy w 100 History.start := ⟨rfl, [], keeps_start hw⟩
  refine (repl_tidy hw (s := ⟨stdin, .start, own⟩) hstart hwide evalString rounds).mono ?_ ?_
  · exact fun _ s ht => hfreed _ ht
  · exact fun stop s ht => ⟨ht.1, hfreed _ ht.2⟩

/-- A call of a terminal of 80 columns that sends these bytes. -/
def sampleCall (reads : List ReadResult) : Call 64 where
  raw := true
  buf := ⟨List.replicate 4096 0, by rw [List.length_replicate]; decide⟩
  size := List.length_replicate
  cols := 80
  reads := reads
  writes := []

theorem repl_frees_cancelled :
    ¬ ∃ s, repl keepLine 2 (⟨.terminal [sampleCall [.byte ESC, .byte 91, .byte 65, .byte CTRL_C]],
      .start, []⟩ : Shell 64 (List CString)) = .error (.reading .undefined) s := by
  rintro ⟨s, hundefined⟩
  obtain ⟨stdin, hstdin⟩ : ∃ stdin, stdin = Stdin.terminal
      [sampleCall [.byte ESC, .byte 91, .byte 65, .byte CTRL_C]] := ⟨_, rfl⟩
  rw [← hstdin] at hundefined
  have hwide : stdin.Wide := by
    rw [hstdin]
    intro call hcall
    obtain rfl := List.mem_singleton.mp hcall
    change 18 < 80 ∧ 80 + 64 ≤ 2 ^ 31
    decide
  have hfrees := repl_frees (by decide) hwide keepLine [] 2
  unfold Ensures at hfrees
  rw [hundefined] at hfrees
  cases hfrees.1 _ rfl

end NervesInitramfs.Linenoise
