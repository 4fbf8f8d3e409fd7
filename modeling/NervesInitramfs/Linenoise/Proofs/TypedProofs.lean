import NervesInitramfs.Linenoise.Proofs.ReplProofs

/-!
# Proofs: typing a line and recalling it

A line of ordinary characters is returned as it was typed, and the up key brings it back.
-/

namespace NervesInitramfs.Linenoise

open CLib

variable {w limit cols : Nat} {prompt : CString} {d last : Draft} {reads rest : List ReadResult}
  {σ ε : Type} {evalString : CString → EStateM ε σ Unit}
  {ws : List (List UInt8)} {ending : Ending}

/-- The bytes that a terminal sends for the keys. -/
def typed (bytes : List UInt8) : List ReadResult := bytes.map .byte

/-- A character that is not a key with a meaning of its own. -/
def Ordinary (c : UInt8) : Prop := c ≠ ESC ∧ c ∉ keys.map Prod.fst

/-! ## The edits of some keys -/

/-- The next command decides how the editing goes on, unless a write fails. -/
theorem edits_cons {command : Command} (hnext : nextCommand reads = some (command, rest))
    (h : Edits limit prompt cols d reads ws ending last) :
    ending = .writeFailed ∨ (d.ending command = some ending ∧ last = d) ∨
      (d.ending command = none ∧
        ∃ ws', Edits limit prompt cols (d.apply limit command) rest ws' ending last) := by
  cases h with
  | waiting hnone =>
    rw [hnext] at hnone
    cases hnone
  | writeFailed => exact Or.inl rfl
  | ends hsome hend =>
    obtain ⟨rfl, rfl⟩ := Prod.mk.inj (Option.some.inj (hnext.symm.trans hsome))
    exact Or.inr (Or.inl ⟨hend, rfl⟩)
  | step hsome hend hdraw hrest =>
    obtain ⟨rfl, rfl⟩ := Prod.mk.inj (Option.some.inj (hnext.symm.trans hsome))
    exact Or.inr (Or.inr ⟨hend, _, hrest⟩)

/-- The induction is on the characters, which are put behind the text one by one. -/
theorem edits_typed {before line : List UInt8} (hline : ∀ c ∈ line, Ordinary c)
    (hfits : before.length + line.length ≤ limit)
    (h : Edits limit prompt cols { d with cursor := .atEnd before } (typed line ++ reads) ws ending
      last) :
    ending = .writeFailed ∨
      ∃ ws', Edits limit prompt cols { d with cursor := .atEnd (before ++ line) } reads ws' ending
        last := by
  induction line generalizing before ws with
  | nil =>
    rw [List.append_nil]
    exact Or.inr ⟨ws, h⟩
  | cons c line ih =>
    obtain ⟨⟨hesc, hkey⟩, hline'⟩ := List.forall_mem_cons.mp hline
    rw [List.length_cons] at hfits
    have hnext : nextCommand (typed (c :: line) ++ reads) = some (.insert c, typed line ++ reads) := by
      rw [← ofKey_other hkey]
      exact if_neg hesc
    rcases edits_cons hnext h with hfailed | ⟨hend, -⟩ | ⟨-, ws', hrest⟩
    · exact Or.inl hfailed
    · cases hend
    · have happly : ({ d with cursor := .atEnd before } : Draft).apply limit (.insert c) =
          { d with cursor := .atEnd (before ++ [c]) } := by
        refine if_pos ?_
        change (Cursor.atEnd before).text.length < limit
        rw [Cursor.text_atEnd]
        omega
      rw [happly] at hrest
      have hshorter : (before ++ [c]).length + line.length ≤ limit := by
        rw [List.length_append, List.length_singleton]
        omega
      have hdone := ih hline' hshorter hrest
      rwa [List.append_assoc, List.singleton_append] at hdone

theorem edits_enter (h : Edits limit prompt cols d (.byte ENTER :: rest) ws ending last) :
    ending = .writeFailed ∨ (ending = .entered ∧ last = d) := by
  have hnext : nextCommand (.byte ENTER :: rest) = some (.enter, rest) := rfl
  rcases edits_cons hnext h with hfailed | ⟨hend, hlast⟩ | ⟨hend, -⟩
  · exact Or.inl hfailed
  · exact Or.inr ⟨(Option.some.inj hend).symm, hlast⟩
  · cases hend

/-! ## Entering a line -/

/-- A terminal that takes what is written to it, and is wide enough for the prompt of the REPL. -/
structure Call.Works (call : Call w) : Prop where
  raw : call.raw = true
  writes : false ∉ call.writes
  wide : 18 < call.cols
  cols : call.cols + 64 ≤ 2 ^ 31

/-- When the keys can only end in a draft that is entered, its text is returned, and the line of the
history that stood for it is given up. -/
theorem linenoise_entered (hw : 32 ≤ w) {h : History} {lines : List CString}
    (hk : Keeps w h lines) {call : Call w} (hcall : call.Works)
    (hprompt : prompt.strlen = 18)
    (hedits : ∀ ws ending last, Edits 4095 prompt call.cols (Draft.start h.historyMaxLen lines)
      call.reads ws ending last → ending = .writeFailed ∨ (ending = .entered ∧ last = d))
    (calls : List (Call w)) (own : σ) :
    ∃ h', linenoise prompt (⟨.terminal (call :: calls), h, own⟩ : Shell w σ) =
        .ok (some (.ofBytes d.text)) ⟨.terminal calls, h', own⟩ ∧
      h'.historyMaxLen = h.historyMaxLen ∧ Keeps w h' d.lines.dropLast ∧
      (CString.ofBytes d.text).strlen + 1 ≤ ptrdiffMax w := by
  have hwide : prompt.strlen < call.cols := hprompt ▸ hcall.wide
  have hsize : (call.editor prompt h).buf.size = 4096 := call.size
  have hedit := linenoiseEdit_outcome (l := call.editor prompt h) hw (by rw [hsize]; decide)
    (by rw [hsize]; decide) hk hwide hcall.cols
  rw [hsize] at hedit
  rcases hrun : linenoiseEdit 4096 prompt (call.editor prompt h) with ⟨n, l⟩ | ⟨halt, l⟩
  · obtain ⟨ending, last, ho, -, hn⟩ := hedit.ok hrun
    obtain ⟨ws, hws, -⟩ := ho.edits
    rcases hedits _ _ _ hws with hfailed | ⟨rfl, rfl⟩
    · exact absurd (ho.failed hfailed) hcall.writes
    obtain ⟨r, hbytes⟩ := ho.leaves.text
    obtain ⟨hdup, hfits⟩ := strdupBuffer_eq hbytes
    have hcount : n ≠ -1 := by
      rw [hn]
      exact (Int.natCast_nonneg last.text.length |>.trans_lt' (by decide)).ne'
    have hterminal : linenoiseTerminal call.raw prompt (call.editor prompt h) =
        .ok (some (.ofBytes last.text)) l := by
      unfold linenoiseTerminal linenoiseRaw
      rw [if_neg (by decide), hcall.raw, if_pos rfl, bind_of_ok hrun, if_neg hcount, get_bind, hdup]
      rfl
    refine ⟨l.history, ?_, ho.limit, ho.leaves.history, hfits⟩
    unfold linenoise
    rw [bind_of_ok (rfl : (get : EStateM Halt (Shell w σ) (Shell w σ)) _ = .ok _ _)]
    dsimp only
    rw [hterminal]
    rfl
  · obtain ⟨-, last, ho, -⟩ := hedit.error hrun
    obtain ⟨ws, hws, -⟩ := ho.edits
    rcases hedits _ _ _ hws with hfailed | ⟨hentered, -⟩
    · cases hfailed
    · cases hentered

/-- The line that is typed is the line that is returned. -/
theorem linenoise_typed (hw : 32 ≤ w) {h : History} {lines : List CString}
    (hk : Keeps w h lines) {call : Call w} (hcall : call.Works)
    (hprompt : prompt.strlen = 18) {line : CString} (hline : ∀ c ∈ line.bytes, Ordinary c)
    (hlen : line.strlen ≤ 4095) (hreads : call.reads = typed line.bytes ++ .byte ENTER :: rest)
    (calls : List (Call w)) (own : σ) :
    ∃ h', linenoise prompt (⟨.terminal (call :: calls), h, own⟩ : Shell w σ) =
        .ok (some line) ⟨.terminal calls, h', own⟩ ∧
      h'.historyMaxLen = h.historyMaxLen ∧
      Keeps w h' (remembered h.historyMaxLen lines (.ofBytes [])).dropLast ∧
      line.strlen + 1 ≤ ptrdiffMax w := by
  have hedits : ∀ ws ending last, Edits 4095 prompt call.cols (Draft.start h.historyMaxLen lines)
      call.reads ws ending last → ending = .writeFailed ∨ (ending = .entered ∧
        last = { Draft.start h.historyMaxLen lines with cursor := .atEnd line.bytes }) := by
    intro ws ending last hall
    rw [hreads] at hall
    have hfits : ([] : List UInt8).length + line.bytes.length ≤ 4095 := by
      rw [List.length_nil, Nat.zero_add]
      exact hlen
    rcases edits_typed (d := Draft.start h.historyMaxLen lines) hline hfits hall with
      hfailed | ⟨ws', hrest⟩
    · exact Or.inl hfailed
    · exact edits_enter hrest
  obtain ⟨h', hrun, hlimit, hk', hfits⟩ := linenoise_entered hw hk hcall hprompt hedits calls own
  have htext : CString.ofBytes ({ Draft.start h.historyMaxLen lines with
      cursor := .atEnd line.bytes } : Draft).text = line := by
    rw [Draft.text, Cursor.text_atEnd, CString.ofBytes_bytes]
  rw [htext] at hrun hfits
  refine ⟨h', hrun, hlimit, ?_, hfits⟩
  rw [remembered_eq]
  exact hk'

/-! ## Recalling it -/

/-- The line that was added last comes before the empty line of the next session. -/
theorem remembered_empty {lines : List CString} {line : CString} (hlast : lines.getLast? = some line)
    (hline : line ≠ .ofBytes []) (hlimit : 2 ≤ limit) :
    ∃ older, remembered limit lines (.ofBytes []) = older ++ [line, .ofBytes []] := by
  obtain ⟨older, rfl⟩ : ∃ older, lines = older ++ [line] :=
    ⟨lines.dropLast, (List.dropLast_append_getLast? line hlast).symm⟩
  unfold remembered
  rw [if_neg (by rw [hlast]; exact fun heq => hline (Option.some.inj heq))]
  by_cases hfull : (older ++ [line]).length = limit
  · rcases older with _ | ⟨first, older⟩
    · rw [List.nil_append, List.length_singleton] at hfull
      omega
    · rw [if_pos hfull]
      exact ⟨older, by simp⟩
  · rw [if_neg hfull]
    exact ⟨older, by simp⟩

/-- The up key brings back the line that was added last, as much of it as fits. -/
theorem linenoise_recalled (hw : 32 ≤ w) {h : History} {lines : List CString}
    (hk : Keeps w h lines) (hlimit : 2 ≤ h.historyMaxLen) {call : Call w}
    (hcall : call.Works) (hprompt : prompt.strlen = 18) {line : CString}
    (hlast : lines.getLast? = some line) (hline : line ≠ .ofBytes [])
    (hreads : nextCommand call.reads = some (.older, .byte ENTER :: rest))
    (calls : List (Call w)) (own : σ) :
    ∃ h', linenoise prompt (⟨.terminal (call :: calls), h, own⟩ : Shell w σ) =
        .ok (some (.ofBytes (line.bytes.take 4094))) ⟨.terminal calls, h', own⟩ ∧
      h'.historyMaxLen = h.historyMaxLen ∧
      Keeps w h' (remembered h.historyMaxLen lines (.ofBytes [])).dropLast := by
  obtain ⟨older, hremembered⟩ := remembered_empty hlast hline hlimit
  have hstart : Draft.start h.historyMaxLen lines =
      ⟨.atEnd [], older ++ [line], .ofBytes [], []⟩ := by
    rw [Draft.start, hremembered]
    simp
  have hedits : ∀ ws ending last, Edits 4095 prompt call.cols (Draft.start h.historyMaxLen lines)
      call.reads ws ending last → ending = .writeFailed ∨ (ending = .entered ∧
        last = ⟨Draft.fromHistory 4095 line, older, line, [.ofBytes []]⟩) := by
    intro ws ending last hall
    rcases edits_cons hreads hall with hfailed | ⟨hend, -⟩ | ⟨-, ws', hrest⟩
    · exact Or.inl hfailed
    · cases hend
    · have happly : (Draft.start h.historyMaxLen lines).apply 4095 .older =
          ⟨Draft.fromHistory 4095 line, older, line, [.ofBytes []]⟩ := by
        rw [hstart]
        refine (if_neg ?_).trans ?_
        · simp [Draft.lines]
        · simp [Draft.goOlder, Draft.kept, Draft.text, Cursor.text, Cursor.atEnd]
      rw [happly] at hrest
      exact edits_enter hrest
  obtain ⟨h', hrun, hlimit', hk', -⟩ := linenoise_entered hw hk hcall hprompt hedits calls own
  have htext : (⟨Draft.fromHistory 4095 line, older, line, [.ofBytes []]⟩ : Draft).text =
      line.bytes.take 4094 := Cursor.text_atEnd _
  rw [htext] at hrun
  refine ⟨h', hrun, hlimit', ?_⟩
  rw [hremembered]
  simpa [Draft.lines] using hk'

theorem repl_waiting (rounds : Nat) {s : Shell w σ} (hs : s.stdin = .terminal []) :
    repl evalString rounds s = .error (.reading .waiting) s := by
  have hread : linenoise (.ofString "nerves_initramfs> ") s = .error .waiting s := by
    unfold linenoise
    rw [bind_of_ok (rfl : (get : EStateM Halt (Shell w σ) (Shell w σ)) s = .ok s s), hs]
    rfl
  rcases rounds with _ | rounds
  · rfl
  · apply bind_of_error
    unfold EStateM.adaptExcept
    rw [hread]

end NervesInitramfs.Linenoise
