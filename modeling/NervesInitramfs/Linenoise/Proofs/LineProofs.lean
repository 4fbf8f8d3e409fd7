import NervesInitramfs.Linenoise.Line
import NervesInitramfs.Linenoise.Proofs.SessionProofs

/-!
# Proofs: the lines of a file

`linenoiseNoTTY` returns one line of the input after the other, whatever their lengths: the object in
which a line is collected grows as it has to.
-/

namespace NervesInitramfs.Linenoise

open CLib

/-- The next line of the input, up to its first NUL, and what follows its end. -/
def nextLine (input : List UInt8) : Option CString × List UInt8 :=
  match input.dropWhile (· ≠ 10) with
  | [] => (if input = [] then none else some (.ofBytes input), [])
  | _ :: rest => (some (.ofBytes (input.takeWhile (· ≠ 10))), rest)

/-- The lines of the input. Nothing follows a line break at its end. -/
def fileLines (input : List UInt8) : List CString :=
  let parts := input.splitOn 10
  (if parts.getLast? = some [] then parts.dropLast else parts).map .ofBytes

section

variable {w : Nat} {text : List UInt8} {line buf : Buffer w} {maxlen : Nat} {σ ε : Type}
  {evalString : CString → EStateM ε σ Unit}

/-! ## One line -/

theorem ne_break (htext : 10 ∉ text) : ∀ c ∈ text, decide (c ≠ 10) = true := by
  intro c hc
  have hne : c ≠ 10 := fun heq => htext (heq ▸ hc)
  simpa using hne

theorem nextLine_break (htext : 10 ∉ text) (rest : List UInt8) :
    nextLine (text ++ 10 :: rest) = (some (.ofBytes text), rest) := by
  have hline : (text ++ 10 :: rest).takeWhile (· ≠ 10) = text := by
    rw [List.takeWhile_append_of_pos (ne_break htext), List.takeWhile_cons_of_neg (by simp),
      List.append_nil]
  have hrest : (text ++ 10 :: rest).dropWhile (· ≠ 10) = 10 :: rest := by
    rw [List.dropWhile_append_of_pos (ne_break htext), List.dropWhile_cons_of_neg (by simp)]
  rw [nextLine, hline, hrest]

theorem nextLine_end (htext : 10 ∉ text) :
    nextLine text = (if text = [] then none else some (.ofBytes text), []) := by
  have hnone : text.dropWhile (· ≠ 10) = [] := List.dropWhile_eq_nil_iff.mpr (ne_break htext)
  rw [nextLine, hnone]

theorem strlen_ofBytes_le (text : List UInt8) : (CString.ofBytes text).strlen ≤ text.length :=
  (List.takeWhile_sublist _).length_le

/-- The object begins with the text, or there is none yet. -/
inductive Filled (w : Nat) : List UInt8 → Option (Buffer w) → Nat → Prop
  | empty : Filled w [] none 0
  | object {text r : List UInt8} {line : Buffer w} (h : line.bytes = text ++ r) :
      Filled w text (some line) line.size

theorem malloc_eq {n : Nat} (hn : n ≤ ptrdiffMax w) :
    ∃ new, malloc w n = some new ∧ new.bytes = List.replicate n 0 := by
  unfold malloc
  rw [dif_pos hn]
  exact ⟨_, rfl, rfl⟩

theorem realloc_grows {n : Nat} (hn : n ≤ ptrdiffMax w) (hle : line.size ≤ n) :
    ∃ new, realloc (some line) n = some new ∧
      new.bytes = line.bytes ++ List.replicate (n - line.size) 0 := by
  obtain ⟨fresh, hmalloc, hfresh⟩ := malloc_eq hn
  rw [Buffer.size] at hle
  obtain ⟨new, hcopy, hnew⟩ := Buffer.memcpy_append (b := fresh) (a := []) (r := fresh.bytes) (p := 0)
    line.bytes rfl rfl (by rw [hfresh, List.length_replicate]; exact hle)
  refine ⟨new, ?_, ?_⟩
  · rw [← List.take_of_length_le hle] at hcopy
    unfold realloc
    rw [hmalloc]
    exact hcopy
  · rw [hnew, hfresh, List.drop_replicate]
    rfl

theorem realloc_fails {line : Option (Buffer w)} {n : Nat} (hn : ptrdiffMax w < n) :
    realloc line n = none := by
  unfold realloc malloc
  rw [dif_neg (by omega)]
  rfl

/-- In each round there is room for a byte, unless there is no memory for an object of twice the
size. -/
theorem grow_eq (hw : 32 ≤ w) {line : Option (Buffer w)} (h : Filled w text line maxlen) :
    (∃ new x r, grow line text.length maxlen = some (new, new.size) ∧ new.bytes = text ++ x :: r) ∨
    (grow line text.length maxlen = none ∧ ptrdiffMax w < 2 * text.length + 32) := by
  have hge := ptrdiffMax_ge hw
  have htwo := two_ptrdiffMax_lt (w := w) (by omega)
  rcases h with _ | @⟨_, r, line, hbytes⟩
  · left
    obtain ⟨new, hmalloc, hnew⟩ := malloc_eq (w := w) (n := 32) (by omega)
    have hsize : 16 * 2 % 2 ^ w = 32 := Nat.mod_eq_of_lt (by omega)
    have hnewsize : new.size = 32 := by rw [Buffer.size, hnew, List.length_replicate]
    have hrealloc : realloc none 32 = some new := by
      unfold realloc
      rw [hmalloc]
      rfl
    refine ⟨new, 0, List.replicate 31 0, ?_, hnew⟩
    unfold grow
    rw [List.length_nil, if_pos rfl, if_pos rfl, hsize, hnewsize]
    dsimp only
    rw [hrealloc]
    rfl
  · have hlen : line.size = text.length + r.length := by
      rw [Buffer.size, hbytes, List.length_append]
    have hmax := line.size_le
    unfold grow
    rcases r with _ | ⟨x, r⟩
    · rw [List.length_nil] at hlen
      rw [List.append_nil] at hbytes
      obtain ⟨n, hn, hpos, hle⟩ : ∃ n, (if line.size = 0 then 16 else line.size) * 2 % 2 ^ w = n ∧
          line.size < n ∧ n ≤ 2 * line.size + 32 := by
        refine ⟨_, rfl, ?_⟩
        rw [Buffer.size]
        split
        · rw [Nat.mod_eq_of_lt (by omega)]
          omega
        · rw [Nat.mod_eq_of_lt (by omega)]
          omega
      rw [if_pos (by omega), hn]
      dsimp only
      by_cases hfits : n ≤ ptrdiffMax w
      · obtain ⟨new, hrealloc, hnew⟩ := realloc_grows hfits (Nat.le_of_lt hpos)
        obtain ⟨k, hk⟩ : ∃ k, n - line.size = k + 1 := ⟨n - line.size - 1, by omega⟩
        have hnewsize : new.size = n := by
          rw [Buffer.size, hnew, List.length_append, List.length_replicate, ← Buffer.size]
          omega
        rw [hbytes, hk] at hnew
        rw [hrealloc, ← hnewsize]
        exact Or.inl ⟨new, 0, List.replicate k 0, rfl, hnew⟩
      · rw [realloc_fails (by omega)]
        exact Or.inr ⟨rfl, by omega⟩
    · rw [List.length_cons] at hlen
      rw [if_neg (by omega)]
      exact Or.inl ⟨line, x, r, rfl, hbytes⟩

/-- The line is ended with a NUL and returned. -/
theorem finishLine_eq {x : UInt8} {r : List UInt8} (hbytes : buf.bytes = text ++ x :: r) :
    finishLine buf text.length = some (.ofBytes text) ∧
      (CString.ofBytes text).strlen + 1 ≤ ptrdiffMax w := by
  have hlen := strlen_ofBytes_le text
  have hsize := buf.size_le
  rw [hbytes, List.length_append, List.length_cons] at hsize
  refine ⟨?_, by omega⟩
  obtain ⟨buf', hstore, hbuf'⟩ := Buffer.store_append (c := 0) hbytes rfl (Nat.succ_pos _)
  unfold finishLine
  rw [hstore]
  simp only [Option.bind_eq_bind, Option.bind_some, strlenAt_text hbuf', strndup_text hbuf']
  rfl

/-- The induction is on the input. The text is what has been read of the line before. -/
theorem readLine_eq (hw : 32 ≤ w) {line : Option (Buffer w)} {input : List UInt8}
    (h : Filled w text line maxlen) (htext : 10 ∉ text) :
    (readLine input line text.length maxlen = some (nextLine (text ++ input)) ∧
      ∀ s, (nextLine (text ++ input)).1 = some s → s.strlen + 1 ≤ ptrdiffMax w) ∨
    ((readLine input line text.length maxlen).map Prod.fst = some none ∧
      ptrdiffMax w < 2 * (text ++ input).length + 32) := by
  induction input generalizing text line maxlen with
  | nil =>
    unfold readLine
    rcases grow_eq hw h with ⟨new, x, r, hgrow, hnew⟩ | ⟨hgrow, hmax⟩
    · rw [hgrow, List.append_nil, nextLine_end htext]
      left
      dsimp only
      obtain ⟨hfinish, hfits⟩ := finishLine_eq hnew
      by_cases hempty : text = []
      · rw [if_pos hempty, if_pos (by rw [hempty]; rfl)]
        exact ⟨rfl, fun s hs => by cases hs⟩
      · rw [if_neg hempty, if_neg (by simpa using hempty), hfinish]
        refine ⟨rfl, fun s hs => ?_⟩
        obtain rfl := Option.some.inj hs
        exact hfits
    · rw [hgrow, List.append_nil]
      exact Or.inr ⟨rfl, hmax⟩
  | cons c rest ih =>
    unfold readLine
    rcases grow_eq hw h with ⟨new, x, r, hgrow, hnew⟩ | ⟨hgrow, hmax⟩
    · rw [hgrow]
      dsimp only
      by_cases hc : c = 10
      · obtain ⟨hfinish, hfits⟩ := finishLine_eq hnew
        rw [hc, if_pos rfl, nextLine_break htext, hfinish]
        refine Or.inl ⟨rfl, fun s hs => ?_⟩
        obtain rfl := Option.some.inj hs
        exact hfits
      · obtain ⟨new', hstore, hnew'⟩ := Buffer.store_append (c := c) hnew rfl (Nat.succ_pos _)
        have hmore : new'.bytes = (text ++ [c]) ++ r := by simpa using hnew'
        have hfilled : Filled w (text ++ [c]) (some new') new.size := by
          rw [← size_memcpy hstore]
          exact .object hmore
        have hread := ih hfilled (by simpa using ⟨htext, fun heq => hc heq.symm⟩)
        rw [List.length_append, List.length_singleton, List.append_assoc, List.singleton_append]
          at hread
        rw [if_neg hc, hstore]
        exact hread
    · rw [hgrow, List.length_append]
      exact Or.inr ⟨rfl, by omega⟩

/-- The whole line is returned unless it is too long for the memory. -/
theorem linenoiseNoTTY_eq (hw : 32 ≤ w) (input : List UInt8) :
    (linenoiseNoTTY w input = some (nextLine input) ∧
      ∀ s, (nextLine input).1 = some s → s.strlen + 1 ≤ ptrdiffMax w) ∨
    ((linenoiseNoTTY w input).map Prod.fst = some none ∧
      ptrdiffMax w < 2 * input.length + 32) :=
  readLine_eq hw .empty List.not_mem_nil

/-! ## All lines -/

theorem nextLine_none {input rest : List UInt8} (h : nextLine input = (none, rest)) : input = [] := by
  by_cases hmem : 10 ∈ input
  · obtain ⟨text, after, rfl, htext⟩ := List.eq_append_cons_of_mem hmem
    rw [nextLine_break htext] at h
    cases h
  · rw [nextLine_end hmem] at h
    by_contra hempty
    rw [if_neg hempty] at h
    cases h

theorem nextLine_some {input rest : List UInt8} {s : CString} (h : nextLine input = (some s, rest)) :
    fileLines input = s :: fileLines rest ∧ rest.length < input.length := by
  by_cases hmem : 10 ∈ input
  · obtain ⟨text, after, rfl, htext⟩ := List.eq_append_cons_of_mem hmem
    rw [nextLine_break htext] at h
    obtain ⟨rfl, rfl⟩ : CString.ofBytes text = s ∧ after = rest := by simpa using h
    have hparts : (text ++ 10 :: after).splitOn 10 = text :: after.splitOn 10 := by
      rw [List.splitOn_append_cons_self, List.splitOn_eq_singleton htext]
      rfl
    refine ⟨?_, by rw [List.length_append, List.length_cons]; omega⟩
    unfold fileLines
    rw [hparts]
    rcases hafter : after.splitOn 10 with _ | ⟨part, parts⟩
    · exact absurd hafter (List.splitOn_ne_nil 10 after)
    · dsimp only
      rw [List.getLast?_cons_cons]
      split
      · rfl
      · rfl
  · rw [nextLine_end hmem] at h
    by_cases hempty : input = []
    · rw [if_pos hempty] at h
      cases h
    rw [if_neg hempty] at h
    obtain ⟨rfl, rfl⟩ : CString.ofBytes input = s ∧ [] = rest := by simpa using h
    refine ⟨?_, List.length_pos_iff.mpr hempty⟩
    have hparts : input.splitOn 10 = [input] := List.splitOn_eq_singleton hmem
    have hlast : [input].getLast? ≠ some [] := by simpa using hempty
    unfold fileLines
    rw [hparts]
    dsimp only
    rw [if_neg hlast]
    rfl

theorem linenoise_file {prompt : CString} {input rest : List UInt8} {h : History}
    {own : σ} {result : Option CString}
    (hline : linenoiseNoTTY w input = some (result, rest)) :
    linenoise prompt (⟨.file input, h, own⟩ : Shell w σ) = .ok result ⟨.file rest, h, own⟩ := by
  unfold linenoise
  rw [bind_of_ok (rfl : (get : EStateM Halt (Shell w σ) (Shell w σ)) _ = .ok _ _)]
  dsimp only
  rw [hline]
  rfl

/-- One round of the loop. -/
theorem repl_step {rounds : Nat} {s s' : Shell w σ} {line : CString} {r : Int} {h : History}
    (hline : linenoise (.ofString "nerves_initramfs> ") s = .ok (some line) s')
    (hadd : linenoiseHistoryAdd w s'.history line = some (r, h)) :
    repl evalString (rounds + 1) s
      = (evaluating (evalString line) >>= fun _ => repl evalString rounds)
        { s' with history := h } := by
  have hread : (EStateM.adaptExcept .reading (linenoise (.ofString "nerves_initramfs> ")) :
      EStateM (Ended ε) (Shell w σ) (Option CString)) s = .ok (some line) s' := by
    unfold EStateM.adaptExcept
    rw [hline]
  rw [repl, bind_of_ok hread]
  dsimp only
  rw [bind_of_ok (rfl : (get : EStateM (Ended ε) (Shell w σ) (Shell w σ)) s' = .ok s' s'), hadd]
  rfl

theorem ensures_evaluating {m : EStateM ε σ Unit} {s : Shell w σ}
    {post : Unit → Shell w σ → Prop} {stop : Ended ε → Shell w σ → Prop} :
    Ensures (evaluating m) s post stop ↔
      Ensures m s.own (fun _ own => post () { s with own := own })
        fun e own => stop (.evaluating e) { s with own := own } := by
  unfold Ensures evaluating
  cases m s.own <;> rfl

/-- The lines of a list are evaluated one after the other. -/
def evalLines (evalString : CString → EStateM ε σ Unit) : List CString → EStateM ε σ Unit
  | [] => pure ()
  | line :: rest => do
    evalString line
    evalLines evalString rest

/-- `eval_string` has stopped the program at `line`: the lines of the file before it have been
evaluated, and those behind it are still to be read. -/
structure StoppedAt (evalString : CString → EStateM ε σ Unit) (input : List UInt8) (own : σ)
    (before : List CString) (line : CString) (e : ε) (s : Shell w σ) : Prop where
  lines : ∃ rest, s.stdin = .file rest ∧ fileLines input = before ++ line :: fileLines rest
  evaluated : ∃ own1, evalLines evalString before own = .ok () own1 ∧
    evalString line own1 = .error e s.own

end

/-- An `eval_string` that keeps the lines, until the device is turned off. -/
def keepLine (line : CString) : EStateM Unit (List CString) Unit := do
  modify (· ++ [line])
  if line = .ofString "poweroff()" then throw () else pure ()

end NervesInitramfs.Linenoise
