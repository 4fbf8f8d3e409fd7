import NervesInitramfs.CLib.Proofs.CStringProofs
import NervesInitramfs.Linenoise.Draft

/-!
# Proofs: the history of lines

Each operation does to the lines what it is for, and every string that it allocates is in the array
until it is freed.
-/

namespace NervesInitramfs.Linenoise

open CLib

section

variable {w : Nat} {h h' : History} {lines xs ys : List CString} {line x : CString}

/-! ## Access -/

theorem slot_eq {qs : List (Option Nat)} {p : Option Nat} {rest : List (Option Nat)}
    (hslots : h.history = some (qs ++ p :: rest)) : h.slot (qs.length : Int) = some p := by
  have hnot : ¬ (qs.length : Int) < 0 := by omega
  unfold History.slot
  rw [hslots]
  simp [hnot]

theorem setSlot_eq {qs : List (Option Nat)} {p q : Option Nat} {rest : List (Option Nat)}
    (hslots : h.history = some (qs ++ p :: rest)) :
    h.setSlot (qs.length : Int) q = some { h with history := some (qs ++ q :: rest) } := by
  unfold History.setSlot
  rw [hslots]
  simp

/-- A line, with the pointers before it and after it in the array. -/
theorem Keeps.split (hk : Keeps w h (xs ++ x :: ys)) :
    ∃ qs p rs rest, qs.length = xs.length ∧ h.strings.Owns (qs ++ p :: rs) (xs ++ x :: ys) ∧
      h.history = some (qs.map some ++ some p :: (rs.map some ++ rest)) ∧
      (qs.map some ++ some p :: (rs.map some ++ rest)).length = h.historyMaxLen := by
  obtain ⟨ps, howns, hnone, hsome⟩ := hk.owned
  obtain ⟨qs, p, rs, rfl, hlen⟩ := howns.exists_split
  rcases hhistory : h.history with _ | slots
  · exact absurd (hnone hhistory) (by simp)
  · obtain ⟨hslots, rest, rfl⟩ := hsome slots hhistory
    refine ⟨qs, p, rs, rest, hlen, howns, ?_, ?_⟩
    · simp
    · simpa using hslots

theorem Keeps.line_eq (hk : Keeps w h (xs ++ x :: ys)) : h.line (xs.length : Int) = some x := by
  obtain ⟨qs, p, rs, rest, hlen, howns, hhistory, -⟩ := hk.split
  have hslot := slot_eq hhistory
  rw [List.length_map, hlen] at hslot
  unfold History.line
  rw [hslot]
  exact howns.load hlen

theorem Keeps.freeSlot_eq (hk : Keeps w h (xs ++ x :: ys)) :
    ∃ qs p rs rest m, qs.length = xs.length ∧
      h.history = some (qs.map some ++ some p :: (rs.map some ++ rest)) ∧
      (qs.map some ++ some p :: (rs.map some ++ rest)).length = h.historyMaxLen ∧
      (∀ n, { h with historyLen := n }.freeSlot (xs.length : Int) =
        some { h with strings := m, historyLen := n }) ∧
      m.Owns (qs ++ rs) (xs ++ ys) := by
  obtain ⟨qs, p, rs, rest, hlen, howns, hhistory, hmax⟩ := hk.split
  obtain ⟨m, hfree, hm⟩ := howns.free hlen
  refine ⟨qs, p, rs, rest, m, hlen, hhistory, hmax, fun n => ?_, hm⟩
  have hslot : { h with historyLen := n }.slot (qs.map some).length = some (some p) :=
    slot_eq hhistory
  rw [List.length_map, hlen] at hslot
  unfold History.freeSlot
  rw [hslot]
  simp [hfree]

/-- The pointers that own the lines are the first ones in the array. -/
theorem keeps_mk {m : Store CString} {ps : List Nat} {r : List (Option Nat)} {limit : Nat}
    (hlimit : 0 < limit) (hfits : limit * (w / 8) ≤ ptrdiffMax w) (howns : m.Owns ps lines)
    (hmax : (ps.map some ++ r).length = limit) :
    Keeps w ⟨m, some (ps.map some ++ r), lines.length, limit⟩ lines := by
  refine ⟨hlimit, hfits, rfl, ?_, ps, howns, fun h => absurd h (Option.some_ne_none _), ?_⟩
  · change lines.length ≤ limit
    rw [← hmax, List.length_append, List.length_map, howns.length_eq]
    exact Nat.le_add_right _ _
  · intro slots hslots
    obtain rfl := Option.some.inj hslots
    exact ⟨hmax, r, rfl⟩

/-- A line is replaced: its string is freed, and there is a new one. -/
theorem Keeps.storeLine (hk : Keeps w h (xs ++ x :: ys)) (hfits : line.strlen + 1 ≤ ptrdiffMax w) :
    ∃ h', h.storeLine w (xs.length : Int) line = some h' ∧ h'.historyMaxLen = h.historyMaxLen ∧
      Keeps w h' (xs ++ line :: ys) := by
  obtain ⟨qs, p, rs, rest, m, hlen, hhistory, hmax, hfree, hm⟩ := hk.freeSlot_eq
  have hdup : strdup w m line = (some m.next, m.alloc line) := if_pos hfits
  have hset : { h with strings := m.alloc line }.history =
      some (qs.map some ++ some p :: (rs.map some ++ rest)) := hhistory
  have hstore := setSlot_eq (q := some m.next) hset
  rw [List.length_map, hlen] at hstore
  have hslots : qs.map some ++ some m.next :: (rs.map some ++ rest) =
      (qs ++ m.next :: rs).map some ++ rest := by simp
  have hlines : (xs ++ line :: ys).length = h.historyLen := by
    rw [hk.len, List.length_append, List.length_append]
    rfl
  refine ⟨⟨m.alloc line, some ((qs ++ m.next :: rs).map some ++ rest), (xs ++ line :: ys).length,
    h.historyMaxLen⟩, ?_, rfl, keeps_mk hk.limit hk.fits (hm.alloc hlen line) ?_⟩
  · unfold History.storeLine
    rw [hfree h.historyLen, hlines, ← hslots]
    simp only [Option.bind_eq_bind, Option.bind_some, hdup]
    exact hstore
  · rw [← hslots]
    simpa using hmax

/-- The last line is given up. -/
theorem Keeps.pop (hk : Keeps w h (lines ++ [x])) :
    ∃ h', h.pop = some h' ∧ h'.historyMaxLen = h.historyMaxLen ∧ Keeps w h' lines := by
  obtain ⟨qs, p, rs, rest, m, hlen, hhistory, hmax, hfree, hm⟩ := hk.freeSlot_eq
  have hlast : h.historyLen = lines.length + 1 := by
    rw [hk.len, List.length_append, List.length_singleton]
  obtain rfl : rs = [] := by
    have hlines := hm.length_eq
    rw [List.length_append, List.append_nil] at hlines
    apply List.length_eq_zero_iff.mp
    omega
  rw [List.append_nil, List.append_nil] at hm
  refine ⟨⟨m, some (qs.map some ++ some p :: rest), lines.length, h.historyMaxLen⟩, ?_, rfl,
    keeps_mk hk.limit hk.fits hm hmax⟩
  have hpop := hfree lines.length
  rw [hhistory] at hpop
  unfold History.pop
  rw [if_neg (by omega), hlast, hhistory]
  exact hpop

/-! ## Adding -/

theorem Keeps.allocate (hk : Keeps w h lines) :
    ∃ ps rest, h.allocate w = some { h with history := some (ps.map some ++ rest) } ∧
      (ps.map some ++ rest).length = h.historyMaxLen ∧ h.strings.Owns ps lines := by
  obtain ⟨ps, howns, hnone, hsome⟩ := hk.owned
  unfold History.allocate
  rcases hhistory : h.history with _ | slots
  · obtain rfl := hnone hhistory
    refine ⟨[], List.replicate h.historyMaxLen none, ?_, by simp, howns⟩
    exact if_pos hk.fits
  · obtain ⟨hslots, rest, rfl⟩ := hsome slots hhistory
    have hself : { h with history := some (ps.map some ++ rest) } = h := by rw [← hhistory]
    refine ⟨ps, rest, ?_, hslots, howns⟩
    rw [hself]

theorem Keeps.repeats (hk : Keeps w h lines) (line : CString) :
    h.repeats line = some (decide (lines.getLast? = some line)) := by
  unfold History.repeats
  rcases List.eq_nil_or_concat lines with rfl | ⟨older, last, rfl⟩
  · have hzero : h.historyLen = 0 := hk.len
    rw [if_pos hzero]
    simp
  · rw [List.concat_eq_append] at hk ⊢
    have hlen : h.historyLen = older.length + 1 := by
      rw [hk.len, List.length_append, List.length_singleton]
    have hline : h.line ((h.historyLen : Int) - 1) = some last := by
      rw [hlen]
      have hcast : ((older.length + 1 : Nat) : Int) - 1 = older.length := by omega
      rw [hcast]
      exact hk.line_eq
    rw [if_neg (by omega), hline]
    simp [strcmp_eq_zero]

/-- The oldest string is freed while the new one is not in the array yet. -/
theorem dropOldest_eq {p : Nat} {rest : List (Option Nat)} {m : Store CString}
    (hhistory : h.history = some (some p :: rest)) (hmax : rest.length + 1 = h.historyMaxLen)
    (hfree : h.strings.free (some p) = some m) :
    h.dropOldest = some { h with
      strings := m
      history := some (rest ++ (some p :: rest).drop rest.length)
      historyLen := h.historyLen - 1 } := by
  have hslot : h.slot 0 = some (some p) := @slot_eq _ [] _ _ hhistory
  have hfirst : h.freeSlot 0 = some { h with strings := m } := by
    unfold History.freeSlot
    rw [hslot]
    simp [hfree]
  unfold History.dropOldest
  rw [hfirst]
  simp [hhistory, ← hmax]

/-- `history[history_len] = linecopy;` -/
theorem setSlot_len {m : Store CString} {ps : List Nat} {q : Option Nat}
    {r : List (Option Nat)} {n len limit : Nat} (hlen : ps.length = len) :
    (⟨m, some (ps.map some ++ q :: r), len, limit⟩ : History).setSlot len (some n) =
      some ⟨m, some ((ps ++ [n]).map some ++ r), len, limit⟩ := by
  have hset : (⟨m, some (ps.map some ++ q :: r), len, limit⟩ : History).setSlot
      (ps.map some).length (some n) =
      some ⟨m, some (ps.map some ++ some n :: r), len, limit⟩ := setSlot_eq rfl
  rw [List.length_map, hlen] at hset
  rw [hset]
  simp

/-- A line is added, and the oldest one is given up when there is no room. -/
theorem Keeps.add (hk : Keeps w h lines) (hfits : line.strlen + 1 ≤ ptrdiffMax w) :
    ∃ r h', linenoiseHistoryAdd w h line = some (r, h') ∧ h'.historyMaxLen = h.historyMaxLen ∧
      Keeps w h' (remembered h.historyMaxLen lines line) := by
  obtain ⟨ps, rest, halloc, hmax, howns⟩ := hk.allocate
  have hself : { h with history := some (ps.map some ++ rest) } =
      ⟨h.strings, some (ps.map some ++ rest), lines.length, h.historyMaxLen⟩ := by rw [← hk.len]
  have hk1 : Keeps w ⟨h.strings, some (ps.map some ++ rest), lines.length, h.historyMaxLen⟩ lines :=
    keeps_mk hk.limit hk.fits howns hmax
  rw [hself] at halloc
  have hzero : h.historyMaxLen ≠ 0 := Nat.pos_iff_ne_zero.mp hk.limit
  have hdup : strdup w h.strings line = (some h.strings.next, h.strings.alloc line) := if_pos hfits
  have hnew : (h.strings.alloc line).Owns (ps ++ [h.strings.next]) (lines ++ [line]) := by
    have happend : h.strings.Owns (ps ++ []) (lines ++ []) := by
      rwa [List.append_nil, List.append_nil]
    exact happend.alloc howns.length_eq line
  unfold linenoiseHistoryAdd
  rw [if_neg hzero, halloc]
  simp only [hk1.repeats line, Option.bind_eq_bind, Option.bind_some, decide_eq_true_eq, hdup]
  by_cases hsame : lines.getLast? = some line
  · rw [if_pos hsame, remembered, if_pos hsame]
    exact ⟨0, _, rfl, rfl, hk1⟩
  rw [if_neg hsame, remembered, if_neg hsame]
  by_cases hfull : lines.length = h.historyMaxLen
  · rcases lines with _ | ⟨x, ys⟩
    · exact absurd hfull.symm hzero
    rcases ps with _ | ⟨p, qs⟩
    · exact absurd howns.length_eq (by simp)
    obtain rfl : rest = [] := by
      rw [List.length_append, List.length_map, howns.length_eq, hfull] at hmax
      apply List.length_eq_zero_iff.mp
      omega
    have hsplit : (h.strings.alloc line).Owns ([] ++ p :: (qs ++ [h.strings.next]))
        ([] ++ x :: (ys ++ [line])) := hnew
    obtain ⟨m, hfree, hm⟩ := hsplit.free rfl
    have hlen : qs.length = ys.length := Nat.succ.inj howns.length_eq
    rw [List.append_nil] at hmax ⊢
    have hone : (qs.map some).length + 1 = h.historyMaxLen := hmax
    have hdrop := dropOldest_eq (h := ⟨h.strings.alloc line, some (some p :: qs.map some),
      ys.length + 1, h.historyMaxLen⟩) rfl hone hfree
    obtain ⟨q, hq⟩ : ∃ q, (some p :: qs.map some).drop (qs.map some).length = [q] := by
      rw [← List.length_eq_one_iff, List.length_drop, List.length_cons]
      omega
    have hkeeps : Keeps w ⟨m, some ((qs ++ [h.strings.next]).map some ++ []),
        (ys ++ [line]).length, h.historyMaxLen⟩ (ys ++ [line]) :=
      keeps_mk hk.limit hk.fits hm (by simpa using hone)
    rw [List.length_append, List.length_singleton] at hkeeps
    rw [hq] at hdrop
    rw [if_pos hfull, if_pos hfull]
    simp only [List.map_cons, List.length_cons, hdrop, Option.bind_some, Nat.add_sub_cancel, pure,
      setSlot_len hlen]
    exact ⟨1, _, rfl, rfl, hkeeps⟩
  · obtain ⟨q, r, rfl⟩ : ∃ q r, rest = q :: r := by
      rcases rest with _ | ⟨q, r⟩
      · rw [List.append_nil, List.length_map, howns.length_eq] at hmax
        exact absurd hmax hfull
      · exact ⟨q, r, rfl⟩
    have hkeeps : Keeps w ⟨h.strings.alloc line, some ((ps ++ [h.strings.next]).map some ++ r),
        (lines ++ [line]).length, h.historyMaxLen⟩ (lines ++ [line]) :=
      keeps_mk hk.limit hk.fits hnew (by simpa using hmax)
    rw [List.length_append, List.length_singleton] at hkeeps
    rw [if_neg hfull, if_neg hfull]
    simp only [pure, Option.bind_some, setSlot_len howns.length_eq]
    exact ⟨1, _, rfl, rfl, hkeeps⟩

/-- What was added is the last line. -/
theorem remembered_eq (limit : Nat) (lines : List CString) (line : CString) :
    remembered limit lines line = (remembered limit lines line).dropLast ++ [line] := by
  unfold remembered
  by_cases hsame : lines.getLast? = some line
  · rw [if_pos hsame]
    exact (List.dropLast_append_getLast? line hsame).symm
  · rw [if_neg hsame, List.dropLast_concat]

/-! ## Freeing -/

/-- The first strings are freed one after the other. -/
theorem freeSlots_eq {before ps qs : List Nat} {rest : List (Option Nat)}
    (hhistory : h.history = some (before.map some ++ (ps.map some ++ rest)))
    (howns : h.strings.Owns (ps ++ qs) (xs ++ ys)) (hlen : ps.length = xs.length) :
    ∃ m, h.freeSlots before.length ps.length = some { h with strings := m } ∧ m.Owns qs ys := by
  induction ps generalizing before xs h with
  | nil =>
    obtain rfl : xs = [] := List.length_eq_zero_iff.mp hlen.symm
    exact ⟨h.strings, rfl, howns⟩
  | cons p ps ih =>
    rcases xs with _ | ⟨x, xs⟩
    · exact absurd hlen (by simp)
    have hsplit : h.strings.Owns ([] ++ p :: (ps ++ qs)) ([] ++ x :: (xs ++ ys)) := howns
    obtain ⟨m, hfree, hm⟩ := hsplit.free rfl
    have hslot : h.slot (before.map some).length = some (some p) := slot_eq hhistory
    rw [List.length_map] at hslot
    have hfirst : h.freeSlot before.length = some { h with strings := m } := by
      unfold History.freeSlot
      rw [hslot]
      simp [hfree]
    have hnext : { h with strings := m }.history =
        some ((before ++ [p]).map some ++ (ps.map some ++ rest)) := by
      rw [hhistory]
      simp
    obtain ⟨m', hrest, hm'⟩ := ih hnext hm (Nat.succ.inj hlen)
    refine ⟨m', ?_, hm'⟩
    rw [List.length_append, List.length_singleton] at hrest
    rw [List.length_cons, History.freeSlots, hfirst]
    exact hrest

/-- At the end nothing has leaked and nothing is freed twice. -/
theorem Keeps.freeHistory (hk : Keeps w h lines) :
    ∃ m, freeHistory h = some m ∧ ∀ p, m.cells p = none := by
  obtain ⟨ps, howns, hnone, hsome⟩ := hk.owned
  unfold Linenoise.freeHistory
  rcases hhistory : h.history with _ | slots
  · obtain rfl := hnone hhistory
    obtain rfl : lines = [] := List.length_eq_zero_iff.mp howns.length_eq.symm
    exact ⟨h.strings, rfl, howns.cells_eq_none⟩
  · obtain ⟨-, rest, rfl⟩ := hsome slots hhistory
    have hall : h.strings.Owns (ps ++ []) (lines ++ []) := by
      rwa [List.append_nil, List.append_nil]
    have hslots : h.history = some (([] : List Nat).map some ++ (ps.map some ++ rest)) := hhistory
    obtain ⟨m, hfree, hm⟩ := freeSlots_eq hslots hall howns.length_eq
    have hlen : h.historyLen = ps.length := hk.len.trans howns.length_eq.symm
    refine ⟨m, ?_, hm.cells_eq_none⟩
    change Option.map History.strings (h.freeSlots 0 h.historyLen) = some m
    rw [hlen, ← List.length_nil (α := Nat), hfree]
    rfl

/-- The program starts without a line. -/
theorem keeps_start (hw : 32 ≤ w) : Keeps w .start [] := by
  refine ⟨by decide, ?_, rfl, Nat.zero_le _, [], Store.owns_empty, fun _ => rfl, fun slots h => ?_⟩
  · obtain ⟨u, rfl⟩ : ∃ u, w = u + 12 := ⟨w - 12, by omega⟩
    have hlt : u < 2 ^ u := Nat.lt_two_pow_self
    have hpow : 2 ^ (u + 12 - 1) = 2048 * 2 ^ u := by
      rw [Nat.add_sub_assoc (by decide), Nat.pow_add]
      omega
    change 100 * ((u + 12) / 8) ≤ ptrdiffMax (u + 12)
    unfold ptrdiffMax
    omega
  · cases h

end

end NervesInitramfs.Linenoise
