import NervesInitramfs.CLib.Proofs.FlexProofs
import NervesInitramfs.Script.Tokens

/-!
# Tokens of texts that are put together

A newline never is part of a token, a comment or a string, so that the tokens of two texts with a
newline between them are those of the one and then those of the other. With a semicolon between them
that holds when the first text does not end in a comment or behind an open quote.
-/

namespace NervesInitramfs

open CLib

/-! ## Modes -/

theorem modes_newline (mode : Mode) (u v : List UInt8) :
    (u ++ 10 :: v).foldl Mode.next mode = v.foldl Mode.next .code := by
  rw [List.foldl_append, List.foldl_cons]
  rfl

theorem modes_code {u : List UInt8} (hu : ∀ c ∈ u, c ≠ 34 ∧ c ≠ 35) :
    u.foldl Mode.next .code = .code := by
  induction u with
  | nil => rfl
  | cons c u ih =>
    rw [List.forall_mem_cons] at hu
    rw [List.foldl_cons]
    have hnext : Mode.next .code c = .code := by simp [Mode.next, hu.1.1, hu.1.2]
    rw [hnext, ih hu.2]

theorem modes_string {u : List UInt8} (hu : ∀ c ∈ u, c ≠ 34 ∧ c ≠ 10) :
    u.foldl Mode.next .string = .string := by
  induction u with
  | nil => rfl
  | cons c u ih =>
    rw [List.forall_mem_cons] at hu
    rw [List.foldl_cons]
    have hnext : Mode.next .string c = .string := by simp [Mode.next, hu.1.1, hu.1.2]
    rw [hnext, ih hu.2]

theorem modes_comment {u : List UInt8} (hu : ∀ c ∈ u, c ≠ 10) :
    u.foldl Mode.next .comment = .comment := by
  induction u with
  | nil => rfl
  | cons c u ih =>
    rw [List.forall_mem_cons] at hu
    rw [List.foldl_cons]
    have hnext : Mode.next .comment c = .comment := by simp [Mode.next, hu.1]
    rw [hnext, ih hu.2]

/-! ## The rules -/

theorem lexerRules_cases {rule : ScanRule ParserLexeme} (h : rule ∈ lexerRules) :
    rule.pattern = commentPattern ∨ rule.pattern = stringPattern ∨
      (rule.pattern.avoids 34 = true ∧ rule.pattern.avoids 35 = true ∧
        (rule.pattern.avoids 59 || rule.pattern.isByte) = true) := by
  unfold lexerRules at h
  repeat' first
    | exact absurd h List.not_mem_nil
    | rcases List.mem_cons.mp h with rfl | h
  all_goals first
    | exact .inl rfl
    | exact .inr (.inl rfl)
    | exact .inr (.inr (by decide))

theorem lexerRules_newline {rule : ScanRule ParserLexeme} (h : rule ∈ lexerRules) :
    (rule.pattern.avoids 10 || rule.pattern.isByte) = true := by
  have hall : (lexerRules.all fun rule => rule.pattern.avoids 10 || rule.pattern.isByte) = true := by
    decide
  exact List.all_eq_true.mp hall rule h

theorem matchLength_comment (c : UInt8) (l : List UInt8) :
    commentPattern.matchLength (c :: l) =
      if c = 35 then some (1 + (l.takeWhile fun c => c ≠ 10).length) else none := by
  by_cases hc : c = 35
  · simp [commentPattern, Pattern.matchLength, isByte, hc, Nat.add_comm]
  · simp [commentPattern, Pattern.matchLength, isByte, hc]

/-- The part of a line up to the quote that ends a string. -/
def quoted (l : List UInt8) : List UInt8 := l.takeWhile fun c => c ≠ 34 && c ≠ 10

theorem matchLength_string (c : UInt8) (l : List UInt8) :
    stringPattern.matchLength (c :: l) =
      if c = 34 ∧ (l.drop (quoted l).length).head? = some 34 then some ((quoted l).length + 2)
      else none := by
  by_cases hc : c = 34
  · simp only [stringPattern, Pattern.matchLength, isByte, hc, decide_true, if_true, true_and, quoted,
      drop_length_takeWhile]
    cases l.dropWhile fun c => c ≠ 34 && c ≠ 10 with
    | nil => rfl
    | cons d l' =>
      by_cases hd : d = 34
      · simp [Pattern.matchLength, isByte, hd]
        omega
      · simp [Pattern.matchLength, isByte, hd]
  · simp [stringPattern, Pattern.matchLength, isByte, hc]

/-! ## Separators -/

/-- What a rule matches at a separator does not depend on what follows. -/
theorem matchLength_separator (sep : Separator) {rule : ScanRule ParserLexeme}
    (hrule : rule ∈ lexerRules) (l : List UInt8) :
    rule.pattern.matchLength (sep.byte :: l) = rule.pattern.matchLength [sep.byte] := by
  have hplain : (rule.pattern.avoids sep.byte || rule.pattern.isByte) = true →
      rule.pattern.matchLength (sep.byte :: l) = rule.pattern.matchLength [sep.byte] := by
    intro h
    rcases Bool.or_eq_true_iff.mp h with havoids | hbyte
    · exact (Pattern.matchLength_stops havoids [] l).trans
        (Pattern.matchLength_stops havoids [] []).symm
    · exact Pattern.matchLength_byte hbyte _ [] l
  cases sep with
  | newline => exact hplain (lexerRules_newline hrule)
  | semicolon =>
    rcases lexerRules_cases hrule with hcomment | hstring | ⟨-, -, h⟩
    · rw [hcomment, Separator.byte, matchLength_comment, matchLength_comment]
      rfl
    · rw [hstring, Separator.byte, matchLength_string, matchLength_string]
      rfl
    · exact hplain h

/-- A separator is passed over. -/
theorem yylex_separator (sep : Separator) (l : List UInt8) : yylex (sep.byte :: l) = yylex l := by
  have hcongr := longestMatch_congr fun rule hrule => matchLength_separator sep hrule l
  have halone : (longestMatch lexerRules [sep.byte]).map
      (fun found => (found.1, (found.2 [sep.byte]).isNone)) = some (1, true) := by
    cases sep <;> decide
  obtain ⟨⟨n, action⟩, hfound, hn⟩ := Option.map_eq_some_iff.mp halone
  obtain ⟨rfl, hnone⟩ := Prod.mk.inj hn
  rw [yylex, scan_cons_some (hcongr.trans hfound)]
  have hnone : action [sep.byte] = none := Option.isNone_iff_eq_none.mp hnone
  show (action [sep.byte]).toList ++ scan lexerRules l = _
  rw [hnone]
  rfl

/-- Texts with a newline between them. -/
theorem yylex_newline (l r : List UInt8) : yylex (l ++ 10 :: r) = yylex l ++ yylex r := by
  have happend : yylex (l ++ 10 :: r) = yylex l ++ yylex (10 :: r) := by
    refine scan_append (fun c l _ rule hrule => ?_) (fun _ _ _ _ => trivial)
      (fun _ _ _ _ _ _ _ _ => trivial) (show (fun _ => True) l from trivial)
    rcases Bool.or_eq_true_iff.mp (lexerRules_newline hrule) with havoids | hbyte
    · exact Pattern.matchLength_stops havoids (c :: l) r
    · exact Pattern.matchLength_byte hbyte c l _
  rw [happend]
  exact congrArg (yylex l ++ ·) (yylex_separator .newline r)

/-- A run of bytes that does not reach the end of a text is the same when the text goes on. -/
theorem takeWhile_append_of_stop {q : UInt8 → Bool} {l : List UInt8} {d : UInt8} (hd : d ∈ l)
    (hq : q d = false) (r : List UInt8) : (l ++ r).takeWhile q = l.takeWhile q := by
  obtain ⟨u, v, rfl⟩ := List.append_of_mem hd
  rw [List.append_assoc, List.cons_append, takeWhile_stops hq, takeWhile_stops hq]

theorem not_mem_takeWhile {q : UInt8 → Bool} {d : UInt8} {l : List UInt8} (hq : q d = false) :
    d ∉ l.takeWhile q := by
  intro hd
  have h := List.mem_takeWhile_imp hd
  rw [hq] at h
  exact nomatch h

/-- Behind an open quote there is a quote or the end of the line, if the text does not end there. -/
theorem exists_stop_of_string {l : List UInt8} (hl : l.foldl Mode.next .string = .code) :
    ∃ d ∈ l, (d ≠ 34 && d ≠ 10) = false := by
  by_contra hnone
  have hall : ∀ c ∈ l, c ≠ 34 ∧ c ≠ 10 := by
    intro c hc
    have hgoes : (c ≠ 34 && c ≠ 10) = true := by
      by_contra hstop
      exact hnone ⟨c, hc, Bool.eq_false_iff.mpr hstop⟩
    simpa using hgoes
  rw [modes_string hall] at hl
  exact nomatch hl

theorem mem_newline_of_comment {l : List UInt8} (hl : l.foldl Mode.next .comment = .code) :
    10 ∈ l := by
  by_contra hnone
  rw [modes_comment fun c hc => by rintro rfl; exact hnone hc] at hl
  exact nomatch hl

/-- The line behind an open quote, split where it ends. -/
theorem quoted_split {l : List UInt8} (hl : l.foldl Mode.next .string = .code) :
    ∃ d v, l = quoted l ++ d :: v ∧ l.drop (quoted l).length = d :: v ∧ (d = 34 ∨ d = 10) := by
  obtain ⟨e, he, hstop⟩ := exists_stop_of_string hl
  have hsplit := List.takeWhile_append_dropWhile (p := fun c : UInt8 => c ≠ 34 && c ≠ 10) (l := l)
  cases hdrop : l.dropWhile fun c => c ≠ 34 && c ≠ 10 with
  | nil =>
    rw [hdrop, List.append_nil] at hsplit
    rw [← hsplit] at he
    exact absurd he (not_mem_takeWhile hstop)
  | cons d v =>
    refine ⟨d, v, by rw [quoted, ← hdrop, hsplit], (drop_length_takeWhile _ l).trans hdrop, ?_⟩
    have hd := List.head?_dropWhile_not (fun c : UInt8 => c ≠ 34 && c ≠ 10) l
    rw [hdrop] at hd
    by_cases h34 : d = 34
    · exact .inl h34
    · exact .inr (by simpa [h34] using hd)

/-- A round of the scanner that starts outside of strings and comments ends there. -/
theorem modes_drop {c : UInt8} {l : List UInt8} (hl : modeAfter (c :: l) = .code)
    {rule : ScanRule ParserLexeme} (hrule : rule ∈ lexerRules) {n : Nat}
    (hn : rule.pattern.matchLength (c :: l) = some n) : modeAfter ((c :: l).drop n) = .code := by
  rcases lexerRules_cases hrule with hcomment | hstring | ⟨hquote, hhash, -⟩
  · rw [hcomment, matchLength_comment] at hn
    by_cases hc : c = 35
    · subst hc
      rw [if_pos rfl] at hn
      obtain rfl := Option.some.inj hn
      have hin : l.foldl Mode.next .comment = .code := hl
      rw [Nat.add_comm, List.drop_succ_cons, drop_length_takeWhile]
      rw [← List.takeWhile_append_dropWhile (p := fun c : UInt8 => c ≠ 10) (l := l), List.foldl_append,
        modes_comment fun d hd => by simpa using List.mem_takeWhile_imp hd] at hin
      cases hdrop : l.dropWhile fun c => c ≠ 10 with
      | nil => rfl
      | cons d v =>
        have hd := List.head?_dropWhile_not (fun c : UInt8 => c ≠ 10) l
        rw [hdrop] at hd hin
        obtain rfl : d = 10 := by simpa using hd
        exact hin
    · rw [if_neg hc] at hn
      exact nomatch hn
  · rw [hstring, matchLength_string] at hn
    by_cases hc : c = 34 ∧ (l.drop (quoted l).length).head? = some 34
    · rw [if_pos hc] at hn
      obtain rfl := Option.some.inj hn
      obtain ⟨rfl, hclosed⟩ := hc
      have hin : l.foldl Mode.next .string = .code := hl
      obtain ⟨d, v, hsplit, hdrop, -⟩ := quoted_split hin
      rw [hdrop] at hclosed
      obtain rfl : d = 34 := Option.some.inj hclosed
      have hrest : (34 :: l).drop ((quoted l).length + 2) = v := by
        rw [List.drop_succ_cons, ← List.drop_drop, hdrop]
        rfl
      rw [hrest]
      rw [hsplit, List.foldl_append, modes_string fun c hc => by
        simpa using List.mem_takeWhile_imp hc] at hin
      exact hin
    · rw [if_neg hc] at hn
      exact nomatch hn
  · have hmatched : ∀ d ∈ (c :: l).take n, d ≠ 34 ∧ d ≠ 35 := by
      intro d hd
      refine ⟨?_, ?_⟩
      · rintro rfl
        exact Pattern.not_mem_matched hquote hn hd
      · rintro rfl
        exact Pattern.not_mem_matched hhash hn hd
    rw [modeAfter, ← List.take_append_drop n (c :: l), List.foldl_append, modes_code hmatched] at hl
    exact hl

/-- So does one in which no rule matches. -/
theorem modes_tail {c : UInt8} {l : List UInt8} (hl : modeAfter (c :: l) = .code)
    (hnone : longestMatch lexerRules (c :: l) = none) : modeAfter l = .code := by
  by_cases hhash : c = 35
  · subst hhash
    have hcomment : skipped commentPattern ∈ lexerRules :=
      List.mem_cons_of_mem _ List.mem_cons_self
    have hmatch : commentPattern.matchLength (35 :: l) =
        some ((l.takeWhile fun c => c ≠ 10).length + 1) := by
      rw [matchLength_comment, if_pos rfl, Nat.add_comm]
    exact absurd hnone (longestMatch_ne_none hcomment hmatch)
  · by_cases hquote : c = 34
    · subst hquote
      have hin : l.foldl Mode.next .string = .code := hl
      obtain ⟨d, v, hsplit, hdrop, rfl | rfl⟩ := quoted_split hin
      · have hstring : ⟨stringPattern, stringLexeme⟩ ∈ lexerRules := by
          simp only [lexerRules, List.mem_cons, true_or, or_true]
        have hmatch : stringPattern.matchLength (34 :: l) = some ((quoted l).length + 2) :=
          (matchLength_string 34 l).trans (if_pos ⟨rfl, by rw [hdrop]; rfl⟩)
        exact absurd hnone (longestMatch_ne_none hstring hmatch)
      · rw [hsplit, modes_newline] at hin
        rw [modeAfter, hsplit, modes_newline]
        exact hin
    · have hnext : Mode.next .code c = .code := by simp [Mode.next, hquote, hhash]
      rw [modeAfter, List.foldl_cons, hnext] at hl
      exact hl

/-- What a rule matches inside a text that ends outside of strings and comments does not depend on
what is behind a semicolon at its end. -/
theorem matchLength_semicolon {c : UInt8} {l : List UInt8} (hl : modeAfter (c :: l) = .code)
    {rule : ScanRule ParserLexeme} (hrule : rule ∈ lexerRules) (r : List UInt8) :
    rule.pattern.matchLength (c :: l ++ 59 :: r) = rule.pattern.matchLength (c :: l) := by
  rcases lexerRules_cases hrule with hcomment | hstring | ⟨-, -, h⟩
  · rw [hcomment, List.cons_append, matchLength_comment, matchLength_comment]
    by_cases hc : c = 35
    · subst hc
      have hin : l.foldl Mode.next .comment = .code := hl
      rw [takeWhile_append_of_stop (mem_newline_of_comment hin) (by decide)]
    · rw [if_neg hc, if_neg hc]
  · rw [hstring, List.cons_append, matchLength_string, matchLength_string]
    by_cases hc : c = 34
    · subst hc
      have hin : l.foldl Mode.next .string = .code := hl
      obtain ⟨d, hd, hstop⟩ := exists_stop_of_string hin
      have hquoted : quoted (l ++ 59 :: r) = quoted l := takeWhile_append_of_stop hd hstop _
      obtain ⟨e, v, -, hdrop, -⟩ := quoted_split hin
      have hle : (quoted l).length ≤ l.length := (List.takeWhile_sublist _).length_le
      rw [hquoted, List.drop_append_of_le_length hle, hdrop]
      rfl
    · rw [if_neg fun h => hc h.1, if_neg fun h => hc h.1]
  · rcases Bool.or_eq_true_iff.mp h with havoids | hbyte
    · exact Pattern.matchLength_stops havoids (c :: l) r
    · exact Pattern.matchLength_byte hbyte c l _

theorem yylex_semicolon {l : List UInt8} (hl : modeAfter l = .code) (r : List UInt8) :
    yylex (l ++ 59 :: r) = yylex l ++ yylex r := by
  have happend : yylex (l ++ 59 :: r) = yylex l ++ yylex (59 :: r) :=
    scan_append (fun c l hl rule hrule => matchLength_semicolon hl hrule r)
      (fun c l hl hnone => modes_tail hl hnone)
      (fun c l hl rule hrule n _ hn => modes_drop hl hrule hn) hl
  rw [happend]
  exact congrArg (yylex l ++ ·) (yylex_separator .semicolon r)

end NervesInitramfs
