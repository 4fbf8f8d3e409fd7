import NervesInitramfs.CLib.Proofs.CNumberProofs
import NervesInitramfs.Script.Proofs.RuleProofs
import NervesInitramfs.Script.Proofs.TokenProofs

/-!
# Proofs: numerals in scripts and in strings

The scanner tells `strtoul` in which base a numeral is written. Of a string, `strtoull` finds that
out for itself, and takes a zero at the front for the mark of an octal number.
-/

namespace NervesInitramfs

open CLib

/-! ## The tokens -/

/-- The text matches the rule `hex_number` or `dec_number`, which reads it in the given base. -/
inductive IsNumeral : Nat → List UInt8 → Prop
  | hex {yytext : List UInt8} (matched : hexNumberPattern.matchLength yytext = some yytext.length) :
    IsNumeral 16 yytext
  | dec {yytext : List UInt8} (matched : decNumberPattern.matchLength yytext = some yytext.length) :
    IsNumeral 10 yytext

theorem isDigit_of_digit {c : UInt8} (h : digit c = true) : IsDigit c := by
  simpa [digit, IsDigit] using h

theorem digits_of_matched {l : List UInt8} (h : decNumberPattern.matchLength l = some l.length) :
    l ≠ [] ∧ ∀ c ∈ l, IsDigit c := by
  simp only [decNumberPattern, Pattern.matchLength] at h
  by_cases hempty : (l.takeWhile digit).isEmpty
  · simp [hempty] at h
  · simp only [hempty, Bool.false_eq_true, if_false, Option.map_some, Option.some.injEq,
      Nat.zero_add] at h
    have hall : l.takeWhile digit = l := (List.takeWhile_prefix _).eq_of_length h
    refine ⟨?_, fun c hc => ?_⟩
    · rintro rfl
      exact hempty rfl
    · rw [← hall] at hc
      exact isDigit_of_digit (List.mem_takeWhile_imp hc)

theorem startsHex_of_hexDigit {c : UInt8} (h : hexDigit c = true) (l : List UInt8) :
    startsHex (c :: l) = true := by
  simp only [hexDigit, digit, Bool.or_eq_true, Bool.and_eq_true, decide_eq_true_eq,
    UInt8.le_iff_toNat_le, UInt8.reduceToNat] at h
  simp only [startsHex, digitValue, UInt8.le_iff_toNat_le, UInt8.reduceToNat]
  split <;> grind

theorem hex_of_matched {l : List UInt8} (h : hexNumberPattern.matchLength l = some l.length) :
    ∃ c rest, l = 48 :: 120 :: c :: rest ∧ startsHex (c :: rest) = true := by
  match l with
  | [] | [_] | [_, _] => simp [hexNumberPattern, Pattern.matchLength, isByte] at h
  | x :: y :: c :: rest =>
    simp only [hexNumberPattern, Pattern.matchLength, isByte] at h
    by_cases hx : x = 48
    · by_cases hy : y = 120
      · subst hx hy
        refine ⟨c, rest, rfl, startsHex_of_hexDigit ?_ rest⟩
        by_contra hc
        simp [hc] at h
      · simp [hy] at h
    · simp [hx] at h

/-- The two readings of a numeral, and when they are the same. -/
theorem IsNumeral.read {base : Nat} {yytext : List UInt8} (h : IsNumeral base yytext) :
    ∃ m n, scanInteger base yytext = (false, m) ∧ scanInteger 0 yytext = (false, n) ∧ n ≤ m ∧
      (n = m ↔ base = 16 ∨ yytext.head? ≠ some 48 ∨ m < 8) := by
  cases h with
  | hex matched =>
    obtain ⟨c, rest, rfl, hstart⟩ := hex_of_matched matched
    obtain ⟨hsixteen, hopen⟩ := scanInteger_hex hstart
    exact ⟨_, _, hsixteen, hopen, Nat.le_refl _, iff_of_true rfl (.inl rfl)⟩
  | dec matched =>
    obtain ⟨hne, hdigits⟩ := digits_of_matched matched
    obtain ⟨c, rest, rfl⟩ := List.exists_cons_of_ne_nil hne
    obtain ⟨hten, hopen⟩ := scanInteger_digits hdigits
    refine ⟨_, _, hten, hopen, ?_, ?_⟩
    · by_cases hc : c = 48
      · rw [if_pos hc]
        exact digitsValue_octal_le hdigits
      · rw [if_neg hc]
    · by_cases hc : c = 48
      · rw [if_pos hc, digitsValue_octal_iff hdigits, List.head?_cons, hc]
        simp
      · rw [if_neg hc, List.head?_cons]
        simp [hc]

theorem IsNumeral.nulFree {base : Nat} {yytext : List UInt8} (h : IsNumeral base yytext) :
    (CString.ofBytes yytext).bytes = yytext := by
  apply List.takeWhile_eq_self_iff.mpr
  intro c hc
  rw [decide_eq_true_eq]
  rintro rfl
  cases h with
  | hex matched =>
    have hzero : hexNumberPattern.avoids 0 = true := by decide
    have hnot := Pattern.not_mem_matched hzero matched
    rw [List.take_length] at hnot
    exact hnot hc
  | dec matched => exact absurd ((digits_of_matched matched).2 0 hc).1 (by decide)

/-- The rules in front of those for numbers. -/
theorem lexerRules_not_opens {rule : ScanRule ParserLexeme} (hrule : rule ∈ lexerRules.take 24)
    {c : UInt8} (hc : IsDigit c) : rule.pattern.opens c = false := by
  have hall : ((lexerRules.take 24).all fun rule => [48, 49, 50, 51, 52, 53, 54, 55, 56, 57].all
      fun c => !rule.pattern.opens c) = true := by decide
  have hmem : c ∈ [(48 : UInt8), 49, 50, 51, 52, 53, 54, 55, 56, 57] := by
    obtain ⟨hlow, hhigh⟩ := hc
    simp only [List.mem_cons, List.not_mem_nil, or_false]
    grind
  have hopens := List.all_eq_true.mp (List.all_eq_true.mp hall rule hrule) c hmem
  simpa using hopens

/-- The scanner finds one token in a numeral. -/
theorem IsNumeral.yylex {base : Nat} {yytext : List UInt8} (h : IsNumeral base yytext) :
    yylex yytext = [⟨.number, Prod.mk base yytext⟩] := by
  have hmatch : longestMatch lexerRules yytext = some (yytext.length, numberLexeme base) := by
    cases h with
    | hex matched =>
      have hsplit : lexerRules =
        lexerRules.take 24 ++ ⟨hexNumberPattern, numberLexeme 16⟩ :: lexerRules.drop 25 := rfl
      rw [hsplit]
      refine longestMatch_whole ?_ matched fun r hr => ?_
      · rintro rfl
        exact nomatch matched
      · obtain ⟨c, rest, rfl, -⟩ := hex_of_matched matched
        rw [Pattern.matchLength_of_not_opens (lexerRules_not_opens hr ⟨by decide, by decide⟩)]
        exact (Option.some_ne_none _).symm
    | dec matched =>
      obtain ⟨hne, hdigits⟩ := digits_of_matched matched
      have hsplit : lexerRules = (lexerRules.take 24 ++ [⟨hexNumberPattern, numberLexeme 16⟩]) ++
        ⟨decNumberPattern, numberLexeme 10⟩ :: lexerRules.drop 26 := rfl
      rw [hsplit]
      refine longestMatch_whole hne matched fun r hr => ?_
      rcases List.mem_append.mp hr with hr | hr
      · obtain ⟨c, rest, rfl⟩ := List.exists_cons_of_ne_nil hne
        rw [Pattern.matchLength_of_not_opens (lexerRules_not_opens hr (hdigits c (.head rest)))]
        exact (Option.some_ne_none _).symm
      · obtain rfl := List.mem_singleton.mp hr
        intro hhex
        obtain ⟨c, rest, rfl, -⟩ := hex_of_matched hhex
        exact absurd (hdigits 120 (.tail _ (.head _))).2 (by decide)
  cases hl : yytext with
  | nil =>
    rw [hl] at hmatch
    exact absurd (longestMatch_some hmatch).1 (Nat.lt_irrefl 0)
  | cons c rest =>
    rw [hl] at hmatch
    unfold NervesInitramfs.yylex
    rw [scan_cons_some hmatch, List.take_length, List.drop_length]
    rfl

/-! ## What a numeral stands for -/

theorem lexical_ubootEnvStart : (CString.ofString "uboot_env.start").bytes ≠ [] ∧
    (CString.ofString "uboot_env.start").bytes.all identifierByte := by decide

/-- The name of the variable that has the first block of the U-Boot environment. -/
def ubootEnvStart : Identifier := .ofString "uboot_env.start" lexical_ubootEnvStart

/-- `uboot_env.start=N`, as it is on the command line. -/
def startParameter (yytext : List UInt8) : CString :=
  .ofString "uboot_env.start=" ++ .ofBytes yytext

/-- The statement `uboot_env.start = value` of a script. -/
def assignStart (machine : Machine) (depth : Nat) (value : TermSyntax) : Interp Unit := do
  let _ ← evalStatement machine depth (.action (.assignment ubootEnvStart value))

/-- After `set` the environment is sought at the given block. -/
def Selects (machine : Machine) (set : Interp Unit) (s : State) (block : Int32) : Prop :=
  ∃ s', set s = .ok () s' ∧ ∀ depth,
    getVariableAsNumber (termResolve machine (depth + 2)) (.ofString "uboot_env.start") s' =
      .ok block s'

/-- A numeral is one number, as a number and as a string; and it selects one block, on the command
line, in a string and as a number. -/
structure SameNumber (machine : Machine) (base : Nat) (yytext : List UInt8) : Prop where
  number : ∀ depth s, ∃ k, buildTerm machine depth (.number base yytext) s = .ok (.number k) s ∧
    termToNumber (termResolve machine (depth + 1)) (some (.string (.ofBytes yytext))) s = .ok k s
  block : ∀ depth s, ∃ block, Selects machine (setParameter (startParameter yytext)) s block ∧
    Selects machine (assignStart machine (depth + 2) (.string (.ofBytes yytext))) s block ∧
    Selects machine (assignStart machine (depth + 2) (.number base yytext)) s block

section

variable {machine : Machine} {yytext : List UInt8} {s : State}

theorem selects_of_assign {set : Interp Unit} {v : Term} (hlit : v.isLiteral)
    (hset : set s = .ok () (s.assign (.ofString "uboot_env.start") (some v))) :
    Selects machine set s v.asNumber := by
  have hstore : store (s.assign (.ofString "uboot_env.start") (some v)).vars
      (.ofString "uboot_env.start") = some (some v) := by
    rw [State.assign, store_assigned, if_pos rfl]
  refine ⟨_, hset, fun depth => ?_⟩
  obtain ⟨k, hvalue, -, hvar⟩ := (readsAs_of_store machine hlit hstore).number depth
  have hnumber := termToNumber_literal hlit (termResolve_literal machine (depth + 1) hlit
    (s.assign (.ofString "uboot_env.start") (some v)))
  rw [hvalue] at hnumber
  obtain rfl : k = v.asNumber := by injection hnumber
  exact hvar

theorem setParameter_start (h : (CString.ofBytes yytext).bytes = yytext) :
    setParameter (startParameter yytext) =
      setStringVariable (.ofString "uboot_env.start") (.ofBytes yytext) := by
  have hbytes : (startParameter yytext).bytes = text "uboot_env.start" ++ 61 :: yytext := by
    show (CString.ofString "uboot_env.start=").bytes ++ (CString.ofBytes yytext).bytes = _
    rw [h]
    rfl
  have hkey : (text "uboot_env.start").all (· ≠ 61) = true := by decide
  have htake : (text "uboot_env.start" ++ 61 :: yytext).takeWhile (· ≠ 61) = text "uboot_env.start" := by
    rw [List.takeWhile_append_of_pos (List.all_eq_true.mp hkey)]
    simp
  have hdrop : (text "uboot_env.start" ++ 61 :: yytext).dropWhile (· ≠ 61) = 61 :: yytext := by
    rw [List.dropWhile_append_of_pos (List.all_eq_true.mp hkey)]
    simp
  unfold setParameter
  rw [hbytes, htake, hdrop]
  rfl

/-- An assignment of something that the parser makes a literal of. -/
theorem assignStart_literal {syn : TermSyntax} {v : Term} (hlit : v.isLiteral) (depth : Nat)
    (hbuild : buildTerm machine (depth + 2) syn s = .ok v s) :
    assignStart machine (depth + 2) syn s = .ok () (s.assign (.ofString "uboot_env.start") (some v)) := by
  have hcall : buildCall (.ofString "=") [.identifier ubootEnvStart.name, v] s =
      .ok (.function .assign [.identifier ubootEnvStart.name, v]) s := buildCall_eq rfl s
  have hvalue : termResolve machine (depth + 2) (some v) s = .ok (some v) s :=
    termResolve_literal machine (depth + 1) hlit s
  have haction : buildAction machine (depth + 2) (.assignment ubootEnvStart syn) s =
      .ok (.function .assign [.identifier ubootEnvStart.name, v]) s := by
    rw [buildAction, bind_of_ok hbuild]
    exact hcall
  have hhandler : functionAssign (termResolve machine (depth + 2))
      [.identifier ubootEnvStart.name, v] s =
      .ok (some v) (s.assign (.ofString "uboot_env.start") (some v)) := by
    show (termResolve machine (depth + 2) (some v) >>= _) s = _
    rw [bind_of_ok hvalue]
    rfl
  have hrun : runFunctions machine (depth + 2) none
      [.function .assign [.identifier ubootEnvStart.name, v]] s =
      .ok (some v) (s.assign (.ofString "uboot_env.start") (some v)) := by
    show (functionAssign (termResolve machine (depth + 2)) [.identifier ubootEnvStart.name, v] >>= _) s = _
    rw [bind_of_ok hhandler]
    rfl
  have hstatement : evalStatement machine (depth + 2) (.action (.assignment ubootEnvStart syn)) s =
      .ok (some v) (s.assign (.ofString "uboot_env.start") (some v)) := by
    rw [evalStatement, bind_of_ok haction]
    exact hrun
  rw [assignStart, bind_of_ok hstatement]
  rfl

/-- A text is the same number everywhere when `strtoul` and `strtoull` make the same of it. -/
theorem sameNumber_iff {base : Nat} (h : (CString.ofBytes yytext).bytes = yytext) :
    SameNumber machine base yytext ↔
      toInt32 (strtou machine.bits base yytext) = toInt32 (strtou 64 0 yytext) := by
  have hbuild : ∀ depth s, buildTerm machine depth (.number base yytext) s =
      .ok (.number (toInt32 (strtou machine.bits base yytext))) s := by
    intro depth s
    rw [buildTerm]
    rfl
  have hbuild' : ∀ depth s, buildTerm machine depth (.string (.ofBytes yytext)) s =
      .ok (.string (.ofBytes yytext)) s := by
    intro depth s
    rw [buildTerm]
    rfl
  have hnumber : (Term.string (.ofBytes yytext)).asNumber = toInt32 (strtou 64 0 yytext) := by
    show toInt32 (strtou 64 0 (CString.ofBytes yytext).bytes) = _
    rw [h]
  have hread : ∀ depth s, termToNumber (termResolve machine (depth + 1))
      (some (.string (.ofBytes yytext))) s = .ok (toInt32 (strtou 64 0 yytext)) s := by
    intro depth s
    rw [← hnumber]
    exact termToNumber_literal rfl (termResolve_literal machine depth rfl s)
  constructor
  · intro hsame
    obtain ⟨k, hterm, hstring⟩ := hsame.number 0 plainStart
    rw [hbuild] at hterm
    rw [hread] at hstring
    injection hterm with hterm
    injection hterm with hterm
    injection hstring with hstring
    exact hterm.trans hstring.symm
  · intro heq
    refine ⟨fun depth s => ⟨_, hbuild depth s, heq ▸ hread depth s⟩, fun depth s => ?_⟩
    have hset : setParameter (startParameter yytext) s = .ok ()
        (s.assign (.ofString "uboot_env.start") (some (.string (.ofBytes yytext)))) := by
      rw [setParameter_start h]
      rfl
    refine ⟨toInt32 (strtou 64 0 yytext), ?_, ?_, ?_⟩
    · rw [← hnumber]
      exact selects_of_assign rfl hset
    · rw [← hnumber]
      exact selects_of_assign rfl (assignStart_literal rfl depth (hbuild' _ s))
    · rw [← heq]
      exact selects_of_assign rfl (assignStart_literal rfl depth (hbuild _ s))

end

/-- A numeral below `2 ^ 31` is one number everywhere exactly when it is hexadecimal, does not begin
with a zero, or is less than 8. -/
theorem numeral_same_iff (machine : Machine) {base : Nat} {yytext : List UInt8}
    (h : IsNumeral base yytext) (hvalue : denotedInteger base yytext < 2 ^ 31) :
    SameNumber machine base yytext ↔
      base = 16 ∨ yytext.head? ≠ some 48 ∨ denotedInteger base yytext < 8 := by
  obtain ⟨m, n, hscan, hopen, hle, hsame⟩ := h.read
  have hdenoted : denotedInteger base yytext = m := by
    unfold denotedInteger
    rw [hscan]
    rfl
  rw [hdenoted] at hvalue ⊢
  have hm : m < 2 ^ 31 := by omega
  have hwide := machine.wide
  have hbits : 2 ^ 31 ≤ 2 ^ machine.bits := Nat.pow_le_pow_right (by omega) (by omega)
  have hnumber : strtou machine.bits base yytext = m := strtou_eq hscan (hm.trans_le hbits)
  have hstring : strtou 64 0 yytext = n := strtou_eq hopen (by omega)
  rw [sameNumber_iff h.nulFree, hnumber, hstring]
  have height : (m : Int) < 8 ↔ m < 8 := by omega
  rw [height, ← hsame]
  constructor
  · intro heq
    exact (toInt32_injective (by omega) (by omega) heq).symm
  · intro heq
    rw [heq]

theorem numeral_same_hex : SameNumber plainMachine 16 (text "0x1Fa0") :=
  (numeral_same_iff plainMachine (.hex rfl) (by decide)).mpr (.inl rfl)

/-- `010` is ten as a number and eight as a string. -/
theorem numeral_differs : ¬ ∀ (machine : Machine) (base : Nat) (yytext : List UInt8),
    IsNumeral base yytext → denotedInteger base yytext < 2 ^ 31 → SameNumber machine base yytext := by
  intro hall
  have hsame := hall plainMachine 10 (text "010") (.dec rfl) (by decide)
  have heq := (sameNumber_iff rfl).mp hsame
  exact absurd heq (by decide)

end NervesInitramfs
