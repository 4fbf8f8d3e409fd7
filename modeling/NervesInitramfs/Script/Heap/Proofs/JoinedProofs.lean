import NervesInitramfs.Script.Heap.Proofs.FollowRunProofs
import NervesInitramfs.Script.Heap.Sequence
import NervesInitramfs.Script.Proofs.LexerProofs
import NervesInitramfs.Script.Proofs.SequenceProofs

/-!
# Proofs: statements in one text

`eval_string` on the heap follows the one on trees, so that a text does on the heap what the
statements in it do one by one, as it does on trees, for as long as the heap is large enough.
-/

namespace NervesInitramfs

open CLib

/-! ## What the parser is fed -/

/-- What is delivered of a text is all of it, unless its length is no `int`. -/
theorem Delivers.eq_bytes {input : CString} {sizes : Nat → Int32} {bytes : List UInt8}
    (hd : Delivers (lexerSetInput input) sizes bytes) (hpos : ∀ i, 0 < (sizes i).toInt)
    (hlen : input.strlen < 2147483648) : bytes = input.bytes := by
  have hsize : (toInt32 input.strlen).toInt = input.bytes.length := toInt_toInt32 hlen
  have hrest := hd.eq_rest hpos 0 rfl (by decide) (by rw [hsize]; exact Int.natCast_nonneg _)
  rw [hrest, hsize, Int32.toInt_zero, Int.sub_zero, Int.toNat_natCast, Int.toNat_zero, List.drop_zero,
    List.take_length]

/-- The parser comes to one result. -/
theorem parses_unique {input : List ParserLexeme} {script script' : Script}
    (h : Parses input script) (h' : Parses input script') : script = script' := by
  obtain ⟨fuel, hrun⟩ := h
  obtain ⟨fuel', hrun'⟩ := h'
  obtain ⟨r, hr, rfl⟩ := Option.map_eq_some_iff.mp hrun
  obtain ⟨r', hr', rfl⟩ := Option.map_eq_some_iff.mp hrun'
  rw [runParser_unique hr hr']

theorem nulFree_joined (lines : List (CString × Separator)) : 0 ∉ joined lines := by
  induction lines with
  | nil => exact List.not_mem_nil
  | cons line rest ih =>
    obtain ⟨statement, sep⟩ := line
    cases rest with
    | nil => exact statement.nulFree
    | cons next rest =>
      intro hmem
      rcases List.mem_append.mp hmem with hmem | hmem
      · exact statement.nulFree hmem
      · rcases List.mem_cons.mp hmem with heq | hmem
        · cases sep <;> exact absurd heq (by decide)
        · exact ih hmem

/-- No statement is longer than the text that it is in. -/
theorem length_le_joined (lines : List (CString × Separator)) :
    ∀ line ∈ lines, line.1.strlen ≤ (joined lines).length := by
  induction lines with
  | nil => exact List.forall_mem_nil _
  | cons line rest ih =>
    obtain ⟨statement, sep⟩ := line
    cases rest with
    | nil => exact List.forall_mem_singleton.mpr (Nat.le_refl _)
    | cons next rest =>
      have hlen : (joined ((statement, sep) :: next :: rest)).length =
          statement.strlen + 1 + (joined (next :: rest)).length := by
        show (statement.bytes ++ sep.byte :: joined (next :: rest)).length = _
        rw [List.length_append, List.length_cons, CString.strlen]
        omega
      refine List.forall_mem_cons.mpr ⟨?_, fun line hline => ?_⟩
      · show statement.strlen ≤ _
        omega
      · have hrest := ih line hline
        omega

/-- A text that is read as one statement parses as one, unless its length is no `int`. -/
theorem parses_of_readsAlone {lines : List (CString × Separator)} {statements : List StatementSyntax}
    (halone : List.Forall₂ (fun line st => ReadsAlone line.1 st) lines statements)
    (hlen : ∀ line ∈ lines, line.1.strlen < 2147483648) :
    List.Forall₂ (fun line st => Parses (yylex line.1.bytes) ⟨[st], none⟩) lines statements := by
  induction halone with
  | nil => exact .nil
  | cons hline _ ih =>
    obtain ⟨hfirst, hothers⟩ := List.forall_mem_cons.mp hlen
    obtain ⟨sizes, hpos, bytes, hdelivers, hparses⟩ := hline
    rw [hdelivers.eq_bytes hpos hfirst] at hparses
    exact .cons hparses (ih hothers)

/-- Statements that are apart are read as what each of them is read as alone. -/
theorem reads_joined {lines : List (CString × Separator)} {statements : List StatementSyntax}
    (halone : List.Forall₂ (fun line st => ReadsAlone line.1 st) lines statements)
    (hapart : StatementsApart lines) {sizes : Nat → Int32} (hpos : ∀ i, 0 < (sizes i).toInt)
    (hchunks : InTwoChunks (joined lines).length sizes) :
    Reads sizes (.ofBytes (joined lines)) ⟨statements, none⟩ := by
  have hbytes : (CString.ofBytes (joined lines)).bytes = joined lines :=
    takeWhile_of_nulFree (nulFree_joined lines)
  have hlen : ∀ line ∈ lines, line.1.strlen < 2147483648 := fun line hline =>
    (length_le_joined lines line hline).trans_lt hchunks.1
  -- the bytes of the text are the joined lines, as there is no NUL in them
  refine ⟨joined lines, ?_, parses_joined (parses_of_readsAlone halone hlen) hapart⟩
  have hholding : lexerSetInput (.ofBytes (joined lines)) = .holding (joined lines) := by
    rw [lexerSetInput, CString.strlen, hbytes]
    rfl
  rw [hholding]
  exact (delivers_holding hpos).mpr hchunks

end NervesInitramfs

namespace NervesInitramfs.TermHeap

open CLib

section

variable {machine : Machine} {h : HeapState} {s : State} (depth : Nat)

/-! ## One text -/

/-- The statements of a text one after the other, on both sides. -/
theorem follows_evalStatements (statements : List StatementSyntax) (hr : Represents machine [] h s) :
    Refines Excused (evalStatements machine depth statements) h
      (NervesInitramfs.evalStatements machine depth statements) s
      (fun _ h' _ s' => Represents machine [] h' s') (Fails machine) := by
  induction statements generalizing h s with
  | nil => exact refines_pure hr
  | cons statement rest ih =>
    refine Refines.bind (follows_evalStatement depth statement hr) ?_
    rintro p h1 t s1 ⟨hr1, -, hp⟩
    refine refines_bind_left rfl (refines_bind_right rfl ?_)
    exact ih (hr1.toHolding.withResult hp)

/-- A whole text. The last result is dropped first, which the collection may have left dangling. -/
theorem follows_evalScript (script : Script) (hh : Holding machine [] h s) :
    Refines Excused (evalScript machine depth script) h
      (NervesInitramfs.evalScript machine depth script) s
      (fun _ h' _ s' => Represents machine [] h' s') (Fails machine) := by
  refine refines_bind_left rfl (refines_bind_right rfl ?_)
  refine Refines.bind (follows_evalStatements depth script.statements (hh.withResult .null)) ?_
  intro _ h1 _ s1 hr1
  cases script.error with
  | none => exact refines_pure hr1
  | some parts => exact (follows_evalFragments depth parts hr1).represents

/-- A syntax error ends in 1 on both sides, and the interpreter goes on. -/
theorem follows_yyparse (script : Script) (hh : Holding machine [] h s) :
    Refines Excused (yyparse machine depth script) h (NervesInitramfs.yyparse machine depth script) s
      (fun rc h' rc' s' => rc = rc' ∧ Represents machine [] h' s') (Fails machine) := by
  have hscript : Refines Excused (do evalScript machine depth script; pure (0 : Int)) h
      (do NervesInitramfs.evalScript machine depth script; pure (0 : Int)) s
      (fun rc h' rc' s' => rc = rc' ∧ Represents machine [] h' s') (Fails machine) := by
    refine Refines.bind (follows_evalScript depth script hh) ?_
    intro _ h1 _ s1 hr1
    exact refines_pure ⟨rfl, hr1⟩
  refine hscript.tryCatch ?_ ?_
  -- a full heap and a bound that is reached are no syntax errors
  · rintro e (rfl | rfl)
    · rfl
    · rfl
  · intro e h1 e' s1 hf
    obtain rfl := hf.stop
    by_cases hparse : e' = .parseError
    · subst hparse
      exact refines_pure ⟨rfl, hf.goesOn rfl⟩
    · rw [if_neg (fun heq => hparse (HeapStop.stop.inj heq)), if_neg hparse]
      exact refines_throw hf

/-- `eval_string` on both sides. -/
theorem follows_evalString (script : Script) (hr : Represents machine [] h s)
    (hs : Sound machine h) :
    Refines Excused (evalString machine depth script) h
      (NervesInitramfs.evalString machine depth script) s
      (fun rc h' rc' s' => rc = rc' ∧ Represents machine [] h' s') (Fails machine) := by
  refine Refines.bind (hr.termGcHeap hs depth) ?_
  intro _ h1 _ s1 hh1
  exact follows_yyparse depth script hh1

/-! ## The state after a text -/

theorem evalStatements_cons (statement : StatementSyntax) (rest : List StatementSyntax) :
    evalStatements machine depth (statement :: rest) = (do
      evalInput machine depth (.statement statement)
      evalStatements machine depth rest) := by
  rw [evalStatements, evalInput, bind_assoc]

/-- The statements keep the heap in order, also up to a syntax error. -/
theorem ready_evalStatements (statements : List StatementSyntax) (hs : Ready machine h) :
    Ensures (evalStatements machine depth statements) h (fun _ h' => Ready machine h')
      fun e h' => e = .stop .parseError → Ready machine h' := by
  induction statements generalizing h with
  | nil => exact hs
  | cons statement rest ih =>
    rw [evalStatements_cons]
    refine (ready_evalInput depth (.statement statement) hs).bind ?_
    intro _ h1 hs1
    exact ih hs1

/-- After `eval_string` the next one can begin. -/
theorem ready_evalString (script : Script) (hs : Ready machine h) :
    Ensures (evalString machine depth script) h (fun _ h' => Ready machine h')
      fun _ _ => True := by
  refine ensures_bind.mpr ((sound_termGcHeap hs.live depth).mono ?_ fun _ _ _ => trivial)
  rintro _ h1 ⟨hs1, -⟩
  have hstart : Ready machine { h1 with parserResult := none } :=
    ⟨hs1.congr h1.outside none, value_none⟩
  have hscript : Ensures (evalScript machine depth script) h1 (fun _ h' => Ready machine h')
      fun e h' => e = .stop .parseError → Ready machine h' := by
    refine ensures_bind.mpr ?_
    refine (ready_evalStatements depth script.statements hstart).bind ?_
    intro _ h2 hs2
    cases script.error with
    | none => exact hs2
    | some parts => exact ready_evalInput depth (.syntaxError parts) hs2
  refine ensures_tryCatch.mpr (ensures_bind.mpr (hscript.mono (fun _ _ h2 => h2) ?_))
  intro e h2 hs2
  by_cases hparse : e = .stop .parseError
  · rw [if_pos hparse]
    exact hs2 hparse
  · rw [if_neg hparse]
    trivial

/-! ## Several texts -/

/-- Several calls of `eval_string` on both sides, by induction on the texts. -/
theorem follows_evalEach (scripts : List Script) (hr : Represents machine [] h s)
    (hs : Ready machine h) :
    Refines Excused (evalEach machine depth scripts) h
      (NervesInitramfs.evalEach machine depth scripts) s
      (fun rcs h' rcs' s' => rcs = rcs' ∧ Represents machine [] h' s') (Fails machine) := by
  induction scripts generalizing h s with
  | nil => exact refines_pure ⟨rfl, hr⟩
  | cons script rest ih =>
    have hfirst := (follows_evalString depth script hr hs.toSound).and_ensures
      (ready_evalString depth script hs)
    refine Refines.bind hfirst ?_
    rintro rc h1 _ s1 ⟨⟨rfl, hr1⟩, hs1⟩
    refine Refines.bind (ih hr1 hs1) ?_
    rintro rcs h2 _ s2 ⟨rfl, hr2⟩
    exact refines_pure ⟨rfl, hr2⟩

theorem ValueDenotes.exists_term {nodes : List Ptr} {cells : Ptr → Option Cell} {q : Option Ptr}
    {v : Option Term} (hd : ValueDenotes nodes cells q v) {p : Ptr} (hq : q = some p) :
    ∃ u, v = some u ∧ Denotes nodes cells p u := by
  cases hd with
  | null => cases hq
  | term hd =>
    cases hq
    exact ⟨_, rfl, hd⟩

/-- When the variables in the heap can be copied, so can their trees. -/
theorem Copyable.trees (hcopy : Copyable h) (hr : Represents machine [] h s) :
    NervesInitramfs.Copyable s := by
  obtain ⟨l, htable, -, hentries⟩ := hr.table
  have hvalues := hcopy l htable
  unfold NervesInitramfs.Copyable
  generalize s.vars = vars at hentries ⊢
  clear htable
  induction hentries with
  | nil => exact List.forall_mem_nil _
  | @cons e v _ _ hhead _ ih =>
    obtain ⟨hfirst, hothers⟩ := List.forall_mem_cons.mp hvalues
    refine List.forall_mem_cons.mpr ⟨?_, ih hothers⟩
    obtain ⟨p, t, hvalue, hnode, hplain⟩ := hfirst
    obtain ⟨u, hu, hd⟩ := hhead.value.exists_term hvalue
    refine ⟨u, hu, ?_⟩
    rintro handler ps rfl
    cases hd with
    | function hcall _ =>
      rw [hnode] at hcall
      cases hcall
      exact hplain handler _ rfl

/-- When the calls on the heap come to their end, the ones on trees find the same values. -/
theorem CollectsBetween.trees {scripts : List Script} (hr : Represents machine [] h s)
    (hs : Ready machine h) (hend : ¬Exhausted (evalEach machine depth scripts h))
    (hbetween : CollectsBetween machine depth scripts h) :
    NervesInitramfs.CollectsBetween machine depth scripts s := by
  induction scripts generalizing h s with
  | nil => trivial
  | cons script rest ih =>
    cases rest with
    | nil => trivial
    | cons next rest =>
      intro rc s' hrun
      have hfirst : ∀ e t, evalString machine depth script h = .error e t → ¬Excused e := by
        intro e t hheap he
        refine hend ⟨e, t, ?_, he⟩
        rw [evalEach]
        exact bind_of_error hheap
      rcases (follows_evalString depth script hr hs.toSound).both hfirst with
        ⟨_, h', _, s'', hheap, hrun', rfl, hr'⟩ | ⟨e, h', e', s'', -, hrun', -⟩
      · rw [hrun] at hrun'
        cases hrun'
        have hs' := (ready_evalString depth script hs).ok hheap
        obtain ⟨hcopy, hmore⟩ := hbetween _ h' hheap
        refine ⟨hcopy.trees hr', ih hr' hs' ?_ hmore⟩
        rintro ⟨e, h2, hrest, he⟩
        refine hend ⟨e, h2, ?_, he⟩
        rw [evalEach, bind_of_ok hheap]
        exact bind_of_error hrest
      · rw [hrun] at hrun'
        cases hrun'

/-! ## The same effects -/

theorem visible_append (l l' : List Event) : visible (l ++ l') = visible l ++ visible l' :=
  List.filter_append l l'

theorem visible_printed {p : List Event} (hp : p.all Event.isPrinted) : visible p = p := by
  refine List.filter_eq_self.mpr fun e he => ?_
  have hprinted := List.all_eq_true.mp hp e he
  cases e with
  | assigned => cases hprinted
  | _ => rfl

/-- Leaving out the assignments keeps two logs the same. -/
theorem sameLog_visible {l l' : List Event} (hl : SameLog l l') : SameLog (visible l) (visible l') := by
  induction hl with
  | nil => exact .nil
  | @event e l l' _ ih =>
    rw [visible_append, visible_append]
    cases hassigned : e.isAssignment with
    | true =>
      have hnone : visible [e] = [] := by
        simp only [visible, List.filter_cons, hassigned, Bool.not_true, Bool.false_eq_true, if_false,
          List.filter_nil]
      rwa [hnone, List.append_nil, List.append_nil]
    | false =>
      have hone : visible [e] = [e] := by
        simp only [visible, List.filter_cons, hassigned, Bool.not_false, if_true, List.filter_nil]
      rw [hone]
      exact .event e ih
  | @listed l l' p p' _ hp hp' ih =>
    have hcalled : ∀ p : List Event, visible (.called .vars :: p) = .called .vars :: visible p :=
      fun _ => rfl
    rw [visible_append, visible_append, hcalled, hcalled, visible_printed hp, visible_printed hp']
    exact .listed ih hp hp'

theorem sameOutside_of_effects {h' : HeapState} {s' : State} (ha : Alike h.outside s)
    (ha' : Alike h'.outside s') (hsame : SameEffects s s') : SameOutside h h' where
  env := by rw [ha.env, hsame.env, ha'.env]
  world := by rw [ha.world, hsame.world, ha'.world]
  log := by
    rw [ha.log, ha'.log]
    exact sameLog_visible hsame.log

/-- What holds of the trees holds of the heap, when it is large enough. -/
theorem sameOutcome_of_trees {statements : List StatementSyntax} (hr : Represents machine [] h s)
    (hs : Ready machine h) (hend : ¬Exhausted (evalString machine depth ⟨statements, none⟩ h))
    {scripts : List Script} (hends : ¬Exhausted (evalEach machine depth scripts h))
    (hsame : NervesInitramfs.SameOutcome
      (NervesInitramfs.evalString machine depth ⟨statements, none⟩ s)
      (NervesInitramfs.evalEach machine depth scripts s)) :
    SameOutcome machine (evalString machine depth ⟨statements, none⟩ h)
      (evalEach machine depth scripts h) := by
  have hone := (follows_evalString depth ⟨statements, none⟩ hr hs.toSound).both
    fun e t hrun he => hend ⟨e, t, hrun, he⟩
  have heach := (follows_evalEach depth scripts hr hs).both fun e t hrun he => hends ⟨e, t, hrun, he⟩
  rcases hone with ⟨rc, h1, _, s1, hrun, hrun1, rfl, hr1⟩ | ⟨e, h1, e', s1, hrun, hrun1, hf1⟩
  · rcases heach with ⟨rcs, h2, _, s2, hruns, hrun2, rfl, hr2⟩ | ⟨e, h2, e', s2, -, hrun2, -⟩
    · rw [hrun1, hrun2] at hsame
      rw [hrun, hruns]
      cases hsame with
      | returned hrcs heffects =>
        exact .returned hrcs ⟨s1, s2, hr1, hr2, heffects.vars⟩
          (sameOutside_of_effects hr1.outside hr2.outside heffects)
    · rw [hrun1, hrun2] at hsame
      cases hsame
  · rcases heach with ⟨rcs, h2, _, s2, -, hrun2, -, -⟩ | ⟨e2, h2, e2', s2, hruns, hrun2, hf2⟩
    · rw [hrun1, hrun2] at hsame
      cases hsame
    · rw [hrun1, hrun2] at hsame
      rw [hrun, hruns]
      cases hsame with
      | stopped heffects =>
        rw [hf1.stop, hf2.stop]
        exact .stopped (sameOutside_of_effects hf1.outside hf2.outside heffects)

end

/-! ## The result -/

/-- There is a state of the interpreter on trees for every one that the heap can come to. -/
theorem Reachable.represents {machine : Machine} {h : HeapState} (hreach : Reachable machine h) :
    ∃ s, Represents machine [] h s := by
  obtain ⟨h0, hstarted, hrun⟩ := hreach
  have hready := hstarted.ready
  obtain ⟨depth, argv, world, hboot⟩ := hstarted
  obtain ⟨_, s0, -, hr0⟩ := (follows_initializeScriptDefaults depth argv world).ok hboot
  have hboth : ∃ s, Represents machine [] h s ∧ Ready machine h := by
    induction hrun with
    | refl => exact ⟨s0, hr0, hready⟩
    | tail _ hstep ih =>
      obtain ⟨i, hstep⟩ := hstep
      obtain ⟨s, hr, hs⟩ := ih
      obtain ⟨s', -, hr', hs'⟩ := hstep.simulated hr hs
      exact ⟨s', hr', hs'⟩
  obtain ⟨s, hr, -⟩ := hboth
  exact ⟨s, hr⟩

/-- The lexer has room for eight kilobytes every time. -/
def eightKilobytes : Nat → Int32 := fun _ => 8192

/-- `x = 1` -/
def assignmentOfOne : StatementSyntax := .action (.assignment letterX (.number 10 (text "1")))

/-- `print("z")` -/
def printZ : ActionSyntax := .functionCall namePrint [.string (.ofString "z")]

theorem known_printZ : printZ.Calls KnownCall KnownCall := ⟨rfl, trivial, trivial⟩

theorem eightKilobytes_pos (i : Nat) : 0 < (eightKilobytes i).toInt := by
  show (0 : Int) < (8192 : Int32).toInt
  decide

/-- What fits into the first piece is fed in one. -/
theorem inTwoChunks_of_le {n : Nat} (hn : n ≤ 8192) : InTwoChunks n eightKilobytes := by
  have hsize : ∀ i, (eightKilobytes i).toInt = 8192 := fun _ => rfl
  simp only [InTwoChunks, hsize]
  omega

theorem readsAlone_of_parses {line : CString} {st : StatementSyntax} (hlen : line.strlen ≤ 8192)
    (hparses : Parses (yylex line.bytes) ⟨[st], none⟩) : ReadsAlone line st :=
  ⟨eightKilobytes, eightKilobytes_pos, line.bytes,
    (delivers_holding eightKilobytes_pos).mpr (inTwoChunks_of_le hlen), hparses⟩

theorem readsAlone_assignmentOfOne : ReadsAlone (.ofString "x = 1") assignmentOfOne :=
  readsAlone_of_parses (by decide) ⟨100, by set_option maxRecDepth 4000 in rfl⟩

/-- Every variable has a value that is no call. -/
def valuesCopied (h : HeapState) : Bool :=
  ((tableOf h.cells 20 h.vars).map fun l => l.all fun e =>
    match e.value.bind h.cells with
    | some (.term ⟨.function _ _, _⟩) => false
    | some (.term _) => true
    | _ => false).getD false

theorem copyable_of_valuesCopied {h : HeapState} (hcheck : valuesCopied h = true) : Copyable h := by
  unfold valuesCopied at hcheck
  cases htable : tableOf h.cells 20 h.vars with
  | none =>
    rw [htable] at hcheck
    cases hcheck
  | some l =>
    rw [htable] at hcheck
    intro l' htable' e he
    obtain rfl := htable'.unique (table_of_tableOf htable)
    have hvalue := List.all_eq_true.mp hcheck e he
    rcases hp : e.value with _ | p
    · rw [hp] at hvalue
      cases hvalue
    · rw [hp, Option.bind_some] at hvalue
      rcases hc : h.cells p with _ | ⟨data, next⟩ | str
      · rw [hc] at hvalue
        cases hvalue
      · refine ⟨p, ⟨data, next⟩, rfl, hc, ?_⟩
        rintro handler ps rfl
        rw [hc] at hvalue
        cases hvalue
      · rw [hc] at hvalue
        cases hvalue

/-- What a run comes to passes a test. -/
def passes {α : Type} (m : HeapInterp α) (h : HeapState) (test : α → HeapState → Bool) : Bool :=
  match m h with
  | .ok a h' => test a h'
  | .error _ _ => false

theorem exists_of_passes {α : Type} {m : HeapInterp α} {h : HeapState} {test : α → HeapState → Bool}
    (hcheck : passes m h test = true) : ∃ a h', m h = .ok a h' ∧ test a h' = true := by
  unfold passes at hcheck
  cases hrun : m h with
  | ok a h' =>
    rw [hrun] at hcheck
    exact ⟨a, h', rfl, hcheck⟩
  | error e h' =>
    rw [hrun] at hcheck
    cases hcheck

theorem not_exhausted {α : Type} {r : EStateM.Result HeapStop HeapState α} {a : α} {h : HeapState}
    (hr : r = .ok a h) : ¬Exhausted r := by
  rintro ⟨e, h', hstop, -⟩
  rw [hr] at hstop
  cases hstop

/-- `-x == 2 -> print("z")` -/
def ruleOnMinus : StatementSyntax :=
  .rule (.comparison .eq (.neg (.identifier letterX)) (.number 10 (text "2"))) [printZ]

/-- `x = 1 - x`, with a token behind it that begins no statement. -/
def subtractedScript : Script :=
  ⟨[.action (.assignment letterX (.subtract (.number 10 (text "1")) (.identifier letterX)))], some []⟩

end NervesInitramfs.TermHeap
