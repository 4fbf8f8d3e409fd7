import NervesInitramfs.Script.Proofs.AssignProofs

/-!
# Proofs: the command line

The arguments of the program are settings of the interpreter: they are read at the start, and cut off
there. Then the configuration file is evaluated, after the settings have been made.
-/

namespace NervesInitramfs

open CLib

/-! ## What is left of the arguments -/

theorem parameterAfter_eq_self {arg : CString} :
    parameterAfter arg = arg ↔ arg.bytes.head? = some 45 ∨ 61 ∉ arg.bytes := by
  unfold parameterAfter
  by_cases hdash : arg.bytes.head? = some 45
  · simp [hdash]
  · rw [if_neg hdash, or_iff_right hdash]
    have hfree : (0 : UInt8) ∉ arg.bytes.takeWhile (· ≠ 61) :=
      fun h => arg.nulFree ((List.takeWhile_subset _) h)
    have hbytes : (CString.ofBytes (arg.bytes.takeWhile (· ≠ 61))).bytes
        = arg.bytes.takeWhile (· ≠ 61) := takeWhile_of_nulFree hfree
    rw [CString.ext_iff, hbytes, List.takeWhile_eq_self_iff]
    constructor
    · intro h hin
      exact absurd (h 61 hin) (by decide)
    · intro h c hc
      have hne : c ≠ 61 := by
        rintro rfl
        exact h hc
      simpa using hne

theorem argvAfter_eq_self {argv : List CString} :
    argvAfter argv = argv ↔ ∀ arg ∈ argv.tail, arg.bytes.head? = some 45 ∨ 61 ∉ arg.bytes := by
  cases argv with
  | nil => simp [argvAfter]
  | cons program args =>
    have hmap : args.map parameterAfter = args ↔ ∀ arg ∈ args, parameterAfter arg = arg := by
      have hid := List.map_inj_left (f := parameterAfter) (g := id) (l := args)
      rwa [List.map_id] at hid
    simp only [argvAfter, List.cons.injEq, true_and, List.tail_cons, hmap]
    exact forall₂_congr fun arg _ => parameterAfter_eq_self

/-- The globals are in order, and these are the arguments. -/
def HoldsArgv (argv : List CString) (s : State) : Prop := Tidy s ∧ s.argv = argv

theorem argv_frame (argv : List CString) : Frame (HoldsArgv argv) where
  record s h e he := ⟨tidy_frame.record s h.1 e he, h.2⟩
  world s h w := ⟨tidy_frame.world s h.1 w, h.2⟩
  env s h e := ⟨tidy_frame.env s h.1 e, h.2⟩
  flag s h name hname b := ⟨tidy_frame.flag s h.1 name hname b, h.2⟩

theorem argv_language (argv : List CString) :
    Language (HoldsArgv argv) (fun _ s => HoldsArgv argv s) Plain (fun _ _ => True)
      fun _ _ => True :=
  plain_language (argv_frame argv) (fun _ h => h.1) (fun _ h name _ hv => ⟨h.1.assign name hv, h.2⟩)
    fun _ h _ hv => ⟨⟨h.1.nodup, h.1.stored, hv⟩, h.2⟩

theorem HoldsArgv.collected {argv : List CString} (s : State) (h : HoldsArgv argv s) :
    HoldsArgv argv { s with vars := copied s.vars [] } :=
  ⟨⟨h.1.start.nodup, h.1.start.stored, h.1.result⟩, h.2⟩

section

variable {machine : Machine} {depth : Nat} {argv : List CString}

theorem getVariableAsString_argv {s : State} (h : HoldsArgv argv s) (name : CString) :
    Ensures (getVariableAsString (termResolve machine depth) depth name) s
      (fun _ s' => HoldsArgv argv s') fun _ _ => True := by
  have hV := (argv_language argv).toValues
  exact (hV.getVariableAsString_ensures (hV.termResolve_ensures machine depth) depth name h).mono
    (fun _ _ h1 => h1) fun _ _ _ => trivial

theorem getVariableAsBoolean_argv {s : State} (h : HoldsArgv argv s) (name : CString) :
    Ensures (getVariableAsBoolean (termResolve machine depth) name) s
      (fun _ s' => HoldsArgv argv s') fun _ _ => True := by
  have hV := (argv_language argv).toValues
  exact (hV.getVariableAsBoolean_ensures (hV.termResolve_ensures machine depth) name h).mono
    (fun _ _ h1 => h1) fun _ _ _ => trivial

/-- The start cuts the arguments off, and reading the configuration leaves them alone. -/
theorem configure_argv (file : Option Script) (world : World) :
    Ensures (configure machine depth file) (State.boot argv world)
      (fun _ s' => HoldsArgv (argvAfter argv) s') fun _ _ => True := by
  have hstart := initializeScriptDefaults_ensures (I := Tidy) argv world
    ⟨by simp [State.boot], by simp [State.boot], trivial⟩
    (fun _ hs name _ ht => hs.assign name (plain_of_literal ht))
    fun _ hs _ => ⟨hs.nodup, hs.stored, hs.result⟩
  unfold configure
  refine (hstart.mono (fun _ _ h => h) fun _ _ _ => trivial).bind fun _ s1 h1 => ?_
  refine ((argv_language _).evalFile_ensures HoldsArgv.collected machine depth file h1).bind
    fun _ s2 h2 => ?_
  exact getVariableAsBoolean_argv h2 _

end

/-! ## The settings -/

/-- What an argument says about a variable: `key` makes it true, and `key=value` a string. -/
inductive Names : CString → CString → Term → Prop
  | bare {key : CString} (dash : key.bytes.head? ≠ some 45) (equals : 61 ∉ key.bytes) :
    Names key key (.boolean true)
  | pair {arg key value : CString} (dash : key.bytes.head? ≠ some 45) (equals : 61 ∉ key.bytes)
    (bytes : arg.bytes = key.bytes ++ 61 :: value.bytes) : Names arg key (.string value)

/-- The last argument that names `key` gives it the value `v`. -/
def NamedLast (args : List CString) (key : CString) (v : Term) : Prop :=
  ∃ before arg after, args = before ++ arg :: after ∧ Names arg key v ∧
    ∀ other ∈ after, ∀ w, ¬ Names other key w

/-- An argument names one variable at most. -/
theorem Names.unique {arg key key' : CString} {v v' : Term} (h : Names arg key v)
    (h' : Names arg key' v') : key = key' ∧ v = v' := by
  have htake : ∀ {k value : CString}, 61 ∉ k.bytes → arg.bytes = k.bytes ++ 61 :: value.bytes →
      arg.bytes.takeWhile (· ≠ 61) = k.bytes ∧ arg.bytes.dropWhile (· ≠ 61) = 61 :: value.bytes := by
    intro k value hk harg
    have hall : ∀ c ∈ k.bytes, decide (c ≠ 61) = true := by
      intro c hc
      have hne : c ≠ 61 := by
        rintro rfl
        exact hk hc
      simpa using hne
    rw [harg, List.takeWhile_append_of_pos hall, List.dropWhile_append_of_pos hall]
    simp
  cases h with
  | bare dash equals =>
    cases h' with
    | bare => exact ⟨rfl, rfl⟩
    | pair _ _ bytes => exact absurd (by simp [bytes]) equals
  | pair _ equals bytes =>
    cases h' with
    | bare _ equals' => exact absurd (by simp [bytes]) equals'
    | pair _ equals' bytes' =>
      obtain ⟨hkey, hvalue⟩ := htake equals bytes
      obtain ⟨hkey', hvalue'⟩ := htake equals' bytes'
      rw [hkey] at hkey'
      rw [hvalue, List.cons.injEq] at hvalue'
      exact ⟨CString.ext hkey', by rw [CString.ext hvalue'.2]⟩

/-- One turn of the loop over the command line. -/
theorem setParameter_cases (arg : CString) :
    ((∀ key v, ¬ Names arg key v) ∧ setParameter arg = pure ()) ∨
      ∃ key v, Names arg key v ∧ setParameter arg = setVariable key (some v) := by
  unfold setParameter
  by_cases hdash : arg.bytes.head? = some 45
  · refine Or.inl ⟨?_, if_pos hdash⟩
    rintro key v (⟨dash, -⟩ | ⟨dash, -, bytes⟩)
    · exact dash hdash
    · cases hkey : key.bytes with
      | nil => simp [bytes, hkey] at hdash
      | cons c rest => simp_all
  · right
    rw [if_neg hdash]
    have hsplit : arg.bytes.takeWhile (· ≠ 61) ++ arg.bytes.dropWhile (· ≠ 61) = arg.bytes :=
      List.takeWhile_append_dropWhile
    have hkey : 61 ∉ arg.bytes.takeWhile (· ≠ 61) := fun h => by
      simpa using List.mem_takeWhile_imp h
    have hfree : (0 : UInt8) ∉ arg.bytes.takeWhile (· ≠ 61) ++ arg.bytes.dropWhile (· ≠ 61) :=
      hsplit.symm ▸ arg.nulFree
    have hbytes : (CString.ofBytes (arg.bytes.takeWhile (· ≠ 61))).bytes
        = arg.bytes.takeWhile (· ≠ 61) :=
      takeWhile_of_nulFree fun h => hfree (List.mem_append_left _ h)
    cases hdrop : arg.bytes.dropWhile (· ≠ 61) with
    | nil =>
      rw [hdrop, List.append_nil] at hsplit
      have hself : CString.ofBytes (arg.bytes.takeWhile (· ≠ 61)) = arg := by
        rw [hsplit, CString.ofBytes_bytes]
      refine ⟨arg, _, .bare hdash (hsplit ▸ hkey), ?_⟩
      rw [hself]
      rfl
    | cons c value =>
      have hc : c = 61 := by
        have hhead := List.head?_dropWhile_not (· ≠ (61 : UInt8)) arg.bytes
        rw [hdrop] at hhead
        simpa using hhead
      subst hc
      have hvalue : (CString.ofBytes value).bytes = value :=
        takeWhile_of_nulFree fun h =>
          hfree (List.mem_append_right _ (hdrop ▸ List.mem_cons_of_mem _ h))
      refine ⟨_, _, .pair ?_ (hbytes.symm ▸ hkey) ?_, rfl⟩
      · intro hhead
        rw [hbytes] at hhead
        refine hdash ?_
        rw [← hsplit, List.head?_append, hhead]
        rfl
      · rw [hbytes, hvalue, ← hdrop, hsplit]

/-- The loop over the command line: the last argument about a variable counts. Induction on the
arguments that are left. -/
theorem setParameters_store {before args : List CString} {s : State}
    (hargv : s.argv = before ++ args) :
    Ensures (setParameters args.length before.length) s (fun _ s' => ∀ key,
      (∀ v, NamedLast args key v → store s'.vars key = some (some v)) ∧
      ((∀ arg ∈ args, ∀ v, ¬ Names arg key v) → store s'.vars key = store s.vars key))
      fun _ _ => False := by
  induction args generalizing s before with
  | nil =>
    intro key
    refine ⟨?_, fun _ => rfl⟩
    rintro v ⟨before, arg, after, hargs, -⟩
    simp at hargs
  | cons arg rest ih =>
    have hnext : ∀ s1 : State, s1.argv = before ++ parameterAfter arg :: rest →
        Ensures (setParameters rest.length (before.length + 1)) s1 (fun _ s' => ∀ key,
          (∀ v, NamedLast rest key v → store s'.vars key = some (some v)) ∧
          ((∀ arg ∈ rest, ∀ v, ¬ Names arg key v) → store s'.vars key = store s1.vars key))
          fun _ _ => False := by
      intro s1 h1
      have hrest : s1.argv = (before ++ [parameterAfter arg]) ++ rest := by simp [h1]
      simpa only [List.length_append, List.length_singleton] using ih hrest
    rw [List.length_cons, setParameters, ensures_bind]
    refine Ensures.of_eq ?_ (scanParameter_eq hargv)
    rcases setParameter_cases arg with ⟨hnone, heq⟩ | ⟨key', v', hnames, heq⟩
    · rw [heq, ensures_pure]
      refine (hnext _ rfl).mono (fun _ s' h key => ⟨?_, ?_⟩) fun _ _ h => h
      · rintro v ⟨before, arg', after, hargs, hnames, hlast⟩
        rcases before with _ | ⟨b, before⟩
        · obtain ⟨rfl, rfl⟩ := List.cons.inj hargs
          exact absurd hnames (hnone key v)
        · obtain ⟨rfl, hrest⟩ := List.cons.inj hargs
          exact (h key).1 v ⟨before, arg', after, hrest, hnames, hlast⟩
      · intro hall
        exact (h key).2 fun arg' harg' => hall arg' (List.mem_cons_of_mem _ harg')
    · rw [heq, ensures_setVariable]
      refine (hnext _ rfl).mono (fun _ s' h key => ⟨?_, ?_⟩) fun _ _ h => h
      · rintro v ⟨before, arg', after, hargs, hnames', hlast⟩
        rcases before with _ | ⟨b, before⟩
        · obtain ⟨rfl, rfl⟩ := List.cons.inj hargs
          obtain ⟨rfl, rfl⟩ := hnames'.unique hnames
          rw [(h key).2 hlast, State.assign, store_assigned, if_pos rfl]
        · obtain ⟨rfl, hrest⟩ := List.cons.inj hargs
          exact (h key).1 v ⟨before, arg', after, hrest, hnames', hlast⟩
      · intro hall
        have hne : key' ≠ key := by
          rintro rfl
          exact hall arg List.mem_cons_self v' hnames
        rw [(h key).2 fun arg' harg' => hall arg' (List.mem_cons_of_mem _ harg'), State.assign,
          store_assigned, if_neg hne]

/-- The state with the defaults of the variables. -/
def State.withDefaults (s : State) : State :=
  s.assign (.ofString "rootfs.fstype") (some (.string (.ofString "squashfs")))
  |>.assign (.ofString "rootfs.path") (some (.string (.ofString "/dev/mmcblk0p2")))
  |>.assign (.ofString "rootfs.encrypted") (some (.boolean false))
  |>.assign (.ofString "rootfs.cipher") (some (.string (.ofString "")))
  |>.assign (.ofString "rootfs.secret") (some (.string (.ofString "")))
  |>.assign (.ofString "uboot_env.path") (some (.string (.ofString "/dev/mmcblk0")))
  |>.assign (.ofString "uboot_env.loaded") (some (.boolean false))
  |>.assign (.ofString "uboot_env.modified") (some (.boolean false))
  |>.assign (.ofString "uboot_env.start") (some (.number 256))
  |>.assign (.ofString "uboot_env.count") (some (.number 256))
  |>.assign (.ofString "run_repl") (some (.boolean false))

/-- The command line is read after the defaults have been set. -/
theorem initializeScriptDefaults_eq (argv : List CString) (world : World) :
    initializeScriptDefaults (State.boot argv world)
      = setParameters (argv.length - 1) 1 (State.boot argv world).withDefaults := by
  have hset : ∀ (name : CString) (t : Term) (rest : Interp Unit) (s : State),
      (setVariable name (some t) >>= fun _ => rest) s = rest (s.assign name (some t)) :=
    fun _ _ _ _ => rfl
  have hstart : ∀ rest : Interp Unit, (termGcHeap >>= fun _ =>
      modify (fun s => { s with workingUbootEnv := ubootEnvInit }) >>= fun _ => rest)
      (State.boot argv world) = rest (State.boot argv world) := fun _ => rfl
  unfold initializeScriptDefaults setStringVariable setBooleanVariable setNumberVariable
  rw [hstart, hset, hset, hset, hset, hset, hset, hset, hset, hset, hset, hset]
  rfl

theorem plainStart_eq : plainStart = (State.boot [] plainWorld).withDefaults := by
  rw [plainStart, initializeScriptDefaults_eq]
  rfl

/-- The defaults do not depend on the world. -/
theorem vars_withDefaults (argv : List CString) (world : World) :
    (State.boot argv world).withDefaults.vars = plainStart.vars := by
  rw [plainStart_eq]
  rfl

/-- The start gives the variables what the command line says about them, or their defaults. -/
theorem initializeScriptDefaults_store (argv : List CString) (world : World) :
    Ensures initializeScriptDefaults (State.boot argv world) (fun _ s' => ∀ key,
      (∀ v, NamedLast argv.tail key v → store s'.vars key = some (some v)) ∧
      ((∀ arg ∈ argv.tail, ∀ v, ¬ Names arg key v) →
        store s'.vars key = store plainStart.vars key)) fun _ _ => False := by
  refine Ensures.of_eq ?_ (initializeScriptDefaults_eq argv world)
  rw [← vars_withDefaults argv world]
  cases argv with
  | nil =>
    intro key
    refine ⟨?_, fun _ => rfl⟩
    rintro v ⟨before, arg, after, hargs, -⟩
    simp at hargs
  | cons program args =>
    have hargv : (State.boot (program :: args) world).withDefaults.argv = [program] ++ args := rfl
    exact setParameters_store hargv

/-- At the start every value is a literal, which collecting the heap keeps. -/
theorem dupe_of_started {s : State} (h : Started s) (key : CString) :
    (store s.vars key).map dupe = store s.vars key := by
  have hall : ∀ v ∈ s.vars, dupe v.value = v.value := by
    refine started_of_assign (I := fun s => ∀ v ∈ s.vars, dupe v.value = v.value)
      (fun argv world v hv => ?_) (fun s hs name t ht v hv => ?_) (fun s hs argv => hs) h
    · simp [State.boot] at hv
    · rcases mem_assigned hv with hin | rfl
      · exact hs v hin
      · cases t <;> first | rfl | simp [Term.isLiteral] at ht
  cases hstore : store s.vars key with
  | none => rfl
  | some w =>
    obtain ⟨v, hv, -, rfl⟩ := mem_of_store hstore
    rw [Option.map_some, hall v hv]

section

variable {machine : Machine} {depth : Nat} {argv : List CString} {file : Option Script}
  {s1 s2 s : State}

theorem getVariableAsBoolean_kept {x : CString} {entry : Option (Option Term)}
    (h : Kept s1 x entry s2) (name : CString) :
    Ensures (getVariableAsBoolean (termResolve machine depth) name) s2
      (fun _ s' => Kept s1 x entry s') fun _ s' => Kept s1 x entry s' := by
  have hV := (kept_language s1 x entry).toValues
  exact hV.getVariableAsBoolean_ensures (hV.termResolve_ensures machine depth) name h

/-- The steps of `configure`: the start, the configuration file and a look at `run_repl`. -/
structure Configures (machine : Machine) (depth : Nat) (argv : List CString)
    (file : Option Script) (world : World) (s1 s2 s : State) : Prop where
  start : initializeScriptDefaults (State.boot argv world) = .ok () s1
  read : ∃ code, evalFile machine depth file s1 = .ok code s2
  look : getVariableAsBoolean (termResolve machine depth) (.ofString "run_repl") s2 = .ok false s

theorem configures_of_configure {world : World}
    (h : configure machine depth file (State.boot argv world) = .ok false s) :
    ∃ s1 s2, Configures machine depth argv file world s1 s2 s := by
  obtain ⟨u, s1, hstart, h⟩ := bind_eq_ok.mp h
  obtain ⟨code, s2, hread, hlook⟩ := bind_eq_ok.mp h
  exact ⟨s1, s2, hstart, ⟨code, hread⟩, hlook⟩

/-- While `configure` runs, what the table says about a variable changes only by assignments. -/
theorem Configures.kept {world : World} (h : Configures machine depth argv file world s1 s2 s)
    (key : CString) : Kept s1 key (store s1.vars key) s2 ∧ Kept s1 key (store s1.vars key) s := by
  have hstarted : Started s1 := ⟨argv, world, h.start⟩
  obtain ⟨code, hread⟩ := h.read
  have hself : Kept s1 key (store s1.vars key) s1 :=
    ⟨tidy_started hstarted, [], by simp, Or.inr rfl⟩
  have hkept := ((kept_language s1 key (store s1.vars key)).evalFile_ensures
    (fun _ h => h.copied (dupe_of_started hstarted key)) machine depth file hself).ok hread
  exact ⟨hkept, (getVariableAsBoolean_kept hkept _).ok h.look⟩

/-- The command line overrides the configuration: when the root file system comes to be mounted, the
variables that it names have the values that it gives them, and the others have the values that the
configuration left, or their defaults. -/
structure CommandLineWins (argv : List CString) (events : List Event) (s2 s : State) : Prop where
  named : ∀ key v, NamedLast argv.tail key v → store s.vars key = some (some v)
  others : ∀ key, (∀ arg ∈ argv.tail, ∀ v, ¬ Names arg key v) →
    store s.vars key = store s2.vars key ∧
      (.assigned key ∉ events → store s.vars key = store plainStart.vars key)

/-- No variable of the command line is assigned while the configuration file is evaluated or when
`run_repl` is looked at, and then no other variable either. -/
structure ConfigurationYields (argv : List CString) (read look : List Event) : Prop where
  named : ∀ key v, NamedLast argv.tail key v → .assigned key ∉ read
  looked : ∀ key, .assigned key ∉ look

/-- The command line wins in every boot whose configuration assigns none of its variables. -/
theorem command_line_wins {world : World} {read look : List Event}
    (hsteps : Configures machine depth argv file world s1 s2 s)
    (hread : s2.log = s1.log ++ read) (hlook : s.log = s2.log ++ look)
    (hyields : ConfigurationYields argv read look) : CommandLineWins argv (read ++ look) s2 s := by
  have hset := (initializeScriptDefaults_store argv world).ok hsteps.start
  -- Without an assignment since the start a variable is as the start left it.
  have hstart : ∀ key, .assigned key ∉ read ++ look → store s.vars key = store s1.vars key := by
    intro key hnot
    obtain ⟨-, events, hlog, hassigned | hstore⟩ := (hsteps.kept key).2
    · rw [hlook, hread, List.append_assoc] at hlog
      rw [← List.append_cancel_left hlog] at hassigned
      exact absurd hassigned hnot
    · exact hstore
  refine ⟨fun key v hnamed => ?_, fun key hnone => ⟨?_, fun hnot => ?_⟩⟩
  · rw [← (hset key).1 v hnamed]
    refine hstart key fun hin => ?_
    rcases List.mem_append.mp hin with hin | hin
    · exact hyields.named key v hnamed hin
    · exact hyields.looked key hin
  · have hself : Kept s2 key (store s2.vars key) s2 :=
      ⟨(hsteps.kept key).1.1, [], by simp, Or.inr rfl⟩
    obtain ⟨-, events, hlog, hassigned | hstore⟩ :=
      (getVariableAsBoolean_kept hself _).ok hsteps.look
    · rw [hlook] at hlog
      rw [← List.append_cancel_left hlog] at hassigned
      exact absurd hassigned (hyields.looked key)
    · exact hstore
  · rw [hstart key hnot, (hset key).2 hnone]

end

/-- The states of a boot with the given configuration, in a world where every system call fails. -/
def bootStates (argv : List CString) (file : Script) : Option (State × State × State) :=
  match initializeScriptDefaults (State.boot argv plainWorld) with
  | .error _ _ => none
  | .ok _ s1 =>
    match evalFile plainMachine 5 (some file) s1 with
    | .error _ _ => none
    | .ok _ s2 =>
      match getVariableAsBoolean (termResolve plainMachine 5) (.ofString "run_repl") s2 with
      | .ok false s => some (s1, s2, s)
      | _ => none

theorem configures_of_bootStates {argv : List CString} {file : Script} {s1 s2 s : State}
    (h : bootStates argv file = some (s1, s2, s)) :
    Configures plainMachine 5 argv (some file) plainWorld s1 s2 s := by
  unfold bootStates at h
  split at h
  · cases h
  · rename_i u t1 hstart
    split at h
    · cases h
    · rename_i code t2 hread
      split at h
      · rename_i t hlook
        obtain ⟨rfl, rfl, rfl⟩ := by simpa using h
        exact ⟨hstart, ⟨code, hread⟩, hlook⟩
      · cases h

/-- `rootfs.fstype = "ext4"` -/
def assignFstype : Script :=
  ⟨[.action (.assignment (.ofString "rootfs.fstype") (.string (.ofString "ext4")))], none⟩

theorem command_line_wins_path : ∃ s1 s2 s,
    bootStates [.ofString "init", .ofString "rootfs.path=/dev/sda1"] assignFstype
      = some (s1, s2, s) ∧
    CommandLineWins [.ofString "init", .ofString "rootfs.path=/dev/sda1"]
      ([.assigned (.ofString "rootfs.fstype")] ++ []) s2 s := by
  have hlogs : (bootStates [.ofString "init", .ofString "rootfs.path=/dev/sda1"] assignFstype).any
      (fun (s1, s2, s) => s2.log = s1.log ++ [.assigned (.ofString "rootfs.fstype")] ∧
        s.log = s2.log ++ []) = true := by decide +kernel
  obtain ⟨⟨s1, s2, s⟩, hboot, hlog⟩ := (Option.any_eq_true _ _).mp hlogs
  obtain ⟨hread, hlook⟩ := of_decide_eq_true hlog
  refine ⟨s1, s2, s, hboot, ?_⟩
  refine command_line_wins (configures_of_bootStates hboot) hread hlook ⟨?_, by simp⟩
  rintro key v ⟨before, arg, after, hargs, hnames, -⟩
  have harg : arg ∈ [CString.ofString "rootfs.path=/dev/sda1"] := by
    have hin : arg ∈ before ++ arg :: after := by simp
    rwa [← hargs] at hin
  obtain rfl := List.mem_singleton.mp harg
  have hpath : Names (.ofString "rootfs.path=/dev/sda1") (.ofString "rootfs.path")
      (.string (.ofString "/dev/sda1")) := .pair (by decide) (by decide) (by decide)
  obtain ⟨rfl, -⟩ := hnames.unique hpath
  decide

/-- With `rootfs.fstype=f2fs` on the command line, the configuration's `ext4` is what is mounted. -/
theorem configuration_wins : ¬ ∀ (machine : Machine) (depth : Nat) (argv : List CString)
    (file : Option Script) (world : World) (s1 s2 s : State) (read look : List Event),
    Configures machine depth argv file world s1 s2 s → s2.log = s1.log ++ read →
    s.log = s2.log ++ look → CommandLineWins argv (read ++ look) s2 s := by
  intro hall
  have hrun : (bootStates [.ofString "init", .ofString "rootfs.fstype=f2fs"] assignFstype).any
      (fun (s1, s2, s) => (s2.log = s1.log ++ s2.log.drop s1.log.length ∧
        s.log = s2.log ++ s.log.drop s2.log.length) ∧
        (store s.vars (.ofString "rootfs.fstype")).join.map Term.asString
          = some (.ofString "ext4")) = true := by decide +kernel
  obtain ⟨⟨s1, s2, s⟩, hboot, hfinal⟩ := (Option.any_eq_true _ _).mp hrun
  obtain ⟨⟨hread, hlook⟩, hstore⟩ := of_decide_eq_true hfinal
  have hwins := hall _ _ _ _ _ _ _ _ _ _ (configures_of_bootStates hboot) hread hlook
  have hnamed : NamedLast [.ofString "rootfs.fstype=f2fs"] (.ofString "rootfs.fstype")
      (.string (.ofString "f2fs")) :=
    ⟨[], _, [], rfl, .pair (by decide) (by decide) (by decide), by simp⟩
  rw [hwins.named _ _ hnamed] at hstore
  revert hstore
  decide

end NervesInitramfs
