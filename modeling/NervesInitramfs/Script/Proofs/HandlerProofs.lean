import NervesInitramfs.CLib.Wp
import NervesInitramfs.Script.Handlers

/-!
# Proofs: what the handlers do to the state

Apart from resolving their parameters, the handlers leave the variables alone, except for the flags
of the U-Boot environment. So a property of states that survives both survives every call, and what
a call hands back can be told from the handler.
-/

namespace NervesInitramfs

open CLib

/-! ## Kinds of terms and handlers -/

/-- A string, a number or a boolean. -/
def Term.isLiteral : Term → Bool
  | .string _ | .number _ | .boolean _ => true
  | .identifier _ | .function _ _ => false

/-- The handlers that return `NULL`. -/
def Builtin.isVoid : Builtin → Bool
  | .blkid | .env | .help | .loadenv | .ls | .print | .saveenv | .sleep | .vars => true
  | _ => false

/-- The handlers that look up the `uboot_env` settings. -/
def Builtin.readsSettings : Builtin → Bool
  | .fwupRevert | .loadenv | .saveenv => true
  | _ => false

/-- How many parameters a handler takes without looking whether they are there. -/
def Builtin.needed : Builtin → Nat
  | .assign | .add | .subtract | .setenv => 2
  | .getenv | .readfile | .sleep => 1
  | _ => 0

/-- What a call hands back: `NULL`, the second parameter of `setenv`, or a literal. -/
def Returned (handler : Builtin) (parameters : List Term) (v : Option Term) : Prop :=
  if handler = .setenv then v = parameters[1]?
  else if handler.isVoid then v = none
  else ∃ t, v = some t ∧ t.isLiteral

/-! ## Properties that calls preserve -/

/-- The names of the variables that built-in functions assign. -/
def flagNames : List CString := [.ofString "uboot_env.loaded", .ofString "uboot_env.modified"]

/-- The names of the variables that built-in functions read. -/
def settingNames : List CString :=
  [.ofString "uboot_env.path", .ofString "uboot_env.start", .ofString "uboot_env.count"]

/-- The state after `set_variable`. -/
def State.assign (s : State) (name : CString) (value : Option Term) : State :=
  { s with vars := assigned s.vars name value, log := s.log ++ [.assigned name] }

/-- A property of states that only an assignment by the script can break. -/
structure Frame (I : State → Prop) : Prop where
  record : ∀ s, I s → ∀ e, (∀ name, e ≠ .assigned name) → I { s with log := s.log ++ [e] }
  world : ∀ s, I s → ∀ world, I { s with world := world }
  env : ∀ s, I s → ∀ env, I { s with workingUbootEnv := env }
  flag : ∀ s, I s → ∀ name ∈ flagNames, ∀ b, I (s.assign name (some (.boolean b)))

/-- A pointer that the handler takes for one of its parameters. -/
def IsOperand (handler : Builtin) (parameters : List Term) : Option Term → Prop
  | some t => t ∈ parameters
  | none => parameters.length < handler.needed

/-- What the handler depends on: its parameters, and the settings if it reads them, evaluate in a
way that preserves `I` and stops only as `E` allows. -/
structure Operands (I : State → Prop) (E : Stop → State → Prop)
    (resolve : Option Term → Interp (Option Term)) (depth : Nat) (handler : Builtin)
    (parameters : List Term) : Prop where
  string : ∀ p, IsOperand handler parameters p → ∀ s, I s →
    Ensures (termToString resolve depth p) s (fun _ s' => I s') E
  number : ∀ p, IsOperand handler parameters p → ∀ s, I s →
    Ensures (termToNumber resolve p) s (fun _ s' => I s') E
  stringSetting : handler.readsSettings → ∀ name ∈ settingNames, ∀ s, I s →
    Ensures (getVariableAsString resolve depth name) s (fun _ s' => I s') E
  numberSetting : handler.readsSettings → ∀ name ∈ settingNames, ∀ s, I s →
    Ensures (getVariableAsNumber resolve name) s (fun _ s' => I s') E
  few : parameters.length < handler.needed → ∀ s, I s → E .nullDereference s
  inspectable : handler = .vars → (∀ s, I s → E .nullDereference s) ∨
    ∀ s, I s → ∀ v ∈ s.vars, (v.value.bind inspect).isSome
  ends : ∀ s, I s → E .exited s ∧ E .undefined s

section

variable {I : State → Prop} {E : Stop → State → Prop}
  {resolve : Option Term → Interp (Option Term)} {depth : Nat} {s : State}

@[simp] theorem ensures_record {e : Event} {post : Unit → State → Prop} :
    Ensures (record e) s post E ↔ post () { s with log := s.log ++ [e] } := Iff.rfl

@[simp] theorem ensures_info {message : List UInt8} {post : Unit → State → Prop} :
    Ensures (info message) s post E ↔ post () { s with log := s.log ++ [.info message] } := Iff.rfl

@[simp] theorem ensures_setVariable {name : CString} {value : Option Term}
    {post : Unit → State → Prop} :
    Ensures (setVariable name value) s post E ↔ post () (s.assign name value) := Iff.rfl

@[simp] theorem ensures_setBooleanVariable {name : CString} {b : Bool}
    {post : Unit → State → Prop} :
    Ensures (setBooleanVariable name b) s post E ↔ post () (s.assign name (some (.boolean b))) :=
  Iff.rfl

theorem reply_ensures (hI : Frame I) (h : I s) : Ensures reply s (fun _ s' => I s') E := by
  unfold reply
  simp only [ensures_bind, ensures_get]
  cases s.world.replies with
  | nil => exact h
  | cons r rest => exact hI.world s h _

theorem openBlockDevice_ensures (hI : Frame I) (h : I s) (spec : CString) :
    Ensures (openBlockDevice spec) s (fun _ s' => I s') E := by
  unfold openBlockDevice
  exact (reply_ensures hI h).bind fun r s' h' => h'

theorem lseek_ensures (hI : Frame I) (h : I s) (offset : Int) :
    Ensures (lseek offset) s (fun _ s' => I s') E := by
  unfold lseek
  exact (reply_ensures hI h).bind fun r s' h' => h'

theorem readDevice_ensures (hI : Frame I) (h : I s) (path : CString) (offset length : Nat) :
    Ensures (readDevice path offset length) s (fun _ s' => I s') E := by
  unfold readDevice
  simp only [ensures_bind, ensures_record]
  exact (reply_ensures hI (hI.record s h _ (by simp))).mono (fun r s' h' => h') fun e s' h' => h'

theorem writeDevice_ensures (hI : Frame I) (h : I s) (path : CString) (offset : Nat)
    (data : List UInt8) : Ensures (writeDevice path offset data) s (fun _ s' => I s') E := by
  unfold writeDevice
  rw [ensures_bind, ensures_record]
  refine (reply_ensures hI (hI.record s h _ (by simp))).bind fun r s' h' => ?_
  cases r.ok with
  | true => exact hI.world s' h' _
  | false => exact h'

theorem printLines_ensures (hI : Frame I) (h : I s) (lines : List (List UInt8)) :
    Ensures (printLines lines) s (fun _ s' => I s') E := by
  induction lines generalizing s with
  | nil => exact h
  | cons line rest ih =>
    unfold printLines
    rw [ensures_bind, ensures_record]
    exact ih (hI.record s h _ (by simp))

theorem inspectVariables_ensures (hI : Frame I) (h : I s) (vars : List Variable)
    (hvars : (∀ s, I s → E .nullDereference s) ∨ ∀ v ∈ vars, (v.value.bind inspect).isSome) :
    Ensures (inspectVariables vars) s (fun _ s' => I s') E := by
  induction vars generalizing s with
  | nil => exact h
  | cons v rest ih =>
    have hrest : (∀ s, I s → E .nullDereference s) ∨
        ∀ v ∈ rest, (v.value.bind inspect).isSome :=
      hvars.imp_right fun hv u hu => hv u (by simp [hu])
    unfold inspectVariables
    cases hv : v.value.bind inspect with
    | none =>
      rcases hvars with hnull | hsome
      · exact hnull s h
      · simpa [hv] using hsome v (by simp)
    | some bytes =>
      rw [ensures_bind, ensures_record]
      exact ih (hI.record s h _ (by simp)) hrest

/-! ## One lemma for each handler -/

theorem next_ensures {handler : Builtin} {ps : List Term} (h : I s)
    (hops : Operands I E resolve depth handler ps) (hneeded : 0 < handler.needed)
    {post : List Term → State → Prop} (hpost : post ps.tail s) : Ensures (next ps) s post E := by
  cases ps with
  | nil => exact hops.few hneeded s h
  | cons p rest => exact hpost

theorem isOperand_head {handler : Builtin} (ps : List Term) (hneeded : 0 < handler.needed) :
    IsOperand handler ps ps.head? := by
  cases ps with
  | nil => exact hneeded
  | cons p rest => simp [IsOperand]

theorem isOperand_second {handler : Builtin} (ps : List Term) (hneeded : 1 < handler.needed) :
    IsOperand handler ps ps.tail.head? := by
  rcases ps with _ | ⟨p, _ | ⟨q, rest⟩⟩
  · exact Nat.lt_trans (by simp) hneeded
  · exact hneeded
  · simp [IsOperand]

theorem functionAdd_ensures {ps : List Term} (h : I s) (hops : Operands I E resolve depth .add ps) :
    Ensures (functionAdd resolve ps) s (fun v s' => I s' ∧ Returned .add ps v) E := by
  unfold functionAdd
  refine (hops.number _ (isOperand_head ps (by decide)) s h).bind fun a s1 h1 => ?_
  rw [ensures_bind]
  refine next_ensures h1 hops (by decide) ?_
  refine (hops.number _ (isOperand_second ps (by decide)) s1 h1).bind fun b s2 h2 => ?_
  exact ⟨h2, _, rfl, rfl⟩

theorem functionSubtract_ensures {ps : List Term} (h : I s)
    (hops : Operands I E resolve depth .subtract ps) :
    Ensures (functionSubtract resolve ps) s (fun v s' => I s' ∧ Returned .subtract ps v) E := by
  unfold functionSubtract
  refine (hops.number _ (isOperand_head ps (by decide)) s h).bind fun a s1 h1 => ?_
  rw [ensures_bind]
  refine next_ensures h1 hops (by decide) ?_
  refine (hops.number _ (isOperand_second ps (by decide)) s1 h1).bind fun b s2 h2 => ?_
  exact ⟨h2, _, rfl, rfl⟩

theorem printParameters_ensures (hI : Frame I) {ps : List Term} (h : I s)
    (hstr : ∀ p ∈ ps, ∀ s, I s →
      Ensures (termToString resolve depth (some p)) s (fun _ s' => I s') E) :
    Ensures (printParameters resolve depth ps) s (fun _ s' => I s') E := by
  induction ps generalizing s with
  | nil => exact h
  | cons p rest ih =>
    unfold printParameters
    refine (hstr p (by simp) s h).bind fun str s1 h1 => ?_
    rw [ensures_bind, ensures_record]
    exact ih (hI.record s1 h1 _ (by simp)) fun q hq => hstr q (by simp [hq])

theorem functionPrint_ensures (hI : Frame I) {ps : List Term} (h : I s)
    (hops : Operands I E resolve depth .print ps) :
    Ensures (functionPrint resolve depth ps) s (fun v s' => I s' ∧ Returned .print ps v) E := by
  unfold functionPrint
  refine (printParameters_ensures hI h fun p hp => hops.string (some p) hp).bind fun _ s1 h1 => ?_
  exact ⟨hI.record s1 h1 _ (by simp), rfl⟩

theorem functionVars_ensures (hI : Frame I) {ps : List Term} (h : I s)
    (hops : Operands I E resolve depth .vars ps) :
    Ensures (functionVars ps) s (fun v s' => I s' ∧ Returned .vars ps v) E := by
  unfold functionVars
  rw [ensures_bind, ensures_get]
  refine (inspectVariables_ensures hI h s.vars ?_).bind fun _ s1 h1 => ⟨h1, rfl⟩
  exact (hops.inspectable rfl).imp_right fun hv => hv s h

theorem functionEnv_ensures (hI : Frame I) {ps : List Term} (h : I s) :
    Ensures (functionEnv ps) s (fun v s' => I s' ∧ Returned .env ps v) E := by
  unfold functionEnv
  rw [ensures_bind, ensures_get]
  exact (printLines_ensures hI h _).bind fun _ s1 h1 => ⟨h1, rfl⟩

theorem functionBlkid_ensures (hI : Frame I) {ps : List Term} (h : I s) :
    Ensures (functionBlkid ps) s (fun v s' => I s' ∧ Returned .blkid ps v) E := by
  unfold functionBlkid
  refine (reply_ensures hI h).bind fun r s1 h1 => ?_
  exact (printLines_ensures hI h1 _).bind fun _ s2 h2 => ⟨h2, rfl⟩

theorem functionHelp_ensures (hI : Frame I) {ps : List Term} (h : I s) :
    Ensures (functionHelp ps) s (fun v s' => I s' ∧ Returned .help ps v) E := by
  unfold functionHelp
  refine (printLines_ensures hI h _).bind fun _ s1 h1 => ?_
  exact ⟨hI.record s1 h1 _ (by simp), rfl⟩

theorem functionLs_ensures (hI : Frame I) {ps : List Term} (h : I s)
    (hops : Operands I E resolve depth .ls ps) :
    Ensures (functionLs resolve depth ps) s (fun v s' => I s' ∧ Returned .ls ps v) E := by
  unfold functionLs
  have hpath : Ensures (lsPath resolve depth ps) s (fun _ s' => I s') E := by
    cases ps with
    | nil => exact h
    | cons p rest => exact hops.string (some p) (by simp [IsOperand]) s h
  refine hpath.bind fun _ s1 h1 => ?_
  refine (reply_ensures hI h1).bind fun r s2 h2 => ?_
  exact (printLines_ensures hI h2 _).bind fun _ s3 h3 => ⟨h3, rfl⟩

theorem functionSetenv_ensures (hI : Frame I) {ps : List Term} (h : I s)
    (hops : Operands I E resolve depth .setenv ps) :
    Ensures (functionSetenv resolve depth ps) s (fun v s' => I s' ∧ Returned .setenv ps v) E := by
  unfold functionSetenv
  refine (hops.string _ (isOperand_head ps (by decide)) s h).bind fun name s1 h1 => ?_
  rw [ensures_bind]
  refine next_ensures h1 hops (by decide) ?_
  refine (hops.string _ (isOperand_second ps (by decide)) s1 h1).bind fun value s2 h2 => ?_
  have hback : Returned .setenv ps ps.tail.head? := by simp [Returned, List.head?_tail]
  rw [ensures_bind, ensures_get]
  cases hset : ubootEnvSetenv s2.workingUbootEnv name value with
  | mk rc env =>
    simp only [ensures_bind]
    split
    · exact ⟨hI.record s2 h2 _ (by simp), hback⟩
    · exact ⟨hI.flag _ (hI.env s2 h2 env) _ (by simp [flagNames]) true, hback⟩

theorem functionGetenv_ensures {ps : List Term} (h : I s)
    (hops : Operands I E resolve depth .getenv ps) :
    Ensures (functionGetenv resolve depth ps) s (fun v s' => I s' ∧ Returned .getenv ps v) E := by
  unfold functionGetenv
  refine (hops.string _ (isOperand_head ps (by decide)) s h).bind fun name s1 h1 => ?_
  rw [ensures_bind, ensures_get]
  split <;> exact ⟨h1, _, rfl, rfl⟩

theorem cmdArguments_ensures {ps : List Term} (h : I s) (n : Nat)
    (hstr : ∀ p ∈ ps, ∀ s, I s →
      Ensures (termToString resolve depth (some p)) s (fun _ s' => I s') E) :
    Ensures (cmdArguments resolve depth n ps) s (fun _ s' => I s') E := by
  induction n generalizing ps s with
  | zero => cases ps <;> exact h
  | succ n ih =>
    cases ps with
    | nil => exact h
    | cons p rest =>
      unfold cmdArguments
      refine (hstr p (by simp) s h).bind fun str s1 h1 => ?_
      exact (ih h1 fun q hq => hstr q (by simp [hq])).bind fun _ s2 h2 => h2

theorem functionCmd_ensures (hI : Frame I) {ps : List Term} (h : I s)
    (hops : Operands I E resolve depth .cmd ps) :
    Ensures (functionCmd resolve depth ps) s (fun v s' => I s' ∧ Returned .cmd ps v) E := by
  unfold functionCmd
  refine (cmdArguments_ensures h 15 fun p hp => hops.string (some p) hp).bind fun argv s1 h1 => ?_
  rw [ensures_bind, ensures_record]
  refine (reply_ensures hI (hI.record s1 h1 _ (by simp))).bind fun r s2 h2 => ?_
  have hinfo : Ensures (if r.ok then pure ()
      else info (text "Ignoring non-zero exit from " ++ (argv.headD (.ofString "")).bytes)) s2
      (fun _ s' => I s') E := by
    cases r.ok with
    | true => exact h2
    | false => exact hI.record s2 h2 _ (by simp)
  refine hinfo.bind fun _ s3 h3 => ?_
  split
  · exact (hops.ends s3 h3).2
  · exact ⟨h3, _, rfl, rfl⟩

theorem functionReadfile_ensures (hI : Frame I) {ps : List Term} (h : I s)
    (hops : Operands I E resolve depth .readfile ps) :
    Ensures (functionReadfile resolve depth ps) s (fun v s' => I s' ∧ Returned .readfile ps v) E := by
  unfold functionReadfile
  refine (hops.string _ (isOperand_head ps (by decide)) s h).bind fun path s1 h1 => ?_
  refine (reply_ensures hI h1).bind fun r s2 h2 => ?_
  cases r.ok with
  | true => exact ⟨h2, _, rfl, rfl⟩
  | false => exact ⟨hI.record s2 h2 _ (by simp), _, rfl, rfl⟩

theorem functionSleep_ensures (hI : Frame I) {ps : List Term} (h : I s)
    (hops : Operands I E resolve depth .sleep ps) :
    Ensures (functionSleep resolve ps) s (fun v s' => I s' ∧ Returned .sleep ps v) E := by
  unfold functionSleep
  refine (hops.number _ (isOperand_head ps (by decide)) s h).bind fun ms s1 h1 => ?_
  exact ⟨hI.record s1 h1 _ (by simp), rfl⟩

theorem readBlocks_ensures (hI : Frame I) (h : I s) (machine : Machine) (path : CString)
    (offset size : Nat) :
    Ensures (readBlocks machine path offset size) s (fun _ s' => I s') E := by
  unfold readBlocks
  split
  · exact h
  · refine (readDevice_ensures hI h path offset size).bind fun got s1 h1 => ?_
    split <;> exact h1

/-- The part of `function_loadenv` and `function_saveenv` before the device is opened. -/
theorem settings_ensures {handler : Builtin} {ps : List Term} {f : CString → Int32 → Int32 →
    Interp (Option Term)} (h : I s) (hops : Operands I E resolve depth handler ps)
    (hsettings : handler.readsSettings) {post : Option Term → State → Prop}
    (hf : ∀ path start count s, I s → Ensures (f path start count) s post E) :
    Ensures (do
      let path ← getVariableAsString resolve depth (.ofString "uboot_env.path")
      let start ← getVariableAsNumber resolve (.ofString "uboot_env.start")
      let count ← getVariableAsNumber resolve (.ofString "uboot_env.count")
      f path start count) s post E := by
  refine (hops.stringSetting hsettings _ (by simp [settingNames]) s h).bind fun path s1 h1 => ?_
  refine (hops.numberSetting hsettings _ (by simp [settingNames]) s1 h1).bind fun start s2 h2 => ?_
  refine (hops.numberSetting hsettings _ (by simp [settingNames]) s2 h2).bind fun count s3 h3 => ?_
  exact hf path start count s3 h3

theorem functionLoadenv_ensures (hI : Frame I) {ps : List Term} (h : I s) (machine : Machine)
    (hops : Operands I E resolve depth .loadenv ps) :
    Ensures (functionLoadenv machine resolve depth ps) s
      (fun v s' => I s' ∧ Returned .loadenv ps v) E := by
  unfold functionLoadenv
  refine settings_ensures h hops rfl fun path start count s1 h1 => ?_
  rw [ensures_bind, ensures_modify]
  refine (openBlockDevice_ensures hI (hI.env s1 h1 _) path).bind fun devpath s2 h2 => ?_
  cases devpath with
  | none => exact ⟨hI.record s2 h2 _ (by simp), rfl⟩
  | some devpath =>
    refine (lseek_ensures hI h2 _).bind fun sought s3 h3 => ?_
    cases sought with
    | false => exact ⟨hI.record s3 h3 _ (by simp), rfl⟩
    | true =>
      refine (readBlocks_ensures hI h3 machine _ _ _).bind fun loaded s4 h4 => ?_
      cases loaded with
      | none => exact ⟨hI.record s4 h4 _ (by simp), rfl⟩
      | some buffer =>
        simp only [ensures_bind, ensures_setBooleanVariable, ensures_get]
        have h5 := hI.flag _ (hI.flag s4 h4 (.ofString "uboot_env.loaded") (by simp [flagNames])
          false) (.ofString "uboot_env.modified") (by simp [flagNames]) false
        split
        · exact (hops.ends _ h5).2
        · rename_i rc env _
          rw [ensures_bind, ensures_modify]
          split
          · exact ⟨hI.env _ h5 env, rfl⟩
          · exact ⟨hI.flag _ (hI.env _ h5 env) _ (by simp [flagNames]) true, rfl⟩

theorem functionSaveenv_ensures (hI : Frame I) {ps : List Term} (h : I s) (machine : Machine)
    (hops : Operands I E resolve depth .saveenv ps) :
    Ensures (functionSaveenv machine resolve depth ps) s
      (fun v s' => I s' ∧ Returned .saveenv ps v) E := by
  unfold functionSaveenv
  refine settings_ensures h hops rfl fun path start count s1 h1 => ?_
  rw [ensures_bind, ensures_modify]
  refine (openBlockDevice_ensures hI (hI.env s1 h1 _) path).bind fun devpath s2 h2 => ?_
  cases devpath with
  | none => exact ⟨hI.record s2 h2 _ (by simp), rfl⟩
  | some devpath =>
    refine (lseek_ensures hI h2 _).bind fun sought s3 h3 => ?_
    cases sought with
    | false => exact ⟨hI.record s3 h3 _ (by simp), rfl⟩
    | true =>
      simp only [Bool.not_true, Bool.false_eq_true, if_false]
      split
      · exact (hops.ends s3 h3).2
      · rw [ensures_bind, ensures_get]
        split
        · exact (hops.ends s3 h3).2
        · rename_i rc env buffer _
          rw [ensures_bind, ensures_modify]
          split
          · exact ⟨hI.env s3 h3 env, rfl⟩
          · refine (writeDevice_ensures hI (hI.env s3 h3 env) path _ _).bind fun n s4 h4 => ?_
            split
            · exact ⟨hI.record s4 h4 _ (by simp), rfl⟩
            · exact ⟨hI.flag s4 h4 _ (by simp [flagNames]) false, rfl⟩

theorem functionFwupRevert_ensures (hI : Frame I) {ps : List Term} (h : I s)
    (hops : Operands I E resolve depth .fwupRevert ps) :
    Ensures (functionFwupRevert resolve depth ps) s
      (fun v s' => I s' ∧ Returned .fwupRevert ps v) E := by
  unfold functionFwupRevert
  refine (hops.stringSetting rfl _ (by simp [settingNames]) s h).bind fun path s1 h1 => ?_
  refine (openBlockDevice_ensures hI h1 path).bind fun devpath s2 h2 => ?_
  cases devpath with
  | none => exact ⟨hI.record s2 h2 _ (by simp), _, rfl, rfl⟩
  | some devpath =>
    rw [ensures_bind, ensures_record]
    refine (reply_ensures hI (hI.record s2 h2 _ (by simp))).bind fun r s3 h3 => ?_
    cases r.ok with
    | true => exact (hops.ends _ (hI.record s3 h3 _ (by simp))).1
    | false => exact ⟨hI.record s3 h3 _ (by simp), _, rfl, rfl⟩

/-- A handler other than `function_assign` preserves what its operands preserve. -/
theorem run_ensures (hI : Frame I) {handler : Builtin} {ps : List Term} (machine : Machine)
    (hassign : handler ≠ .assign) (h : I s) (hops : Operands I E resolve depth handler ps) :
    Ensures (handler.run machine resolve depth ps) s
      (fun v s' => I s' ∧ Returned handler ps v) E := by
  cases handler with
  | assign => exact absurd rfl hassign
  | add => exact functionAdd_ensures h hops
  | subtract => exact functionSubtract_ensures h hops
  | blkid => exact functionBlkid_ensures hI h
  | cmd => exact functionCmd_ensures hI h hops
  | env => exact functionEnv_ensures hI h
  | fwupRevert => exact functionFwupRevert_ensures hI h hops
  | getenv => exact functionGetenv_ensures h hops
  | help => exact functionHelp_ensures hI h
  | loadenv => exact functionLoadenv_ensures hI h machine hops
  | ls => exact functionLs_ensures hI h hops
  | poweroff => exact (hops.ends _ (hI.record s h _ (by simp))).1
  | print => exact functionPrint_ensures hI h hops
  | readfile => exact functionReadfile_ensures hI h hops
  | reboot => exact (hops.ends _ (hI.record s h _ (by simp))).1
  | saveenv => exact functionSaveenv_ensures hI h machine hops
  | setenv => exact functionSetenv_ensures hI h hops
  | sleep => exact functionSleep_ensures hI h hops
  | vars => exact functionVars_ensures hI h hops

theorem recordCall_ensures (hI : Frame I) (h : I s) (handler : Builtin) :
    Ensures (recordCall handler) s (fun _ s' => I s') E := by
  unfold recordCall
  split
  · exact h
  · exact hI.record s h _ (by simp)

end

/-- What a call that returns has returned, whatever its operands do. -/
theorem returned_of_run {machine : Machine} {resolve : Option Term → Interp (Option Term)}
    {depth : Nat} {handler : Builtin} {ps : List Term} (hassign : handler ≠ .assign) {s s' : State}
    {v : Option Term}
    (h : (do recordCall handler; handler.run machine resolve depth ps) s = .ok v s') :
    Returned handler ps v := by
  have hframe : Frame fun _ => True :=
    ⟨fun _ _ _ _ => trivial, fun _ _ _ => trivial, fun _ _ _ => trivial,
      fun _ _ _ _ _ => trivial⟩
  have hops : Operands (fun _ => True) (fun _ _ => True) resolve depth handler ps :=
    ⟨fun _ _ _ _ => ensures_true, fun _ _ _ _ => ensures_true, fun _ _ _ _ _ => ensures_true,
      fun _ _ _ _ _ => ensures_true, fun _ _ _ => trivial, fun _ => Or.inl fun _ _ => trivial,
      fun _ _ => ⟨trivial, trivial⟩⟩
  obtain ⟨_, s1, -, hrun⟩ := bind_eq_ok.mp h
  exact ((run_ensures hframe machine hassign trivial hops).ok hrun).2

end NervesInitramfs
