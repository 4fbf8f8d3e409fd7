import NervesInitramfs.Script.Proofs.SettingProofs
import Mathlib.Logic.Relation

/-!
# Proofs: whether the flags tell the truth

When `uboot_env.loaded` is set and `uboot_env.modified` is not, the working environment should be
the one on the device. Loading and setting keep that up. Saving does not when it is cut short, or
when the environment has a name with two values.
-/

namespace NervesInitramfs

open CLib

/-! ## Calls -/

/-- The name of a U-Boot variable: not empty and without a `=`. -/
structure EnvName where
  name : CString
  proper : name.bytes ≠ [] ∧ (61 : UInt8) ∉ name.bytes

/-- A call of one of the functions of a script that deal with the U-Boot environment. -/
inductive EnvCall
  | loadenv
  | setenv (name : EnvName) (value : CString)
  | getenv (name : EnvName)
  | saveenv

def EnvCall.term : EnvCall → Term
  | .loadenv => .function .loadenv []
  | .setenv n value => .function .setenv [.string n.name, .string value]
  | .getenv n => .function .getenv [.string n.name]
  | .saveenv => .function .saveenv []

/-- The interpreter gets through the call. -/
def EnvCall.Run (machine : Machine) (c : EnvCall) (s s' : State) : Prop :=
  ∃ depth v, runFunction machine depth c.term s = .ok v s'

def loaded (s : State) : Bool := settingBoolean s.vars (.ofString "uboot_env.loaded")

def modified (s : State) : Bool := settingBoolean s.vars (.ofString "uboot_env.modified")

/-- The blocks of the device that the settings name. -/
def deviceBlock (s : State) : List UInt8 :=
  s.world.bytesAt (settingString s.vars (.ofString "uboot_env.path"))
    (512 * (settingNumber s.vars (.ofString "uboot_env.start")).toInt).toNat
    (512 * (settingNumber s.vars (.ofString "uboot_env.count")).toInt).toNat

/-- `uboot_env_read` accepts the device's block and gives the map of the working environment. -/
def OnDisk (machine : Machine) (s : State) : Prop :=
  ∃ (block : Buffer machine.bits) (env : UbootEnv), block.bytes = deviceBlock s ∧
    ubootEnvRead ⟨block.size, []⟩ block = some (0, env) ∧
    ∀ name, ubootEnvGetenv env name = ubootEnvGetenv s.workingUbootEnv name

/-- What the flags say is true. -/
def FlagsTruthful (machine : Machine) (s : State) : Prop :=
  loaded s → modified s = false → OnDisk machine s

/-- A call that does not save an environment with a name that has two values, and does not break off
in the middle of writing one that is not marked as modified. -/
def SavesSafely (s : State) : EnvCall → Prop
  | .saveenv => loaded s → OneValueEach s.workingUbootEnv.vars ∧
      (modified s = false → s.writeOutcome.ok → s.writeOutcome.count = 0 ∨
        512 * (settingNumber s.vars (.ofString "uboot_env.count")).toInt ≤ s.writeOutcome.count)
  | .loadenv | .setenv _ _ | .getenv _ => True

/-! ## Assigning the flags -/

theorem settingBoolean_assigned (vars : List Variable) (name k : CString) (b : Bool) :
    settingBoolean (assigned vars name (some (.boolean b))) k
      = if name = k then b else settingBoolean vars k := by
  unfold settingBoolean
  rw [store_assigned]
  by_cases hk : name = k
  · rw [if_pos hk, if_pos hk]
    rfl
  · rw [if_neg hk, if_neg hk]

/-- The settings are the same. -/
def SameSettings (vars vars' : List Variable) : Prop :=
  ∀ name ∈ settingNames, store vars' name = store vars name

theorem flag_ne_setting {flag name : CString} (hflag : flag ∈ flagNames)
    (hname : name ∈ settingNames) : flag ≠ name := by
  have hdisjoint : ∀ f ∈ flagNames, ∀ n ∈ settingNames, f ≠ n := by decide
  exact hdisjoint flag hflag name hname

theorem sameSettings_flag (vars : List Variable) {flag : CString} (hflag : flag ∈ flagNames)
    (v : Option Term) : SameSettings vars (assigned vars flag v) := by
  intro name hname
  rw [store_assigned, if_neg (flag_ne_setting hflag hname)]

theorem SameSettings.trans {a b c : List Variable} (h : SameSettings a b) (h' : SameSettings b c) :
    SameSettings a c := fun name hname => (h' name hname).trans (h name hname)

section

variable {vars vars' : List Variable}

theorem SameSettings.settled (h : SameSettings vars vars') (hs : Settled vars) : Settled vars' := by
  intro name hname v hv
  exact hs name hname v ((h name hname).symm.trans hv)

theorem SameSettings.number (h : SameSettings vars vars') (name : CString)
    (hname : name ∈ settingNames) : settingNumber vars' name = settingNumber vars name := by
  unfold settingNumber
  rw [h name hname]

theorem SameSettings.string (h : SameSettings vars vars') (name : CString)
    (hname : name ∈ settingNames) : settingString vars' name = settingString vars name := by
  unfold settingString
  rw [h name hname]

theorem SameSettings.inRange (h : SameSettings vars vars') (hr : InRange vars) : InRange vars' := by
  have hstart := h.number (.ofString "uboot_env.start") (by simp [settingNames])
  have hcount := h.number (.ofString "uboot_env.count") (by simp [settingNames])
  constructor
  · rw [hstart]
    exact hr.start
  · rw [hcount]
    exact hr.count

end

theorem sameSettings_readVars (vars : List Variable) : SameSettings vars (readVars vars) :=
  (sameSettings_flag vars (by simp [flagNames]) _).trans
    (sameSettings_flag _ (by simp [flagNames]) _)

theorem sameSettings_loadedVars (vars : List Variable) : SameSettings vars (loadedVars vars) :=
  (sameSettings_readVars vars).trans (sameSettings_flag _ (by simp [flagNames]) _)

/-! ## The block on the device -/

theorem deviceBlock_congr {s s' : State} (hset : SameSettings s.vars s'.vars)
    (hdisk : s'.world.disk = s.world.disk) : deviceBlock s' = deviceBlock s := by
  unfold deviceBlock
  rw [hset.string _ (by simp [settingNames]), hset.number _ (by simp [settingNames]),
    hset.number _ (by simp [settingNames]), World.bytesAt_congr hdisk]

/-- What the environment on the device is depends on the settings, the device and the map. -/
theorem OnDisk.congr {machine : Machine} {s s' : State} (h : OnDisk machine s)
    (hset : SameSettings s.vars s'.vars) (hdisk : s'.world.disk = s.world.disk)
    (hmap : ∀ name, envMap s'.workingUbootEnv.vars name = envMap s.workingUbootEnv.vars name) :
    OnDisk machine s' := by
  obtain ⟨block, env, hblock, hread, hget⟩ := h
  refine ⟨block, env, by rw [hblock, deviceBlock_congr hset hdisk], hread, fun name => ?_⟩
  rw [hget, ubootEnvGetenv_eq, ubootEnvGetenv_eq, hmap]

/-- A place that can be had is the one that `deviceBlock` reads. -/
theorem deviceBlock_eq {machine : Machine} {s : State} (hr : InRange s.vars)
    (hsize : (place machine s.vars).size ≤ ptrdiffMax machine.bits) :
    deviceBlock s = s.world.bytesAt (place machine s.vars).path (place machine s.vars).offset.toNat
      (place machine s.vars).size := by
  have hnat : ((place machine s.vars).size : Int)
      = (settingNumber s.vars (.ofString "uboot_env.count") * 512).toInt :=
    (toSize_le_ptrdiffMax machine.wide _ hsize).2
  have hlength : (512 * (settingNumber s.vars (.ofString "uboot_env.count")).toInt).toNat
      = (place machine s.vars).size := by
    rw [← hr.count, ← hnat, Int.toNat_natCast]
  have hoffset : (512 * (settingNumber s.vars (.ofString "uboot_env.start")).toInt).toNat
      = (place machine s.vars).offset.toNat := by
    rw [← hr.start]
    rfl
  unfold deviceBlock
  rw [hlength, hoffset]
  rfl

theorem World.bytesAt_store (world : World) (path : CString) (offset : Nat) (data : List UInt8) :
    (world.store path offset data).bytesAt path offset data.length = data := by
  refine List.ext_getElem (by simp) fun i h _ => ?_
  have hi : i < data.length := by simpa using h
  simp [World.bytesAt, World.store, hi]

theorem World.store_nil (world : World) (path : CString) (offset : Nat) :
    (world.store path offset []).disk = world.disk := by
  funext p i
  simp [World.store]

/-! ## What holds in every state -/

/-- The flags are truthful, and a loaded environment has names that the layout can hold. -/
structure Faithful (machine : Machine) (s : State) : Prop where
  settled : Settled s.vars
  inRange : InRange s.vars
  names : loaded s → ∀ pair ∈ s.workingUbootEnv.vars, Representable pair.name
  truthful : FlagsTruthful machine s

section

variable {machine : Machine} {s s' : State}

/-- When the variables and the device stay the same, so may the pairs in another order. -/
theorem Faithful.reorder (h : Faithful machine s) (hvars : s'.vars = s.vars)
    (hdisk : s'.world.disk = s.world.disk)
    (hpairs : loaded s → s'.workingUbootEnv.vars.Perm s.workingUbootEnv.vars ∧
      ∀ name, envMap s'.workingUbootEnv.vars name = envMap s.workingUbootEnv.vars name) :
    Faithful machine s' := by
  have hloaded : loaded s' = loaded s := by rw [loaded, hvars, loaded]
  have hmodified : modified s' = modified s := by rw [modified, hvars, modified]
  refine ⟨hvars ▸ h.settled, hvars ▸ h.inRange, fun hl => ?_, fun hl hm => ?_⟩
  · rw [hloaded] at hl
    intro pair hpair
    exact h.names hl pair ((hpairs hl).1.mem_iff.mp hpair)
  · rw [hloaded] at hl
    rw [hmodified] at hm
    refine (h.truthful hl hm).congr ?_ hdisk (hpairs hl).2
    rw [hvars]
    exact fun _ _ => rfl

theorem Faithful.unchanged (h : Faithful machine s) (hsame : Unchanged s s') :
    Faithful machine s' :=
  h.reorder hsame.vars hsame.disk fun _ => by
    rw [hsame.pairs]
    exact ⟨List.Perm.refl _, fun _ => rfl⟩

theorem Faithful.load (h : Faithful machine s) (hout : LoadOutcome machine (place machine s.vars) s s') :
    Faithful machine s' := by
  cases hout with
  | failed hsame => exact h.unchanged hsame
  | refused hvars =>
    have hset : SameSettings s.vars s'.vars := hvars ▸ sameSettings_readVars s.vars
    have hclear : loaded s' = false := by
      rw [loaded, hvars, readVars, settingBoolean_assigned, settingBoolean_assigned]
      rfl
    refine ⟨hset.settled h.settled, hset.inRange h.inRange, fun hl => ?_, fun hl => ?_⟩
    · rw [hclear] at hl
      cases hl
    · rw [hclear] at hl
      cases hl
  | loaded buffer hbuffer hread hvars hdisk =>
    have hset : SameSettings s.vars s'.vars := hvars ▸ sameSettings_loadedVars s.vars
    have hsize : buffer.size = (place machine s.vars).size := by
      rw [Buffer.size, hbuffer, World.length_bytesAt]
    have hfits : (place machine s.vars).size ≤ ptrdiffMax machine.bits := by
      rw [← hsize]
      exact buffer.size_le
    refine ⟨hset.settled h.settled, hset.inRange h.inRange, fun _ => ?_, fun _ _ => ?_⟩
    · exact representable_of_read (four_le_of_read hread) hsize.ge hread
    · refine ⟨buffer, s'.workingUbootEnv, ?_, ?_, fun _ => rfl⟩
      · rw [deviceBlock_congr hset hdisk, deviceBlock_eq h.inRange hfits]
        exact hbuffer
      · rw [hsize]
        exact hread

/-- Sorting does not change the map of pairs that agree. -/
theorem sort_envMap (qsort : Qsort envNameCompare) {pairs : List UbootNameValue}
    (hone : OneValueEach pairs) : (qsort.sort pairs).Perm pairs ∧
      ∀ name, envMap (qsort.sort pairs) name = envMap pairs name :=
  ⟨qsort.perm pairs, fun name => hone.firstMatch_perm (qsort.perm pairs) name⟩

theorem Faithful.save (h : Faithful machine s) (hsafe : SavesSafely s .saveenv)
    (hout : SaveOutcome machine (place machine s.vars) s s') : Faithful machine s' := by
  cases hout with
  | failed hvars hdisk hpairs =>
    refine h.reorder hvars hdisk fun hl => ?_
    rcases hpairs with hpairs | hpairs
    · rw [hpairs]
      exact ⟨List.Perm.refl _, fun _ => rfl⟩
    · rw [hpairs]
      exact sort_envMap machine.qsort (hsafe hl).1
  | written buffer block env hbuffer hwrite hpairs hok hdisk hvars =>
    obtain ⟨-, -, hblock⟩ := block_size hbuffer hwrite
    replace hblock : block.size = (place machine s.vars).size := hblock
    have hfits : (place machine s.vars).size ≤ ptrdiffMax machine.bits := by
      rw [← hblock]
      exact block.size_le
    by_cases hfull : (place machine s.vars).size ≤ s.writeOutcome.count
    · rw [if_pos hfull] at hvars
      have hset : SameSettings s.vars s'.vars := by
        rw [hvars]
        exact sameSettings_flag _ (by simp [flagNames]) _
      have hloaded : loaded s' = loaded s := by
        rw [loaded, hvars, settingBoolean_assigned, if_neg (by decide), loaded]
      have htake : block.bytes.take s.writeOutcome.count = block.bytes :=
        List.take_of_length_le (hblock.trans_le hfull)
      refine ⟨hset.settled h.settled, hset.inRange h.inRange, fun hl => ?_, fun hl _ => ?_⟩
      · rw [hloaded] at hl
        rw [hpairs]
        intro pair hpair
        exact h.names hl pair ((machine.qsort.perm _).mem_iff.mp hpair)
      · rw [hloaded] at hl
        have hone := (hsafe hl).1
        refine ⟨block, _, ?_, ubootEnvRead_written hbuffer hwrite (h.names hl) ⟨block.size, []⟩ hblock,
          fun name => ?_⟩
        · let world := s.world.store (place machine s.vars).path
            (place machine s.vars).offset.toNat block.bytes
          let t : State := { s with world := world }
          rw [htake] at hdisk
          have hstored : deviceBlock t = block.bytes := by
            rw [deviceBlock_eq (s := t) h.inRange hfits, ← hblock]
            exact World.bytesAt_store ..
          rw [deviceBlock_congr (s := t) hset hdisk, hstored]
        · rw [ubootEnvGetenv_eq, ubootEnvGetenv_eq, hpairs, (sort_envMap machine.qsort hone).2]
          exact hone.firstMatch_perm ((List.reverse_perm _).trans (machine.qsort.perm _)) name
    · rw [if_neg hfull] at hvars
      have hloaded : loaded s' = loaded s := by rw [loaded, hvars, loaded]
      have hmodified : modified s' = modified s := by rw [modified, hvars, modified]
      refine ⟨hvars ▸ h.settled, hvars ▸ h.inRange, fun hl => ?_, fun hl hm => ?_⟩
      · rw [hloaded] at hl
        rw [hpairs]
        intro pair hpair
        exact h.names hl pair ((machine.qsort.perm _).mem_iff.mp hpair)
      · rw [hloaded] at hl
        rw [hmodified] at hm
        obtain ⟨hone, hwhole⟩ := hsafe hl
        have hcount : s.writeOutcome.count = 0 := by
          rcases hwhole hm hok with hzero | hall
          · exact hzero
          · have hnat : ((place machine s.vars).size : Int)
                = 512 * (settingNumber s.vars (.ofString "uboot_env.count")).toInt :=
              (toSize_le_ptrdiffMax machine.wide _ hfits).2.trans h.inRange.count
            exact absurd (by exact_mod_cast hnat.trans_le hall) hfull
        rw [hcount, List.take_zero, World.store_nil] at hdisk
        refine (h.truthful hl hm).congr ?_ hdisk ?_
        · rw [hvars]
          exact fun _ _ => rfl
        · rw [hpairs]
          exact (sort_envMap machine.qsort hone).2

theorem Faithful.setenv (h : Faithful machine s) (n : EnvName) (value : CString)
    (henv : s'.workingUbootEnv = (ubootEnvSetenv s.workingUbootEnv n.name value).2)
    (hvars : s'.vars = assigned s.vars (.ofString "uboot_env.modified") (some (.boolean true))) :
    Faithful machine s' := by
  have hset : SameSettings s.vars s'.vars := by
    rw [hvars]
    exact sameSettings_flag _ (by simp [flagNames]) _
  have hloaded : loaded s' = loaded s := by
    rw [loaded, hvars, settingBoolean_assigned, if_neg (by decide), loaded]
  have hmodified : modified s' = true := by
    rw [modified, hvars, settingBoolean_assigned, if_pos rfl]
  refine ⟨hset.settled h.settled, hset.inRange h.inRange, fun hl => ?_, fun _ hm => ?_⟩
  · rw [hloaded] at hl
    intro pair hpair
    have hname : pair.name ∈ s'.workingUbootEnv.vars.map (·.name) := List.mem_map_of_mem hpair
    rw [henv] at hname
    rcases (mem_names_setenv _ _ _ _).mp hname with hnew | hold
    · rw [hnew]
      exact ⟨n.proper.1, fun h => n.proper.2 (List.mem_of_mem_tail h)⟩
    · obtain ⟨old, hin, hsame⟩ := List.mem_map.mp hold
      rw [← hsame]
      exact h.names hl old hin
  · rw [hmodified] at hm
    cases hm

theorem termToString_proper (depth : Nat) (value : CString) {s : State}
    {post : CString → State → Prop} (hpost : post value s) :
    Ensures (termToString (termResolve machine depth) depth (some (.string value))) s post
      fun _ _ => True := by
  cases depth with
  | zero => trivial
  | succ depth =>
    have hres : termResolve machine (depth + 1) (some (.string value)) s
        = .ok (some (.string value)) s := rfl
    exact ensures_of_ok (termToString_literal rfl hres depth) hpost

theorem functionGetenv_proper (machine : Machine) (depth : Nat) (n : EnvName) (s : State) :
    Ensures (functionGetenv (termResolve machine depth) depth [.string n.name]) s
      (fun _ s' => s' = s) fun _ _ => True := by
  unfold functionGetenv
  rw [ensures_bind]
  refine termToString_proper depth n.name ?_
  rw [ensures_bind, ensures_get]
  split <;> rfl

theorem functionSetenv_proper (machine : Machine) (depth : Nat) (n : EnvName) (value : CString) (s : State) :
    Ensures (functionSetenv (termResolve machine depth) depth [.string n.name, .string value]) s
      (fun _ s' => s'.workingUbootEnv = (ubootEnvSetenv s.workingUbootEnv n.name value).2 ∧
        s'.vars = assigned s.vars (.ofString "uboot_env.modified") (some (.boolean true)))
      fun _ _ => True := by
  have hcode : ¬ (ubootEnvSetenv s.workingUbootEnv n.name value).1 < 0 := by
    unfold ubootEnvSetenv
    split <;> exact lt_irrefl (0 : Int)
  unfold functionSetenv
  rw [ensures_bind]
  refine termToString_proper depth n.name ?_
  rw [ensures_bind]
  change Ensures (termToString (termResolve machine depth) depth (some (.string value)) >>= _) s _ _
  rw [ensures_bind]
  refine termToString_proper depth value ?_
  rw [ensures_bind, ensures_get]
  dsimp only
  rw [if_neg hcode]
  exact ⟨rfl, rfl⟩

/-! ## Runs -/

/-- The step lemma. -/
theorem Faithful.run (h : Faithful machine s) {c : EnvCall} (hsafe : SavesSafely s c)
    (hrun : c.Run machine s s') : Faithful machine s' := by
  obtain ⟨depth, v, hrun⟩ := hrun
  -- Noting the call changes nothing that matters.
  have hcalled : ∀ handler, Faithful machine (s.logged (.called handler)) := fun handler =>
    h.unchanged ⟨rfl, rfl, rfl⟩
  cases c with
  | loadenv =>
    have hspec := functionLoadenv_spec machine depth [] (hcalled .loadenv).settled
    exact (hcalled .loadenv).load (hspec.ok hrun).1
  | saveenv =>
    have hspec := functionSaveenv_spec machine depth [] (hcalled .saveenv).settled
    exact (hcalled .saveenv).save hsafe (hspec.ok hrun).1
  | getenv n =>
    have hspec := functionGetenv_proper machine depth n (s.logged (.called .getenv))
    have hsame : s' = s.logged (.called .getenv) := hspec.ok hrun
    rw [hsame]
    exact hcalled .getenv
  | setenv n value =>
    have hspec := functionSetenv_proper machine depth n value
      (s.logged (.called .setenv))
    obtain ⟨henv, hvars⟩ := hspec.ok hrun
    exact (hcalled .setenv).setenv n value henv hvars

end

theorem settled_started {s : State} (h : Started s) : Settled s.vars := by
  refine .of_literals ?_
  refine started_of_assign (I := fun s => ∀ v ∈ s.vars, ∃ t, v.value = some t ∧ t.isLiteral)
    (fun _ _ => by simp [State.boot]) (fun s hs name t ht v hv => ?_) (fun _ hs _ => hs) h
  rcases mem_assigned hv with hin | rfl
  · exact hs v hin
  · exact ⟨t, rfl, ht⟩

/-- From a start with the loaded flag clear, in a run that saves safely, the flags are truthful. -/
theorem flags_truthful (machine : Machine) {s0 s : State} (h0 : Started s0)
    (hclear : loaded s0 = false) (hrange : InRange s0.vars)
    (hrun : Relation.ReflTransGen (fun s s' => ∃ c : EnvCall, SavesSafely s c ∧ c.Run machine s s')
      s0 s) : FlagsTruthful machine s := by
  have hstart : Faithful machine s0 := by
    refine ⟨settled_started h0, hrange, fun hl => ?_, fun hl => ?_⟩
    · rw [hclear] at hl
      cases hl
    · rw [hclear] at hl
      cases hl
  have hreached : Faithful machine s := by
    induction hrun with
    | refl => exact hstart
    | tail _ hstep ih =>
      obtain ⟨c, hsafe, hcall⟩ := hstep
      exact ih.run hsafe hcall
  exact hreached.truthful

/-- A call, as a computation that can be evaluated. -/
def callOnce (c : EnvCall) : Interp Unit := do
  let _ ← runFunction plainMachine 5 c.term

def finishes (r : EStateM.Result Stop State Unit) : Bool :=
  match r with
  | .ok _ _ => true
  | .error _ _ => false

theorem run_of_finishes {c : EnvCall} {s : State} (h : finishes (callOnce c s) = true) :
    c.Run plainMachine s (stateAfter (callOnce c s)) := by
  cases hcall : callOnce c s with
  | error e s' =>
    rw [hcall] at h
    cases h
  | ok u s' =>
    obtain ⟨v, s1, hrun, hend⟩ := bind_eq_ok.mp hcall
    obtain ⟨-, rfl⟩ := EStateM.Result.ok.inj hend
    exact ⟨5, v, hrun⟩

theorem run_twice {r : EnvCall → State → State → Prop} {c c' : EnvCall} {s s1 s2 : State}
    (h : r c s s1) (h' : r c' s1 s2) :
    Relation.ReflTransGen (fun s s' => ∃ c : EnvCall, r c s s') s s2 :=
  (Relation.ReflTransGen.single ⟨c, h⟩).tail ⟨c', h'⟩

theorem savesSafely_loadenv (s : State) : SavesSafely s .loadenv := trivial

/-- A device with a block at 131072 that lists `b=1` and then `a=1`. -/
def unsortedDisk (i : Nat) : UInt8 :=
  [226, 202, 90, 138, 98, 61, 49, 0, 97, 61, 49, 0, 0].getD (i - 131072) 0xff

/-- A world with that device, where the first two calls find everything in order and the second one
can write `n` bytes. -/
def unsortedWorld (n : Nat) : World :=
  ⟨[⟨true, 0, [], [], [], 0⟩, ⟨true, 0, [], [], [], 0⟩, ⟨true, 512, [], [], [], 0⟩,
    ⟨true, 0, [], [], [], 0⟩, ⟨true, 0, [], [], [], 0⟩, ⟨true, n, [], [], [], 0⟩], fun _ => unsortedDisk⟩

/-- The start in that world, with an environment of one block. -/
def unsortedStart (n : Nat) : State :=
  stateAfter (initializeScriptDefaults
    (State.boot [.ofString "init", .ofString "uboot_env.count=1"] (unsortedWorld n)))

def loadedState (n : Nat) : State := stateAfter (callOnce .loadenv (unsortedStart n))

def savedState (n : Nat) : State := stateAfter (callOnce .saveenv (loadedState n))

theorem started_unsortedStart (n : Nat) : Started (unsortedStart n) :=
  started_stateAfter _ _

/-- Loading that block and saving it to the end. -/
theorem flags_truthful_saved : OnDisk plainMachine (savedState 512) := by
  have hrange : InRange (unsortedStart 512).vars := by constructor <;> decide +kernel
  have hcalls : loaded (unsortedStart 512) = false ∧ finishes (callOnce .loadenv (unsortedStart 512)) ∧
      finishes (callOnce .saveenv (loadedState 512)) ∧ loaded (savedState 512) ∧
      modified (savedState 512) = false ∧
      (∀ a ∈ (loadedState 512).workingUbootEnv.vars, ∀ b ∈ (loadedState 512).workingUbootEnv.vars,
        a.name = b.name → a.value = b.value) ∧
      512 * (settingNumber (loadedState 512).vars (.ofString "uboot_env.count")).toInt
        ≤ (loadedState 512).writeOutcome.count := by decide +kernel
  obtain ⟨hclear, hload, hsave, hloaded, hmodified, hone, hwhole⟩ := hcalls
  have hsafe : SavesSafely (loadedState 512) .saveenv := fun _ => ⟨hone, fun _ _ => Or.inr hwhole⟩
  have hfirst : EnvCall.Run plainMachine .loadenv (unsortedStart 512) (loadedState 512) :=
    run_of_finishes hload
  have hsecond : EnvCall.Run plainMachine .saveenv (loadedState 512) (savedState 512) :=
    run_of_finishes hsave
  have hrun : Relation.ReflTransGen (fun s s' => ∃ c : EnvCall, SavesSafely s c ∧
      c.Run plainMachine s s') (unsortedStart 512) (savedState 512) :=
    run_twice (r := fun c s s' => SavesSafely s c ∧ c.Run plainMachine s s')
      ⟨savesSafely_loadenv _, hfirst⟩ ⟨hsafe, hsecond⟩
  exact flags_truthful plainMachine (started_unsortedStart 512) hclear hrange hrun hloaded hmodified

/-- When only one byte of the block can be written, the flags claim that it is on the device. -/
theorem flags_lie_after_short_write : ¬ ∀ (machine : Machine) (s0 s : State), Started s0 →
    loaded s0 = false → InRange s0.vars →
    Relation.ReflTransGen (fun s s' => ∃ c : EnvCall, c.Run machine s s') s0 s →
    FlagsTruthful machine s := by
  intro hall
  have hrange : InRange (unsortedStart 1).vars := by constructor <;> decide +kernel
  have hcalls : loaded (unsortedStart 1) = false ∧ finishes (callOnce .loadenv (unsortedStart 1)) ∧
      finishes (callOnce .saveenv (loadedState 1)) ∧ loaded (savedState 1) ∧
      modified (savedState 1) = false ∧
      storedCrc (deviceBlock (savedState 1)) ≠ crc32buf ((deviceBlock (savedState 1)).drop 4) := by
    decide +kernel
  obtain ⟨hclear, hload, hsave, hloaded, hmodified, htorn⟩ := hcalls
  have hfirst : EnvCall.Run plainMachine .loadenv (unsortedStart 1) (loadedState 1) :=
    run_of_finishes hload
  have hsecond : EnvCall.Run plainMachine .saveenv (loadedState 1) (savedState 1) :=
    run_of_finishes hsave
  have hrun : Relation.ReflTransGen (fun s s' => ∃ c : EnvCall, c.Run plainMachine s s')
      (unsortedStart 1) (savedState 1) :=
    run_twice (r := fun c s s' => c.Run plainMachine s s') hfirst hsecond
  obtain ⟨block, env, hblock, hread, -⟩ := hall plainMachine _ _ (started_unsortedStart 1) hclear
    hrange hrun hloaded hmodified
  have hcrc := ((ubootEnvRead_iff (four_le_of_read hread) le_rfl).mp hread).1
  have htake : block.bytes.take block.size = deviceBlock (savedState 1) := by
    rw [Buffer.size, List.take_length, hblock]
  rw [blockBytes, htake] at hcrc
  exact htorn hcrc

end NervesInitramfs
