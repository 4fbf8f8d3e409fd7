import NervesInitramfs.Script.Device
import NervesInitramfs.Script.Proofs.AssignProofs

/-!
# Proofs: what loading and saving do

`function_loadenv` and `function_saveenv` go to the place that the settings name. This module says
what there is to say about a call of either once it has read the settings: how it can leave the
state, and which parts of which device it can have touched, whatever the system calls do. Settings
that are literals are read without doing anything else.
-/

namespace NervesInitramfs

open CLib

/-! ## The settings -/

/-- The settings that are there are literals. -/
def Settled (vars : List Variable) : Prop :=
  ∀ name ∈ settingNames, ∀ v, store vars name = some v → ∃ t, v = some t ∧ t.isLiteral

/-- What `get_variable_as_string`, `_number` and `_boolean` make of a variable that is a literal. -/
def settingString (vars : List Variable) (name : CString) : CString :=
  match store vars name with
  | some (some t) => t.asString
  | _ => .ofString ""

def settingNumber (vars : List Variable) (name : CString) : Int32 :=
  match store vars name with
  | some (some t) => t.asNumber
  | _ => 0

def settingBoolean (vars : List Variable) (name : CString) : Bool :=
  match store vars name with
  | some (some t) => t.asBoolean
  | _ => false

/-- A part of a device. -/
structure Place where
  path : CString
  offset : Int
  size : Nat

/-- The place that the settings stand for. -/
def EnvSettings.place (machine : Machine) (settings : EnvSettings) : Place where
  path := settings.path
  offset := (settings.start * 512).toInt
  size := sizeOfBlocks machine settings.count

/-- The settings that are stored. -/
def storedSettings (vars : List Variable) : EnvSettings where
  path := settingString vars (.ofString "uboot_env.path")
  start := settingNumber vars (.ofString "uboot_env.start")
  count := settingNumber vars (.ofString "uboot_env.count")

/-- The place where they say that the environment is. -/
def place (machine : Machine) (vars : List Variable) : Place := (storedSettings vars).place machine

/-- A setting that is there is stored as a literal. -/
theorem Settled.stored {vars : List Variable} (h : Settled vars) {name : CString}
    (hname : name ∈ settingNames) : (getVariableImpl vars name = none ∧ store vars name = none) ∨
      ∃ v t, getVariableImpl vars name = some v ∧ v.value = some t ∧ t.isLiteral ∧
        store vars name = some (some t) := by
  have hstore := getVariableImpl_value vars name
  cases hv : getVariableImpl vars name with
  | none =>
    rw [hv] at hstore
    exact Or.inl ⟨rfl, hstore.symm⟩
  | some v =>
    rw [hv] at hstore
    obtain ⟨t, ht, hlit⟩ := h name hname v.value hstore.symm
    exact Or.inr ⟨v, t, rfl, ht, hlit, by rw [← hstore, ← ht]; rfl⟩

theorem Settled.of_literals {vars : List Variable}
    (h : ∀ v ∈ vars, ∃ t, v.value = some t ∧ t.isLiteral) : Settled vars := by
  intro name _ v hv
  obtain ⟨u, hu, -, hval⟩ := mem_of_store hv
  rw [← hval]
  exact h u hu

section

variable {machine : Machine} {depth : Nat} {s : State} {E : Stop → State → Prop}

theorem getVariableAsString_settled (h : Settled s.vars) {name : CString}
    (hname : name ∈ settingNames) (hfuel : depth = 0 → E .outOfFuel s) {post : CString → State → Prop}
    (hpost : post (settingString s.vars name) s) :
    Ensures (getVariableAsString (termResolve machine depth) depth name) s post E := by
  unfold getVariableAsString
  unfold settingString at hpost
  rw [ensures_bind, ensures_get]
  rcases h.stored hname with ⟨hv, hstore⟩ | ⟨v, t, hv, hval, hlit, hstore⟩
  · rw [hv]
    rw [hstore] at hpost
    exact hpost
  · rw [hv]
    rw [hstore] at hpost
    cases depth with
    | zero => exact hfuel rfl
    | succ depth =>
      have hres : termResolve machine (depth + 1) v.value s = .ok (some t) s := by
        rw [hval]
        exact termResolve_literal machine depth hlit s
      exact ensures_of_ok (termToString_literal hlit hres depth) hpost

theorem getVariableAsNumber_settled (h : Settled s.vars) {name : CString}
    (hname : name ∈ settingNames) (hfuel : depth = 0 → E .outOfFuel s) {post : Int32 → State → Prop}
    (hpost : post (settingNumber s.vars name) s) :
    Ensures (getVariableAsNumber (termResolve machine depth) name) s post E := by
  unfold getVariableAsNumber
  unfold settingNumber at hpost
  rw [ensures_bind, ensures_get]
  rcases h.stored hname with ⟨hv, hstore⟩ | ⟨v, t, hv, hval, hlit, hstore⟩
  · rw [hv]
    rw [hstore] at hpost
    exact hpost
  · rw [hv]
    rw [hstore] at hpost
    cases depth with
    | zero => exact hfuel rfl
    | succ depth =>
      have hres : termResolve machine (depth + 1) v.value s = .ok (some t) s := by
        rw [hval]
        exact termResolve_literal machine depth hlit s
      exact ensures_of_ok (termToNumber_literal hlit hres) hpost

/-- Reading the settings, and then going on with them. -/
theorem ensures_settings {α : Type} {f : CString → Int32 → Int32 → Interp α}
    {resolve : Option Term → Interp (Option Term)} {post : α → State → Prop} :
    Ensures (do
      let path ← getVariableAsString resolve depth (.ofString "uboot_env.path")
      let start ← getVariableAsNumber resolve (.ofString "uboot_env.start")
      let count ← getVariableAsNumber resolve (.ofString "uboot_env.count")
      f path start count) s post E ↔
    Ensures (envSettings resolve depth) s
      (fun x s1 => Ensures (f x.path x.start x.count) s1 post E) E := by
  simp only [envSettings, ensures_bind, ensures_pure]

theorem settings_read {α : Type} {f : CString → Int32 → Int32 → Interp α}
    {resolve : Option Term → Interp (Option Term)} {post : α → State → Prop} {settings : EnvSettings}
    {s1 : State} (hread : envSettings resolve depth s = .ok settings s1)
    (hf : Ensures (f settings.path settings.start settings.count) s1 post E) :
    Ensures (do
      let path ← getVariableAsString resolve depth (.ofString "uboot_env.path")
      let start ← getVariableAsNumber resolve (.ofString "uboot_env.start")
      let count ← getVariableAsNumber resolve (.ofString "uboot_env.count")
      f path start count) s post E :=
  ensures_settings.mpr (ensures_of_ok hread hf)

/-- Settings that are literals are what is stored, and reading them changes nothing. -/
theorem envSettings_settled (h : Settled s.vars) (hfuel : depth = 0 → E .outOfFuel s) :
    Ensures (envSettings (termResolve machine depth) depth) s
      (fun x s1 => x = storedSettings s.vars ∧ s1 = s) E := by
  unfold envSettings
  rw [ensures_bind]
  refine getVariableAsString_settled h (by simp [settingNames]) hfuel ?_
  rw [ensures_bind]
  refine getVariableAsNumber_settled h (by simp [settingNames]) hfuel ?_
  rw [ensures_bind]
  exact getVariableAsNumber_settled h (by simp [settingNames]) hfuel ⟨rfl, rfl⟩

theorem envSettings_ok (machine : Machine) (depth : Nat) (h : Settled s.vars) :
    envSettings (termResolve machine (depth + 1)) (depth + 1) s = .ok (storedSettings s.vars) s := by
  have hread : Ensures (envSettings (termResolve machine (depth + 1)) (depth + 1)) s
      (fun x s1 => x = storedSettings s.vars ∧ s1 = s) fun _ _ => False :=
    envSettings_settled h fun h => absurd h (Nat.succ_ne_zero depth)
  cases hrun : envSettings (termResolve machine (depth + 1)) (depth + 1) s with
  | ok x s1 =>
    obtain ⟨rfl, rfl⟩ := hread.ok hrun
    rfl
  | error e s1 => exact absurd (hread.error hrun) id

/-! ## System calls -/

/-- The state after the outcome of a system call has been used up. -/
def State.consume (s : State) : State :=
  { s with world := { s.world with replies := s.world.replies.tail } }

/-- The outcome of the next system call. -/
def State.outcome (s : State) : Reply := s.world.replies.headD .failed

theorem ensures_reply {post : Reply → State → Prop} :
    Ensures reply s post E ↔ post s.outcome s.consume := by
  unfold reply State.outcome State.consume
  rw [ensures_bind, ensures_get]
  cases hr : s.world.replies with
  | nil =>
    have hs : { s with world := { s.world with replies := [] } } = s := by rw [← hr]
    simp only [List.headD_nil, List.tail_nil, hs]
    exact Iff.rfl
  | cons r rest => exact Iff.rfl

theorem ensures_openBlockDevice {spec : CString} {post : Option CString → State → Prop} :
    Ensures (openBlockDevice spec) s post E ↔
      post (if s.outcome.ok then some (.ofBytes s.outcome.bytes) else none) s.consume := by
  unfold openBlockDevice
  rw [ensures_bind, ensures_reply]
  exact Iff.rfl

theorem ensures_lseek {offset : Int} {post : Bool → State → Prop} :
    Ensures (lseek offset) s post E ↔
      post (decide (0 ≤ offset) && s.outcome.ok) s.consume := by
  unfold lseek
  rw [ensures_bind, ensures_reply]
  exact Iff.rfl

/-- The state after an event. -/
def State.logged (s : State) (e : Event) : State := { s with log := s.log ++ [e] }

theorem ensures_readDevice {path : CString} {offset length : Nat}
    {post : Option (List UInt8) → State → Prop} :
    Ensures (readDevice path offset length) s post E ↔
      post (if s.outcome.ok then some (s.world.bytesAt path offset (min s.outcome.count length))
        else none) (s.logged (.read path offset length)).consume := by
  unfold readDevice
  rw [ensures_bind, ensures_record, ensures_bind, ensures_reply, ensures_bind, ensures_get]
  exact Iff.rfl

/-- The state after some of `data` has been written. -/
def State.stored (s : State) (path : CString) (offset : Nat) (data : List UInt8) : State :=
  { (s.logged (.written path offset data.length)).consume with
    world := s.consume.world.store path offset (data.take s.outcome.count) }

theorem ensures_writeDevice {path : CString} {offset : Nat} {data : List UInt8}
    {post : Option Nat → State → Prop} :
    Ensures (writeDevice path offset data) s post E ↔
      if s.outcome.ok then
        post (some (data.take s.outcome.count).length) (s.stored path offset data)
      else post none (s.logged (.written path offset data.length)).consume := by
  unfold writeDevice
  rw [ensures_bind, ensures_record, ensures_bind, ensures_reply]
  have houtcome : State.outcome { s with log := s.log ++ [.written path offset data.length] }
    = s.outcome := rfl
  rw [houtcome]
  cases s.outcome.ok with
  | false => exact Iff.rfl
  | true =>
    rw [if_pos rfl, if_pos rfl]
    exact Iff.rfl

/-! ## Which part of a device is touched -/

/-- Where an event touches a device: the offset and the length. -/
def Event.extent : Event → Option (Nat × Nat)
  | .read _ offset length | .written _ offset length => some (offset, length)
  | _ => none

/-- From `s` to `s'` devices have been touched only in extents as `P` says. -/
def Touches (P : Nat × Nat → Prop) (s s' : State) : Prop :=
  ∃ events, s'.log = s.log ++ events ∧ ∀ e ∈ events, ∀ extent, e.extent = some extent → P extent

theorem Touches.none {P : Nat × Nat → Prop} {s' : State} (h : s'.log = s.log) : Touches P s s' :=
  ⟨[], by simp [h], by simp⟩

theorem Touches.append {P : Nat × Nat → Prop} {s s1 s2 : State} (h : Touches P s s1)
    {events : List Event} (hlog : s2.log = s1.log ++ events)
    (hevents : ∀ e ∈ events, ∀ extent, e.extent = some extent → P extent) : Touches P s s2 := by
  obtain ⟨before, hbefore, hP⟩ := h
  refine ⟨before ++ events, by rw [hlog, hbefore, List.append_assoc], fun e he => ?_⟩
  rcases List.mem_append.mp he with he | he
  · exact hP e he
  · exact hevents e he

theorem Touches.logged {P : Nat × Nat → Prop} {s s' : State} (h : Touches P s s') {e : Event}
    (he : e.extent = Option.none) : Touches P s (s'.logged e) := by
  refine h.append rfl fun e' he' extent hext => ?_
  rw [List.mem_singleton.mp he', he] at hext
  cases hext

theorem Touches.mono {P Q : Nat × Nat → Prop} {s s' : State} (h : Touches P s s')
    (hPQ : ∀ extent, P extent → Q extent) : Touches Q s s' := by
  obtain ⟨events, hlog, hP⟩ := h
  exact ⟨events, hlog, fun e he extent hext => hPQ extent (hP e he extent hext)⟩

/-- What a call can touch of the place: an offset that can be sought and a size that can be had. -/
def Place.extent (machine : Machine) (p : Place) (extent : Nat × Nat) : Prop :=
  0 ≤ p.offset ∧ p.size ≤ ptrdiffMax machine.bits ∧ extent = (p.offset.toNat, p.size)

/-! ## Loading -/

/-- The variables, the pairs and the devices are the same. -/
structure Unchanged (s s' : State) : Prop where
  vars : s'.vars = s.vars
  pairs : s'.workingUbootEnv.vars = s.workingUbootEnv.vars
  disk : s'.world.disk = s.world.disk

theorem Unchanged.logged {s s' : State} (h : Unchanged s s') (e : Event) :
    Unchanged s (s'.logged e) := ⟨h.vars, h.pairs, h.disk⟩

/-- The variables after a load has read the block, and after it has been accepted. -/
def readVars (vars : List Variable) : List Variable :=
  assigned (assigned vars (.ofString "uboot_env.loaded") (some (.boolean false)))
    (.ofString "uboot_env.modified") (some (.boolean false))

def loadedVars (vars : List Variable) : List Variable :=
  assigned (readVars vars) (.ofString "uboot_env.loaded") (some (.boolean true))

/-- The ways in which a call of `loadenv` that goes to `place` can leave the state. -/
inductive LoadOutcome (machine : Machine) (place : Place) (s s' : State) : Prop
  | failed (h : Unchanged s s')
  | refused (hvars : s'.vars = readVars s.vars)
  | loaded (buffer : Buffer machine.bits)
      (hbuffer : buffer.bytes = s.world.bytesAt place.path place.offset.toNat place.size)
      (hread : ubootEnvRead ⟨place.size, []⟩ buffer = some (0, s'.workingUbootEnv))
      (hvars : s'.vars = loadedVars s.vars) (hdisk : s'.world.disk = s.world.disk)

/-- The call that has read its settings in `s` has since set the block size, used up `k` outcomes and
done nothing else. -/
structure Before (size : Nat) (s : State) (k : Nat) (s' : State) : Prop where
  vars : s'.vars = s.vars
  env : s'.workingUbootEnv = ⟨size, s.workingUbootEnv.vars⟩
  disk : s'.world.disk = s.world.disk
  log : s'.log = s.log
  replies : s'.world.replies = s.world.replies.drop k

theorem Before.unchanged {size k : Nat} {s s' : State} (h : Before size s k s') : Unchanged s s' :=
  ⟨h.vars, by rw [h.env], h.disk⟩

theorem Before.consume {size k : Nat} {s s' : State} (h : Before size s k s') :
    Before size s (k + 1) s'.consume :=
  ⟨h.vars, h.env, h.disk, h.log, by simp [State.consume, h.replies]⟩

/-- The reply that the next system call of the call gets. -/
theorem Before.outcome {size k : Nat} {s s' : State} (h : Before size s k s') :
    s'.outcome = (s.world.replies.drop k).headD .failed := by
  rw [State.outcome, h.replies]

theorem openBlockDevice_before {size k : Nat} {s s' : State} (h : Before size s k s')
    (spec : CString) : Ensures (openBlockDevice spec) s' (fun path s2 => Before size s (k + 1) s2 ∧
      path.isSome = ((s.world.replies.drop k).headD .failed).ok) E := by
  rw [ensures_openBlockDevice, h.outcome]
  refine ⟨h.consume, ?_⟩
  cases ((s.world.replies.drop k).headD .failed).ok <;> rfl

theorem lseek_before {size k : Nat} {s s' : State} (h : Before size s k s') (offset : Int) :
    Ensures (lseek offset) s' (fun sought s2 => Before size s (k + 1) s2 ∧
      sought = (decide (0 ≤ offset) && ((s.world.replies.drop k).headD .failed).ok)) E := by
  rw [ensures_lseek, h.outcome]
  exact ⟨h.consume, rfl⟩

@[simp] theorem World.length_bytesAt (world : World) (path : CString) (offset length : Nat) :
    (world.bytesAt path offset length).length = length := by
  simp [World.bytesAt]

/-- What is read does not depend on the replies. -/
theorem World.bytesAt_congr {world world' : World} (h : world'.disk = world.disk) (path : CString)
    (offset length : Nat) : world'.bytesAt path offset length = world.bytesAt path offset length := by
  unfold World.bytesAt
  rw [h]

/-- What reading the blocks gives, when they can be had at all. -/
theorem readBlocks_before {size k : Nat} {s s' : State} (h : Before size s k s') (machine : Machine)
    (path : CString) (offset : Nat) :
    Ensures (readBlocks machine path offset size) s' (fun b s2 =>
      Unchanged s s2 ∧ s2.workingUbootEnv.envSize = size ∧
      Touches (fun extent => size ≤ ptrdiffMax machine.bits ∧ extent = (offset, size)) s s2 ∧
      ∀ buffer, b = some buffer → buffer.bytes = s.world.bytesAt path offset size) E := by
  unfold readBlocks malloc
  by_cases hsize : size ≤ ptrdiffMax machine.bits
  · rw [dif_pos hsize]
    dsimp only
    rw [ensures_bind, ensures_readDevice]
    have hsame : Unchanged s (s'.logged (.read path offset size)).consume :=
      ⟨h.vars, by rw [← h.unchanged.pairs]; rfl, h.disk⟩
    have htouch : Touches (fun extent => size ≤ ptrdiffMax machine.bits ∧ extent = (offset, size))
        s (s'.logged (.read path offset size)).consume := by
      refine (Touches.none h.log).append rfl fun e he extent hext => ?_
      rw [List.mem_singleton.mp he] at hext
      exact ⟨hsize, (Option.some.inj hext).symm⟩
    have henvSize : (s'.logged (.read path offset size)).consume.workingUbootEnv.envSize = size :=
      congrArg UbootEnv.envSize h.env
    cases s'.outcome.ok with
    | false => exact ⟨hsame, henvSize, htouch, by simp⟩
    | true =>
      refine ⟨hsame, henvSize, htouch, fun buffer hb => ?_⟩
      simp only [World.length_bytesAt] at hb
      split_ifs at hb with hall
      rw [hall, World.bytesAt_congr h.disk] at hb
      unfold Buffer.memcpy at hb
      split_ifs at hb with hfits
      rw [← Option.some.inj hb]
      simp
  · rw [dif_neg hsize]
    exact ⟨h.unchanged, by rw [h.env], .none h.log, by simp⟩

/-- What `loadenv` does once the settings have been read, which leaves the state `s`. -/
theorem functionLoadenv_read (machine : Machine) {resolve : Option Term → Interp (Option Term)}
    (ps : List Term) {s0 s : State} {settings : EnvSettings}
    (hread : envSettings resolve depth s0 = .ok settings s) :
    Ensures (functionLoadenv machine resolve depth ps) s0
      (fun _ s' => LoadOutcome machine (settings.place machine) s s' ∧
        Touches ((settings.place machine).extent machine) s s')
      fun _ s' => Touches ((settings.place machine).extent machine) s s' := by
  unfold functionLoadenv
  refine settings_read hread ?_
  set place := settings.place machine with hplace
  rw [ensures_bind, ensures_modify]
  have h0 : Before place.size s 0 { s with workingUbootEnv :=
    { s.workingUbootEnv with envSize := place.size } } := ⟨rfl, rfl, rfl, rfl, rfl⟩
  refine (openBlockDevice_before h0 _).bind ?_
  rintro devpath s1 ⟨h1, -⟩
  cases devpath with
  | none =>
    exact ⟨.failed (h1.unchanged.logged _), (Touches.none h1.log).logged rfl⟩
  | some devpath =>
    refine (lseek_before h1 _).bind ?_
    rintro sought s2 ⟨h2, hsought⟩
    replace hsought : sought → 0 ≤ place.offset := by
      rintro rfl
      exact of_decide_eq_true ((Bool.and_eq_true_iff.mp hsought.symm).1)
    cases sought with
    | false =>
      exact ⟨.failed (h2.unchanged.logged _), (Touches.none h2.log).logged rfl⟩
    | true =>
      refine (readBlocks_before h2 machine _ _).bind ?_
      rintro b s3 ⟨hsame, hsize, htouch, hbuffer⟩
      have hextent : Touches (place.extent machine) s s3 :=
        htouch.mono fun extent he => ⟨hsought rfl, he⟩
      cases b with
      | none =>
        exact ⟨.failed (hsame.logged _), hextent.logged rfl⟩
      | some buffer =>
        simp only [ensures_bind, ensures_setBooleanVariable, ensures_get]
        have hread : ubootEnvRead s3.workingUbootEnv buffer
            = ubootEnvRead ⟨place.size, []⟩ buffer := by
          rw [← hsize]
          rfl
        have hflags : Touches (place.extent machine) s
            ((s3.logged (.assigned (.ofString "uboot_env.loaded"))).logged
              (.assigned (.ofString "uboot_env.modified"))) := (hextent.logged rfl).logged rfl
        split
        · exact hflags
        · rename_i rc env hrc
          have hdone : ubootEnvRead ⟨place.size, []⟩ buffer = some (rc, env) :=
            hread.symm.trans hrc
          rw [ensures_bind, ensures_modify]
          split
          · refine ⟨.refused ?_, hflags⟩
            simp only [State.assign, readVars, hsame.vars]
          · rename_i hnonneg
            obtain rfl : rc = 0 := by
              have := ubootEnvRead_code hdone
              omega
            refine ⟨.loaded buffer (hbuffer buffer rfl) hdone ?_ hsame.disk, hflags.logged rfl⟩
            simp only [State.assign, loadedVars, readVars, hsame.vars]

theorem functionLoadenv_spec (machine : Machine) (depth : Nat) (ps : List Term) {s : State}
    (h : Settled s.vars) :
    Ensures (functionLoadenv machine (termResolve machine depth) depth ps) s
      (fun _ s' => LoadOutcome machine (place machine s.vars) s s' ∧
        Touches ((place machine s.vars).extent machine) s s')
      fun _ s' => Touches ((place machine s.vars).extent machine) s s' := by
  have hsettled : Ensures (envSettings (termResolve machine depth) depth) s
      (fun x s1 => x = storedSettings s.vars ∧ s1 = s) fun _ s1 => s1 = s :=
    envSettings_settled h fun _ => rfl
  cases hread : envSettings (termResolve machine depth) depth s with
  | ok settings s1 =>
    obtain ⟨rfl, rfl⟩ := hsettled.ok hread
    exact functionLoadenv_read machine ps hread
  | error e s1 =>
    obtain rfl : s1 = s := hsettled.error hread
    unfold functionLoadenv
    exact ensures_settings.mpr (ensures_of_error hread (.none rfl))

/-! ## Saving -/

/-- The outcome of the `write` in a call of `saveenv`, which follows `open` and `lseek`. -/
def State.writeOutcome (s : State) : Reply := (s.world.replies.drop 2).headD .failed

/-- The ways in which a call of `saveenv` that goes to `place` can leave the state. -/
inductive SaveOutcome (machine : Machine) (place : Place) (s s' : State) : Prop
  | failed (hvars : s'.vars = s.vars) (hdisk : s'.world.disk = s.world.disk)
      (hpairs : s'.workingUbootEnv.vars = s.workingUbootEnv.vars ∨
        s'.workingUbootEnv.vars = machine.qsort.sort s.workingUbootEnv.vars)
  | written (buffer block : Buffer machine.bits) (env : UbootEnv)
      (hbuffer : buffer.size = place.size)
      (hwrite : ubootEnvWrite machine.qsort ⟨place.size, s.workingUbootEnv.vars⟩ buffer
        = some (0, env, block))
      (hpairs : s'.workingUbootEnv.vars = machine.qsort.sort s.workingUbootEnv.vars)
      (hok : s.writeOutcome.ok)
      (hdisk : s'.world.disk = (s.world.store place.path place.offset.toNat
        (block.bytes.take s.writeOutcome.count)).disk)
      (hvars : s'.vars = if place.size ≤ s.writeOutcome.count then
        assigned s.vars (.ofString "uboot_env.modified") (some (.boolean false)) else s.vars)

theorem World.store_congr {world world' : World} (h : world'.disk = world.disk) (path : CString)
    (offset : Nat) (data : List UInt8) :
    (world'.store path offset data).disk = (world.store path offset data).disk := by
  simp only [World.store, h]

/-- What `saveenv` does once the settings have been read, which leaves the state `s`. -/
theorem functionSaveenv_read (machine : Machine) {resolve : Option Term → Interp (Option Term)}
    (ps : List Term) {s0 s : State} {settings : EnvSettings}
    (hread : envSettings resolve depth s0 = .ok settings s) :
    Ensures (functionSaveenv machine resolve depth ps) s0
      (fun _ s' => SaveOutcome machine (settings.place machine) s s' ∧
        Touches ((settings.place machine).extent machine) s s')
      fun _ s' => Touches ((settings.place machine).extent machine) s s' := by
  unfold functionSaveenv
  refine settings_read hread ?_
  set place := settings.place machine with hplace
  rw [ensures_bind, ensures_modify]
  have h0 : Before place.size s 0 { s with workingUbootEnv :=
    { s.workingUbootEnv with envSize := place.size } } := ⟨rfl, rfl, rfl, rfl, rfl⟩
  refine (openBlockDevice_before h0 _).bind ?_
  rintro devpath s1 ⟨h1, -⟩
  cases devpath with
  | none =>
    have hsame := h1.unchanged
    exact ⟨.failed hsame.vars hsame.disk (Or.inl hsame.pairs), (Touches.none h1.log).logged rfl⟩
  | some devpath =>
    refine (lseek_before h1 _).bind ?_
    rintro sought s2 ⟨h2, hsought⟩
    replace hsought : sought → 0 ≤ place.offset := by
      rintro rfl
      exact of_decide_eq_true ((Bool.and_eq_true_iff.mp hsought.symm).1)
    have hsame := h2.unchanged
    cases sought with
    | false =>
      exact ⟨.failed hsame.vars hsame.disk (Or.inl hsame.pairs), (Touches.none h2.log).logged rfl⟩
    | true =>
      have hnone : Touches (place.extent machine) s s2 := .none h2.log
      simp only [Bool.not_true, Bool.false_eq_true, if_false]
      unfold malloc
      by_cases hsize : sizeOfBlocks machine settings.count ≤ ptrdiffMax machine.bits
      · rw [dif_pos hsize]
        dsimp only
        rw [ensures_bind, ensures_get, h2.env]
        generalize hzeros : (⟨List.replicate _ 0, _⟩ : Buffer machine.bits) = buffer
        have hbuffer : buffer.size
            = (⟨place.size, s.workingUbootEnv.vars⟩ : UbootEnv).envSize := by
          rw [← hzeros]
          simp [Buffer.size, hplace, EnvSettings.place]
        rcases ubootEnvWrite_cases machine.qsort hbuffer with ⟨block, hw⟩ | ⟨env, block, hw, henv⟩
        · rw [hw]
          dsimp only
          rw [ensures_bind, ensures_modify, if_neg (by decide), ensures_bind, ensures_writeDevice]
          obtain ⟨-, -, hblock⟩ := block_size hbuffer hw
          replace hblock : block.bytes.length = place.size := hblock
          have hreply : s2.outcome = s.writeOutcome := by
            simp [State.outcome, State.writeOutcome, h2.replies]
          have hwritten : ∀ e ∈ [Event.written place.path
              place.offset.toNat block.bytes.length], ∀ extent,
              e.extent = some extent → place.extent machine extent := by
            intro e he extent hext
            rw [List.mem_singleton.mp he, hblock] at hext
            exact ⟨hsought rfl, hsize, (Option.some.inj hext).symm⟩
          split
          · rename_i hok
            have hok' : s.writeOutcome.ok := hreply ▸ hok
            have hlength : (block.bytes.take s2.outcome.count).length
                = min s.writeOutcome.count place.size := by
              rw [List.length_take, hblock, hreply]
            have hdisk : (s2.consume.world.store place.path
                place.offset.toNat (block.bytes.take s2.outcome.count)).disk
                = (s.world.store place.path place.offset.toNat
                  (block.bytes.take s.writeOutcome.count)).disk := by
              rw [hreply]
              exact World.store_congr hsame.disk _ _ _
            have hall : (block.bytes.take s2.outcome.count).length = place.size ↔
                place.size ≤ s.writeOutcome.count := by omega
            split
            · rename_i hshort
              refine ⟨.written buffer block _ hbuffer hw rfl hok' hdisk ?_,
                (hnone.append rfl hwritten).logged rfl⟩
              rw [if_neg fun hfull => hshort (congrArg some (hall.mpr hfull)), ← hsame.vars]
              rfl
            · rename_i hdone
              have hfull := hall.mp (Option.some.inj (not_not.mp hdone))
              refine ⟨.written buffer block _ hbuffer hw rfl hok' hdisk ?_,
                (hnone.append rfl hwritten).logged rfl⟩
              rw [if_pos hfull, ← hsame.vars]
              rfl
          · rw [if_pos (by simp)]
            exact ⟨.failed hsame.vars hsame.disk (Or.inr rfl), (hnone.append rfl hwritten).logged rfl⟩
        · rw [hw]
          dsimp only
          rw [ensures_bind, ensures_modify, if_pos (by decide)]
          refine ⟨.failed hsame.vars hsame.disk ?_, .none h2.log⟩
          rcases henv with rfl | rfl
          · exact Or.inl rfl
          · exact Or.inr rfl
      · rw [dif_neg hsize]
        exact hnone

theorem functionSaveenv_spec (machine : Machine) (depth : Nat) (ps : List Term) {s : State}
    (h : Settled s.vars) :
    Ensures (functionSaveenv machine (termResolve machine depth) depth ps) s
      (fun _ s' => SaveOutcome machine (place machine s.vars) s s' ∧
        Touches ((place machine s.vars).extent machine) s s')
      fun _ s' => Touches ((place machine s.vars).extent machine) s s' := by
  have hsettled : Ensures (envSettings (termResolve machine depth) depth) s
      (fun x s1 => x = storedSettings s.vars ∧ s1 = s) fun _ s1 => s1 = s :=
    envSettings_settled h fun _ => rfl
  cases hread : envSettings (termResolve machine depth) depth s with
  | ok settings s1 =>
    obtain ⟨rfl, rfl⟩ := hsettled.ok hread
    exact functionSaveenv_read machine ps hread
  | error e s1 =>
    obtain rfl : s1 = s := hsettled.error hread
    unfold functionSaveenv
    exact ensures_settings.mpr (ensures_of_error hread (.none rfl))

end

/-! ## Settings that are in range -/

/-- The byte offset and the byte count of the settings are in the range of an `int`. -/
structure InRange (vars : List Variable) : Prop where
  start : (settingNumber vars (.ofString "uboot_env.start") * 512).toInt
    = 512 * (settingNumber vars (.ofString "uboot_env.start")).toInt
  count : (settingNumber vars (.ofString "uboot_env.count") * 512).toInt
    = 512 * (settingNumber vars (.ofString "uboot_env.count")).toInt

/-- A negative size is too large for `malloc`, and any other is what it says. -/
theorem toSize_le_ptrdiffMax {bits : Nat} (hwide : 32 ≤ bits) (n : Int32)
    (h : toSize bits n ≤ ptrdiffMax bits) : 0 ≤ n.toInt ∧ (toSize bits n : Int) = n.toInt := by
  have hlow := n.le_toInt
  have hhigh := n.toInt_lt
  have hpow : (2 : Int) ^ 32 ≤ 2 ^ bits := by
    exact_mod_cast Nat.pow_le_pow_right (by norm_num) hwide
  have hhalf : (2 : Int) ^ bits = 2 * 2 ^ (bits - 1) := by
    rw [← pow_succ']
    congr 1
    omega
  unfold toSize ptrdiffMax at h
  unfold toSize
  by_cases hn : 0 ≤ n.toInt
  · refine ⟨hn, ?_⟩
    rw [Int.emod_eq_of_lt hn (by omega)]
    omega
  · exfalso
    have hmod : n.toInt % 2 ^ bits = n.toInt + 2 ^ bits := by
      rw [← Int.add_emod_right, Int.emod_eq_of_lt (by omega) (by omega)]
    rw [hmod] at h
    have hnat : ((2 ^ (bits - 1) - 1 : Nat) : Int) = 2 ^ (bits - 1) - 1 := by
      rw [Nat.cast_sub Nat.one_le_two_pow]
      norm_cast
    omega

end NervesInitramfs
