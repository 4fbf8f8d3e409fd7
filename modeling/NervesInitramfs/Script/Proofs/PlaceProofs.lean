import NervesInitramfs.CLib.Proofs.CNumberProofs
import NervesInitramfs.Script.Proofs.SettingProofs

/-!
# Proofs: where the environment is looked for

A block number becomes a byte offset by a multiplication in `int`, which wraps around. What comes
out is the place that was asked for, a negative number that is rejected, or some other place.
-/

namespace NervesInitramfs

open CLib

/-! ## Settings as they are written -/

/-- A value of `uboot_env.start` or `uboot_env.count`: a numeral of the script, a number that it has
computed, a boolean, or a string. -/
inductive Setting
  | numeral (base : Nat) (digits : List UInt8)
  | number (value : Int32)
  | boolean (value : Bool)
  | string (value : CString)

/-- What is stored in the variable. -/
def Setting.term (machine : Machine) : Setting → Term
  | .numeral base digits => .number (toInt32 (strtou machine.bits base digits))
  | .number value => .number value
  | .boolean value => .boolean value
  | .string value => .string value

/-- The integer that the value denotes. -/
def Setting.denotes : Setting → Int
  | .numeral base digits => denotedInteger base digits
  | .number value => value.toInt
  | .boolean value => if value then 1 else 0
  | .string value => denotedInteger 0 value.bytes

/-- The numeral has a value that `strtoul` or `strtoull` cannot return. -/
def Setting.tooLong (machine : Machine) : Setting → Prop
  | .numeral base digits => 2 ^ machine.bits ≤ (scanInteger base digits).2
  | .string value => 2 ^ 64 ≤ (scanInteger 0 value.bytes).2
  | .number _ | .boolean _ => False

/-- The byte offset or count comes out negative. -/
def Setting.rejected (machine : Machine) (x : Setting) : Prop :=
  x.tooLong machine ∨ 2 ^ 22 ≤ x.denotes % 2 ^ 23

theorem Setting.asNumber_eq (machine : Machine) (x : Setting) :
    (x.tooLong machine ∧ (x.term machine).asNumber.toInt = -1) ∨
      (¬ x.tooLong machine ∧ (x.term machine).asNumber.toInt = x.denotes.bmod 4294967296) := by
  cases x with
  | numeral base digits =>
    have hvalue := toInt_strtou machine.wide base digits
    by_cases hlong : 2 ^ machine.bits ≤ (scanInteger base digits).2
    · rw [if_pos hlong] at hvalue
      exact Or.inl ⟨hlong, hvalue⟩
    · rw [if_neg hlong] at hvalue
      exact Or.inr ⟨hlong, hvalue⟩
  | string value =>
    have hvalue := toInt_strtou (show 32 ≤ 64 by decide) 0 value.bytes
    by_cases hlong : 2 ^ 64 ≤ (scanInteger 0 value.bytes).2
    · rw [if_pos hlong] at hvalue
      exact Or.inl ⟨hlong, hvalue⟩
    · rw [if_neg hlong] at hvalue
      exact Or.inr ⟨hlong, hvalue⟩
  | number value =>
    refine Or.inr ⟨id, ?_⟩
    have hlow := value.le_toInt
    have hhigh := value.toInt_lt
    simp only [Setting.term, Setting.denotes, Term.asNumber, Int.bmod_def]
    omega
  | boolean value =>
    refine Or.inr ⟨id, ?_⟩
    cases value <;> rfl

theorem toInt_mul_512 (v : Int32) : (v * 512).toInt = (v.toInt * 512).bmod 4294967296 :=
  Int32.toInt_mul v 512

/-- The product with 512 is negative exactly for a setting that is rejected. -/
theorem Setting.neg_iff (machine : Machine) (x : Setting) :
    ((x.term machine).asNumber * 512).toInt < 0 ↔ x.rejected machine := by
  rw [toInt_mul_512]
  unfold Setting.rejected
  rcases x.asNumber_eq machine with ⟨hlong, hvalue⟩ | ⟨hshort, hvalue⟩
  · rw [hvalue]
    exact iff_of_true (by decide) (Or.inl hlong)
  · rw [hvalue, or_iff_right hshort]
    simp only [Int.bmod_def]
    omega

/-- Otherwise it is what it should be exactly when nothing wraps around. -/
theorem Setting.exact_iff (machine : Machine) {x : Setting} (h : ¬ x.rejected machine) :
    ((x.term machine).asNumber * 512).toInt = 512 * x.denotes ↔
      0 ≤ x.denotes ∧ x.denotes < 2 ^ 22 := by
  unfold Setting.rejected at h
  rw [not_or] at h
  rw [toInt_mul_512]
  rcases x.asNumber_eq machine with ⟨hlong, -⟩ | ⟨-, hvalue⟩
  · exact absurd hlong h.1
  · have hpositive := h.2
    rw [hvalue]
    simp only [Int.bmod_def]
    omega

theorem natAbs_denotedInteger (base : Nat) (digits : List UInt8) :
    (denotedInteger base digits).natAbs = (scanInteger base digits).2 := by
  unfold denotedInteger
  rcases scanInteger base digits with ⟨_ | _, m⟩
  · exact Int.natAbs_natCast m
  · exact (Int.natAbs_neg _).trans (Int.natAbs_natCast m)

/-- What is in range is not rejected. -/
theorem Setting.not_rejected (machine : Machine) (x : Setting)
    (h : 0 ≤ x.denotes ∧ x.denotes < 2 ^ 22) : ¬ x.rejected machine := by
  have hpow : 2 ^ 32 ≤ 2 ^ machine.bits := Nat.pow_le_pow_right (by decide) machine.wide
  rintro (hlong | hhigh)
  · cases x with
    | numeral base digits =>
      have habs := natAbs_denotedInteger base digits
      simp only [Setting.tooLong, Setting.denotes] at hlong h
      omega
    | string value =>
      have habs := natAbs_denotedInteger 0 value.bytes
      simp only [Setting.tooLong, Setting.denotes] at hlong h
      omega
    | number _ | boolean _ => exact hlong
  · omega

/-! ## What is touched -/

/-- A call of `handler` in the state `s` reads the two settings as these, and is then in the state
`s1`. -/
def SettingsReadAs (machine : Machine) (handler : Builtin) (depth : Nat) (start count : Setting)
    (s s1 : State) : Prop :=
  ∃ path, envSettings (termResolve machine depth) depth (s.logged (.called handler))
    = .ok ⟨path, (start.term machine).asNumber, (count.term machine).asNumber⟩ s1

theorem Setting.isLiteral_term (machine : Machine) (x : Setting) : (x.term machine).isLiteral := by
  cases x <;> rfl

section

variable {machine : Machine} {start count : Setting}

/-- A size that can be had is the product with 512, and that is not negative. -/
theorem sizeOfBlocks_eq {n : Int32} (h : sizeOfBlocks machine n ≤ ptrdiffMax machine.bits) :
    0 ≤ (n * 512).toInt ∧ (sizeOfBlocks machine n : Int) = (n * 512).toInt :=
  toSize_le_ptrdiffMax machine.wide _ h

theorem sizeOfBlocks_le {n : Int32} (h : 0 ≤ (n * 512).toInt) :
    sizeOfBlocks machine n ≤ ptrdiffMax machine.bits := by
  have hhigh := (n * 512).toInt_lt
  have hpow : (2 : Int) ^ 31 ≤ 2 ^ (machine.bits - 1) := by
    have hbits := machine.wide
    exact_mod_cast Nat.pow_le_pow_right (by norm_num) (by omega)
  have hmod : (n * 512).toInt % 2 ^ machine.bits ≤ (n * 512).toInt := by
    rw [← Int.toNat_of_nonneg h]
    exact_mod_cast Nat.mod_le _ _
  have hnat : ((2 ^ (machine.bits - 1) - 1 : Nat) : Int) = 2 ^ (machine.bits - 1) - 1 := by
    rw [Nat.cast_sub Nat.one_le_two_pow]
    norm_cast
  unfold sizeOfBlocks toSize ptrdiffMax
  omega

/-- There can be a place as it is asked for, and the `int` arithmetic comes out at it. -/
structure ComesOut (machine : Machine) (start count : Setting) : Prop where
  start : 0 ≤ start.denotes ∧ ((start.term machine).asNumber * 512).toInt = 512 * start.denotes
  count : 0 ≤ count.denotes ∧ ((count.term machine).asNumber * 512).toInt = 512 * count.denotes

/-- The place that was asked for, as an offset and a length. -/
def Asked (machine : Machine) (start count : Setting) (extent : Nat × Nat) : Prop :=
  ComesOut machine start count ∧
    (extent.1 : Int) = 512 * start.denotes ∧ (extent.2 : Int) = 512 * count.denotes

/-- `loadenv` and `saveenv` touch devices only where they are asked to, in every state in which they
read the settings as these and whatever comes of it. Settings at which the arithmetic does not come
out are rejected: the call returns, and no device is touched. -/
def TouchesAsAsked (machine : Machine) (start count : Setting) : Prop :=
  ∀ handler, handler = .loadenv ∨ handler = .saveenv → ∀ depth s s1,
    SettingsReadAs machine handler depth start count s s1 →
    Ensures (runFunction machine depth (.function handler [])) s
      (fun _ s' => Touches (Asked machine start count) s1 s')
      fun _ s' => ComesOut machine start count ∧ Touches (Asked machine start count) s1 s'

section

variable {handler : Builtin} {depth : Nat} {s s1 : State} {settings : EnvSettings}

/-- What they can touch at all, by the specifications of the two. -/
theorem runFunction_touches (hhandler : handler = .loadenv ∨ handler = .saveenv)
    (hread : envSettings (termResolve machine depth) depth (s.logged (.called handler))
      = .ok settings s1) :
    Ensures (runFunction machine depth (.function handler [])) s
      (fun _ s' => Touches ((settings.place machine).extent machine) s1 s')
      fun _ s' => Touches ((settings.place machine).extent machine) s1 s' := by
  rcases hhandler with rfl | rfl
  · exact (functionLoadenv_read machine [] hread).imp fun _ _ hspec => hspec.2
  · exact (functionSaveenv_read machine [] hread).imp fun _ _ hspec => hspec.2

/-- A negative offset cannot be sought, so that both functions return. -/
theorem rejected_returns (hhandler : handler = .loadenv ∨ handler = .saveenv)
    (hread : envSettings (termResolve machine depth) depth (s.logged (.called handler))
      = .ok settings s1) (hoffset : (settings.place machine).offset < 0) :
    Ensures (runFunction machine depth (.function handler [])) s (fun _ _ => True)
      fun _ _ => False := by
  have hseek : ∀ {s' : State} {post : Bool → State → Prop}, (∀ s2, post false s2) →
      Ensures (lseek (settings.start * 512).toInt) s' post fun _ _ => False := by
    intro s' post hpost
    rw [ensures_lseek, show decide (0 ≤ (settings.start * 512).toInt) = false from
      decide_eq_false (not_le.mpr hoffset)]
    exact hpost _
  -- Up to the position the two functions do the same.
  rcases hhandler with rfl | rfl
  · change Ensures (functionLoadenv machine (termResolve machine depth) depth [])
      (s.logged (.called .loadenv)) _ _
    unfold functionLoadenv
    refine settings_read hread ?_
    rw [ensures_bind, ensures_modify, ensures_bind, ensures_openBlockDevice]
    split
    · trivial
    · rw [ensures_bind]
      exact hseek fun s2 => trivial
  · change Ensures (functionSaveenv machine (termResolve machine depth) depth [])
      (s.logged (.called .saveenv)) _ _
    unfold functionSaveenv
    refine settings_read hread ?_
    rw [ensures_bind, ensures_modify, ensures_bind, ensures_openBlockDevice]
    split
    · trivial
    · rw [ensures_bind]
      exact hseek fun s2 => trivial

end

/-- The setting that the variables hold, and a world in which a device can be opened and sought
in. -/
def askedState (machine : Machine) (start count : Setting) : State where
  vars := [⟨.ofString "uboot_env.start", some (start.term machine)⟩,
    ⟨.ofString "uboot_env.count", some (count.term machine)⟩]
  workingUbootEnv := ubootEnvInit
  parserResult := none
  world := ⟨[⟨true, 0, [], [], [], 0⟩, ⟨true, 0, [], [], [], 0⟩], fun _ _ => 0⟩
  log := []
  argv := []

/-- The settings that a call reads there. -/
def askedSettings (machine : Machine) (start count : Setting) : EnvSettings where
  path := .ofString ""
  start := (start.term machine).asNumber
  count := (count.term machine).asNumber

theorem askedState_reads (machine : Machine) (start count : Setting) (e : Event) :
    envSettings (termResolve machine 1) 1 ((askedState machine start count).logged e)
      = .ok (askedSettings machine start count) ((askedState machine start count).logged e) := by
  have hsettled : Settled ((askedState machine start count).logged e).vars := by
    refine .of_literals fun v hv => ?_
    rcases List.mem_pair.mp hv with rfl | rfl
    · exact ⟨_, rfl, start.isLiteral_term machine⟩
    · exact ⟨_, rfl, count.isLiteral_term machine⟩
  rw [envSettings_ok machine 0 hsettled]
  rfl

section

variable {size k : Nat} {s s' : State} {E : Stop → State → Prop}

theorem openBlockDevice_opens (h : Before size s k s')
    (hok : ((s.world.replies.drop k).headD .failed).ok) (spec : CString) :
    Ensures (openBlockDevice spec) s' (fun path s2 => path.isSome ∧ Before size s (k + 1) s2) E :=
  (openBlockDevice_before h spec).mono (fun _ _ hpath => ⟨hpath.2.trans hok, hpath.1⟩) fun _ _ h => h

theorem lseek_seeks (h : Before size s k s') (hok : ((s.world.replies.drop k).headD .failed).ok)
    {offset : Int} (hoffset : 0 ≤ offset) :
    Ensures (lseek offset) s' (fun sought s2 => sought = true ∧ Before size s (k + 1) s2) E := by
  refine (lseek_before h offset).mono ?_ fun _ _ h => h
  rintro sought s2 ⟨h2, hsought⟩
  rw [hok, decide_eq_true hoffset] at hsought
  exact ⟨hsought, h2⟩

theorem readBlocks_reads (hsize : size ≤ ptrdiffMax machine.bits) (path : CString) (offset : Nat) :
    Ensures (readBlocks machine path offset size) s
      (fun _ s2 => .read path offset size ∈ s2.log) E := by
  unfold readBlocks malloc
  rw [dif_pos hsize]
  dsimp only
  rw [ensures_bind, ensures_readDevice]
  have hread : Event.read path offset size ∈ (s.logged (.read path offset size)).consume.log := by
    simp [State.logged, State.consume]
  cases s.outcome.ok with
  | false => exact hread
  | true => exact hread

end

/-- There `loadenv` reads at the place that comes out. -/
theorem loadenv_reads {place : Place}
    (hplace : place = (askedSettings machine start count).place machine) (hstart : ¬ start.rejected machine)
    (hcount : ¬ count.rejected machine) {s : State}
    (hread : envSettings (termResolve machine 1) 1 s = .ok (askedSettings machine start count) s)
    (hopen : (s.world.replies.headD .failed).ok)
    (hseek : ((s.world.replies.drop 1).headD .failed).ok) {event : Event}
    (hevent : event = .read place.path place.offset.toNat place.size) :
    Ensures (functionLoadenv machine (termResolve machine 1) 1 []) s
      (fun _ s' => event ∈ s'.log) fun _ s' => event ∈ s'.log := by
  have hoffset : 0 ≤ place.offset := by
    rw [← start.neg_iff] at hstart
    exact hplace ▸ not_lt.mp hstart
  have hsize : place.size ≤ ptrdiffMax machine.bits := by
    rw [← count.neg_iff] at hcount
    exact hplace ▸ sizeOfBlocks_le (not_lt.mp hcount)
  subst hplace
  unfold functionLoadenv
  refine settings_read hread ?_
  set place := (askedSettings machine start count).place machine with hplace
  rw [ensures_bind, ensures_modify]
  have h0 : Before place.size s 0 { s with workingUbootEnv :=
    { s.workingUbootEnv with envSize := place.size } } := ⟨rfl, rfl, rfl, rfl, rfl⟩
  refine (openBlockDevice_opens h0 hopen _).bind ?_
  rintro path s1 ⟨hpath, h1⟩
  obtain ⟨path, rfl⟩ := Option.isSome_iff_exists.mp hpath
  refine (lseek_seeks h1 hseek hoffset).bind ?_
  rintro sought s2 ⟨rfl, h2⟩
  refine (readBlocks_reads hsize _ _).bind ?_
  rintro b s3 hread
  replace hread : event ∈ s3.log := hevent ▸ hread
  have hlogged : ∀ {t : State} e, event ∈ t.log → event ∈ (t.logged e).log :=
    fun _ h => List.mem_append_left _ h
  cases b with
  | none => exact hlogged _ hread
  | some buffer =>
    simp only [ensures_bind, ensures_setBooleanVariable, ensures_get]
    have hflags : event ∈ ((s3.logged (.assigned (.ofString "uboot_env.loaded"))).logged
        (.assigned (.ofString "uboot_env.modified"))).log := hlogged _ (hlogged _ hread)
    split
    · exact hflags
    · rw [ensures_bind, ensures_modify]
      split
      · exact hflags
      · exact hlogged _ hflags

/-- When neither setting is rejected, the place that comes out must be the one that was asked
for. -/
theorem TouchesAsAsked.place_eq (h : TouchesAsAsked machine start count)
    (hstart : ¬ start.rejected machine) (hcount : ¬ count.rejected machine) :
    ((start.term machine).asNumber * 512).toInt = 512 * start.denotes ∧
      ((count.term machine).asNumber * 512).toInt = 512 * count.denotes := by
  set s := askedState machine start count with hs
  set place := (askedSettings machine start count).place machine with hplace
  have hoffset : 0 ≤ ((start.term machine).asNumber * 512).toInt := by
    rw [← start.neg_iff] at hstart
    omega
  have hsize : 0 ≤ ((count.term machine).asNumber * 512).toInt := by
    rw [← count.neg_iff] at hcount
    omega
  have hread := askedState_reads machine start count (.called .loadenv)
  have hreads := loadenv_reads hplace hstart hcount hread rfl rfl rfl
  have htouches := h .loadenv (Or.inl rfl) 1 s _ ⟨_, hread⟩
  have hasked : ∀ s', Touches (Asked machine start count) (s.logged (.called .loadenv)) s' →
      Event.read place.path place.offset.toNat place.size ∈ s'.log →
      ((start.term machine).asNumber * 512).toInt = 512 * start.denotes ∧
        ((count.term machine).asNumber * 512).toInt = 512 * count.denotes := by
    rintro s' ⟨events, hlog, hevents⟩ hin
    rw [hlog] at hin
    have hnew : Event.read place.path place.offset.toNat place.size ∈ events := by
      simpa [State.logged, hs, askedState] using hin
    obtain ⟨-, hstart', hcount'⟩ := hevents _ hnew _ rfl
    rw [show (place.offset.toNat : Int) = _ from Int.toNat_of_nonneg hoffset] at hstart'
    rw [show (place.size : Int) = _ from (sizeOfBlocks_eq (sizeOfBlocks_le hsize)).2] at hcount'
    exact ⟨hstart', hcount'⟩
  -- Some outcome has both properties.
  by_contra hne
  refine not_ensures_false ((Ensures.and htouches hreads).mono ?_ ?_)
  · rintro _ s' ⟨htouch, hin⟩
    exact hne (hasked s' htouch hin)
  · rintro _ s' ⟨⟨-, htouch⟩, hin⟩
    exact hne (hasked s' htouch hin)

/-- There `saveenv` writes to the `NULL` that `malloc` returns for a negative size. -/
theorem saveenv_crashes (hstart : ¬ start.rejected machine) (hcount : count.rejected machine)
    {s : State}
    (hread : envSettings (termResolve machine 1) 1 s = .ok (askedSettings machine start count) s)
    (hopen : (s.world.replies.headD .failed).ok)
    (hseek : ((s.world.replies.drop 1).headD .failed).ok) :
    Ensures (functionSaveenv machine (termResolve machine 1) 1 []) s (fun _ _ => False)
      fun _ _ => True := by
  unfold functionSaveenv
  refine settings_read hread ?_
  set place := (askedSettings machine start count).place machine with hplace
  have hoffset : 0 ≤ place.offset := by
    rw [← start.neg_iff] at hstart
    exact not_lt.mp hstart
  have hsize : ¬ place.size ≤ ptrdiffMax machine.bits := by
    rw [← count.neg_iff] at hcount
    exact fun hsize => absurd (sizeOfBlocks_eq hsize).1 (not_le.mpr hcount)
  rw [ensures_bind, ensures_modify]
  have h0 : Before place.size s 0 { s with workingUbootEnv :=
    { s.workingUbootEnv with envSize := place.size } } := ⟨rfl, rfl, rfl, rfl, rfl⟩
  refine (openBlockDevice_opens h0 hopen _).bind ?_
  rintro path s1 ⟨hpath, h1⟩
  obtain ⟨path, rfl⟩ := Option.isSome_iff_exists.mp hpath
  refine (lseek_seeks h1 hseek hoffset).bind ?_
  rintro sought s2 ⟨rfl, h2⟩
  simp only [Bool.not_true, Bool.false_eq_true, if_false]
  have hnull : malloc machine.bits
      (sizeOfBlocks machine (askedSettings machine start count).count) = none := dif_neg hsize
  rw [hnull]
  trivial

/-- A count that is rejected is only rejected when the start is. -/
theorem TouchesAsAsked.count_rejected (h : TouchesAsAsked machine start count)
    (hstart : ¬ start.rejected machine) : ¬ count.rejected machine := by
  intro hcount
  have hread := askedState_reads machine start count (.called .saveenv)
  have hcrashes := saveenv_crashes hstart hcount hread rfl rfl
  have hout : ¬ ComesOut machine start count := by
    rintro ⟨-, hpositive, hexact⟩
    rw [← count.neg_iff] at hcount
    omega
  have hrun := h .saveenv (Or.inr rfl) 1 (askedState machine start count) _ ⟨_, hread⟩
  refine not_ensures_false ((Ensures.and hrun hcrashes).mono ?_ ?_)
  · rintro _ s' ⟨-, hfalse⟩
    exact hfalse
  · rintro _ s' ⟨⟨hcomes, -⟩, -⟩
    exact hout hcomes

/-- Both functions touch devices only where they are asked to exactly when the start is rejected or
both settings are in range. -/
theorem touches_as_asked_iff (machine : Machine) (start count : Setting) :
    TouchesAsAsked machine start count ↔ start.rejected machine ∨
      (0 ≤ start.denotes ∧ start.denotes < 2 ^ 22) ∧ 0 ≤ count.denotes ∧ count.denotes < 2 ^ 22 := by
  constructor
  · intro h
    by_cases hstart : start.rejected machine
    · exact Or.inl hstart
    · have hcount := h.count_rejected hstart
      obtain ⟨hoffset, hsize⟩ := h.place_eq hstart hcount
      exact Or.inr ⟨(start.exact_iff machine hstart).mp hoffset,
        (count.exact_iff machine hcount).mp hsize⟩
  · rintro h handler hhandler depth s s1 ⟨path, hread⟩
    have htouches := runFunction_touches hhandler hread
    set place := EnvSettings.place machine ⟨path, _, _⟩ with hplace
    by_cases hstart : start.rejected machine
    · have hoffset : place.offset < 0 := (start.neg_iff machine).mpr hstart
      have hnone : ∀ extent, place.extent machine extent → Asked machine start count extent := by
        rintro extent ⟨hnonneg, -, -⟩
        omega
      refine (Ensures.and htouches (rejected_returns hhandler hread hoffset)).mono ?_ ?_
      · rintro _ s' ⟨htouch, -⟩
        exact htouch.mono hnone
      · rintro _ s' ⟨-, hfalse⟩
        exact hfalse.elim
    · obtain ⟨hs, hc⟩ := h.resolve_left hstart
      have hcount := count.not_rejected machine hc
      have hs' := (start.exact_iff machine hstart).mpr hs
      have hc' := (count.exact_iff machine hcount).mpr hc
      have hout : ComesOut machine start count := ⟨⟨hs.1, hs'⟩, hc.1, hc'⟩
      have hasked : ∀ extent, place.extent machine extent → Asked machine start count extent := by
        rintro extent ⟨hoffset, hsize, rfl⟩
        refine ⟨hout, ?_, ?_⟩
        · rw [Int.toNat_of_nonneg hoffset]
          exact hs'
        · exact (sizeOfBlocks_eq hsize).2.trans hc'
      exact htouches.mono (fun _ _ htouch => htouch.mono hasked) fun _ _ htouch =>
        ⟨hout, htouch.mono hasked⟩

end

/-- The start of block 8388608, four gigabytes into the device, wraps around to its first byte. -/
theorem touches_first_byte : ¬ ∀ (machine : Machine) (start count : Setting),
    TouchesAsAsked machine start count := by
  intro hall
  have h := hall plainMachine (.string (.ofString "8388608")) (.number 256)
  have hstart : ¬ (Setting.string (.ofString "8388608")).rejected plainMachine := by
    rw [← Setting.neg_iff]
    decide
  have hcount : ¬ (Setting.number 256).rejected plainMachine := by
    rw [← Setting.neg_iff]
    decide
  exact absurd (h.place_eq hstart hcount).1 (by decide)

end NervesInitramfs
