import NervesInitramfs.Script.Device
import NervesInitramfs.Script.Proofs.PlaceProofs
import NervesInitramfs.Uboot.Proofs.FitProofs

/-!
# Proofs: the block and the descriptor

What `loadenv` hands to the reader is a block of at least four bytes unless the number of blocks
wraps around to none at all. A save that fails leaves everything as it was, but its descriptor stays
open when the environment does not fit.
-/

namespace NervesInitramfs

open CLib

section

variable (machine : Machine) (resolve : Option Term → Interp (Option Term)) (depth : Nat)

/-! ## The functions in steps -/

theorem functionLoadenv_eq (ps : List Term) :
    functionLoadenv machine resolve depth ps
      = loadenvBuffer machine resolve depth >>= loadenvRead machine := by
  unfold functionLoadenv loadenvBuffer
  simp only [bind_assoc]
  refine bind_congr fun path => bind_congr fun block => bind_congr fun blockCount =>
    bind_congr fun _ => bind_congr fun devpath => ?_
  cases devpath with
  | none => rfl
  | some devpath =>
    dsimp only
    rw [bind_assoc]
    refine bind_congr fun sought => ?_
    cases sought with
    | false => rfl
    | true =>
      simp only [Bool.not_true, Bool.false_eq_true, if_false, bind_assoc]
      refine bind_congr fun buffer => ?_
      cases buffer <;> rfl

theorem functionSaveenv_eq (fds : List Nat) (ps : List Term) :
    functionSaveenv machine resolve depth ps
      = functionSaveenvFds machine resolve depth fds ps >>= fun r => pure r.1 := by
  unfold functionSaveenv functionSaveenvFds
  simp only [bind_assoc]
  refine bind_congr fun path => bind_congr fun block => bind_congr fun blockCount =>
    bind_congr fun _ => bind_congr fun devpath => ?_
  cases devpath with
  | none => rfl
  | some devpath =>
    dsimp only
    rw [bind_assoc]
    refine bind_congr fun sought => ?_
    cases sought with
    | false => rfl
    | true =>
      simp only [Bool.not_true, Bool.false_eq_true, if_false]
      cases malloc machine.bits (sizeOfBlocks machine blockCount) with
      | none => rfl
      | some buffer =>
        dsimp only
        rw [bind_assoc]
        refine bind_congr fun s => ?_
        cases ubootEnvWrite machine.qsort s.workingUbootEnv buffer with
        | none => rfl
        | some written =>
          obtain ⟨rc, env, block⟩ := written
          dsimp only
          rw [bind_assoc]
          refine bind_congr fun _ => ?_
          by_cases hrc : rc < 0
          · rw [if_pos hrc, if_pos hrc]
            rfl
          · rw [if_neg hrc, if_neg hrc, bind_assoc]
            refine bind_congr fun amount => ?_
            split_ifs <;> rfl

end

/-! ## The block that is read -/

section

variable {machine : Machine} {depth : Nat} {s : State}

/-- The buffer that comes to the reader has the size that the number of blocks makes. -/
theorem loadenvBuffer_spec {resolve : Option Term → Interp (Option Term)} {s1 : State}
    {settings : EnvSettings} (hread : envSettings resolve depth s = .ok settings s1) :
    Ensures (loadenvBuffer machine resolve depth) s (fun b s' =>
      ∀ buffer, b = some buffer → buffer.size = (settings.place machine).size ∧
        s'.workingUbootEnv.envSize = (settings.place machine).size) fun _ _ => True := by
  unfold loadenvBuffer
  refine settings_read hread ?_
  set place := settings.place machine with hplace
  rw [ensures_bind, ensures_modify]
  have h0 : Before place.size s1 0 { s1 with workingUbootEnv :=
    { s1.workingUbootEnv with envSize := place.size } } := ⟨rfl, rfl, rfl, rfl, rfl⟩
  refine (openBlockDevice_before h0 _).bind ?_
  rintro devpath s1 ⟨h1, -⟩
  cases devpath with
  | none => exact fun buffer hb => nomatch hb
  | some devpath =>
    refine (lseek_before h1 _).bind ?_
    rintro sought s2 ⟨h2, -⟩
    cases sought with
    | false => exact fun buffer hb => nomatch hb
    | true =>
      refine (readBlocks_before h2 machine _ _).bind ?_
      rintro b s3 ⟨-, hsize, -, hbuffer⟩
      cases b with
      | none => exact fun buffer hb => nomatch hb
      | some buffer =>
        simp only [ensures_bind, ensures_setBooleanVariable, ensures_pure]
        intro buffer' hb
        obtain rfl := Option.some.inj hb
        refine ⟨?_, hsize⟩
        rw [Buffer.size, hbuffer buffer rfl, World.length_bytesAt]

/-- The number of blocks comes out as none at all. -/
def Setting.empty (machine : Machine) (x : Setting) : Prop :=
  ¬ x.tooLong machine ∧ (2 ^ 23 : Int) ∣ x.denotes

theorem Setting.empty_iff (machine : Machine) (x : Setting) :
    ((x.term machine).asNumber * 512).toInt = 0 ↔ x.empty machine := by
  rw [toInt_mul_512]
  unfold Setting.empty
  rcases x.asNumber_eq machine with ⟨hlong, hvalue⟩ | ⟨hshort, hvalue⟩
  · rw [hvalue]
    exact iff_of_false (by decide) fun h => h.1 hlong
  · rw [hvalue, and_iff_right hshort]
    simp only [Int.bmod_def]
    omega

theorem four_le_of_mul_512 {n : Int32} (h0 : 0 ≤ (n * 512).toInt) (hne : (n * 512).toInt ≠ 0) :
    4 ≤ (n * 512).toInt := by
  rw [toInt_mul_512] at h0 hne ⊢
  simp only [Int.bmod_def] at h0 hne ⊢
  omega

theorem readBlocks_empty (hok : s.outcome.ok) (path : CString) (offset : Nat) :
    Ensures (readBlocks machine path offset 0) s
      (fun b s' => b.isSome ∧ s'.workingUbootEnv = s.workingUbootEnv) fun _ _ => False := by
  unfold readBlocks malloc
  rw [dif_pos (Nat.zero_le _)]
  dsimp only
  rw [ensures_bind, ensures_readDevice, if_pos hok]
  refine ⟨?_, rfl⟩
  have hlength : (s.world.bytesAt path offset (min s.outcome.count 0)).length = 0 := by
    rw [World.length_bytesAt, Nat.min_zero]
  rw [if_pos hlength, Buffer.memcpy, dif_pos (by rw [hlength]; exact Nat.zero_le _)]
  rfl

/-- A size of no bytes makes the reader start on an empty buffer, when the system calls succeed. -/
theorem loadenvBuffer_empty {resolve : Option Term → Interp (Option Term)} {s1 : State}
    {settings : EnvSettings} (hread : envSettings resolve depth s = .ok settings s1)
    (hsize : (settings.place machine).size = 0) (hoffset : 0 ≤ (settings.place machine).offset)
    (hok : ∀ k < 3, ((s1.world.replies.drop k).headD .failed).ok) :
    Ensures (loadenvBuffer machine resolve depth) s
      (fun b s' => b.isSome ∧ s'.workingUbootEnv.envSize = 0) fun _ _ => False := by
  unfold loadenvBuffer
  refine settings_read hread ?_
  set place := settings.place machine with hplace
  rw [ensures_bind, ensures_modify]
  have h0 : Before place.size s1 0 { s1 with workingUbootEnv :=
    { s1.workingUbootEnv with envSize := place.size } } := ⟨rfl, rfl, rfl, rfl, rfl⟩
  refine (openBlockDevice_opens h0 (hok 0 (by decide)) _).bind ?_
  rintro path s2 ⟨hpath, h2⟩
  obtain ⟨path, rfl⟩ := Option.isSome_iff_exists.mp hpath
  refine (lseek_seeks h2 (hok 1 (by decide)) hoffset).bind ?_
  rintro sought s3 ⟨rfl, h3⟩
  have hread : s3.outcome.ok := by
    unfold State.outcome
    rw [h3.replies]
    exact hok 2 (by decide)
  have hzero : sizeOfBlocks machine settings.count = 0 := hsize
  simp only [Bool.not_true, Bool.false_eq_true, if_false, hzero]
  refine (readBlocks_empty hread _ _).bind ?_
  rintro b s4 ⟨hb, henv⟩
  obtain ⟨buffer, rfl⟩ := Option.isSome_iff_exists.mp hb
  simp only [ensures_bind, ensures_setBooleanVariable, ensures_pure]
  refine ⟨rfl, ?_⟩
  show s4.workingUbootEnv.envSize = 0
  rw [henv, h3.env, hsize]

/-- A state in which the number of blocks is set, and the system calls succeed. -/
def countState (machine : Machine) (count : Setting) : State where
  vars := [⟨.ofString "uboot_env.count", some (count.term machine)⟩]
  workingUbootEnv := ubootEnvInit
  parserResult := none
  world := ⟨List.replicate 3 ⟨true, 0, [], [], [], 0⟩, fun _ _ => 0⟩
  log := []
  argv := []

theorem countState_reads (machine : Machine) (count : Setting) :
    envSettings (termResolve machine 1) 1 (countState machine count)
      = .ok ⟨.ofString "", 0, (count.term machine).asNumber⟩ (countState machine count) := by
  have hsettled : Settled (countState machine count).vars := by
    refine .of_literals fun v hv => ?_
    obtain rfl := List.mem_singleton.mp hv
    exact ⟨_, rfl, count.isLiteral_term machine⟩
  rw [envSettings_ok machine 0 hsettled]
  rfl

/-- A number of blocks that comes out as none is such a size. -/
theorem loadenvBuffer_countState {count : Setting} (hempty : count.empty machine) :
    Ensures (loadenvBuffer machine (termResolve machine 1) 1) (countState machine count)
      (fun b s' => b.isSome ∧ s'.workingUbootEnv.envSize = 0) fun _ _ => False := by
  refine loadenvBuffer_empty (countState_reads machine count) ?_ ?_ ?_
  · simp only [EnvSettings.place, sizeOfBlocks, toSize, (count.empty_iff machine).mpr hempty]
    simp
  · simp [EnvSettings.place]
  · intro k hk
    obtain rfl | rfl | rfl : k = 0 ∨ k = 1 ∨ k = 2 := by omega
    · rfl
    · rfl
    · rfl

/-- The reader is never called on less than four bytes exactly for the numbers of blocks that do not
come out as none. -/
theorem loadenv_never_underflows_iff (machine : Machine) (count : Setting) :
    (∀ (depth : Nat) (s s1 s' : State) (path : CString) (start : Int32)
      (buffer : Buffer machine.bits),
      envSettings (termResolve machine depth) depth s
        = .ok ⟨path, start, (count.term machine).asNumber⟩ s1 →
      loadenvBuffer machine (termResolve machine depth) depth s = .ok (some buffer) s' →
      4 ≤ s'.workingUbootEnv.envSize ∧ buffer.size = s'.workingUbootEnv.envSize) ↔
    ¬ count.empty machine := by
  constructor
  · intro hall hempty
    have hrun := loadenvBuffer_countState hempty
    cases hm : loadenvBuffer machine (termResolve machine 1) 1 (countState machine count) with
    | ok b s' =>
      obtain ⟨hb, hsize⟩ := hrun.ok hm
      obtain ⟨buffer, rfl⟩ := Option.isSome_iff_exists.mp hb
      have h4 := (hall 1 _ _ s' _ _ buffer (countState_reads machine count) hm).1
      omega
    | error e s' => exact hrun.error hm
  · intro hne depth s s1 s' path start buffer hread hm
    obtain ⟨hbuffer, henv⟩ := (loadenvBuffer_spec hread).ok hm buffer rfl
    have hsize : (EnvSettings.place machine ⟨path, start, (count.term machine).asNumber⟩).size
        = sizeOfBlocks machine (count.term machine).asNumber := rfl
    rw [hsize] at hbuffer henv
    have hmax : buffer.size ≤ ptrdiffMax machine.bits := buffer.size_le
    rw [hbuffer] at hmax
    obtain ⟨h0, heq⟩ := sizeOfBlocks_eq hmax
    have h4 := four_le_of_mul_512 h0 (mt (count.empty_iff machine).mp hne)
    exact ⟨by omega, by omega⟩

/-- With no blocks the reader is called on an empty buffer. -/
theorem loadenv_underflows :
    ¬ ∀ (machine : Machine) (count : Setting) (depth : Nat) (s s1 s' : State) (path : CString)
      (start : Int32) (buffer : Buffer machine.bits),
      envSettings (termResolve machine depth) depth s
        = .ok ⟨path, start, (count.term machine).asNumber⟩ s1 →
      loadenvBuffer machine (termResolve machine depth) depth s = .ok (some buffer) s' →
      4 ≤ s'.workingUbootEnv.envSize ∧ buffer.size = s'.workingUbootEnv.envSize := by
  intro hall
  have hempty : (Setting.number 0).empty plainMachine := ⟨id, by decide⟩
  have hrun := loadenvBuffer_countState hempty
  cases hm : loadenvBuffer plainMachine (termResolve plainMachine 1) 1
      (countState plainMachine (.number 0)) with
  | ok b s' =>
    obtain ⟨hb, hsize⟩ := hrun.ok hm
    obtain ⟨buffer, rfl⟩ := Option.isSome_iff_exists.mp hb
    have h4 := (hall plainMachine (.number 0) 1 _ _ s' _ _ buffer (countState_reads _ _) hm).1
    omega
  | error e s' => exact hrun.error hm

end

/-! ## A save that fails -/

/-- The device can be opened, and the position can be sought, in the state in which the settings
have been read. -/
def SaveReaches (machine : Machine) (settings : EnvSettings) (s : State) : Prop :=
  (s.world.replies.headD .failed).ok ∧ 0 ≤ (settings.place machine).offset ∧
    ((s.world.replies.drop 1).headD .failed).ok

/-- The environment does not fit into the blocks. -/
def SaveOverflows (machine : Machine) (settings : EnvSettings) (s : State) : Prop :=
  (settings.place machine).size ≤ neededSize s.workingUbootEnv.vars

/-- No device has been read or written. -/
def Untouched (s s' : State) : Prop := Touches (fun _ => False) s s'

/-- The number of blocks is at least one, and the number of bytes does not overflow. -/
structure SavesBlocks (settings : EnvSettings) : Prop where
  positive : 1 ≤ settings.count.toInt
  exact : (settings.count * 512).toInt = 512 * settings.count.toInt

/-- The bytes of the devices, the map of the environment and its two flags are the same. -/
structure LeavesAll (s s' : State) : Prop where
  disk : s'.world.disk = s.world.disk
  map : ∀ name, ubootEnvGetenv s'.workingUbootEnv name = ubootEnvGetenv s.workingUbootEnv name
  flags : ∀ flag ∈ flagNames, store s'.vars flag = store s.vars flag

theorem Unchanged.leavesAll {s s' : State} (h : Unchanged s s') : LeavesAll s s' where
  disk := h.disk
  map := fun name => by rw [ubootEnvGetenv_eq, ubootEnvGetenv_eq, h.pairs]
  flags := fun flag _ => by rw [h.vars]

theorem LeavesAll.refl (s : State) : LeavesAll s s := ⟨rfl, fun _ => rfl, fun _ _ => rfl⟩

theorem LeavesAll.trans {a b c : State} (h : LeavesAll a b) (h' : LeavesAll b c) : LeavesAll a c where
  disk := h'.disk.trans h.disk
  map := fun name => (h'.map name).trans (h.map name)
  flags := fun flag hflag => (h'.flags flag hflag).trans (h.flags flag hflag)

theorem LeavesAll.symm {a b : State} (h : LeavesAll a b) : LeavesAll b a where
  disk := h.disk.symm
  map := fun name => (h.map name).symm
  flags := fun flag hflag => (h.flags flag hflag).symm

section

variable {machine : Machine} {depth : Nat} {s0 s : State} {settings : EnvSettings}

theorem SavesBlocks.size (machine : Machine) (h : SavesBlocks settings) :
    8 ≤ (settings.place machine).size ∧ (settings.place machine).size ≤ ptrdiffMax machine.bits := by
  have hpositive := h.positive
  have hexact := h.exact
  have hle : sizeOfBlocks machine settings.count ≤ ptrdiffMax machine.bits :=
    sizeOfBlocks_le (by omega)
  have heq := (sizeOfBlocks_eq hle).2
  exact ⟨by show 8 ≤ sizeOfBlocks machine _; omega, hle⟩

theorem not_untouched {s1 s' : State} {path : CString} {offset length : Nat} {more : List Event}
    (h : s1.log = s.log ++ [.written path offset length]) (hmore : s'.log = s1.log ++ more) :
    ¬ Untouched s s' := by
  rintro ⟨events, hlog, hevents⟩
  rw [hmore, h, List.append_assoc, List.append_cancel_left_eq] at hlog
  have hin : Event.written path offset length ∈ events := by
    rw [← hlog]
    exact List.mem_cons_self
  exact hevents _ hin _ rfl

theorem Untouched.logged {s' : State} (h : Untouched s s') {e : Event} (he : e.extent = none) :
    Untouched s (s'.logged e) := Touches.logged h he

theorem writeDevice_logs {E : Stop → State → Prop} (path : CString) (offset : Nat)
    (data : List UInt8) : Ensures (writeDevice path offset data) s
      (fun _ s' => s'.log = s.log ++ [.written path offset data.length]) E := by
  rw [ensures_writeDevice]
  split_ifs
  · rfl
  · rfl

/-- The ways in which a call of `saveenv` can end that has read its settings in `s`. -/
inductive SaveEnd (machine : Machine) (settings : EnvSettings) (s : State) (fds : List Nat)
    (s' : State) (fds' : List Nat) : Prop
  | early (h : ¬ SaveReaches machine settings s) (hsame : Unchanged s s') (hfds : fds' = fds)
      (hlog : Untouched s s')
  | full (h : SaveReaches machine settings s) (hfull : SaveOverflows machine settings s)
      (hfds : fds' = lowestFree fds :: fds) (hlog : Untouched s s')
  | written (h : SaveReaches machine settings s) (hfits : ¬ SaveOverflows machine settings s)
      (hlog : ¬ Untouched s s')

theorem functionSaveenvFds_spec {resolve : Option Term → Interp (Option Term)}
    (hread : envSettings resolve depth s0 = .ok settings s) (h : SavesBlocks settings)
    (fds : List Nat) (ps : List Term) :
    Ensures (functionSaveenvFds machine resolve depth fds ps) s0
      (fun r s' => SaveEnd machine settings s fds s' r.2) fun _ _ => False := by
  unfold functionSaveenvFds
  refine settings_read hread ?_
  have hbounds := h.size machine
  set place := settings.place machine with hplace
  rw [ensures_bind, ensures_modify]
  have h0 : Before place.size s 0 { s with workingUbootEnv :=
    { s.workingUbootEnv with envSize := place.size } } := ⟨rfl, rfl, rfl, rfl, rfl⟩
  refine (openBlockDevice_before h0 _).bind ?_
  rintro devpath s1 ⟨h1, hopen⟩
  cases devpath with
  | none =>
    refine .early (fun hreach => ?_) (h1.unchanged.logged _) rfl (Untouched.logged (.none h1.log) rfl)
    exact absurd (hopen.trans hreach.1) Bool.false_ne_true
  | some devpath =>
    refine (lseek_before h1 _).bind ?_
    rintro sought s2 ⟨h2, hsought⟩
    cases sought with
    | false =>
      refine .early (fun hreach => ?_) (h2.unchanged.logged _)
        (List.erase_cons_head _ _) (Untouched.logged (.none h2.log) rfl)
      have htrue := Bool.and_eq_true_iff.mpr ⟨decide_eq_true hreach.2.1, hreach.2.2⟩
      exact absurd (hsought.trans htrue) Bool.false_ne_true
    | true =>
      have hreach : SaveReaches machine settings s := by
        obtain ⟨hoffset, hseek⟩ := Bool.and_eq_true_iff.mp hsought.symm
        exact ⟨hopen.symm, of_decide_eq_true hoffset, hseek⟩
      simp only [Bool.not_true, Bool.false_eq_true, if_false]
      unfold malloc
      rw [dif_pos (show sizeOfBlocks machine settings.count ≤ _ from hbounds.2)]
      dsimp only
      rw [ensures_bind, ensures_get, h2.env]
      generalize hzeros : (⟨List.replicate _ 0, _⟩ : Buffer machine.bits) = buffer
      have hbuffer : buffer.size = (⟨place.size, s.workingUbootEnv.vars⟩ : UbootEnv).envSize := by
        rw [← hzeros]
        simp [Buffer.size, hplace, EnvSettings.place]
      have hneeded := neededSize_eq s.workingUbootEnv.vars
      by_cases hfits : neededSize s.workingUbootEnv.vars < place.size
      · obtain ⟨block, hw, -⟩ := ubootEnvWrite_fits machine.qsort hbuffer
          (show 4 + (entriesBytes s.workingUbootEnv.vars).length + 2 ≤ place.size by omega) hbounds.1
        rw [hw]
        dsimp only
        rw [ensures_bind, ensures_modify, if_neg (by decide)]
        refine (writeDevice_logs _ _ _).bind fun amount s3 hlog => ?_
        replace hlog : s3.log = s.log ++ [.written place.path place.offset.toNat block.bytes.length] :=
          h2.log ▸ hlog
        have hfits' : ¬ SaveOverflows machine settings s := Nat.not_le_of_lt hfits
        split_ifs
        · exact .written hreach hfits' (not_untouched hlog rfl)
        · exact .written hreach hfits' (not_untouched hlog rfl)
      · obtain ⟨env, block, hw, -⟩ := ubootEnvWrite_overflows machine.qsort hbuffer
          (show place.size < 4 + (entriesBytes s.workingUbootEnv.vars).length + 2 by omega)
        rw [hw]
        dsimp only
        rw [ensures_bind, ensures_modify, if_pos (by decide)]
        exact .full hreach (Nat.le_of_not_lt hfits) rfl (.none h2.log)

/-- The call returns, in one of these ways. -/
theorem saveenv_ends (machine : Machine) {resolve : Option Term → Interp (Option Term)}
    (hread : envSettings resolve depth s0 = .ok settings s) (h : SavesBlocks settings)
    (fds : List Nat) (ps : List Term) : ∃ result fds' s',
    functionSaveenvFds machine resolve depth fds ps s0 = .ok (result, fds') s' ∧
      SaveEnd machine settings s fds s' fds' := by
  have hspec : Ensures (functionSaveenvFds machine resolve depth fds ps) s0
      (fun r s' => SaveEnd machine settings s fds s' r.2) fun _ _ => False :=
    functionSaveenvFds_spec hread h fds ps
  cases hrun : functionSaveenvFds machine resolve depth fds ps s0 with
  | error e s' => exact absurd (hspec.error hrun) id
  | ok r s' => exact ⟨r.1, r.2, s', rfl, hspec.ok hrun⟩

/-- A save that fails before the write leaves everything as it was, its descriptor too, exactly when
it does not come as far as an environment that does not fit, and reading the settings leaves
everything as it was unless the write is made. -/
theorem failed_save_leaves_all_iff (machine : Machine) {resolve : Option Term → Interp (Option Term)}
    (hread : envSettings resolve depth s0 = .ok settings s) (h : SavesBlocks settings)
    (fds : List Nat) (ps : List Term) :
    (∀ result fds' s', functionSaveenvFds machine resolve depth fds ps s0 = .ok (result, fds') s' →
      Untouched s s' → LeavesAll s0 s' ∧ fds' = fds) ↔
    ¬ (SaveReaches machine settings s ∧ SaveOverflows machine settings s) ∧
      (¬ SaveReaches machine settings s → LeavesAll s0 s) := by
  constructor
  · intro hall
    obtain ⟨result, fds', s', hrun, hend⟩ := saveenv_ends machine hread h fds ps
    cases hend with
    | early hnot hsame hfds hlog =>
      have hleaves := (hall result fds' s' hrun hlog).1
      exact ⟨fun hreach => hnot hreach.1, fun _ => hleaves.trans hsame.leavesAll.symm⟩
    | full _ _ hfds hlog =>
      have hlong := congrArg List.length (hfds.symm.trans (hall result fds' s' hrun hlog).2)
      rw [List.length_cons] at hlong
      omega
    | written hreach hfits => exact ⟨fun hfull => hfits hfull.2, fun hnot => absurd hreach hnot⟩
  · rintro ⟨hnot, hleaves⟩ result fds' s' hrun hlog
    cases (functionSaveenvFds_spec hread h fds ps).ok hrun with
    | early hearly hsame hfds => exact ⟨(hleaves hearly).trans hsame.leavesAll, hfds⟩
    | full hreach hfull => exact absurd ⟨hreach, hfull⟩ hnot
    | written _ _ hwritten => exact absurd hlog hwritten

end

/-- One block is to be saved, and these are the pairs and the outcomes of the system calls. -/
def saveState (pairs : List UbootNameValue) (replies : List Reply) : State where
  vars := [⟨.ofString "uboot_env.count", some (.number 1)⟩]
  workingUbootEnv := ⟨512, pairs⟩
  parserResult := none
  world := ⟨replies, fun _ _ => 0⟩
  log := []
  argv := []

/-- The settings that a call reads there. -/
def oneBlock : EnvSettings := ⟨.ofString "", 0, 1⟩

theorem savesBlocks_oneBlock : SavesBlocks oneBlock := ⟨by decide, by decide⟩

theorem saveState_reads (pairs : List UbootNameValue) (replies : List Reply) :
    envSettings (termResolve plainMachine 1) 1 (saveState pairs replies)
      = .ok oneBlock (saveState pairs replies) := by
  have hsettled : Settled (saveState pairs replies).vars := by
    refine .of_literals fun v hv => ?_
    obtain rfl := List.mem_singleton.mp hv
    exact ⟨_, rfl, rfl⟩
  rw [envSettings_ok plainMachine 0 hsettled]
  rfl

theorem failed_save_leaves_all_closed : ∃ result s',
    functionSaveenvFds plainMachine (termResolve plainMachine 1) 1 [0, 1, 2] [] (saveState [] [])
      = .ok (result, [0, 1, 2]) s' ∧ LeavesAll (saveState [] []) s' := by
  have hread := saveState_reads [] []
  have hclosed : ¬ SaveReaches plainMachine oneBlock (saveState [] []) := fun hreach =>
    absurd hreach.1 Bool.false_ne_true
  have hall := (failed_save_leaves_all_iff plainMachine hread savesBlocks_oneBlock [0, 1, 2] []).mpr
    ⟨fun hfull => hclosed hfull.1, fun _ => .refl _⟩
  obtain ⟨result, fds', s', hrun, hend⟩ :=
    saveenv_ends plainMachine hread savesBlocks_oneBlock [0, 1, 2] []
  cases hend with
  | early _ _ _ hlog =>
    obtain ⟨hleaves, rfl⟩ := hall result fds' s' hrun hlog
    exact ⟨result, s', hrun, hleaves⟩
  | full hreach => exact absurd hreach hclosed
  | written hreach => exact absurd hreach hclosed

/-- One pair whose value is longer than the block. -/
def longState : State :=
  saveState [⟨.ofString "a", ones 600⟩] [⟨true, 0, [], [], [], 0⟩, ⟨true, 0, [], [], [], 0⟩]

/-- An environment that does not fit leaves the descriptor of the device open. -/
theorem failed_save_leaves_open :
    ¬ ∀ (machine : Machine) (depth : Nat) (s0 s : State) (settings : EnvSettings) (fds : List Nat)
      (ps : List Term), envSettings (termResolve machine depth) depth s0 = .ok settings s →
      SavesBlocks settings → ∀ result fds' s',
      functionSaveenvFds machine (termResolve machine depth) depth fds ps s0
        = .ok (result, fds') s' → Untouched s s' → LeavesAll s0 s' ∧ fds' = fds := by
  intro hall
  have hread : envSettings (termResolve plainMachine 1) 1 longState = .ok oneBlock longState :=
    saveState_reads _ _
  have hsize : (oneBlock.place plainMachine).size = 512 := by decide
  have hneeded : neededSize longState.workingUbootEnv.vars = 608 := by
    have ha : (CString.ofString "a").strlen = 1 := rfl
    simp only [neededSize, longState, saveState, List.map_cons, List.map_nil, List.sum_cons,
      List.sum_nil, ha, strlen_ones]
    omega
  have hreach : SaveReaches plainMachine oneBlock longState := ⟨rfl, le_rfl, rfl⟩
  have hfull : SaveOverflows plainMachine oneBlock longState := by
    unfold SaveOverflows
    rw [hsize, hneeded]
    decide
  obtain ⟨result, fds', s', hrun, hend⟩ := saveenv_ends plainMachine hread savesBlocks_oneBlock [] []
  cases hend with
  | early hnot => exact hnot hreach
  | full _ _ hfds hlog =>
    have hclosed :=
      (hall plainMachine 1 _ _ oneBlock [] [] hread savesBlocks_oneBlock result fds' s' hrun hlog).2
    exact List.cons_ne_nil _ _ (hfds.symm.trans hclosed)
  | written _ hfits => exact hfits hfull

end NervesInitramfs
