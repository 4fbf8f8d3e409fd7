import NervesInitramfs.Block.Proofs.FindProofs

/-!
# Proofs: waiting for a device

Every sleep is paid for with one of the tries, which all calls share. The path that a call stores is
a probed one, which fits, or the specification itself.
-/

namespace NervesInitramfs

open CLib

section

variable {qsort : Qsort reverseAlphasort} {moments : Nat → Moment}

/-! ## Events -/

theorem attemptsOf_append (l l' : List WaitEvent) :
    attemptsOf (l ++ l') = attemptsOf l ++ attemptsOf l' :=
  List.filterMap_append

theorem sleepsOf_append (l l' : List WaitEvent) : sleepsOf (l ++ l') = sleepsOf l ++ sleepsOf l' :=
  List.filterMap_append

theorem storedIn_append (l l' : List WaitEvent) : storedIn (l ++ l') = storedIn l ++ storedIn l' :=
  List.filterMap_append

variable (qsort) in
/-- What one attempt does. -/
theorem openBlockDeviceImpl_events (now : Moment) (spec : CString) (flags : Int) :
    attemptsOf (openBlockDeviceImpl qsort now spec flags).2 =
        [(openBlockDeviceImpl qsort now spec flags).1] ∧
      sleepsOf (openBlockDeviceImpl qsort now spec flags).2 = [] ∧
      storedIn (openBlockDeviceImpl qsort now spec flags).2 =
        ((findBlockDeviceBySpec qsort now spec).map (· ++ [0])).toList := by
  unfold openBlockDeviceImpl
  cases findBlockDeviceBySpec qsort now spec with
  | none => exact ⟨rfl, rfl, rfl⟩
  | some path => exact ⟨rfl, rfl, rfl⟩

/-! ## One call -/

/-- What a call promises whose last attempt returned `fd`: each sleep took one of the tries, all
attempts but the last failed, and it gave up with no tries left only. -/
structure Waited (w : Waiting) (fd : Int) (events : List WaitEvent) (w' : Waiting) : Prop where
  sleeps : sleepsOf events = List.replicate (w.tries - w'.tries) 1000
  le : w'.tries ≤ w.tries
  failures : ∃ failures, attemptsOf events = failures ++ [fd] ∧ ∀ failed ∈ failures, failed < 0
  budget : fd < 0 → w'.tries = 0

/-- The loop behind a first attempt that returned `fd`. -/
theorem waited_waitFor (spec : CString) (flags : Int) (tries : Nat) (fd : Int) (attempts : Nat)
    {result : Int} {events : List WaitEvent} {w' : Waiting}
    (h : Waiting.waitFor qsort moments spec flags tries fd attempts = (result, events, w')) :
    Waited ⟨tries, attempts⟩ result (.attempted fd :: events) w' := by
  induction tries generalizing fd attempts result events w' with
  | zero =>
    obtain ⟨rfl, rfl, rfl⟩ := by simpa only [Waiting.waitFor, Prod.mk.injEq] using h
    exact ⟨rfl, Nat.le_refl 0, ⟨[], rfl, fun f hf => absurd hf List.not_mem_nil⟩, fun _ => rfl⟩
  | succ tries ih =>
    rw [Waiting.waitFor] at h
    by_cases hfail : fd < 0
    · rw [if_pos hfail] at h
      obtain ⟨hattempts, hsleeps, -⟩ := openBlockDeviceImpl_events qsort (moments attempts) spec flags
      generalize openBlockDeviceImpl qsort (moments attempts) spec flags = attempt at h hattempts hsleeps
      obtain ⟨next, made⟩ := attempt
      dsimp only at h hattempts hsleeps
      cases hrest : Waiting.waitFor qsort moments spec flags tries next (attempts + 1) with
      | mk result' rest =>
        obtain ⟨events', w''⟩ := rest
        rw [hrest] at h
        obtain ⟨rfl, rfl, rfl⟩ := by simpa only [Prod.mk.injEq] using h
        have hw := ih next (attempts + 1) hrest
        obtain ⟨failures, hlast, hfailures⟩ := hw.failures
        have hnext : attemptsOf (.attempted next :: events') = next :: attemptsOf events' := rfl
        refine ⟨?_, Nat.le_succ_of_le hw.le, ⟨fd :: failures, ?_, ?_⟩, hw.budget⟩
        · have hcount : tries + 1 - w''.tries = (tries - w''.tries) + 1 := by
            have := hw.le
            dsimp only at this
            omega
          show 1000 :: sleepsOf (made ++ events') = _
          rw [sleepsOf_append, hsleeps, List.nil_append, hcount, List.replicate_succ]
          exact congrArg _ hw.sleeps
        · show fd :: attemptsOf (made ++ events') = _
          rw [attemptsOf_append, hattempts, List.singleton_append, ← hnext, hlast]
          rfl
        · exact List.forall_mem_cons.mpr ⟨hfail, hfailures⟩
    · rw [if_neg hfail] at h
      obtain ⟨rfl, rfl, rfl⟩ := by simpa only [Prod.mk.injEq] using h
      refine ⟨?_, Nat.le_refl _, ⟨[], rfl, fun f hf => absurd hf List.not_mem_nil⟩, fun h => absurd h hfail⟩
      rw [Nat.sub_self]
      rfl

theorem waited_openBlockDevice (spec : CString) (flags : Int) (w : Waiting) {fd : Int}
    {events : List WaitEvent} {w' : Waiting}
    (h : Waiting.openBlockDevice qsort moments spec flags w = (fd, events, w')) :
    Waited w fd events w' := by
  obtain ⟨hattempts, hsleeps, -⟩ := openBlockDeviceImpl_events qsort (moments w.attempts) spec flags
  rw [Waiting.openBlockDevice] at h
  generalize openBlockDeviceImpl qsort (moments w.attempts) spec flags = attempt at h hattempts hsleeps
  obtain ⟨first, made⟩ := attempt
  dsimp only at h hattempts hsleeps
  cases hrest : Waiting.waitFor qsort moments spec flags w.tries first (w.attempts + 1) with
  | mk result rest =>
    obtain ⟨events', w''⟩ := rest
    rw [hrest] at h
    obtain ⟨rfl, rfl, rfl⟩ := by simpa only [Prod.mk.injEq] using h
    have hw := waited_waitFor spec flags w.tries first (w.attempts + 1) hrest
    -- What is said at the end is neither an attempt nor a sleep.
    have hinfo : attemptsOf (if result < 0 then [WaitEvent.info] else []) = [] ∧
        sleepsOf (if result < 0 then [WaitEvent.info] else []) = [] := by
      split
      · exact ⟨rfl, rfl⟩
      · exact ⟨rfl, rfl⟩
    obtain ⟨failures, hlast, hfailures⟩ := hw.failures
    have hfirst : attemptsOf (.attempted first :: events') = first :: attemptsOf events' := rfl
    refine ⟨?_, hw.le, ⟨failures, ?_, hfailures⟩, hw.budget⟩
    · rw [sleepsOf_append, sleepsOf_append, hsleeps, hinfo.2, List.nil_append, List.append_nil]
      exact hw.sleeps
    · rw [attemptsOf_append, attemptsOf_append, hattempts, hinfo.1, List.append_nil,
        List.singleton_append, ← hfirst, hlast]

/-- What a call returns when its last attempt returned `fd`. -/
def DeviceCall.returns : DeviceCall → Int → Int
  | .openDevice _ _, fd => fd
  | .resolveSpec _, fd => if 0 ≤ fd then 0 else -1

theorem DeviceCall.returns_nonneg (call : DeviceCall) (fd : Int) : 0 ≤ call.returns fd ↔ 0 ≤ fd := by
  cases call with
  | openDevice spec flags => exact Iff.rfl
  | resolveSpec spec =>
    show 0 ≤ (if 0 ≤ fd then (0 : Int) else -1) ↔ 0 ≤ fd
    split
    · omega
    · omega

/-- The call that opens the device has the attempts, the sleeps and the stores. -/
theorem waited_run (call : DeviceCall) (w : Waiting) {rc : Int} {events : List WaitEvent} {w' : Waiting}
    (h : call.run qsort moments w = (rc, events, w')) :
    ∃ fd, rc = call.returns fd ∧ Waited w fd events w' := by
  cases call with
  | openDevice spec flags => exact ⟨rc, rfl, waited_openBlockDevice spec flags w h⟩
  | resolveSpec spec =>
    rw [DeviceCall.run, Waiting.resolveBlockDeviceSpec] at h
    cases hopen : Waiting.openBlockDevice qsort moments spec readOnly w with
    | mk fd rest =>
      obtain ⟨made, w''⟩ := rest
      rw [hopen] at h
      have hw := waited_openBlockDevice spec readOnly w hopen
      refine ⟨fd, ?_⟩
      by_cases hfd : 0 ≤ fd
      · simp only [if_pos hfd, Prod.mk.injEq] at h
        obtain ⟨rfl, rfl, rfl⟩ := h
        obtain ⟨failures, hlast, hfailures⟩ := hw.failures
        refine ⟨(if_pos hfd).symm, ?_, hw.le, ⟨failures, ?_, hfailures⟩, hw.budget⟩
        · rw [sleepsOf_append]
          exact (List.append_nil _).trans hw.sleeps
        · rw [attemptsOf_append]
          exact (List.append_nil _).trans hlast
      · simp only [if_neg hfd, Prod.mk.injEq] at h
        obtain ⟨rfl, rfl, rfl⟩ := h
        exact ⟨(if_neg hfd).symm, hw⟩

/-! ## A whole run -/

variable (qsort moments) in
/-- The sleeps so far and the tries that are left are as many as the tries at the start. -/
theorem sleepsOf_runCalls (calls : List DeviceCall) (w : Waiting) :
    (runCalls qsort moments calls w).2.tries ≤ w.tries ∧
      sleepsOf (runCalls qsort moments calls w).1 =
        List.replicate (w.tries - (runCalls qsort moments calls w).2.tries) 1000 := by
  induction calls generalizing w with
  | nil => exact ⟨Nat.le_refl _, by rw [runCalls, Nat.sub_self]; rfl⟩
  | cons call rest ih =>
    rw [runCalls]
    cases hcall : call.run qsort moments w with
    | mk rc made =>
      obtain ⟨events, w'⟩ := made
      obtain ⟨fd, -, hw⟩ := waited_run call w hcall
      obtain ⟨hle, hsleeps⟩ := ih w'
      dsimp only
      refine ⟨Nat.le_trans hle hw.le, ?_⟩
      have hfirst := hw.le
      rw [sleepsOf_append, hw.sleeps, hsleeps, List.replicate_append_replicate]
      congr 1
      omega

end

/-- Over any sequence of calls there is one sleep of a millisecond for each of the thousand tries
that is used up. After it every call makes at least one attempt, stops at the first that succeeds,
returns what the last one returned, and gives up only when no tries are left. -/
theorem waiting_is_bounded (qsort : Qsort reverseAlphasort) (moments : Nat → Moment)
    (calls : List DeviceCall) :
    (sleepsOf (runCalls qsort moments calls .start).1 =
        List.replicate (1000 - (runCalls qsort moments calls .start).2.tries) 1000 ∧
      (sleepsOf (runCalls qsort moments calls .start).1).length ≤ 1000) ∧
    ∀ (call : DeviceCall) (rc : Int) (events : List WaitEvent) (w' : Waiting),
      call.run qsort moments (runCalls qsort moments calls .start).2 = (rc, events, w') →
      (∃ failures fd, attemptsOf events = failures ++ [fd] ∧ (∀ failed ∈ failures, failed < 0) ∧
        rc = call.returns fd ∧ (0 ≤ rc ↔ 0 ≤ fd)) ∧ (rc < 0 → w'.tries = 0) := by
  obtain ⟨hle, hsleeps⟩ := sleepsOf_runCalls qsort moments calls .start
  refine ⟨⟨hsleeps, ?_⟩, fun call rc events w' h => ?_⟩
  · rw [hsleeps, List.length_replicate]
    exact Nat.sub_le _ _
  · obtain ⟨fd, rfl, hw⟩ := waited_run call _ h
    obtain ⟨failures, hlast, hfailures⟩ := hw.failures
    refine ⟨⟨failures, fd, hlast, hfailures, rfl, call.returns_nonneg fd⟩, fun hneg => ?_⟩
    apply hw.budget
    have := call.returns_nonneg fd
    omega

/-! ## What is stored -/

section

variable {qsort : Qsort reverseAlphasort} {moments : Nat → Moment}

/-- A string that an attempt stores, with its NUL. -/
def Stores (qsort : Qsort reverseAlphasort) (spec : CString) (stored : List UInt8) : Prop :=
  ∃ now path, findBlockDeviceBySpec qsort now spec = some path ∧ stored = path ++ [0]

theorem stores_of_attempt {now : Moment} {spec : CString} {flags : Int} {stored : List UInt8}
    (h : stored ∈ storedIn (openBlockDeviceImpl qsort now spec flags).2) : Stores qsort spec stored := by
  rw [(openBlockDeviceImpl_events qsort now spec flags).2.2] at h
  cases hfind : findBlockDeviceBySpec qsort now spec with
  | none =>
    rw [hfind] at h
    exact absurd h List.not_mem_nil
  | some path =>
    rw [hfind] at h
    exact ⟨now, path, hfind, List.mem_singleton.mp h⟩

theorem stores_of_waitFor {spec : CString} {flags : Int} {stored : List UInt8} {tries : Nat} {fd : Int}
    {attempts : Nat}
    (h : stored ∈ storedIn (Waiting.waitFor qsort moments spec flags tries fd attempts).2.1) :
    Stores qsort spec stored := by
  induction tries generalizing fd attempts with
  | zero => exact absurd h List.not_mem_nil
  | succ tries ih =>
    rw [Waiting.waitFor] at h
    split at h
    · change stored ∈ storedIn (.usleep 1000 :: (openBlockDeviceImpl qsort (moments attempts) spec flags).2 ++
        (Waiting.waitFor qsort moments spec flags tries _ (attempts + 1)).2.1) at h
      rw [storedIn_append] at h
      rcases List.mem_append.mp h with h | h
      · exact stores_of_attempt h
      · exact ih h
    · exact absurd h List.not_mem_nil

theorem storedIn_openBlockDevice (spec : CString) (flags : Int) (w : Waiting) :
    storedIn (Waiting.openBlockDevice qsort moments spec flags w).2.1 =
      storedIn (openBlockDeviceImpl qsort (moments w.attempts) spec flags).2 ++
        storedIn (Waiting.waitFor qsort moments spec flags w.tries
          (openBlockDeviceImpl qsort (moments w.attempts) spec flags).1 (w.attempts + 1)).2.1 := by
  rw [Waiting.openBlockDevice]
  dsimp only
  rw [storedIn_append, storedIn_append]
  split
  · exact List.append_nil _
  · exact List.append_nil _

variable (qsort moments) in
/-- A call stores what the attempts of `open_block_device` store. -/
theorem storedIn_run (call : DeviceCall) (w : Waiting) :
    ∃ flags, storedIn (call.run qsort moments w).2.1 =
      storedIn (Waiting.openBlockDevice qsort moments call.spec flags w).2.1 := by
  cases call with
  | openDevice spec flags => exact ⟨flags, rfl⟩
  | resolveSpec spec =>
    refine ⟨readOnly, ?_⟩
    rw [DeviceCall.run, Waiting.resolveBlockDeviceSpec]
    dsimp only
    split
    · rw [storedIn_append]
      exact List.append_nil _
    · rfl

theorem stores_of_run {call : DeviceCall} {w : Waiting} {stored : List UInt8}
    (h : stored ∈ storedIn (call.run qsort moments w).2.1) : Stores qsort call.spec stored := by
  obtain ⟨flags, hflags⟩ := storedIn_run qsort moments call w
  rw [hflags, storedIn_openBlockDevice] at h
  rcases List.mem_append.mp h with h | h
  · exact stores_of_attempt h
  · exact stores_of_waitFor h

/-- A path is stored as it is given, in the first attempt already. -/
theorem mem_storedIn_of_path {call : DeviceCall} {w : Waiting} (h : ¬AsksForUuid call.spec) :
    call.spec.bytes ++ [0] ∈ storedIn (call.run qsort moments w).2.1 := by
  obtain ⟨flags, hflags⟩ := storedIn_run qsort moments call w
  have hfind : findBlockDeviceBySpec qsort (moments w.attempts) call.spec = some call.spec.bytes := by
    rw [findBlockDeviceBySpec, if_neg (fun hp => h (.inl hp)), if_neg (fun hd => h (.inr hd))]
  rw [hflags, storedIn_openBlockDevice, (openBlockDeviceImpl_events _ _ _ _).2.2, hfind]
  exact List.mem_append_left _ (List.mem_singleton.mpr rfl)

end

/-- What is stored for a UUID fits. -/
theorem Stores.length_le {qsort : Qsort reverseAlphasort} {spec : CString} {stored : List UInt8}
    (h : Stores qsort spec stored) (hfits : FitsBuffer spec) : stored.length ≤ blockDevicePathLen := by
  obtain ⟨now, path, hfind, rfl⟩ := h
  rw [List.length_append, List.length_singleton]
  have hfound : ∀ {type uuid}, findBlockDeviceByUuid qsort now type uuid = some path →
      path.length < blockDevicePathLen := by
    intro type uuid huuid
    have hlist : findInList type uuid (probeBlockDevices qsort now.sys now.old).2 = some path := huuid
    have hprobed : ∀ d ∈ (probeBlockDevices qsort now.sys now.old).2, Probed d :=
      fun d hd => probed_of_mem hd
    rcases findInList_cases hprobed with ⟨before, d, after, heq, -, -, hpath⟩ | ⟨-, hnone⟩
    · obtain rfl := Option.some.inj (hpath.symm.trans hlist)
      exact (hprobed d (by rw [heq]; exact List.mem_append_right _ List.mem_cons_self)).path
    · rw [hnone] at hlist
      exact nomatch hlist
  unfold findBlockDeviceBySpec at hfind
  split at hfind
  · exact hfound hfind
  · rename_i hpart
    split at hfind
    · exact hfound hfind
    · rename_i hdisk
      obtain rfl := Option.some.inj hfind
      rcases hfits with (hp | hd) | hlen
      · exact absurd hp hpart
      · exact absurd hd hdisk
      · exact hlen

/-- Whatever has happened before, a call stores no more than the buffer takes, and refuses what does
not fit, exactly when the specification asks for a UUID or is a path that fits. -/
theorem path_fits_iff (qsort : Qsort reverseAlphasort) (moments : Nat → Moment) (call : DeviceCall)
    (w : Waiting) :
    ((∀ stored ∈ storedIn (call.run qsort moments w).2.1, stored.length ≤ blockDevicePathLen) ∧
        (¬FitsBuffer call.spec → (call.run qsort moments w).1 = -1)) ↔ FitsBuffer call.spec := by
  constructor
  · rintro ⟨hstored, -⟩
    by_contra hfits
    have hpath : ¬AsksForUuid call.spec := fun h => hfits (.inl h)
    have hlen := hstored _ (mem_storedIn_of_path hpath)
    rw [List.length_append, List.length_singleton] at hlen
    exact hfits (.inr hlen)
  · intro hfits
    exact ⟨fun stored h => (stores_of_run h).length_le hfits, fun h => absurd hfits h⟩

/-- A moment at which there are no devices, and nothing can be opened. -/
def nothingThere : Moment := ⟨⟨[], fun _ => none⟩, fun _ => markedBuffers, fun _ _ => -1⟩

/-- A path of 32 bytes needs 33 with its NUL. -/
theorem long_path_overflows : ¬ ∀ (qsort : Qsort reverseAlphasort) (moments : Nat → Moment)
    (call : DeviceCall) (w : Waiting),
    (∀ stored ∈ storedIn (call.run qsort moments w).2.1, stored.length ≤ blockDevicePathLen) ∧
      (¬FitsBuffer call.spec → (call.run qsort moments w).1 = -1) := by
  intro hall
  have hspec : ¬AsksForUuid (.ofString "/dev/disk/by-partlabel/rootfs-ab") := by
    unfold AsksForUuid
    decide
  have hstored := (hall sortNames (fun _ => nothingThere)
    (.resolveSpec (.ofString "/dev/disk/by-partlabel/rootfs-ab")) .start).1
  have hlen := hstored _ (mem_storedIn_of_path hspec)
  revert hlen
  decide

end NervesInitramfs
