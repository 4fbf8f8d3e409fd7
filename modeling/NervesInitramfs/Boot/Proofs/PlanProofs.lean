import NervesInitramfs.Boot.Proofs.CallsProofs
import NervesInitramfs.Script.Proofs.BootProofs

/-!
# The boot follows the plan

Every function of the boot keeps to the plan from the phase in which it is called, whatever the kernel
answers.
-/

namespace NervesInitramfs.Boot

open CLib

variable {orders : Orders} {s : State} {d : Dialog Call Answer State} {phase : Phase}
  {stop : Halt → Dialog Call Answer State → Prop}

/-- The boot has come to this phase of the plan, no message is being written, and the globals of the
interpreter are these. -/
structure Follows (orders : Orders) (s : State) (d : Dialog Call Answer State) (phase : Phase) :
    Prop where
  at_phase : (following orders).At Plan.start d (⟨phase, none⟩ : Plan)
  own : d.own = s

/-- How the boot may stop: only when `init` has been started is the plan at its end. -/
def Stops (orders : Orders) (halt : Halt) (d : Dialog Call Answer State) : Prop :=
  ∃ plan : Plan, (following orders).Kept Plan.start d.log plan ∧
    (halt = .started ↔ plan.phase = .started)

theorem Follows.stops (h : Follows orders s d phase) (hphase : phase ≠ .started) {halt : Halt}
    (hhalt : halt ≠ .started) : Stops orders halt d :=
  ⟨⟨phase, none⟩, h.at_phase.kept, fun heq => absurd heq hhalt, fun heq => absurd heq hphase⟩

/-- A call that leads to another phase. -/
theorem ask_follows (h : Follows orders s d phase) (call : Call)
    (hmay : Plan.May orders ⟨phase, none⟩ call) {phase' : Answer → Phase}
    (hafter : ∀ answer, Plan.after ⟨phase, none⟩ call answer = ⟨phase' answer, none⟩)
    {post : Answer → Dialog Call Answer State → Prop}
    (hpost : ∀ answer d', Follows orders s d' (phase' answer) → post answer d') :
    Ensures (ask call) d post stop := by
  refine h.at_phase.ask call hmay fun answer d' h' _ hown => ?_
  have hnext : (following orders).next (⟨phase, none⟩ : Plan) call answer
      = (⟨phase' answer, none⟩ : Plan) := hafter answer
  rw [hnext] at h'
  exact hpost answer d' ⟨h', hown.trans h.own⟩

/-- A call that leaves the boot where it is. -/
theorem askSame_follows (h : Follows orders s d phase) (call : Call)
    (hmay : Plan.May orders ⟨phase, none⟩ call)
    (hafter : ∀ answer, Plan.after ⟨phase, none⟩ call answer = ⟨phase, none⟩)
    {post : Answer → Dialog Call Answer State → Prop}
    (hpost : ∀ answer d', Follows orders s d' phase → post answer d') :
    Ensures (ask call) d post stop := ask_follows h call hmay hafter hpost

/-! ## Files -/

theorem isKmsg : IsKmsg (.ofString "/dev/kmsg") (O_WRONLY ||| O_CLOEXEC) := ⟨rfl, rfl⟩

/-- A file that no messages are written to. -/
theorem may_openFile {path : CString} {flags : Nat} (hkmsg : ¬ IsKmsg path flags) :
    Plan.May orders ⟨phase, none⟩ (.openFile path flags) ↔
      phase.MayOpen orders.rootfs path flags := by
  simp only [Plan.May, if_neg hkmsg]

theorem after_openFile {path : CString} {flags : Nat} (hkmsg : ¬ IsKmsg path flags)
    (answer : Answer) :
    Plan.after ⟨phase, none⟩ (.openFile path flags) answer
      = ⟨if phase = .mounted then phase else phase.orFailed answer, none⟩ := by
  simp only [Plan.after, Phase.after, kmsgAfter, hkmsg, false_or, false_and, if_false]

theorem may_openKmsg (orders : Orders) (hphase : phase ≠ .started) :
    Plan.May orders ⟨phase, none⟩
      (.openFile (.ofString "/dev/kmsg") (O_WRONLY ||| O_CLOEXEC)) := by
  simpa only [Plan.May, if_pos isKmsg] using hphase

theorem after_openKmsg (logFd : Answer) :
    Plan.after ⟨phase, none⟩ (.openFile (.ofString "/dev/kmsg") (O_WRONLY ||| O_CLOEXEC)) logFd
      = ⟨phase, if 0 ≤ logFd.value then some logFd.value else none⟩ := by
  simp only [Plan.after, Phase.after, kmsgAfter, isKmsg, true_or, true_and, if_true]

/-! ## Messages -/

/-- Messages are written in every phase but the last. -/
theorem logs_following (hphase : phase ≠ .started) :
    Logs (following orders) Plan.start (⟨phase, none⟩ : Plan) := by
  intro d str h
  unfold logWrite
  rw [ensures_bind]
  refine h.ask (.openFile (.ofString "/dev/kmsg") (O_WRONLY ||| O_CLOEXEC))
    (may_openKmsg orders hphase) fun logFd d1 h1 _ hown1 => ?_
  have hopen : (following orders).next (⟨phase, none⟩ : Plan)
      (.openFile (.ofString "/dev/kmsg") (O_WRONLY ||| O_CLOEXEC)) logFd
      = (⟨phase, if 0 ≤ logFd.value then some logFd.value else none⟩ : Plan) := after_openKmsg logFd
  rw [hopen] at h1
  by_cases hopened : 0 ≤ logFd.value
  · rw [if_pos hopened] at h1
    rw [if_pos hopened, ensures_bind]
    refine h1.askSame (.write _ _) ⟨hphase, rfl⟩ (fun _ => rfl) fun _ d2 h2 hown2 => ?_
    rw [ensures_bind]
    refine h2.ask (.close _) ⟨hphase, fun _ => rfl⟩ fun answer d3 h3 _ hown3 => ?_
    have hclose : (following orders).next (⟨phase, some logFd.value⟩ : Plan) (.close logFd.value)
        answer = (⟨phase, none⟩ : Plan) := congrArg (Plan.mk phase) (if_pos rfl)
    rw [hclose] at h3
    exact ⟨h3, hown3.trans (hown2.trans hown1)⟩
  · rw [if_neg hopened] at h1
    rw [if_neg hopened, ensures_bind]
    refine h1.askSame (.write _ _) ⟨hphase, rfl⟩ (fun _ => rfl) fun _ d2 h2 hown2 => ?_
    exact ⟨h2, hown2.trans hown1⟩

theorem orFailed_of_ok {answer : Answer} (hok : ¬ answer.value < 0) : phase.orFailed answer = phase :=
  if_neg hok

theorem orFailed_of_fails {answer : Answer} (hfails : answer.value < 0) :
    phase.orFailed answer = .failed := if_pos hfails

theorem fatal_follows {α : Type} {post : α → Dialog Call Answer State → Prop}
    (h : Follows orders s d phase) (hphase : phase ≠ .started) {message : List UInt8} :
    Ensures (fatal message) d post (Stops orders) :=
  (logs_following hphase).fatal h.at_phase fun _ h1 hown => by
    have hfollows : Follows orders s _ phase := ⟨h1, hown.trans h.own⟩
    exact hfollows.stops hphase (by decide)

/-- A message does not change how far the boot has come. -/
theorem info_follows (h : Follows orders s d phase) (hphase : phase ≠ .started)
    {message : List UInt8} :
    Ensures (info message) d (fun _ d' => Follows orders s d' phase) stop := by
  refine ((logs_following hphase).info h.at_phase).imp ?_
  rintro _ d1 ⟨h1, hown⟩
  exact ⟨h1, hown.trans h.own⟩

/-- A call that has to succeed takes the boot to its next phase. -/
theorem okOrFatal_follows (h : Follows orders s d phase) (call : Call)
    (hmay : Plan.May orders ⟨phase, none⟩ call) {phase' : Phase}
    (hafter : ∀ answer, Plan.after ⟨phase, none⟩ call answer = ⟨phase'.orFailed answer, none⟩)
    {message : List UInt8} :
    Ensures (okOrFatal call message) d (fun _ d' => Follows orders s d' phase') (Stops orders) := by
  unfold okOrFatal
  rw [ensures_bind]
  refine ask_follows h call hmay hafter fun answer d1 h1 => ?_
  by_cases hfails : answer.value < 0
  · rw [if_pos hfails]
    rw [orFailed_of_fails hfails] at h1
    exact fatal_follows h1 (by decide)
  · rw [if_neg hfails]
    rw [orFailed_of_ok hfails] at h1
    exact h1

/-- A call that may fail. -/
theorem okOrWarn_follows (h : Follows orders s d phase) (hphase : phase ≠ .started) (call : Call)
    (hmay : Plan.May orders ⟨phase, none⟩ call)
    (hafter : ∀ answer, Plan.after ⟨phase, none⟩ call answer = ⟨phase, none⟩)
    {message : List UInt8} :
    Ensures (okOrWarn call message) d (fun _ d' => Follows orders s d' phase) stop := by
  refine (okOrWarn_ensures (logs_following hphase) h.at_phase call hmay hafter).imp ?_
  rintro _ d1 ⟨h1, hown⟩
  exact ⟨h1, hown.trans h.own⟩

/-- A call whose result is not looked at. -/
theorem ignore_follows (h : Follows orders s d phase) (call : Call)
    (hmay : Plan.May orders ⟨phase, none⟩ call)
    (hafter : ∀ answer, Plan.after ⟨phase, none⟩ call answer = ⟨phase, none⟩) :
    Ensures (ignore call) d (fun _ d' => Follows orders s d' phase) stop := by
  refine (ignore_ensures h.at_phase call hmay hafter).imp ?_
  rintro _ d1 ⟨h1, hown⟩
  exact ⟨h1, hown.trans h.own⟩

/-- A file that has to be there is opened. -/
theorem openFile_follows {α : Type} {post : α → Dialog Call Answer State → Prop}
    (h : Follows orders s d phase) {path : CString} {flags : Nat}
    (hmay : phase.MayOpen orders.rootfs path flags) (hflags : flags ≠ (O_WRONLY ||| O_CLOEXEC))
    (hmounted : phase ≠ .mounted) {message : List UInt8} {next : Answer → Booting α}
    (hnext : ∀ answer d', ¬ answer.value < 0 → Follows orders s d' phase →
      Ensures (next answer) d' post (Stops orders)) :
    Ensures (ask (.openFile path flags) >>= fun fd =>
      if fd.value < 0 then fatal message else next fd) d post (Stops orders) := by
  have hkmsg : ¬ IsKmsg path flags := fun h => hflags h.2
  rw [ensures_bind]
  have hafter : ∀ answer, Plan.after ⟨phase, none⟩ (.openFile path flags) answer
      = ⟨phase.orFailed answer, none⟩ := by
    intro answer
    rw [after_openFile hkmsg, if_neg hmounted]
  refine ask_follows h (.openFile path flags) ((may_openFile hkmsg).mpr hmay) hafter fun fd d1 h1 => ?_
  by_cases hfails : fd.value < 0
  · rw [if_pos hfails]
    rw [orFailed_of_fails hfails] at h1
    exact fatal_follows h1 (by decide)
  · rw [if_neg hfails]
    rw [orFailed_of_ok hfails] at h1
    exact hnext fd d1 hfails h1

/-! ## Before the scripts -/

theorem setupInitramfs_follows (h : Follows orders s d .setup) :
    Ensures setupInitramfs d (fun _ d' => Follows orders s d' .setup) stop := by
  have hmount : ∀ source target filesystemtype mountflags data, target ≠ .ofString "/mnt" →
      mountflags ≠ MS_MOVE → Passes (following orders) (⟨.setup, none⟩ : Plan)
        (.mount source target filesystemtype mountflags data) := by
    intro source target filesystemtype mountflags data htarget hflags
    constructor
    · change Plan.May orders ⟨.setup, none⟩ (.mount source target filesystemtype mountflags data)
      simp only [Plan.May, if_neg htarget, if_neg hflags]
    · intro answer
      exact congrArg (Plan.mk · none) (if_neg htarget)
  refine (setupInitramfs_passes (logs_following (by decide)) (fun _ _ => ⟨rfl, fun _ => rfl⟩) hmount
    h.at_phase).imp ?_
  rintro _ d1 ⟨h1, hown⟩
  exact ⟨h1, hown.trans h.own⟩

/-! ## Mounting -/

theorem mountRoot_follows (h : Follows orders s d phase) {device path : CString}
    (hfrom : orders.rootfs.MountsFrom phase device) :
    Ensures (mountRoot device orders.rootfs.fstype path) d
      (fun _ d' => Follows orders s d' .mounted) (Stops orders) := by
  refine okOrFatal_follows h (.mount _ _ _ _ _) ?_ fun answer =>
    congrArg (Plan.mk · none) (if_pos rfl)
  simpa only [Plan.May, if_true, and_self, and_true] using hfrom

theorem openRootfs_follows {path : CString} (h : Follows orders s d (.found path)) :
    Ensures (openRootfs path) d (fun _ d' => Follows orders s d' (.found path)) (Stops orders) := by
  unfold openRootfs
  exact openFile_follows h ⟨rfl, Or.inl rfl⟩ (by decide) (by simp) fun fd d1 _ h1 => h1

theorem mountFs_follows {path : CString} (h : Follows orders s d (.found path))
    (hcrypt : orders.rootfs.crypt = none) :
    Ensures (mountFs path orders.rootfs.fstype) d (fun _ d' => Follows orders s d' .mounted)
      (Stops orders) := by
  unfold mountFs
  refine (openRootfs_follows h).bind fun rootfsFd d1 h1 => ?_
  refine (ignore_follows h1 (.close _) ⟨by simp, by simp⟩ fun _ => rfl).bind fun _ d2 h2 => ?_
  refine mountRoot_follows h2 ?_
  unfold Rootfs.MountsFrom
  rw [if_pos hcrypt]

theorem losetup_follows {path : CString} (h : Follows orders s d (.found path))
    (hcrypt : orders.rootfs.crypt.isSome) {rootfsFd : Int} :
    Ensures (losetup rootfsFd) d (fun _ d' => Follows orders s d' .looped) (Stops orders) := by
  unfold losetup
  refine openFile_follows h ⟨rfl, Or.inr ⟨rfl, hcrypt⟩⟩ (by decide) (by simp) fun loopFd d1 _ h1 => ?_
  refine (okOrFatal_follows h1 (.ioctl _ (.loopSetFd _)) ⟨⟨path, rfl⟩, hcrypt⟩ fun _ => rfl).bind
    fun _ d2 h2 => ?_
  exact h2

theorem dmCreate_follows (h : Follows orders s d .looped) {cipher secret : CString}
    (hcrypt : orders.rootfs.crypt = some (cipher, secret)) {build : Build} {blocks : Int} :
    Ensures (dmCreate build blocks cipher secret) d (fun _ d' => Follows orders s d' .resumed)
      (Stops orders) := by
  unfold dmCreate
  refine openFile_follows h ⟨rfl, rfl⟩ (by decide) (by simp) fun dmControl d1 _ h1 => ?_
  refine (okOrFatal_follows h1 (.ioctl _ (.dmDevCreate _)) rfl fun _ => rfl).bind fun _ d2 h2 => ?_
  by_cases hfits : Fits (cryptParameters cipher secret)
  · rw [if_pos hfits]
    refine (okOrFatal_follows h2 (.ioctl _ (.dmTableLoad _ _))
      ⟨rfl, cipher, secret, hcrypt, rfl, hfits⟩ fun _ => rfl).bind fun _ d3 h3 => ?_
    refine (okOrFatal_follows h3 (.ioctl _ (.dmDevSuspend _)) rfl fun _ => rfl).bind
      fun _ d4 h4 => ?_
    exact ignore_follows h4 (.close _) ⟨by simp, by simp⟩ fun _ => rfl
  · rw [if_neg hfits, ensures_bind]
    exact h2.stops (by decide) (by decide)

theorem rootfsBlocks_follows {path : CString} (h : Follows orders s d (.found path))
    (hcrypt : orders.rootfs.crypt.isSome) {rootfsFd : Int} :
    Ensures (rootfsBlocks rootfsFd) d (fun _ d' => Follows orders s d' (.found path))
      (Stops orders) := by
  have hdecrypts : (Phase.found path).Decrypts orders.rootfs := ⟨⟨path, rfl⟩, hcrypt⟩
  unfold rootfsBlocks
  rw [ensures_bind]
  refine askSame_follows h (.lseek _ _ _) hdecrypts (fun _ => rfl) fun rootfsSize d1 h1 => ?_
  refine (ignore_follows h1 (.lseek _ _ _) hdecrypts fun _ => rfl).bind fun _ d2 h2 => ?_
  rw [ensures_bind]
  refine askSame_follows h2 (.ioctl _ .blkSszGet) hdecrypts (fun _ => rfl) fun sszget d3 h3 => ?_
  by_cases hzero : (if sszget.value < 0 then 512 else sszget.output) = 0
  · rw [if_pos hzero]
    exact h3.stops (by simp) (by decide)
  · rw [if_neg hzero]
    exact h3

theorem mountEncryptedFs_follows {path : CString} (h : Follows orders s d (.found path))
    {cipher secret : CString} (hcrypt : orders.rootfs.crypt = some (cipher, secret))
    {build : Build} :
    Ensures (mountEncryptedFs build path orders.rootfs.fstype cipher secret) d
      (fun _ d' => Follows orders s d' .mounted) (Stops orders) := by
  have hsome : orders.rootfs.crypt.isSome := by rw [hcrypt]; rfl
  unfold mountEncryptedFs
  refine (openRootfs_follows h).bind fun rootfsFd d1 h1 => ?_
  refine (rootfsBlocks_follows h1 hsome).bind fun blocks d2 h2 => ?_
  refine (losetup_follows h2 hsome).bind fun loopFd d3 h3 => ?_
  refine (ignore_follows h3 (.close _) ⟨by simp, by simp⟩ fun _ => rfl).bind fun _ d4 h4 => ?_
  refine (dmCreate_follows h4 hcrypt).bind fun _ d5 h5 => ?_
  have hfrom : orders.rootfs.MountsFrom .resumed (.ofString "/dev/dm-0") := by
    unfold Rootfs.MountsFrom
    rw [if_neg (by rw [hcrypt]; exact Option.some_ne_none _)]
    exact ⟨rfl, rfl⟩
  refine (mountRoot_follows h5 hfrom).bind fun _ d6 h6 => ?_
  exact ignore_follows h6 (.close _) ⟨by simp, by simp⟩ fun _ => rfl

theorem mountRootfs_follows {path : CString} (h : Follows orders s d (.found path))
    {build : Build} :
    Ensures (mountRootfs build path orders.rootfs) d (fun _ d' => Follows orders s d' .mounted)
      (Stops orders) := by
  unfold mountRootfs
  rcases hcrypt : orders.rootfs.crypt with _ | ⟨cipher, secret⟩
  · exact mountFs_follows h hcrypt
  · exact mountEncryptedFs_follows h hcrypt

/-! ## Taking over -/

theorem createRootdiskSymlinks_follows (h : Follows orders s d .mounted)
    {qsort : Qsort direntAlphasort} {tree : SysTree} {path : CString} :
    Ensures (createRootdiskSymlinks qsort tree path) d (fun _ d' => Follows orders s d' .mounted)
      stop := by
  refine (createRootdiskSymlinks_passes (logs_following (by decide)) (fun _ => ⟨rfl, fun _ => rfl⟩)
    (fun _ _ => ⟨rfl, fun _ => rfl⟩) h.at_phase).imp ?_
  rintro _ d1 ⟨h1, hown⟩
  exact ⟨h1, hown.trans h.own⟩

/-- Induction on the rounds, over the entries of a directory and what is below them. -/
theorem cleanup_follows (rounds : Nat) {d : Dialog Call Answer State} {dirfd : Int}
    {skipList : List CString} (h : Follows orders s d .mounted) :
    Ensures (cleanupDir dirfd skipList rounds) d (fun _ d' => Follows orders s d' .mounted)
        (Stops orders) ∧
      Ensures (cleanupLoop dirfd skipList rounds) d (fun _ d' => Follows orders s d' .mounted)
        (Stops orders) := by
  induction rounds generalizing d dirfd skipList with
  | zero => exact ⟨h.stops (by decide) (by decide), h.stops (by decide) (by decide)⟩
  | succ rounds ih =>
    constructor
    · unfold cleanupDir
      rw [ensures_bind]
      refine askSame_follows h (.fdopendir _) rfl (fun _ => rfl) fun dir d1 h1 => ?_
      by_cases hfails : dir.value < 0
      · rw [if_pos hfails]
        exact info_follows h1 (by decide)
      · rw [if_neg hfails]
        refine (ih h1).2.bind fun _ d2 h2 => ?_
        exact ignore_follows h2 (.closedir _) rfl fun _ => rfl
    · unfold cleanupLoop
      rw [ensures_bind]
      refine askSame_follows h (.readdir _) rfl (fun _ => rfl) fun dt d1 h1 => ?_
      rcases dt.entry with _ | dt
      · exact h1
      dsimp only
      by_cases hskipped : inSkipList dt.name skipList
      · rw [if_pos hskipped]
        exact (ih h1).2
      rw [if_neg hskipped]
      by_cases hdirectory : dt.type &&& dtDir ≠ 0
      · rw [if_pos hdirectory, ensures_bind, ensures_bind]
        refine askSame_follows h1 (.openat _ _ _) rfl (fun _ => rfl) fun fd d2 h2 => ?_
        have hremove : ∀ d3, Follows orders s d3 .mounted →
            Ensures (okOrWarn (.unlinkat dirfd dt.name AT_REMOVEDIR)
              (text "unlinkat directory  " ++ dt.name.bytes)) d3
              (fun _ d' => Ensures (cleanupLoop dirfd skipList rounds) d'
                (fun _ d' => Follows orders s d' .mounted) (Stops orders)) (Stops orders) := by
          intro d3 h3
          exact (okOrWarn_follows h3 (by decide) (.unlinkat _ _ _) rfl fun _ => rfl).imp
            fun _ d4 h4 => (ih h4).2
        by_cases hopened : 0 ≤ fd.value
        · rw [if_pos hopened]
          exact (ih h2).1.bind fun _ d3 h3 => hremove d3 h3
        · rw [if_neg hopened]
          exact (info_follows h2 (by decide)).bind fun _ d3 h3 => hremove d3 h3
      · rw [if_neg hdirectory]
        exact (okOrWarn_follows h1 (by decide) (.unlinkat _ _ _) rfl fun _ => rfl).bind
          fun _ d2 h2 => (ih h2).2

theorem cleanupOldRootfs_follows (h : Follows orders s d .mounted) {rounds : Nat} :
    Ensures (cleanupOldRootfs rounds) d (fun _ d' => Follows orders s d' .mounted)
      (Stops orders) := by
  have hkmsg : ¬ IsKmsg (.ofString "/") O_RDONLY := by decide
  unfold cleanupOldRootfs
  rw [ensures_bind]
  refine askSame_follows h (.openFile _ _) ((may_openFile hkmsg).mpr ⟨rfl, rfl⟩)
    (fun answer => (after_openFile hkmsg answer).trans (congrArg (Plan.mk · none) (if_pos rfl)))
    fun fd d1 h1 => ?_
  by_cases hfails : fd.value < 0
  · rw [if_pos hfails]
    exact info_follows h1 (by decide)
  · rw [if_neg hfails]
    refine (cleanup_follows rounds h1).1.bind fun _ d2 h2 => ?_
    refine (ignore_follows h2 (.rmdir _) rfl fun _ => rfl).bind fun _ d3 h3 => ?_
    exact ignore_follows h3 (.rmdir _) rfl fun _ => rfl

theorem switchRoot_follows (h : Follows orders s d .mounted) {rounds : Nat} :
    Ensures (switchRoot rounds) d (fun _ d' => Follows orders s d' .mounted) (Stops orders) := by
  have hmay : ∀ source target, target ≠ .ofString "/mnt" →
      Plan.May orders ⟨.mounted, none⟩ (.mount source target none MS_MOVE none) := by
    intro source target htarget
    simp only [Plan.May, if_neg htarget, if_true]
  have hafter : ∀ source target answer, target ≠ .ofString "/mnt" →
      Plan.after ⟨.mounted, none⟩ (.mount source target none MS_MOVE none) answer
        = ⟨.mounted, none⟩ :=
    fun source target answer htarget => congrArg (Plan.mk · none) (if_neg htarget)
  unfold switchRoot
  refine (okOrWarn_follows h (by decide) (.mount _ _ _ _ _) (hmay _ _ (by decide)) fun _ =>
    hafter _ _ _ (by decide)).bind fun _ d1 h1 => ?_
  refine (okOrWarn_follows h1 (by decide) (.umount _) rfl fun _ => rfl).bind fun _ d2 h2 => ?_
  refine (okOrWarn_follows h2 (by decide) (.umount _) rfl fun _ => rfl).bind fun _ d3 h3 => ?_
  refine (cleanupOldRootfs_follows h3).bind fun _ d4 h4 => ?_
  refine (ignore_follows h4 (.chdir _) rfl fun _ => rfl).bind fun _ d5 h5 => ?_
  refine (okOrWarn_follows h5 (by decide) (.mount _ _ _ _ _) (hmay _ _ (by decide)) fun _ =>
    hafter _ _ _ (by decide)).bind fun _ d6 h6 => ?_
  exact ignore_follows h6 (.chroot _) rfl fun _ => rfl

/-- `init` gets the arguments that the memory holds by then. -/
theorem execInit_follows (h : Follows orders s d .mounted) (hargv : s.argv = orders.argv) :
    Ensures execInit d (fun _ _ => False) (Stops orders) := by
  unfold execInit
  rw [ensures_bind, ensures_get, ensures_bind, h.own]
  have hafter : ∀ answer, Plan.after ⟨.mounted, none⟩ (.execv (.ofString "/sbin/init") s.argv) answer
      = ⟨Phase.started.orFailed answer, none⟩ := fun _ => rfl
  refine ask_follows h (.execv _ _) ⟨rfl, rfl, hargv⟩ hafter fun failed d1 h1 => ?_
  by_cases hruns : 0 ≤ failed.value
  · rw [if_pos hruns]
    rw [orFailed_of_ok (Int.not_lt.mpr hruns)] at h1
    exact ⟨_, h1.at_phase.kept, fun _ => rfl, fun _ => rfl⟩
  · rw [if_neg hruns]
    rw [orFailed_of_fails (Int.not_le.mp hruns)] at h1
    exact fatal_follows h1 (by decide)

/-- The root file system is mounted, and `init` takes over. -/
theorem takeover_follows {path : CString} (h : Follows orders s d (.found path))
    (hargv : s.argv = orders.argv) {build : Build} {qsort : Qsort direntAlphasort}
    {tree : SysTree} {rounds : Nat} :
    Ensures (do
      mountRootfs build path orders.rootfs
      createRootdiskSymlinks qsort tree path
      switchRoot rounds
      execInit) d (fun _ _ => False) (Stops orders) := by
  refine (mountRootfs_follows h).bind fun _ d1 h1 => ?_
  refine (createRootdiskSymlinks_follows h1).bind fun _ d2 h2 => ?_
  refine (switchRoot_follows h2).bind fun _ d3 h3 => ?_
  exact execInit_follows h3 hargv

/-! ## The scripts -/

section

variable {machine : Machine} {depth : Nat} {argv : List CString}

/-- The scripts find the arguments cut off, and leave them so. -/
theorem runScripts_argv (given : Given) (world : World) :
    Ensures (runScripts machine depth given) (State.boot argv world)
      (fun _ s' => HoldsArgv (argvAfter argv) s') fun _ _ => True := by
  unfold runScripts
  refine (configure_argv given.file world).bind fun wanted s1 h1 => ?_
  cases wanted with
  | false => exact h1
  | true =>
    exact (argv_language _).repl_ensures HoldsArgv.collected machine depth given.lines h1

theorem readRootfs_argv (h : HoldsArgv argv s) :
    Ensures (readRootfs machine depth) s (fun _ s' => HoldsArgv argv s') fun _ _ => True := by
  unfold readRootfs
  refine (getVariableAsString_argv h _).bind fun fstype s1 h1 => ?_
  refine (getVariableAsBoolean_argv h1 _).bind fun encrypted s2 h2 => ?_
  cases encrypted with
  | false => exact h2
  | true =>
    refine (getVariableAsString_argv h2 _).bind fun cipher s3 h3 => ?_
    exact (getVariableAsString_argv h3 _).bind fun secret s4 h4 => h4

/-- The interpreter makes none of these calls. -/
theorem scripted_follows {α : Type} {m : Interp α} {post : α → Dialog Call Answer State → Prop}
    (h : Follows orders s d phase) (hphase : phase ≠ .started)
    (hpost : ∀ a s1 d1, m s = .ok a s1 → Follows orders s1 d1 phase → post a d1) :
    Ensures (scripted m) d post (Stops orders) := by
  refine scripted_ensures h.at_phase (fun a s1 hm h1 => ?_) fun halt s1 h1 => ?_
  · rw [h.own] at hm
    exact hpost a s1 _ hm ⟨h1, rfl⟩
  · have hfollows : Follows orders s1 { d with own := s1 } phase := ⟨h1, rfl⟩
    exact hfollows.stops hphase (by intro heq; cases heq)

end

/-! ## The boot -/

section

variable (build : Build) (machine : Machine) (depth rounds : Nat) (qsort : Qsort direntAlphasort)
  (given : Given) (argv : List CString) (world : World)

/-- What a computation does not return may be anything. -/
theorem exists_result {α : Type} [Inhabited α] (m : Interp α) (s : State) :
    ∃ a, ∀ a' s', m s = .ok a' s' → a = a' := by
  rcases hm : m s with ⟨a, s1⟩ | ⟨stop, s1⟩
  · exact ⟨a, fun a' s' h => by cases h; rfl⟩
  · exact ⟨default, fun a' s' h => by cases h⟩

theorem exists_orders : ∃ orders : Orders, orders.From machine depth given argv world := by
  have hspecs : Inhabited CString := ⟨.ofString ""⟩
  have hrootfss : Inhabited Rootfs := ⟨⟨.ofString "", none⟩⟩
  obtain ⟨spec, hspec⟩ := exists_result (do
    runScripts machine depth given
    readRootfsSpec machine depth) (State.boot argv world)
  obtain ⟨rootfs, hrootfs⟩ := exists_result (do
    runScripts machine depth given
    let _ ← readRootfsSpec machine depth
    readRootfs machine depth) (State.boot argv world)
  exact ⟨⟨spec, rootfs, argvAfter argv⟩, hspec, hrootfs, rfl⟩

variable {depth given argv world}

theorem main_follows (horders : orders.From machine depth given argv world)
    (outside : List (Call × Answer) → Call → Answer) :
    Ensures (main build machine depth rounds qsort given) ⟨outside, [], State.boot argv world⟩
      (fun _ _ => False) (Stops orders) := by
  have hstart : Follows orders (State.boot argv world) ⟨outside, [], State.boot argv world⟩ .setup :=
    ⟨⟨.nil, fun _ _ _ _ _ => trivial⟩, rfl⟩
  have hgetpid : ∀ answer, Plan.after ⟨.setup, none⟩ .getpid answer
      = ⟨if answer.value = 1 then .setup else .failed, none⟩ := fun _ => rfl
  have hresolve : ∀ spec answer, Plan.after ⟨.setup, none⟩ (.resolveBlockDeviceSpec spec) answer
      = ⟨(Phase.found answer.path).orFailed answer, none⟩ := fun _ _ => rfl
  unfold main
  refine (info_follows hstart (by decide)).bind fun _ d1 h1 => ?_
  rw [ensures_bind]
  refine ask_follows h1 .getpid rfl hgetpid fun pid d2 h2 => ?_
  by_cases hpid : pid.value = 1
  · rw [if_neg (not_not_intro hpid)]
    rw [if_pos hpid] at h2
    refine (setupInitramfs_follows h2).bind fun _ d3 h3 => ?_
    rw [ensures_bind]
    refine scripted_follows h3 (by decide) fun _ s1 d4 hscripts h4 => ?_
    have hargv1 := (runScripts_argv given world).ok hscripts
    rw [ensures_bind]
    refine scripted_follows h4 (by decide) fun spec s2 d5 hspec h5 => ?_
    have hargv2 := (getVariableAsString_argv hargv1 _).ok hspec
    have hmay : Plan.May orders ⟨.setup, none⟩ (.resolveBlockDeviceSpec spec) :=
      ⟨rfl, (horders.spec spec s2 ((bind_of_ok hscripts).trans hspec)).symm⟩
    rw [ensures_bind]
    refine ask_follows h5 (.resolveBlockDeviceSpec spec) hmay (hresolve spec) fun resolved d6 h6 => ?_
    by_cases hfails : resolved.value < 0
    · rw [if_pos hfails]
      rw [orFailed_of_fails hfails] at h6
      exact fatal_follows h6 (by decide)
    · rw [if_neg hfails, ensures_bind]
      rw [orFailed_of_ok hfails] at h6
      refine scripted_follows h6 (by simp) fun rootfs s3 d7 hrootfs h7 => ?_
      have hargv3 := (readRootfs_argv hargv2).ok hrootfs
      rw [← horders.rootfs rootfs s3 ((bind_of_ok hscripts).trans ((bind_of_ok hspec).trans hrootfs))]
      exact takeover_follows h7 (hargv3.2.trans horders.argv.symm)
  · rw [if_pos hpid]
    rw [if_neg hpid] at h2
    exact fatal_follows h2 (by decide)

end

end NervesInitramfs.Boot
