import NervesInitramfs.Boot.Proofs.CallsProofs
import NervesInitramfs.Rootfs.Proofs.RootdiskProofs
import NervesInitramfs.Script.Proofs.StoreProofs

/-!
# The descriptors of a boot

Every descriptor is closed once, after its last use, but for those that `fdopendir` refuses.
-/

namespace NervesInitramfs.Boot

open CLib

variable {d : Dialog Call Answer State} {t : Descriptors} {opened refused : List Int}

/-- At the start nothing is open but the standard error. -/
def Descriptors.start : Descriptors := ⟨[], []⟩

abbrev Holds (d : Dialog Call Answer State) (t : Descriptors) : Prop :=
  descriptors.At Descriptors.start d t

/-- How the boot may stop: when `init` is started, only what has been refused is still open. -/
def Left (halt : Halt) (d : Dialog Call Answer State) : Prop :=
  ∃ t : Descriptors, Holds d t ∧ (halt = .started → t.opened = t.refused)

theorem Holds.left (h : Holds d t) {halt : Halt} (hhalt : halt ≠ .started) : Left halt d :=
  ⟨t, h, fun heq => absurd heq hhalt⟩

/-! ## The descriptors that are open -/

theorem nodup_after (h : t.opened.Nodup) {call : Call} {answer : Answer}
    (hexpected : descriptors.expected t call answer) : (t.after call answer).opened.Nodup := by
  have hopens : answer.value ≠ 2 ∧ answer.value ∉ t.opened →
      (if 0 ≤ answer.value then { t with opened := answer.value :: t.opened } else t).opened.Nodup := by
    rintro ⟨-, hfresh⟩
    by_cases hok : 0 ≤ answer.value
    · rw [if_pos hok]
      exact List.nodup_cons.mpr ⟨hfresh, h⟩
    · rw [if_neg hok]
      exact h
  cases call with
  | openFile path flags => exact hopens hexpected
  | openat dirfd path flags => exact hopens hexpected
  | close fd => exact h.erase fd
  | closedir fd => exact h.erase fd
  | fdopendir fd =>
    change (if answer.value < 0 then { t with refused := fd :: t.refused } else t).opened.Nodup
    split_ifs
    · exact h
    · exact h
  | _ => exact h

theorem nodup_of_kept {log : List (Call × Answer)} {t : descriptors.State}
    (h : descriptors.Kept Descriptors.start log t) : (show Descriptors from t).opened.Nodup := by
  induction h with
  | nil => exact List.nodup_nil
  | call _ _ hexpected ih => exact nodup_after ih hexpected

/-- No descriptor is open twice. -/
theorem Holds.nodup (h : Holds d t) : t.opened.Nodup := nodup_of_kept h.kept

/-! ## Calls -/

/-- A new descriptor is none of those that are open. -/
theorem Holds.openFile (h : Holds d t) (path : CString) (flags : Nat)
    {post : Answer → Dialog Call Answer State → Prop} {stop : Halt → Dialog Call Answer State → Prop}
    (hfails : ∀ answer d', answer.value < 0 → Holds d' t → d'.own = d.own → post answer d')
    (hopens : ∀ answer d', 0 ≤ answer.value → answer.value ≠ 2 → answer.value ∉ t.opened →
      Holds d' { t with opened := answer.value :: t.opened } → d'.own = d.own → post answer d') :
    Ensures (ask (.openFile path flags)) d post stop := by
  refine Contract.At.ask h (.openFile path flags) (List.forall_mem_nil _) ?_
  rintro answer d' h' ⟨htwo, hfresh⟩ hown
  have hnext : descriptors.next t (.openFile path flags) answer =
      if 0 ≤ answer.value then { t with opened := answer.value :: t.opened } else t := rfl
  rw [hnext] at h'
  by_cases hok : 0 ≤ answer.value
  · rw [if_pos hok] at h'
    exact hopens answer d' hok htwo hfresh h' hown
  · rw [if_neg hok] at h'
    exact hfails answer d' (Int.not_le.mp hok) h' hown

/-- Messages are written to a descriptor of their own, or to the standard error. -/
theorem logs_descriptors : Logs descriptors Descriptors.start t := by
  intro d str h
  unfold logWrite
  rw [ensures_bind]
  refine Holds.openFile h _ _ (fun logFd d1 hfails h1 hown1 => ?_)
    fun logFd d1 hok htwo hfresh h1 hown1 => ?_
  · rw [if_neg (Int.not_le.mpr hfails), ensures_bind]
    refine Contract.At.askSame h1 (.write 2 str) (List.forall_mem_nil _) (fun _ => rfl)
      fun _ d2 h2 hown2 => ?_
    exact ⟨h2, hown2.trans hown1⟩
  · rw [if_pos hok, ensures_bind]
    have huses : ∀ fd ∈ (Call.write logFd.value str).uses, fd ∈ logFd.value :: t.opened := by
      intro fd hfd
      have hwrite : (Call.write logFd.value str).uses = [logFd.value] := if_neg htwo
      rw [hwrite, List.mem_singleton] at hfd
      rw [hfd]
      exact List.mem_cons_self
    refine Contract.At.askSame h1 (.write logFd.value str) huses (fun _ => rfl)
      fun _ d2 h2 hown2 => ?_
    rw [ensures_bind]
    refine Contract.At.ask h2 (.close logFd.value) (by simp [descriptors, Call.uses])
      fun _ d3 h3 _ hown3 => ?_
    have hnext : descriptors.next { t with opened := logFd.value :: t.opened } (.close logFd.value) =
        fun _ => t := by
      funext answer
      change (⟨(logFd.value :: t.opened).erase logFd.value, t.refused⟩ : Descriptors) = t
      rw [List.erase_cons_head]
    rw [hnext] at h3
    exact ⟨h3, hown3.trans (hown2.trans hown1)⟩

section

variable {stop : Halt → Dialog Call Answer State → Prop}

theorem fatal_left {α : Type} {post : α → Dialog Call Answer State → Prop} (h : Holds d t)
    {message : List UInt8} : Ensures (fatal message) d post Left :=
  logs_descriptors.fatal h fun _ h1 _ => Holds.left h1 (by decide)

/-- The latest descriptor is closed. -/
theorem close_holds {fd : Int} (h : Holds d ⟨fd :: opened, refused⟩) :
    Ensures (ignore (.close fd)) d (fun _ d' => Holds d' ⟨opened, refused⟩ ∧ d'.own = d.own)
      stop := by
  refine ignore_ensures h (.close fd) (List.forall_mem_singleton.mpr List.mem_cons_self) fun _ => ?_
  change (⟨(fd :: opened).erase fd, refused⟩ : Descriptors) = ⟨opened, refused⟩
  rw [List.erase_cons_head]

theorem setupInitramfs_holds (h : Holds d t) :
    Ensures setupInitramfs d (fun _ d' => Holds d' t ∧ d'.own = d.own) stop :=
  setupInitramfs_passes logs_descriptors (fun _ _ => ⟨List.forall_mem_nil _, fun _ => rfl⟩)
    (fun _ _ _ _ _ _ _ => ⟨List.forall_mem_nil _, fun _ => rfl⟩) h

end

/-- A failure that is fatal leaves open what was open. -/
theorem okOrFatal_holds (h : Holds d t) (call : Call) (huses : ∀ fd ∈ call.uses, fd ∈ t.opened)
    (hafter : ∀ answer, t.after call answer = t) {message : List UInt8} :
    Ensures (okOrFatal call message) d (fun _ d' => Holds d' t) Left := by
  have hnext : ∀ answer, descriptors.next t call answer = t := hafter
  refine okOrFatal_ensures h call huses (fun _ _ _ => logs_descriptors) ?_ ?_
  · intro answer d1 _ _ h1 _
    rw [hnext] at h1
    exact h1
  · intro answer d1 _ _ h1 _
    rw [hnext] at h1
    exact Holds.left h1 (by decide)

/-! ## Mounting -/

theorem mountRoot_holds (h : Holds d t) {device rootfsType path : CString} :
    Ensures (mountRoot device rootfsType path) d (fun _ d' => Holds d' t) Left :=
  okOrFatal_holds h (.mount _ _ _ _ _) (List.forall_mem_nil _) fun _ => rfl

theorem openRootfs_holds (h : Holds d t) {path : CString} :
    Ensures (openRootfs path) d
      (fun fd d' => Holds d' { t with opened := fd :: t.opened }) Left := by
  unfold openRootfs
  rw [ensures_bind]
  refine Holds.openFile h _ _ (fun rootfsFd d1 hfails h1 _ => ?_)
    fun rootfsFd d1 hok _ _ h1 _ => ?_
  · rw [if_pos hfails]
    exact fatal_left h1
  · rw [if_neg (Int.not_lt.mpr hok)]
    exact h1

theorem mountFs_holds (h : Holds d t) {path rootfsType : CString} :
    Ensures (mountFs path rootfsType) d (fun _ d' => Holds d' t) Left := by
  unfold mountFs
  refine (openRootfs_holds h).bind fun rootfsFd d1 h1 => ?_
  refine (close_holds h1).bind fun _ d2 h2 => ?_
  exact mountRoot_holds h2.1

theorem losetup_holds (h : Holds d t) {rootfsFd : Int} (hopened : rootfsFd ∈ t.opened) :
    Ensures (losetup rootfsFd) d
      (fun fd d' => Holds d' { t with opened := fd :: t.opened }) Left := by
  unfold losetup
  rw [ensures_bind]
  refine Holds.openFile h _ _ (fun loopFd d1 hfails h1 _ => ?_) fun loopFd d1 hok _ _ h1 _ => ?_
  · rw [if_pos hfails]
    exact fatal_left h1
  · rw [if_neg (Int.not_lt.mpr hok)]
    have huses : ∀ fd ∈ (Call.ioctl loopFd.value (.loopSetFd rootfsFd)).uses,
        fd ∈ loopFd.value :: t.opened :=
      List.forall_mem_cons.mpr ⟨List.mem_cons_self,
        List.forall_mem_singleton.mpr (List.mem_cons_of_mem _ hopened)⟩
    refine (okOrFatal_holds h1 (.ioctl _ (.loopSetFd _)) huses fun _ => rfl).bind fun _ d2 h2 => ?_
    exact h2

theorem dmCreate_holds (h : Holds d t) {build : Build} {blocks : Int} {cipher secret : CString} :
    Ensures (dmCreate build blocks cipher secret) d (fun _ d' => Holds d' t) Left := by
  unfold dmCreate
  rw [ensures_bind]
  refine Holds.openFile h _ _ (fun dmControl d1 hfails h1 _ => ?_)
    fun dmControl d1 hok _ _ h1 _ => ?_
  · rw [if_pos hfails]
    exact fatal_left h1
  · rw [if_neg (Int.not_lt.mpr hok)]
    have huses : ∀ fd ∈ [dmControl.value], fd ∈ dmControl.value :: t.opened :=
      List.forall_mem_singleton.mpr List.mem_cons_self
    refine (okOrFatal_holds h1 (.ioctl _ (.dmDevCreate _)) huses fun _ => rfl).bind
      fun _ d2 h2 => ?_
    by_cases hfits : Fits (cryptParameters cipher secret)
    · rw [if_pos hfits]
      refine (okOrFatal_holds h2 (.ioctl _ (.dmTableLoad _ _)) huses fun _ => rfl).bind
        fun _ d3 h3 => ?_
      refine (okOrFatal_holds h3 (.ioctl _ (.dmDevSuspend _)) huses fun _ => rfl).bind
        fun _ d4 h4 => ?_
      exact (close_holds h4).imp fun _ _ h5 => h5.1
    · rw [if_neg hfits, ensures_bind]
      exact Holds.left h2 (by decide)

theorem rootfsBlocks_holds (h : Holds d t) {rootfsFd : Int} (hopened : rootfsFd ∈ t.opened) :
    Ensures (rootfsBlocks rootfsFd) d (fun _ d' => Holds d' t) Left := by
  have huses : ∀ fd ∈ [rootfsFd], fd ∈ t.opened := List.forall_mem_singleton.mpr hopened
  unfold rootfsBlocks
  rw [ensures_bind]
  refine Contract.At.askSame h (.lseek _ _ _) huses (fun _ => rfl) fun rootfsSize d1 h1 _ => ?_
  refine (ignore_ensures h1 (.lseek _ _ _) huses fun _ => rfl).bind fun _ d2 h2 => ?_
  rw [ensures_bind]
  refine Contract.At.askSame h2.1 (.ioctl _ .blkSszGet) huses (fun _ => rfl)
    fun sszget d3 h3 _ => ?_
  by_cases hzero : (if sszget.value < 0 then 512 else sszget.output) = 0
  · rw [if_pos hzero]
    exact Holds.left h3 (by decide)
  · rw [if_neg hzero]
    exact h3

theorem mountEncryptedFs_holds (h : Holds d t) {build : Build}
    {path rootfsType cipher secret : CString} :
    Ensures (mountEncryptedFs build path rootfsType cipher secret) d (fun _ d' => Holds d' t)
      Left := by
  unfold mountEncryptedFs
  refine (openRootfs_holds h).bind fun rootfsFd d1 h1 => ?_
  refine (rootfsBlocks_holds h1 List.mem_cons_self).bind fun blocks d2 h2 => ?_
  refine (losetup_holds h2 List.mem_cons_self).bind fun loopFd d3 h3 => ?_
  -- The loop device has another descriptor than the root file system.
  have hother : loopFd ≠ rootfsFd := by
    intro heq
    have hnodup := Holds.nodup h3
    rw [heq] at hnodup
    exact (List.nodup_cons.mp hnodup).1 List.mem_cons_self
  have hclose : ∀ answer, Descriptors.after ⟨loopFd :: rootfsFd :: t.opened, t.refused⟩
      (.close rootfsFd) answer = ⟨loopFd :: t.opened, t.refused⟩ := by
    intro answer
    change (⟨(loopFd :: rootfsFd :: t.opened).erase rootfsFd, t.refused⟩ : Descriptors) = _
    rw [List.erase_cons_tail (by simpa using hother), List.erase_cons_head]
  refine (ignore_ensures h3 (.close rootfsFd) (List.forall_mem_singleton.mpr
    (List.mem_cons_of_mem _ List.mem_cons_self)) hclose).bind fun _ d4 h4 => ?_
  refine (dmCreate_holds h4.1).bind fun _ d5 h5 => ?_
  refine (mountRoot_holds h5).bind fun _ d6 h6 => ?_
  exact (close_holds h6).imp fun _ _ h7 => h7.1

theorem mountRootfs_holds (h : Holds d t) {build : Build} {path : CString} {rootfs : Rootfs} :
    Ensures (mountRootfs build path rootfs) d (fun _ d' => Holds d' t) Left := by
  unfold mountRootfs
  rcases rootfs.crypt with _ | ⟨cipher, secret⟩
  · exact mountFs_holds h
  · exact mountEncryptedFs_holds h

/-! ## Taking over -/

theorem createRootdiskSymlinks_holds (h : Holds d t) {qsort : Qsort direntAlphasort}
    {tree : SysTree} {path : CString} :
    Ensures (createRootdiskSymlinks qsort tree path) d (fun _ d' => Holds d' t) Left :=
  (createRootdiskSymlinks_passes logs_descriptors (fun _ => ⟨List.forall_mem_nil _, fun _ => rfl⟩)
    (fun _ _ => ⟨List.forall_mem_nil _, fun _ => rfl⟩) h).imp fun _ _ h1 => h1.1

/-- Some more descriptors have been refused and are still open. -/
def Refuses (t : Descriptors) (d : Dialog Call Answer State) : Prop :=
  ∃ more, Holds d ⟨more ++ t.opened, more ++ t.refused⟩

/-- The descriptor of a directory is closed when all that is below it is, unless it is refused. -/
theorem closedir_refuses {fd : Int} (h : Refuses ⟨fd :: opened, refused⟩ d) :
    Ensures (ignore (.closedir fd)) d (fun _ d' => Refuses ⟨opened, refused⟩ d') Left := by
  obtain ⟨more, h⟩ := h
  have hnot : fd ∉ more := by
    intro hin
    exact List.disjoint_of_nodup_append (Holds.nodup h) hin List.mem_cons_self
  have hclose : ∀ answer, Descriptors.after ⟨more ++ fd :: opened, more ++ refused⟩ (.closedir fd)
      answer = ⟨more ++ opened, more ++ refused⟩ := by
    intro answer
    change (⟨(more ++ fd :: opened).erase fd, more ++ refused⟩ : Descriptors) = _
    rw [List.erase_append_right _ hnot, List.erase_cons_head]
  refine (ignore_ensures h (.closedir fd) (List.forall_mem_singleton.mpr
    (List.mem_append_right _ List.mem_cons_self)) hclose).imp ?_
  exact fun _ d1 h1 => ⟨more, h1.1⟩

/-- Induction on the rounds. A directory is opened, cleaned and closed before the next entry is
read. -/
theorem cleanup_holds (rounds : Nat) {d : Dialog Call Answer State} {t : Descriptors} {dirfd : Int}
    {skipList : List CString} :
    (Holds d { t with opened := dirfd :: t.opened } →
      Ensures (cleanupDir dirfd skipList rounds) d (fun _ d' => Refuses t d') Left) ∧
    (Holds d t → dirfd ∈ t.opened →
      Ensures (cleanupLoop dirfd skipList rounds) d (fun _ d' => Refuses t d') Left) := by
  induction rounds generalizing d t dirfd skipList with
  | zero => exact ⟨fun h => Holds.left h (by decide), fun h _ => Holds.left h (by decide)⟩
  | succ rounds ih =>
    constructor
    · intro h
      have huses : ∀ fd ∈ [dirfd], fd ∈ dirfd :: t.opened :=
        List.forall_mem_singleton.mpr List.mem_cons_self
      unfold cleanupDir
      rw [ensures_bind]
      refine Contract.At.ask h (.fdopendir dirfd) huses fun dir d1 h1 _ _ => ?_
      by_cases hfails : dir.value < 0
      · have hnext : descriptors.next { t with opened := dirfd :: t.opened } (.fdopendir dirfd) dir =
            (⟨dirfd :: t.opened, dirfd :: t.refused⟩ : Descriptors) := if_pos hfails
        rw [if_pos hfails]
        rw [hnext] at h1
        exact (logs_descriptors.info h1).imp fun _ _ h2 => ⟨[dirfd], h2.1⟩
      · have hnext : descriptors.next { t with opened := dirfd :: t.opened } (.fdopendir dirfd) dir =
            (⟨dirfd :: t.opened, t.refused⟩ : Descriptors) := if_neg hfails
        rw [if_neg hfails]
        rw [hnext] at h1
        exact (ih.2 h1 List.mem_cons_self).bind fun _ d2 h2 => closedir_refuses h2
    · intro h hopened
      have huses : ∀ fd ∈ [dirfd], fd ∈ t.opened := List.forall_mem_singleton.mpr hopened
      -- What is refused on the way stays open, in front of what was open before.
      have hrest : ∀ d2, Refuses t d2 →
          Ensures (cleanupLoop dirfd skipList rounds) d2 (fun _ d' => Refuses t d') Left := by
        rintro d2 ⟨more, h2⟩
        refine (ih.2 h2 (List.mem_append_right _ hopened)).imp ?_
        rintro _ d3 ⟨more', h3⟩
        rw [← List.append_assoc, ← List.append_assoc] at h3
        exact ⟨more' ++ more, h3⟩
      unfold cleanupLoop
      rw [ensures_bind]
      refine Contract.At.askSame h (.readdir dirfd) huses (fun _ => rfl) fun dt d1 h1 _ => ?_
      rcases dt.entry with _ | dt
      · exact ⟨[], h1⟩
      dsimp only
      by_cases hskipped : inSkipList dt.name skipList
      · rw [if_pos hskipped]
        exact hrest d1 ⟨[], h1⟩
      rw [if_neg hskipped]
      by_cases hdirectory : dt.type &&& dtDir ≠ 0
      · rw [if_pos hdirectory, ensures_bind, ensures_bind]
        have hremove : ∀ d3, Refuses t d3 →
            Ensures (okOrWarn (.unlinkat dirfd dt.name AT_REMOVEDIR)
              (text "unlinkat directory  " ++ dt.name.bytes)) d3
              (fun _ d' => Ensures (cleanupLoop dirfd skipList rounds) d'
                (fun _ d' => Refuses t d') Left) Left := by
          rintro d3 ⟨more, h3⟩
          refine (okOrWarn_ensures logs_descriptors h3 (.unlinkat _ _ _) (List.forall_mem_singleton.mpr
            (List.mem_append_right _ hopened)) fun _ => rfl).imp ?_
          exact fun _ d4 h4 => hrest d4 ⟨more, h4.1⟩
        refine Contract.At.ask h1 (.openat dirfd dt.name O_RDONLY) huses
          fun fd d2 h2 _ _ => ?_
        by_cases hok : 0 ≤ fd.value
        · have hnext : descriptors.next t (.openat dirfd dt.name O_RDONLY) fd =
              (⟨fd.value :: t.opened, t.refused⟩ : Descriptors) := if_pos hok
          rw [if_pos hok]
          rw [hnext] at h2
          exact (ih.1 h2).bind fun _ d3 h3 => hremove d3 h3
        · have hnext : descriptors.next t (.openat dirfd dt.name O_RDONLY) fd = t := if_neg hok
          rw [if_neg hok]
          rw [hnext] at h2
          exact (logs_descriptors.info h2).bind fun _ d3 h3 => hremove d3 ⟨[], h3.1⟩
      · rw [if_neg hdirectory]
        exact (okOrWarn_ensures logs_descriptors h1 (.unlinkat _ _ _) huses fun _ => rfl).bind
          fun _ d2 h2 => hrest d2 ⟨[], h2.1⟩

theorem cleanupOldRootfs_holds (h : Holds d t) {rounds : Nat} :
    Ensures (cleanupOldRootfs rounds) d (fun _ d' => Refuses t d') Left := by
  unfold cleanupOldRootfs
  rw [ensures_bind]
  refine Holds.openFile h _ _ (fun fd d1 hfails h1 _ => ?_) fun fd d1 hok _ _ h1 _ => ?_
  · rw [if_pos hfails]
    exact (logs_descriptors.info h1).imp fun _ _ h2 => ⟨[], h2.1⟩
  · rw [if_neg (Int.not_lt.mpr hok)]
    refine ((cleanup_holds rounds).1 h1).bind ?_
    rintro _ d2 ⟨more, h2⟩
    refine (ignore_ensures h2 (.rmdir _) (List.forall_mem_nil _) fun _ => rfl).bind
      fun _ d3 h3 => ?_
    exact (ignore_ensures h3.1 (.rmdir _) (List.forall_mem_nil _) fun _ => rfl).imp
      fun _ _ h4 => ⟨more, h4.1⟩

theorem switchRoot_holds (h : Holds d t) {rounds : Nat} :
    Ensures (switchRoot rounds) d (fun _ d' => Refuses t d') Left := by
  unfold switchRoot
  refine (okOrWarn_ensures logs_descriptors h (.mount _ _ _ _ _) (List.forall_mem_nil _)
    fun _ => rfl).bind fun _ d1 h1 => ?_
  refine (okOrWarn_ensures logs_descriptors h1.1 (.umount _) (List.forall_mem_nil _) fun _ => rfl).bind
    fun _ d2 h2 => ?_
  refine (okOrWarn_ensures logs_descriptors h2.1 (.umount _) (List.forall_mem_nil _) fun _ => rfl).bind
    fun _ d3 h3 => ?_
  refine (cleanupOldRootfs_holds h3.1).bind ?_
  rintro _ d4 ⟨more, h4⟩
  refine (ignore_ensures h4 (.chdir _) (List.forall_mem_nil _) fun _ => rfl).bind
    fun _ d5 h5 => ?_
  refine (okOrWarn_ensures logs_descriptors h5.1 (.mount _ _ _ _ _) (List.forall_mem_nil _)
    fun _ => rfl).bind fun _ d6 h6 => ?_
  exact (ignore_ensures h6.1 (.chroot _) (List.forall_mem_nil _) fun _ => rfl).imp
    fun _ _ h7 => ⟨more, h7.1⟩

theorem execInit_left (h : Refuses Descriptors.start d) :
    Ensures execInit d (fun _ _ => False) Left := by
  obtain ⟨more, h⟩ := h
  unfold execInit
  rw [ensures_bind, ensures_get, ensures_bind]
  refine Contract.At.askSame h (.execv _ _) (List.forall_mem_nil _) (fun _ => rfl)
    fun failed d1 h1 _ => ?_
  by_cases hruns : 0 ≤ failed.value
  · rw [if_pos hruns]
    exact ⟨_, h1, fun _ => rfl⟩
  · rw [if_neg hruns]
    exact fatal_left h1

/-! ## The boot -/

theorem main_left (build : Build) (machine : Machine) (depth rounds : Nat)
    (qsort : Qsort direntAlphasort) (given : Given) (h : Holds d Descriptors.start) :
    Ensures (main build machine depth rounds qsort given) d (fun _ _ => False) Left := by
  unfold main
  refine (logs_descriptors.info h).bind ?_
  rintro _ d1 ⟨h1, -⟩
  rw [ensures_bind]
  refine Contract.At.askSame h1 .getpid (List.forall_mem_nil _) (fun _ => rfl) fun pid d2 h2 _ => ?_
  by_cases hpid : pid.value ≠ 1
  · rw [if_pos hpid]
    exact fatal_left h2
  rw [if_neg hpid]
  refine (setupInitramfs_holds h2).bind ?_
  rintro _ d3 ⟨h3, -⟩
  rw [ensures_bind]
  refine scripted_ensures h3 (fun _ s1 _ h4 => ?_) fun stopped s1 h4 =>
    Holds.left h4 (by intro heq; cases heq)
  rw [ensures_bind]
  refine scripted_ensures h4 (fun rootfsSpec s2 _ h5 => ?_) fun stopped s2 h5 =>
    Holds.left h5 (by intro heq; cases heq)
  rw [ensures_bind]
  refine Contract.At.askSame h5 (.resolveBlockDeviceSpec _) (List.forall_mem_nil _) (fun _ => rfl)
    fun resolved d6 h6 _ => ?_
  by_cases hfails : resolved.value < 0
  · rw [if_pos hfails]
    exact fatal_left h6
  rw [if_neg hfails, ensures_bind]
  refine scripted_ensures h6 (fun rootfs s3 _ h7 => ?_) fun stopped s3 h7 =>
    Holds.left h7 (by intro heq; cases heq)
  refine (mountRootfs_holds h7).bind fun _ d8 h8 => ?_
  refine (createRootdiskSymlinks_holds h8).bind fun _ d9 h9 => ?_
  exact (switchRoot_holds h9).bind fun _ d10 h10 => execInit_left h10

/-- When the kernel gives out descriptors that are not open, a boot uses no descriptor that is not
open and closes none twice, however it ends. When `init` is started, those that are still open are the
ones that `fdopendir` has refused. -/
theorem main_closes_descriptors (build : Build) (machine : Machine) (depth rounds : Nat)
    (qsort : Qsort direntAlphasort) (given : Given) (s : State)
    {outside : List (Call × Answer) → Call → Answer}
    (hhonest : descriptors.Honest Descriptors.start outside) :
    Ensures (main build machine depth rounds qsort given) ⟨outside, [], s⟩ (fun _ _ => False)
      (fun halt d => ∃ t : Descriptors, descriptors.Kept Descriptors.start d.log t ∧
        (halt = .started → t.opened = t.refused)) := by
  have hstart : Holds ⟨outside, [], s⟩ Descriptors.start := ⟨.nil, hhonest⟩
  refine (main_left build machine depth rounds qsort given hstart).mono (fun _ _ h => h) ?_
  rintro halt d ⟨t, h, hopened⟩
  exact ⟨t, h.kept, hopened⟩

theorem mem_after {fd : Int} {call : Call} {answer : Answer}
    (h : fd ∈ (t.after call answer).opened) : fd ∈ t.opened ∨ fd = answer.value := by
  have hopens : fd ∈ (if 0 ≤ answer.value then { t with opened := answer.value :: t.opened }
      else t).opened → fd ∈ t.opened ∨ fd = answer.value := by
    intro hfd
    by_cases hok : 0 ≤ answer.value
    · rw [if_pos hok] at hfd
      exact (List.mem_cons.mp hfd).symm
    · rw [if_neg hok] at hfd
      exact Or.inl hfd
  cases call with
  | openFile path flags => exact hopens h
  | openat dirfd path flags => exact hopens h
  | close closed => exact Or.inl (List.mem_of_mem_erase h)
  | closedir closed => exact Or.inl (List.mem_of_mem_erase h)
  | fdopendir dirfd =>
    change fd ∈ (if answer.value < 0 then { t with refused := dirfd :: t.refused } else t).opened at h
    split_ifs at h
    · exact Or.inl h
    · exact Or.inl h
  | _ => exact Or.inl h

/-- Every descriptor that is open has been the answer to a call. -/
theorem answered_of_kept {log : List (Call × Answer)} {t : descriptors.State}
    (h : descriptors.Kept Descriptors.start log t) :
    ∀ fd ∈ (show Descriptors from t).opened, fd ∈ log.map fun c => c.2.value := by
  induction h with
  | nil => exact List.forall_mem_nil _
  | call _ _ _ ih =>
    intro fd hfd
    rw [List.map_append, List.mem_append]
    rcases mem_after hfd with hfd | rfl
    · exact Or.inl (ih fd hfd)
    · exact Or.inr List.mem_cons_self

/-- More than the standard error and all that has been answered. -/
def freshDescriptor (log : List (Call × Answer)) : Nat :=
  log.foldr (fun c fd => max (c.2.value.toNat + 1) fd) 3

theorem three_le_freshDescriptor (log : List (Call × Answer)) : 3 ≤ freshDescriptor log := by
  induction log with
  | nil => exact Nat.le_refl _
  | cons c rest ih => exact ih.trans (Nat.le_max_right _ _)

theorem lt_freshDescriptor {log : List (Call × Answer)} {fd : Int}
    (h : fd ∈ log.map fun c => c.2.value) : fd < freshDescriptor log := by
  induction log with
  | nil => exact absurd h List.not_mem_nil
  | cons c rest ih =>
    rw [freshDescriptor, List.foldr_cons, Nat.cast_max]
    rcases List.mem_cons.mp h with hfd | h
    · have hfd : fd = c.2.value := hfd
      exact lt_max_of_lt_left (by omega)
    · exact lt_max_of_lt_right (ih h)

/-- A kernel that never gives out a descriptor again, and that has no entries in its directories. -/
def freshKernel (log : List (Call × Answer)) : Call → Answer
  | .openFile _ _ | .openat _ _ _ => ⟨freshDescriptor log, [], 0, none, .ofString ""⟩
  | .getpid => ⟨1, [], 0, none, .ofString ""⟩
  | .resolveBlockDeviceSpec spec => ⟨0, [], 0, none, spec⟩
  | _ => ⟨0, [], 0, none, .ofString ""⟩

theorem freshKernel_honest : descriptors.Honest Descriptors.start freshKernel := by
  intro log t hkept call _
  have hfresh : (freshDescriptor log : Int) ≠ 2 ∧
      (freshDescriptor log : Int) ∉ (show Descriptors from t).opened := by
    refine ⟨?_, fun hin => ?_⟩
    · have hle := three_le_freshDescriptor log
      omega
    · exact (lt_freshDescriptor (answered_of_kept hkept _ hin)).ne rfl
  cases call with
  | openFile path flags => exact hfresh
  | openat dirfd path flags => exact hfresh
  | _ => trivial

/-- `init` has been started. -/
def isStarted : EStateM.Result Halt (Dialog Call Answer State) Unit → Bool
  | .error .started _ => true
  | _ => false

theorem started_of_isStarted {r : EStateM.Result Halt (Dialog Call Answer State) Unit}
    (h : isStarted r = true) : ∃ d, r = .error .started d := by
  unfold isStarted at h
  split at h
  · exact ⟨_, rfl⟩
  · cases h

/-- A boot without a configuration, which comes to its end. -/
def freshBoot (argv : List CString) : EStateM.Result Halt (Dialog Call Answer State) Unit :=
  main ⟨[], 4, 0, 0⟩ plainMachine 5 2 sortDirents ⟨none, [], oneDiskTree⟩
    ⟨freshKernel, [], State.boot argv plainWorld⟩

theorem isStarted_freshBoot : isStarted (freshBoot [.ofString "init"]) = true := by decide +kernel

theorem main_closes_descriptors_fresh : ∃ (d : Dialog Call Answer State) (t : Descriptors),
    freshBoot [.ofString "init"] = .error .started d ∧
      descriptors.Kept Descriptors.start d.log t ∧ t.opened = t.refused := by
  obtain ⟨d, hrun⟩ := started_of_isStarted isStarted_freshBoot
  obtain ⟨s, hs⟩ : ∃ s, s = State.boot [.ofString "init"] plainWorld := ⟨_, rfl⟩
  have hcloses := main_closes_descriptors ⟨[], 4, 0, 0⟩ plainMachine 5 2 sortDirents
    ⟨none, [], oneDiskTree⟩ s freshKernel_honest
  rw [hs] at hcloses
  obtain ⟨t, hkept, hopened⟩ := hcloses.error hrun
  exact ⟨d, t, hrun, hkept, hopened rfl⟩

end NervesInitramfs.Boot
