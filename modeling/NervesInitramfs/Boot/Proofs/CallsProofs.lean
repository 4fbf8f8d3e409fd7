import NervesInitramfs.Boot.Plan

/-!
# Messages and failures

What the functions of `util.c` that write messages come to under a contract, and the calls that are
checked with them. This does not depend on what the contract is about: where messages may be written
at all, they leave its state as it is.
-/

namespace NervesInitramfs.Boot

open CLib

variable {k : Contract Call Answer} {start t : k.State} {d : Dialog Call Answer State}

/-- In this state of the contract messages may be written. -/
def Logs (k : Contract Call Answer) (start t : k.State) : Prop :=
  ∀ d str, k.At start d t →
    Ensures (logWrite str) d (fun _ d' => k.At start d' t ∧ d'.own = d.own) fun _ _ => False

section

variable {stop : Halt → Dialog Call Answer State → Prop}

theorem Logs.logWrite (hlogs : Logs k start t) (h : k.At start d t) {str : List UInt8} :
    Ensures (logWrite str) d (fun _ d' => k.At start d' t ∧ d'.own = d.own) stop :=
  (hlogs d str h).mono (fun _ _ hd => hd) fun _ _ hd => hd.elim

theorem Logs.info (hlogs : Logs k start t) (h : k.At start d t) {message : List UInt8} :
    Ensures (info message) d (fun _ d' => k.At start d' t ∧ d'.own = d.own) stop := hlogs.logWrite h

/-- `fatal` does not return. -/
theorem Logs.fatal {α : Type} {post : α → Dialog Call Answer State → Prop}
    (hlogs : Logs k start t) (h : k.At start d t) {message : List UInt8}
    (hstop : ∀ d', k.At start d' t → d'.own = d.own → stop .exited d') :
    Ensures (fatal message) d post stop := by
  unfold Boot.fatal
  refine (hlogs.logWrite h).bind ?_
  rintro _ d1 ⟨h1, hown1⟩
  refine (hlogs.info h1).bind ?_
  rintro _ d2 ⟨h2, hown2⟩
  refine (hlogs.logWrite h2).bind ?_
  rintro _ d3 ⟨h3, hown3⟩
  exact hstop d3 h3 (hown3.trans (hown2.trans hown1))

/-- Whether the call fails decides how it goes on. -/
theorem okOrFatal_ensures {post : Unit → Dialog Call Answer State → Prop} (h : k.At start d t)
    (call : Call) (hmay : k.may t call) {message : List UInt8}
    (hlogs : ∀ answer, answer.value < 0 → k.expected t call answer →
      Logs k start (k.next t call answer))
    (hpost : ∀ answer d', ¬ answer.value < 0 → k.expected t call answer →
      k.At start d' (k.next t call answer) → d'.own = d.own → post () d')
    (hstop : ∀ answer d', answer.value < 0 → k.expected t call answer →
      k.At start d' (k.next t call answer) → d'.own = d.own → stop .exited d') :
    Ensures (okOrFatal call message) d post stop := by
  unfold okOrFatal
  rw [ensures_bind]
  refine h.ask call hmay fun answer d1 h1 hexpected hown1 => ?_
  by_cases hfails : answer.value < 0
  · rw [if_pos hfails]
    refine (hlogs answer hfails hexpected).fatal h1 fun d2 h2 hown2 => ?_
    exact hstop answer d2 hfails hexpected h2 (hown2.trans hown1)
  · rw [if_neg hfails]
    exact hpost answer d1 hfails hexpected h1 hown1

/-- Whatever is answered leads to the same state. -/
theorem ignore_ensures (h : k.At start d t) (call : Call) (hmay : k.may t call) {t' : k.State}
    (hnext : ∀ answer, k.next t call answer = t') :
    Ensures (ignore call) d (fun _ d' => k.At start d' t' ∧ d'.own = d.own) stop := by
  unfold ignore
  rw [ensures_bind]
  refine h.ask call hmay fun answer d1 h1 _ hown1 => ?_
  rw [hnext] at h1
  exact ⟨h1, hown1⟩

/-- A failure is only a message. -/
theorem okOrWarn_ensures (hlogs : Logs k start t) (h : k.At start d t) (call : Call)
    (hmay : k.may t call) (hsame : ∀ answer, k.next t call answer = t) {message : List UInt8} :
    Ensures (okOrWarn call message) d (fun _ d' => k.At start d' t ∧ d'.own = d.own) stop := by
  unfold okOrWarn
  rw [ensures_bind]
  refine h.askSame call hmay hsame fun answer d1 h1 hown1 => ?_
  by_cases hfails : answer.value < 0
  · rw [if_pos hfails]
    exact (hlogs.info h1).imp fun _ d2 h2 => ⟨h2.1, h2.2.trans hown1⟩
  · rw [if_neg hfails]
    exact ⟨h1, hown1⟩

/-- The call may be made and leaves the state of the contract as it is. -/
def Passes (k : Contract Call Answer) (t : k.State) (call : Call) : Prop :=
  k.may t call ∧ ∀ answer, k.next t call answer = t

theorem Passes.ignore {call : Call} (hpass : Passes k t call) (h : k.At start d t) :
    Ensures (ignore call) d (fun _ d' => k.At start d' t ∧ d'.own = d.own) stop :=
  ignore_ensures h call hpass.1 hpass.2

theorem Passes.okOrWarn {call : Call} (hpass : Passes k t call) (hlogs : Logs k start t)
    (h : k.At start d t) {message : List UInt8} :
    Ensures (okOrWarn call message) d (fun _ d' => k.At start d' t ∧ d'.own = d.own) stop :=
  okOrWarn_ensures hlogs h call hpass.1 hpass.2

/-! ## Functions whose calls all pass -/

theorem setupInitramfs_passes (hlogs : Logs k start t)
    (hmkdir : ∀ path mode, Passes k t (.mkdir path mode))
    (hmount : ∀ source target filesystemtype mountflags data, target ≠ .ofString "/mnt" →
      mountflags ≠ MS_MOVE → Passes k t (.mount source target filesystemtype mountflags data))
    (h : k.At start d t) :
    Ensures setupInitramfs d (fun _ d' => k.At start d' t ∧ d'.own = d.own) stop := by
  unfold setupInitramfs
  refine ((hmkdir _ _).ignore h).bind ?_
  rintro _ d1 ⟨h1, hown1⟩
  refine ((hmkdir _ _).ignore h1).bind ?_
  rintro _ d2 ⟨h2, hown2⟩
  refine ((hmkdir _ _).ignore h2).bind ?_
  rintro _ d3 ⟨h3, hown3⟩
  refine ((hmkdir _ _).ignore h3).bind ?_
  rintro _ d4 ⟨h4, hown4⟩
  refine ((hmount _ _ _ _ _ (by decide) (by decide)).okOrWarn hlogs h4).bind ?_
  rintro _ d5 ⟨h5, hown5⟩
  refine ((hmount _ _ _ _ _ (by decide) (by decide)).okOrWarn hlogs h5).bind ?_
  rintro _ d6 ⟨h6, hown6⟩
  refine ((hmount _ _ _ _ _ (by decide) (by decide)).okOrWarn hlogs h6).imp ?_
  rintro _ d7 ⟨h7, hown7⟩
  exact ⟨h7, hown7.trans (hown6.trans (hown5.trans (hown4.trans (hown3.trans (hown2.trans hown1)))))⟩

theorem createLinks_passes (hlogs : Logs k start t)
    (hsymlink : ∀ target path, Passes k t (.symlink target path)) (links : List LinkRequest)
    (h : k.At start d t) :
    Ensures (createLinks links) d (fun _ d' => k.At start d' t ∧ d'.own = d.own) stop := by
  induction links generalizing d with
  | nil => exact ⟨h, rfl⟩
  | cons link rest ih =>
    unfold createLinks
    rw [ensures_bind]
    refine h.askSame (.symlink _ _) (hsymlink _ _).1 (hsymlink _ _).2 fun made d1 h1 hown1 => ?_
    rw [ensures_bind]
    have hmessage : Ensures (if made.value < 0 then
        info (text "Could not create symlink '" ++ link.symlinkpath ++ text "'->'" ++ link.devpath ++
          text "': " ++ made.strerror)
        else pure ()) d1 (fun _ d2 => k.At start d2 t ∧ d2.own = d1.own) stop := by
      by_cases hfails : made.value < 0
      · rw [if_pos hfails]
        exact hlogs.info h1
      · rw [if_neg hfails]
        exact ⟨h1, rfl⟩
    refine hmessage.imp ?_
    rintro _ d2 ⟨h2, hown2⟩
    refine (ih h2).imp ?_
    rintro _ d3 ⟨h3, hown3⟩
    exact ⟨h3, hown3.trans (hown2.trans hown1)⟩

theorem createRootdiskSymlinks_passes (hlogs : Logs k start t)
    (hstat : ∀ path, Passes k t (.stat path))
    (hsymlink : ∀ target path, Passes k t (.symlink target path)) (h : k.At start d t)
    {qsort : Qsort direntAlphasort} {tree : SysTree} {path : CString} :
    Ensures (createRootdiskSymlinks qsort tree path) d
      (fun _ d' => k.At start d' t ∧ d'.own = d.own) stop := by
  -- Each message is written or left out.
  have hmessage : ∀ {d1 : Dialog Call Answer State} (write : Prop) [Decidable write] message,
      k.At start d1 t → Ensures (if write then info message else pure ()) d1
        (fun _ d2 => k.At start d2 t ∧ d2.own = d1.own) stop := by
    intro d1 write _ message h1
    by_cases hwrite : write
    · rw [if_pos hwrite]
      exact hlogs.info h1
    · rw [if_neg hwrite]
      exact ⟨h1, rfl⟩
  unfold createRootdiskSymlinks
  refine (hmessage _ _ h).bind ?_
  rintro _ d1 ⟨h1, hown1⟩
  rw [ensures_bind]
  refine h1.askSame (.stat _) (hstat _).1 (hstat _).2 fun st d2 h2 hown2 => ?_
  refine (hmessage _ _ h2).bind ?_
  rintro _ d3 ⟨h3, hown3⟩
  have hown : d3.own = d.own := hown3.trans (hown2.trans hown1)
  have hlinks : ∀ dev links,
      Ensures (if dev ≠ (0 : UInt64) ∧ links = [] then
        info (text "Root disk is supposed to be " ++ path.bytes ++
          text ", but it wasn't found or wasn't a partition.")
        else createLinks links) d3 (fun _ d' => k.At start d' t ∧ d'.own = d3.own) stop := by
    intro dev links
    by_cases hnone : dev ≠ 0 ∧ links = []
    · rw [if_pos hnone]
      exact hlogs.info h3
    · rw [if_neg hnone]
      exact createLinks_passes hlogs hsymlink links h3
  refine (hlinks _ _).imp ?_
  rintro _ d4 ⟨h4, hown4⟩
  exact ⟨h4, hown4.trans hown⟩

end

/-- A step of the interpreter is not a call. -/
theorem scripted_ensures {α : Type} {m : Interp α} {post : α → Dialog Call Answer State → Prop}
    {stop : Halt → Dialog Call Answer State → Prop} (h : k.At start d t)
    (hpost : ∀ a s, m d.own = .ok a s → k.At start { d with own := s } t →
      post a { d with own := s })
    (hstop : ∀ halt s, k.At start { d with own := s } t →
      stop (.scripted halt) { d with own := s }) :
    Ensures (scripted m) d post stop := by
  unfold Ensures scripted
  rcases hm : m d.own with ⟨a, s⟩ | ⟨halt, s⟩
  · exact hpost a s hm (h.own s)
  · exact hstop halt s (h.own s)

end NervesInitramfs.Boot
