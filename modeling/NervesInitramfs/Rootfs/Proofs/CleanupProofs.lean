import NervesInitramfs.CLib.Proofs.CStringProofs
import NervesInitramfs.Rootfs.Cleanup

/-!
# Proofs: what the cleanup removes and what it leaves

Below the top level no name is skipped, and at the top level those that must stay are. The test for
a directory also lets block devices and sockets through.
-/

namespace NervesInitramfs

open CLib

/-! ## The skip lists and the directory test -/

theorem inSkipList_iff {what : CString} {skipList : List CString} :
    inSkipList what skipList = true ↔ what ∈ skipList := by
  induction skipList with
  | nil => simp [inSkipList]
  | cons s rest ih =>
    unfold inSkipList
    by_cases h : s = what
    · simp [h]
    · have hne : ¬ what = s := fun h' => h h'.symm
      simp [strcmp_eq_zero, h, hne, ih]

/-- Below the top level every entry is dealt with. -/
theorem not_skipped (name : FileName) : inSkipList name.text nonrootSkipList = false := by
  obtain ⟨-, -, hdot, hdots⟩ := name.valid
  rw [Bool.eq_false_iff, Ne, inSkipList_iff]
  intro h
  rcases List.mem_cons.mp h with h | h
  · exact hdot h
  · exact hdots (List.mem_singleton.mp h)

/-- At the top level the names that must stay are skipped, and no others. -/
theorem skipped_iff (name : FileName) :
    inSkipList name.text rootSkipList = true ↔ name ∈ keptNames := by
  obtain ⟨text, valid⟩ := name
  obtain ⟨-, -, hdot, hdots⟩ := valid
  rw [inSkipList_iff]
  simp [rootSkipList, keptNames, FileName.ofString, hdot, hdots]

/-- The entries that `cleanup_dir` takes for directories although they are not. -/
def FileEntry.Stuck (e : FileEntry) : Prop := e = .file .block ∨ e = .file .socket

theorem dType_directory (e : FileEntry) :
    e.dType &&& dtDir ≠ 0 ↔ e.isDirectory = true ∨ e.Stuck := by
  rcases e with ⟨_ | _ | _ | _ | _ | _⟩ | contents
  all_goals simp [FileEntry.dType, dtDir, FileEntry.isDirectory, FileEntry.Stuck]

/-! ## One turn of the loop -/

section

variable {fs : FileSystem} {dir : List FileName} {skipList : List CString} {name : FileName}
  {e : FileEntry} {rest : Directory}

theorem cleanupLoop_skipped (h : inSkipList name.text skipList = true) :
    cleanupLoop fs dir skipList (.entry name e rest) =
      (.entry name e (cleanupLoop fs dir skipList rest).1, (cleanupLoop fs dir skipList rest).2) := by
  rw [cleanupLoop]
  exact if_pos h

theorem cleanupLoop_directory (h : inSkipList name.text skipList = false)
    (hdir : e.dType &&& dtDir ≠ 0) :
    cleanupLoop fs dir skipList (.entry name e rest) =
      (if fs.removes (dir ++ [name]) true (cleanupEntry fs (dir ++ [name]) e).1 then
          (cleanupLoop fs dir skipList rest).1
        else .entry name (cleanupEntry fs (dir ++ [name]) e).1 (cleanupLoop fs dir skipList rest).1,
        (cleanupEntry fs (dir ++ [name]) e).2 ++
          .unlinkat (dir ++ [name]) true :: (cleanupLoop fs dir skipList rest).2) := by
  rw [cleanupLoop]
  exact (if_neg (by simp [h])).trans (if_pos hdir)

theorem cleanupLoop_file (h : inSkipList name.text skipList = false)
    (hdir : ¬ e.dType &&& dtDir ≠ 0) :
    cleanupLoop fs dir skipList (.entry name e rest) =
      (if fs.removes (dir ++ [name]) false e then (cleanupLoop fs dir skipList rest).1
        else .entry name e (cleanupLoop fs dir skipList rest).1,
        .unlinkat (dir ++ [name]) false :: (cleanupLoop fs dir skipList rest).2) := by
  rw [cleanupLoop]
  exact (if_neg (by simp [h])).trans (if_neg hdir)

end

/-! ## Paths -/

theorem Directory.at_entry {name : FileName} {e : FileEntry} {rest : Directory}
    {path : List FileName} {e' : FileEntry} :
    Directory.At (.entry name e rest) path e' ↔ (path = [name] ∧ e' = e) ∨
      (∃ contents below, e = .directory contents ∧ path = name :: below ∧ contents.At below e') ∨
      rest.At path e' := by
  constructor
  · intro h
    cases h with
    | here => exact Or.inl ⟨rfl, rfl⟩
    | inside below => exact Or.inr (Or.inl ⟨_, _, rfl, rfl, below⟩)
    | later among => exact Or.inr (Or.inr among)
  · intro h
    rcases h with ⟨rfl, rfl⟩ | ⟨contents, below, rfl, rfl, h⟩ | h
    · exact .here
    · exact .inside h
    · exact .later h

theorem Directory.at_empty {path : List FileName} {e : FileEntry} :
    ¬ Directory.At .empty path e := by
  intro h
  cases h

theorem Directory.At.ne_nil {d : Directory} {path : List FileName} {e : FileEntry}
    (h : d.At path e) : path ≠ [] := by
  induction h with
  | here => simp
  | inside _ _ => simp
  | later _ ih => exact ih

theorem Directory.at_single {n name : FileName} {e e' : FileEntry} {rest : Directory} :
    Directory.At (.entry n e' rest) [name] e ↔ (name = n ∧ e = e') ∨ rest.At [name] e := by
  rw [Directory.at_entry]
  constructor
  · rintro (⟨hpath, he⟩ | ⟨contents, below, -, hpath, hbelow⟩ | h)
    · exact Or.inl ⟨by simpa using hpath, he⟩
    · obtain ⟨-, rfl⟩ := List.cons.inj hpath
      exact absurd rfl hbelow.ne_nil
    · exact Or.inr h
  · rintro (⟨rfl, rfl⟩ | h)
    · exact Or.inl ⟨rfl, rfl⟩
    · exact Or.inr (Or.inr h)

/-- The first component of a path is the name of an entry. -/
theorem Directory.At.top {d : Directory} {path : List FileName} {e : FileEntry} (h : d.At path e) :
    ∃ name rest e', path = name :: rest ∧ d.At [name] e' := by
  induction h with
  | here => exact ⟨_, _, _, rfl, .here⟩
  | inside _ _ => exact ⟨_, _, _, rfl, .here⟩
  | later _ ih =>
    obtain ⟨name, rest, e', hpath, hat⟩ := ih
    exact ⟨name, rest, e', hpath, .later hat⟩

/-! ## The calls -/

def FileCall.path : FileCall → List FileName
  | .openat path | .unlinkat path _ => path

/-- A call is about an entry below `dir` whose first name is not skipped, and opens no link. -/
def Concerns (dir : List FileName) (skipList : List CString) (contents : Directory)
    (call : FileCall) : Prop :=
  ∃ name rest e, call.path = dir ++ name :: rest ∧ contents.At (name :: rest) e ∧
    inSkipList name.text skipList = false ∧ (call = .openat call.path → e ≠ .file .symlink)

section

variable {fs : FileSystem}

theorem Concerns.later {dir : List FileName} {skipList : List CString} {contents : Directory}
    {call : FileCall} (h : Concerns dir skipList contents call) (name : FileName) (e : FileEntry) :
    Concerns dir skipList (.entry name e contents) call := by
  obtain ⟨n, rest, e', hpath, hat, hskip, hlink⟩ := h
  exact ⟨n, rest, e', hpath, .later hat, hskip, hlink⟩

mutual

/-- The calls for an entry that is opened. -/
theorem cleanupEntry_calls (path : List FileName) (e : FileEntry) :
    ∀ call ∈ (cleanupEntry fs path e).2, call = .openat path ∨
      ∃ contents, e = .directory contents ∧ Concerns path nonrootSkipList contents call := by
  intro call hcall
  match e with
  | .file kind => exact Or.inl (List.mem_singleton.mp hcall)
  | .directory contents =>
    unfold cleanupEntry at hcall
    split at hcall
    · rcases List.mem_cons.mp hcall with rfl | hcall
      · exact Or.inl rfl
      · exact Or.inr ⟨contents, rfl, cleanupLoop_calls path nonrootSkipList contents call hcall⟩
    · exact Or.inl (List.mem_singleton.mp hcall)

theorem cleanupLoop_calls (dir : List FileName) (skipList : List CString) (contents : Directory) :
    ∀ call ∈ (cleanupLoop fs dir skipList contents).2, Concerns dir skipList contents call := by
  intro call hcall
  match contents with
  | .empty => cases hcall
  | .entry name e rest =>
    have hrest := cleanupLoop_calls dir skipList rest
    have hentry := cleanupEntry_calls (dir ++ [name]) e
    rcases Bool.eq_false_or_eq_true (inSkipList name.text skipList) with hskip | hskip
    · rw [cleanupLoop_skipped hskip] at hcall
      exact (hrest call hcall).later name e
    · by_cases hdir : e.dType &&& dtDir ≠ 0
      · rw [cleanupLoop_directory hskip hdir] at hcall
        rcases List.mem_append.mp hcall with hcall | hcall
        · rcases hentry call hcall with rfl | ⟨contents, rfl, n, q, e', hpath, hat, -, hlink⟩
          · refine ⟨name, [], e, rfl, .here, hskip, fun _ => ?_⟩
            rintro rfl
            exact hdir rfl
          · exact ⟨name, n :: q, e', by simpa using hpath, .inside hat, hskip, hlink⟩
        · rcases List.mem_cons.mp hcall with rfl | hcall
          · exact ⟨name, [], e, rfl, .here, hskip, nofun⟩
          · exact (hrest call hcall).later name e
      · rw [cleanupLoop_file hskip hdir] at hcall
        rcases List.mem_cons.mp hcall with rfl | hcall
        · exact ⟨name, [], e, rfl, .here, hskip, nofun⟩
        · exact (hrest call hcall).later name e

end

/-- The directories above an entry can be opened and listed. -/
def FileSystem.Reaches (fs : FileSystem) (path : List FileName) : Prop :=
  ∀ above, above <+: path → above ≠ path → above ≠ [] → fs.openat above && fs.fdopendir above

theorem FileSystem.Reaches.of_append {dir path : List FileName} {name : FileName}
    (h : fs.Reaches (dir ++ name :: path)) (hne : path ≠ []) :
    fs.openat (dir ++ [name]) && fs.fdopendir (dir ++ [name]) := by
  apply h
  · exact ⟨path, by simp⟩
  · simpa using hne.symm
  · simp

/-- An entry whose first name is not skipped is unlinked when it can be reached. -/
theorem cleanupLoop_unlinks {contents : Directory} {path : List FileName} {e : FileEntry}
    (h : contents.At path e) (dir : List FileName) (skipList : List CString)
    (hskip : ∀ name ∈ path.head?, inSkipList name.text skipList = false)
    (hfs : fs.Reaches (dir ++ path)) :
    ∃ removedir, .unlinkat (dir ++ path) removedir ∈ (cleanupLoop fs dir skipList contents).2 := by
  induction h generalizing dir skipList with
  | @here name e rest =>
    have hname : inSkipList name.text skipList = false := hskip name rfl
    by_cases hdir : e.dType &&& dtDir ≠ 0
    · refine ⟨true, ?_⟩
      rw [cleanupLoop_directory hname hdir]
      simp
    · refine ⟨false, ?_⟩
      rw [cleanupLoop_file hname hdir]
      simp
  | @inside name contents rest path e below ih =>
    have hname : inSkipList name.text skipList = false := hskip name rfl
    have hdir : (FileEntry.directory contents).dType &&& dtDir ≠ 0 := by simp [FileEntry.dType, dtDir]
    have hopen := hfs.of_append below.ne_nil
    have hpath : dir ++ name :: path = (dir ++ [name]) ++ path := by simp
    rw [hpath] at hfs
    obtain ⟨removedir, hmem⟩ := ih (dir ++ [name]) nonrootSkipList (fun n _ => not_skipped n) hfs
    refine ⟨removedir, ?_⟩
    rw [cleanupLoop_directory hname hdir, cleanupEntry, if_pos hopen, hpath]
    exact List.mem_append_left _ (List.mem_cons_of_mem _ hmem)
  | @later name e' rest path e among ih =>
    obtain ⟨removedir, hmem⟩ := ih dir skipList hskip hfs
    refine ⟨removedir, ?_⟩
    rcases Bool.eq_false_or_eq_true (inSkipList name.text skipList) with hname | hname
    · rw [cleanupLoop_skipped hname]
      exact hmem
    · by_cases hdir : e'.dType &&& dtDir ≠ 0
      · rw [cleanupLoop_directory hname hdir]
        exact List.mem_append_right _ (List.mem_cons_of_mem _ hmem)
      · rw [cleanupLoop_file hname hdir]
        exact List.mem_cons_of_mem _ hmem

/-! ## What stays -/

/-- What is below a skipped name stays. -/
theorem cleanupLoop_spares {contents : Directory} {path : List FileName} {e : FileEntry}
    (h : contents.At path e) (dir : List FileName) (skipList : List CString)
    (hskip : ∀ name ∈ path.head?, inSkipList name.text skipList = true) :
    (cleanupLoop fs dir skipList contents).1.At path e := by
  induction h generalizing dir skipList with
  | @here name e rest =>
    rw [cleanupLoop_skipped (hskip name rfl)]
    exact .here
  | @inside name contents rest path e below _ =>
    rw [cleanupLoop_skipped (hskip name rfl)]
    exact .inside below
  | @later name e' rest path e among ih =>
    have hrest := ih dir skipList hskip
    rcases Bool.eq_false_or_eq_true (inSkipList name.text skipList) with hname | hname
    · rw [cleanupLoop_skipped hname]
      exact .later hrest
    · by_cases hdir : e'.dType &&& dtDir ≠ 0
      · rw [cleanupLoop_directory hname hdir]
        split
        · exact hrest
        · exact .later hrest
      · rw [cleanupLoop_file hname hdir]
        split
        · exact hrest
        · exact .later hrest

/-- `rmdir` takes out an empty directory of that name and nothing else. -/
theorem rmdir_spares (fs : FileSystem) (n : FileName) {d : Directory} {path : List FileName}
    {e : FileEntry} (h : d.At path e) : (rmdir fs n d).At path e ∨ (path = [n] ∧ e = .directory .empty) := by
  induction h with
  | @here name e rest =>
    rw [rmdir]
    split
    · rename_i hgone
      obtain ⟨rfl, hremoves⟩ := hgone
      refine Or.inr ⟨rfl, ?_⟩
      unfold FileSystem.removes FileEntry.isEmptyDirectory at hremoves
      rcases e with kind | ⟨_ | _⟩
      · simp at hremoves
      · rfl
      · simp at hremoves
    · exact Or.inl .here
  | @inside name contents rest path e below _ =>
    rw [rmdir]
    split
    · rename_i hgone
      obtain ⟨-, hremoves⟩ := hgone
      cases contents with
      | empty => exact absurd below Directory.at_empty
      | entry _ _ _ => simp [FileSystem.removes, FileEntry.isEmptyDirectory] at hremoves
    · exact Or.inl (.inside below)
  | @later name e' rest path e among ih =>
    rw [rmdir]
    split
    · exact ih
    · exact ih.imp .later id

theorem cleanupOldRootfs_calls {root : Directory} {call : FileCall}
    (h : call ∈ (cleanupOldRootfs fs root).2) : Concerns [] rootSkipList root call := by
  rw [cleanupOldRootfs, apply_ite Prod.snd] at h
  split at h
  · rw [cleanupRoot, apply_ite Prod.snd] at h
    split at h
    · exact cleanupLoop_calls [] rootSkipList root call h
    · cases h
  · cases h

/-- Every entry that is unlinked, and every one that is opened, has a top component other than the
names that must stay, and no link is opened. All that is in `/dev` and `/mnt` stays, and `/proc` and
`/sys` go only when they are empty. Deeper down no name is protected. -/
theorem cleanup_spares (fs : FileSystem) (root : Directory) :
    (∀ path removedir, .unlinkat path removedir ∈ (cleanupOldRootfs fs root).2 →
      ∃ top rest e, path = top :: rest ∧ top ∉ keptNames ∧ root.At path e) ∧
    (∀ path, .openat path ∈ (cleanupOldRootfs fs root).2 →
      ∃ top rest e, path = top :: rest ∧ top ∉ keptNames ∧ root.At path e ∧ e ≠ .file .symlink) ∧
    (∀ top ∈ keptNames, ∀ rest e, root.At (top :: rest) e →
      (cleanupOldRootfs fs root).1.At (top :: rest) e ∨
        ((top = .ofString "proc" ∨ top = .ofString "sys") ∧ rest = [] ∧ e = .directory .empty)) ∧
    (∀ top ∉ keptNames, ∀ below, ∀ name ∈ keptNames, ∀ e, root.At (top :: below ++ [name]) e →
      fs.openRoot ∧ fs.fdopendir [] → fs.Reaches (top :: below ++ [name]) →
      ∃ removedir, .unlinkat (top :: below ++ [name]) removedir ∈ (cleanupOldRootfs fs root).2) := by
  have hcalls : ∀ call ∈ (cleanupOldRootfs fs root).2, Concerns [] rootSkipList root call :=
    fun call hcall => cleanupOldRootfs_calls hcall
  refine ⟨fun path removedir hmem => ?_, fun path hmem => ?_, fun top htop rest e hat => ?_,
    fun top htop below name _ e hat hroot hfs => ?_⟩
  · obtain ⟨top, rest, e, hpath, hat, hskip, -⟩ := hcalls _ hmem
    obtain rfl : path = top :: rest := hpath
    refine ⟨top, rest, e, rfl, fun hkept => ?_, hat⟩
    rw [(skipped_iff top).mpr hkept] at hskip
    cases hskip
  · obtain ⟨top, rest, e, hpath, hat, hskip, hlink⟩ := hcalls _ hmem
    obtain rfl : path = top :: rest := hpath
    refine ⟨top, rest, e, rfl, fun hkept => ?_, hat, hlink rfl⟩
    rw [(skipped_iff top).mpr hkept] at hskip
    cases hskip
  · have hloop : (cleanupRoot fs root).1.At (top :: rest) e := by
      unfold cleanupRoot
      split
      · refine cleanupLoop_spares hat [] rootSkipList (fun n hn => ?_)
        obtain rfl : top = n := by simpa using hn
        exact (skipped_iff top).mpr htop
      · exact hat
    unfold cleanupOldRootfs
    split
    · rcases rmdir_spares fs (.ofString "sys") hloop with h | ⟨hpath, rfl⟩
      · rcases rmdir_spares fs (.ofString "proc") h with h | ⟨hpath, rfl⟩
        · exact Or.inl h
        · obtain ⟨rfl, rfl⟩ := List.cons.inj hpath
          exact Or.inr ⟨Or.inl rfl, rfl, rfl⟩
      · obtain ⟨rfl, rfl⟩ := List.cons.inj hpath
        exact Or.inr ⟨Or.inr rfl, rfl, rfl⟩
    · exact Or.inl hat
  · have hskip : ∀ n ∈ (top :: below ++ [name]).head?, inSkipList n.text rootSkipList = false := by
      intro n hn
      obtain rfl : top = n := by simpa using hn
      rw [Bool.eq_false_iff, Ne, skipped_iff]
      exact htop
    obtain ⟨removedir, hmem⟩ := cleanupLoop_unlinks hat [] rootSkipList hskip hfs
    refine ⟨removedir, ?_⟩
    unfold cleanupOldRootfs cleanupRoot
    rw [if_pos hroot.1, if_pos hroot.2]
    exact hmem

end

/-! ## What goes -/

/-- All entries at the top of a directory have skipped names. -/
def OnlySkipped (skipList : List CString) (d : Directory) : Prop :=
  ∀ name e, d.At [name] e → inSkipList name.text skipList = true

/-- No entry is mistaken for a directory below names that are not skipped. -/
def Clear (skipList : List CString) (d : Directory) : Prop :=
  ∀ name rest e, d.At (name :: rest) e → inSkipList name.text skipList = false → ¬ e.Stuck

section

variable {skipList : List CString} {name : FileName} {e : FileEntry} {rest : Directory}

theorem onlySkipped_entry : OnlySkipped skipList (.entry name e rest) ↔
    inSkipList name.text skipList = true ∧ OnlySkipped skipList rest := by
  constructor
  · intro h
    exact ⟨h name e .here, fun n e' hat => h n e' (.later hat)⟩
  · rintro ⟨hname, hrest⟩ n e' hat
    rcases Directory.at_entry.mp hat with ⟨hpath, -⟩ | ⟨contents, below, -, hpath, hbelow⟩ | hat
    · obtain rfl : n = name := by simpa using hpath
      exact hname
    · obtain rfl : n = name := (List.cons.inj hpath).1
      exact hname
    · exact hrest n e' hat

theorem onlySkipped_nonroot {d : Directory} : OnlySkipped nonrootSkipList d ↔ d = .empty := by
  constructor
  · intro h
    cases d with
    | empty => rfl
    | entry name e rest =>
      have hname := (onlySkipped_entry.mp h).1
      rw [not_skipped name] at hname
      cases hname
  · rintro rfl name e hat
    exact absurd hat Directory.at_empty

theorem clear_entry : Clear skipList (.entry name e rest) ↔
    (inSkipList name.text skipList = false → ¬ e.Stuck ∧
      ∀ contents, e = .directory contents → Clear nonrootSkipList contents) ∧
    Clear skipList rest := by
  constructor
  · intro h
    refine ⟨fun hname => ⟨h name [] e .here hname, ?_⟩, fun n p e' hat => h n p e' (.later hat)⟩
    rintro contents rfl n p e' hat -
    exact h name (n :: p) e' (.inside hat) hname
  · rintro ⟨hentry, hrest⟩ n p e' hat hn
    rcases Directory.at_entry.mp hat with ⟨hpath, rfl⟩ | ⟨contents, below, rfl, hpath, hbelow⟩ | hat
    · obtain ⟨rfl, -⟩ := List.cons.inj hpath
      exact (hentry hn).1
    · obtain ⟨rfl, rfl⟩ := List.cons.inj hpath
      obtain ⟨m, q, -, rfl, -⟩ := hbelow.top
      exact (hentry hn).2 contents rfl m q e' hbelow (not_skipped m)
    · exact hrest n p e' hat hn

end

theorem willing_removes_directory {path : List FileName} {e : FileEntry} :
    FileSystem.willing.removes path true e = true ↔ e = .directory .empty := by
  unfold FileSystem.removes FileEntry.isEmptyDirectory
  rcases e with kind | ⟨_ | _⟩
  all_goals simp [FileSystem.willing]

mutual

/-- An entry that is taken for a directory goes when it is one and nothing in it stays. -/
theorem cleanupEntry_clears (path : List FileName) (e : FileEntry) :
    (cleanupEntry .willing path e).1 = .directory .empty ↔
      ∃ contents, e = .directory contents ∧ Clear nonrootSkipList contents := by
  match e with
  | .file kind => simp [cleanupEntry]
  | .directory contents =>
    have hopen : (FileSystem.willing.openat path && FileSystem.willing.fdopendir path) = true := rfl
    have hloop := cleanupLoop_clears path nonrootSkipList contents
    rw [onlySkipped_nonroot] at hloop
    rw [cleanupEntry, if_pos hopen]
    simp [hloop]

theorem cleanupLoop_clears (dir : List FileName) (skipList : List CString) (d : Directory) :
    OnlySkipped skipList (cleanupLoop .willing dir skipList d).1 ↔ Clear skipList d := by
  match d with
  | .empty =>
    rw [cleanupLoop]
    exact ⟨fun _ name rest e hat => absurd hat Directory.at_empty,
      fun _ name e hat => absurd hat Directory.at_empty⟩
  | .entry name e rest =>
    have hrest := cleanupLoop_clears dir skipList rest
    have hentry := cleanupEntry_clears (dir ++ [name]) e
    rw [clear_entry]
    rcases Bool.eq_false_or_eq_true (inSkipList name.text skipList) with hname | hname
    · rw [cleanupLoop_skipped hname, onlySkipped_entry, hrest]
      simp [hname]
    · by_cases hdir : e.dType &&& dtDir ≠ 0
      · rw [cleanupLoop_directory hname hdir]
        by_cases hgone : FileSystem.willing.removes (dir ++ [name]) true
            (cleanupEntry .willing (dir ++ [name]) e).1 = true
        · obtain ⟨contents, rfl, hclear⟩ := hentry.mp (willing_removes_directory.mp hgone)
          rw [if_pos hgone, hrest]
          refine ⟨fun h => ⟨fun _ => ⟨?_, ?_⟩, h⟩, And.right⟩
          · simp [FileEntry.Stuck]
          · rintro _ ⟨⟩
            exact hclear
        · rw [if_neg hgone, onlySkipped_entry, hname]
          refine ⟨fun h => absurd h.1 (by simp), fun ⟨h, _⟩ => absurd ?_ hgone⟩
          obtain ⟨hstuck, hclear⟩ := h rfl
          rw [willing_removes_directory, hentry]
          rcases (dType_directory e).mp hdir with hdir | hdir
          · cases e with
            | file kind => cases hdir
            | directory contents => exact ⟨contents, rfl, hclear contents rfl⟩
          · exact absurd hdir hstuck
      · have hnot : ¬ e.isDirectory = true ∧ ¬ e.Stuck := not_or.mp (mt (dType_directory e).mpr hdir)
        have hgone : FileSystem.willing.removes (dir ++ [name]) false e = true := by
          simpa [FileSystem.removes, FileSystem.willing] using hnot.1
        rw [cleanupLoop_file hname hdir, if_pos hgone, hrest]
        refine ⟨fun h => ⟨fun _ => ⟨hnot.2, ?_⟩, h⟩, And.right⟩
        rintro contents rfl
        exact absurd rfl hnot.1

end

/-- The only entries with a name that are left after `rmdir` could not be removed. -/
theorem rmdir_at {fs : FileSystem} {n name : FileName} {d : Directory} {e : FileEntry} :
    (rmdir fs n d).At [name] e ↔
      d.At [name] e ∧ ¬ (name = n ∧ fs.removes [n] true e = true) := by
  match d with
  | .empty =>
    rw [rmdir]
    exact ⟨fun h => absurd h Directory.at_empty, fun h => absurd h.1 Directory.at_empty⟩
  | .entry m e' rest =>
    have hrest : (rmdir fs n rest).At [name] e ↔
        rest.At [name] e ∧ ¬ (name = n ∧ fs.removes [n] true e = true) := rmdir_at
    rw [rmdir, Directory.at_single]
    split
    · rename_i hgone
      rw [hrest]
      refine ⟨fun h => ⟨Or.inr h.1, h.2⟩, ?_⟩
      rintro ⟨⟨rfl, rfl⟩ | h, hstays⟩
      · exact absurd hgone hstays
      · exact ⟨h, hstays⟩
    · rename_i hstays
      rw [Directory.at_single, hrest]
      constructor
      · rintro (⟨rfl, rfl⟩ | h)
        · exact ⟨Or.inl ⟨rfl, rfl⟩, hstays⟩
        · exact ⟨Or.inr h.1, h.2⟩
      · rintro ⟨h | h, hne⟩
        · exact Or.inl h
        · exact Or.inr ⟨h, hne⟩

/-- All is gone but what must stay exactly when there is no block special file and no socket
elsewhere. -/
theorem cleaned_iff (root : Directory) :
    Cleaned (cleanupOldRootfs .willing root).1 ↔
      ∀ top rest e, root.At (top :: rest) e → top ∉ keptNames →
        e ≠ .file .block ∧ e ≠ .file .socket := by
  have hfinal : (cleanupOldRootfs .willing root).1 = rmdir .willing (.ofString "proc")
      (rmdir .willing (.ofString "sys") (cleanupLoop .willing [] rootSkipList root).1) := rfl
  have hloop := cleanupLoop_clears [] rootSkipList root
  have hclear : Clear rootSkipList root ↔ ∀ top rest e, root.At (top :: rest) e → top ∉ keptNames →
      e ≠ .file .block ∧ e ≠ .file .socket := by
    unfold Clear FileEntry.Stuck
    simp only [Bool.eq_false_iff, Ne, skipped_iff, not_or]
  rw [← hclear, ← hloop, hfinal]
  constructor
  · rintro ⟨honly, -⟩ name e hat
    rw [skipped_iff]
    rcases rmdir_spares .willing (.ofString "sys") hat with h | ⟨hpath, -⟩
    · rcases rmdir_spares .willing (.ofString "proc") h with h | ⟨hpath, -⟩
      · obtain ⟨top, rest, hpath, htop⟩ := honly _ _ h
        obtain rfl : name = top := (List.cons.inj hpath).1
        exact htop
      · obtain rfl : name = .ofString "proc" := (List.cons.inj hpath).1
        decide
    · obtain rfl : name = .ofString "sys" := (List.cons.inj hpath).1
      decide
  · intro honly
    refine ⟨fun path e hat => ?_, fun name hname hat => ?_⟩
    · obtain ⟨name, rest, e', rfl, htop⟩ := hat.top
      rw [rmdir_at, rmdir_at] at htop
      exact ⟨name, rest, rfl, (skipped_iff name).mp (honly name e' htop.1.1)⟩
    · rw [rmdir_at, rmdir_at, willing_removes_directory] at hat
      rcases hname with rfl | rfl
      · exact hat.2 ⟨rfl, willing_removes_directory.mpr rfl⟩
      · exact hat.1.2 ⟨rfl, rfl⟩

/-- A socket stays, and the directory that it is in. -/
theorem not_cleaned : ¬ ∀ root : Directory, Cleaned (cleanupOldRootfs .willing root).1 := by
  intro h
  have hleft : (cleanupOldRootfs .willing
      (.entry (.ofString "run") (.directory (.entry (.ofString "socket") (.file .socket) .empty))
        .empty)).1 =
      .entry (.ofString "run") (.directory (.entry (.ofString "socket") (.file .socket) .empty))
        .empty := rfl
  obtain ⟨top, rest, hpath, htop⟩ := (hleft ▸ (h _).1) [.ofString "run", .ofString "socket"] _
    (.inside .here)
  obtain rfl : FileName.ofString "run" = top := (List.cons.inj hpath).1
  exact absurd htop (by decide)

end NervesInitramfs
