import NervesInitramfs.CLib.CString

/-!
# Cleaning the old root file system (`nerves_initramfs.c`)

`cleanup_dir` walks a directory and takes out what is in it. A directory is the sequence of its
entries in the order in which `readdir` returns them. It also returns `.` and `..`, which no entry
is called and which both skip lists hold.
-/

namespace NervesInitramfs

open CLib

/-! ## Directory trees -/

/-- What is not a directory. -/
inductive FileKind
  | fifo | character | block | regular | symlink | socket
deriving DecidableEq

/-- The name of an entry. -/
structure FileName where
  text : CString
  valid : text.bytes ≠ [] ∧ 47 ∉ text.bytes ∧ text ≠ .ofString "." ∧ text ≠ .ofString ".."
deriving DecidableEq

def FileName.ofString (s : String)
    (h : (CString.ofString s).bytes ≠ [] ∧ 47 ∉ (CString.ofString s).bytes ∧
      CString.ofString s ≠ .ofString "." ∧ CString.ofString s ≠ .ofString ".." := by decide) :
    FileName := ⟨.ofString s, h⟩

mutual

inductive FileEntry
  | file (kind : FileKind)
  | directory (contents : Directory)

inductive Directory
  | empty
  | entry (name : FileName) (e : FileEntry) (rest : Directory)

end

/-- `d_type` -/
def FileEntry.dType : FileEntry → Nat
  | .file .fifo => 1
  | .file .character => 2
  | .directory _ => 4
  | .file .block => 6
  | .file .regular => 8
  | .file .symlink => 10
  | .file .socket => 12

/-- `DT_DIR` -/
def dtDir : Nat := 4

def FileEntry.isDirectory : FileEntry → Bool
  | .directory _ => true
  | .file _ => false

def FileEntry.isEmptyDirectory : FileEntry → Bool
  | .directory .empty => true
  | _ => false

/-! ## The calls -/

/-- Whether system calls succeed that could: `open` of `/`, and for a path `openat`, `fdopendir` and
`unlinkat` or `rmdir`. -/
structure FileSystem where
  openRoot : Bool
  openat : List FileName → Bool
  fdopendir : List FileName → Bool
  unlinkat : List FileName → Bool

/-- The calls that are made, with the path that they are about. `removedir` is the flag
`AT_REMOVEDIR`. -/
inductive FileCall
  | openat (path : List FileName)
  | unlinkat (path : List FileName) (removedir : Bool)
deriving DecidableEq

def rootSkipList : List CString :=
  [.ofString ".", .ofString "..", .ofString "dev", .ofString "mnt", .ofString "proc", .ofString "sys"]

def nonrootSkipList : List CString := [.ofString ".", .ofString ".."]

def inSkipList (what : CString) : List CString → Bool
  | [] => false
  | s :: rest => if strcmp s what = 0 then true else inSkipList what rest

/-- `unlinkat` of the entry `e`: whether it is gone. -/
def FileSystem.removes (fs : FileSystem) (path : List FileName) (removedir : Bool) (e : FileEntry) :
    Bool :=
  fs.unlinkat path && if removedir then e.isEmptyDirectory else !e.isDirectory

mutual

/-- `openat` of an entry and `cleanup_dir` of what it opened: what becomes of the entry, and the
calls. `fdopendir` fails on everything but a directory. -/
def cleanupEntry (fs : FileSystem) (path : List FileName) : FileEntry → FileEntry × List FileCall
  | .file kind => (.file kind, [.openat path])
  | .directory contents =>
    if fs.openat path && fs.fdopendir path then
      let (contents, calls) := cleanupLoop fs path nonrootSkipList contents
      (.directory contents, .openat path :: calls)
    else (.directory contents, [.openat path])

/-- The loop of `cleanup_dir` over the entries of the directory at `dir`: what is left of them, and
the calls. -/
def cleanupLoop (fs : FileSystem) (dir : List FileName) (skipList : List CString) :
    Directory → Directory × List FileCall
  | .empty => (.empty, [])
  | .entry name e rest =>
    let (others, calls) := cleanupLoop fs dir skipList rest
    if inSkipList name.text skipList then (.entry name e others, calls)
    else
      let path := dir ++ [name]
      if e.dType &&& dtDir ≠ 0 then
        let (e, inside) := cleanupEntry fs path e
        (if fs.removes path true e then others else .entry name e others,
          inside ++ .unlinkat path true :: calls)
      else
        (if fs.removes path false e then others else .entry name e others,
          .unlinkat path false :: calls)

end

/-- `cleanup_dir` of `/`. -/
def cleanupRoot (fs : FileSystem) (root : Directory) : Directory × List FileCall :=
  if fs.fdopendir [] then cleanupLoop fs [] rootSkipList root else (root, [])

/-- `rmdir` of an entry of `/`. -/
def rmdir (fs : FileSystem) (name : FileName) : Directory → Directory
  | .empty => .empty
  | .entry n e rest =>
    if n = name ∧ fs.removes [name] true e then rmdir fs name rest
    else .entry n e (rmdir fs name rest)

/-- `cleanup_old_rootfs`: what is left in `/`, and the calls of `openat` and `unlinkat`. -/
def cleanupOldRootfs (fs : FileSystem) (root : Directory) : Directory × List FileCall :=
  if fs.openRoot then
    let (root, calls) := cleanupRoot fs root
    (rmdir fs (.ofString "proc") (rmdir fs (.ofString "sys") root), calls)
  else (root, [])

/-- Every call succeeds that can. -/
def FileSystem.willing : FileSystem := ⟨true, fun _ => true, fun _ => true, fun _ => true⟩

/-! ## Paths -/

/-- The entry with a path in a directory. All but its last component are directories. -/
inductive Directory.At : Directory → List FileName → FileEntry → Prop
  | here {name : FileName} {e : FileEntry} {rest : Directory} : At (.entry name e rest) [name] e
  | inside {name : FileName} {contents rest : Directory} {path : List FileName} {e : FileEntry}
    (below : At contents path e) : At (.entry name (.directory contents) rest) (name :: path) e
  | later {name : FileName} {e' : FileEntry} {rest : Directory} {path : List FileName} {e : FileEntry}
    (among : At rest path e) : At (.entry name e' rest) path e

/-- The names in `/` that must stay. -/
def keptNames : List FileName :=
  [.ofString "dev", .ofString "mnt", .ofString "proc", .ofString "sys"]

/-- Nothing is left but what is below these names, and `/proc` and `/sys` not without entries. -/
def Cleaned (left : Directory) : Prop :=
  (∀ path e, left.At path e → ∃ top rest, path = top :: rest ∧ top ∈ keptNames) ∧
    ∀ name, name = .ofString "proc" ∨ name = .ofString "sys" → ¬ left.At [name] (.directory .empty)

end NervesInitramfs
