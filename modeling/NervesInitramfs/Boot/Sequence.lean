import NervesInitramfs.Boot.Calls
import NervesInitramfs.Rootfs.Cleanup

/-!
# The boot (`nerves_initramfs.c`)

`main`: the file systems of the kernel are mounted, the script runs, the root file system that it
chooses is mounted, and `/sbin/init` takes over.
-/

namespace NervesInitramfs.Boot

open CLib

/-- What the program is built with: its version, and that of the device mapper. -/
structure Build where
  /-- `PROGRAM_VERSION_STR` -/
  programVersion : List UInt8
  /-- `DM_VERSION_MAJOR`, `DM_VERSION_MINOR` and `DM_VERSION_PATCHLEVEL` -/
  dmVersion : UInt32 × UInt32 × UInt32

/-- `setup_initramfs` -/
def setupInitramfs : Booting Unit := do
  ignore (.mkdir (.ofString "/mnt") 0o755)
  ignore (.mkdir (.ofString "/dev") 0o755)
  ignore (.mkdir (.ofString "/sys") 0o555)
  ignore (.mkdir (.ofString "/proc") 0o555)
  okOrWarn (.mount (.ofString "devtmpfs") (.ofString "/dev") (some (.ofString "devtmpfs"))
    (MS_NOSUID ||| MS_NOEXEC) (some (.ofString "mode=755,size=5%"))) (text "Can't mount /dev")
  okOrWarn (.mount (.ofString "sysfs") (.ofString "/sys") (some (.ofString "sysfs"))
    (MS_NOSUID ||| MS_NODEV ||| MS_NOEXEC) none) (text "Can't mount /sys")
  okOrWarn (.mount (.ofString "proc") (.ofString "/proc") (some (.ofString "proc"))
    (MS_NOSUID ||| MS_NODEV ||| MS_NOEXEC) none) (text "Can't mount /proc")

/-! ## Mounting the root file system -/

/-- The mount of the root file system from a device. -/
def mountRoot (device rootfsType rootfsPath : CString) : Booting Unit :=
  okOrFatal (.mount device (.ofString "/mnt") (some rootfsType) MS_RDONLY none)
    (text "Expecting " ++ rootfsType.bytes ++ text " filesystem on " ++ rootfsPath.bytes)

/-- `open` of the root file system, which has to be there. -/
def openRootfs (rootfsPath : CString) : Booting Int := do
  let rootfsFd ← ask (.openFile rootfsPath O_RDONLY)
  if rootfsFd.value < 0 then
    fatal (text "Can't continue since '" ++ rootfsPath.bytes ++ text "' does not exist.")
  else pure rootfsFd.value

/-- `mount_fs` -/
def mountFs (rootfsPath rootfsType : CString) : Booting Unit := do
  let rootfsFd ← openRootfs rootfsPath
  ignore (.close rootfsFd)
  mountRoot rootfsPath rootfsType rootfsPath

/-- `losetup`, as the descriptor of the loop device. -/
def losetup (rootfsFd : Int) : Booting Int := do
  let loopFd ← ask (.openFile (.ofString "/dev/loop0") O_RDONLY)
  if loopFd.value < 0 then fatal (text "Enable CONFIG_BLK_DEV_LOOP in kernel")
  else do
    okOrFatal (.ioctl loopFd.value (.loopSetFd rootfsFd)) (text "LOOP_SET_FD failed")
    pure loopFd.value

/-- `sizeof(request_buffer)` -/
def requestSize : Nat := 16384

/-- `sizeof(struct dm_ioctl)` -/
def dmIoctlSize : Nat := 312

/-- `sizeof(struct dm_target_spec)` -/
def dmTargetSpecSize : Nat := 40

/-- The fields that all requests set. -/
def dmRequest (build : Build) : DmIoctl where
  version := build.dmVersion
  dataSize := UInt32.ofNat requestSize
  dataStart := UInt32.ofNat dmIoctlSize
  targetCount := 0
  flags := 0
  name := .ofString "rootfs"
  uuid := .ofString ""

/-- `"%s %s 0 /dev/loop0 0"` -/
def cryptParameters (cipher secret : CString) : CString :=
  .ofBytes (cipher.bytes ++ text " " ++ secret.bytes ++ text " 0 /dev/loop0 0")

/-- The target of the one table that is loaded. -/
def cryptTarget (rootfsBlocks : Int) (cipher secret : CString) : DmTarget where
  sectorStart := 0
  length := UInt64.ofInt rootfsBlocks
  targetType := .ofString "crypt"
  parameters := cryptParameters cipher secret

/-- `sprintf` stays inside the buffer. -/
def Fits (parameters : CString) : Prop :=
  dmIoctlSize + dmTargetSpecSize + parameters.strlen + 1 ≤ requestSize

instance (parameters : CString) : Decidable (Fits parameters) := Nat.decLe _ _

/-- `dm_create`. The program goes beyond its buffer when the cipher and the secret are too long. -/
def dmCreate (build : Build) (rootfsBlocks : Int) (cipher secret : CString) : Booting Unit := do
  let dmControl ← ask (.openFile (.ofString "/dev/mapper/control") O_RDWR)
  if dmControl.value < 0 then
    fatal (text "Can't continue since '/dev/mapper/control' does not exist.")
  else do
    okOrFatal (.ioctl dmControl.value (.dmDevCreate { dmRequest build with
      uuid := .ofString "CRYPT-PLAIN-rootfs" })) (text "Enable CONFIG_DM_CRYPT in kernel")
    (if Fits (cryptParameters cipher secret) then
      okOrFatal (.ioctl dmControl.value (.dmTableLoad { dmRequest build with
        targetCount := 1
        flags := DM_SECURE_DATA_FLAG } (cryptTarget rootfsBlocks cipher secret)))
        (text "Check CONFIG_DM_CRYPT and crypto algs enabled")
    else throw .undefined)
    okOrFatal (.ioctl dmControl.value (.dmDevSuspend { dmRequest build with
      flags := DM_SECURE_DATA_FLAG })) (text "DM_DEV_SUSPEND failed")
    ignore (.close dmControl.value)

/-- The size of the root file system in blocks, each of which has `blockSize` bytes. -/
def rootfsBlocks (rootfsFd : Int) : Booting Int := do
  let rootfsSize ← ask (.lseek rootfsFd 0 SEEK_END)
  ignore (.lseek rootfsFd 0 SEEK_SET)
  let sszget ← ask (.ioctl rootfsFd .blkSszGet)
  let blockSize := if sszget.value < 0 then 512 else sszget.output
  if blockSize = 0 then throw .undefined else pure (rootfsSize.value.tdiv blockSize)

/-- `mount_encrypted_fs` -/
def mountEncryptedFs (build : Build) (rootfsPath rootfsType cipher secret : CString) :
    Booting Unit := do
  let rootfsFd ← openRootfs rootfsPath
  let blocks ← rootfsBlocks rootfsFd
  let loopFd ← losetup rootfsFd
  ignore (.close rootfsFd)
  dmCreate build blocks cipher secret
  mountRoot (.ofString "/dev/dm-0") rootfsType rootfsPath
  ignore (.close loopFd)

/-- What the variables say about the root file system on the device that has been found. -/
structure Rootfs where
  /-- `rootfs.fstype` -/
  fstype : CString
  /-- `rootfs.cipher` and `rootfs.secret`, when it is encrypted. -/
  crypt : Option (CString × CString)
deriving DecidableEq

/-- The mount of a root file system on the device at `path`. -/
def mountRootfs (build : Build) (path : CString) (rootfs : Rootfs) : Booting Unit :=
  match rootfs.crypt with
  | some (cipher, secret) => mountEncryptedFs build path rootfs.fstype cipher secret
  | none => mountFs path rootfs.fstype

/-- The specification of the device. -/
def readRootfsSpec (machine : Machine) (depth : Nat) : Interp CString :=
  getVariableAsString (termResolve machine depth) depth (.ofString "rootfs.path")

/-- The other variables about the root file system, which are read once the device has been found. -/
def readRootfs (machine : Machine) (depth : Nat) : Interp Rootfs := do
  let fstype ← getVariableAsString (termResolve machine depth) depth (.ofString "rootfs.fstype")
  if ← getVariableAsBoolean (termResolve machine depth) (.ofString "rootfs.encrypted") then
    let cipher ← getVariableAsString (termResolve machine depth) depth (.ofString "rootfs.cipher")
    let secret ← getVariableAsString (termResolve machine depth) depth (.ofString "rootfs.secret")
    pure ⟨fstype, some (cipher, secret)⟩
  else pure ⟨fstype, none⟩

/-! ## Taking over -/

/-- The links are asked for one after the other. -/
def createLinks : List LinkRequest → Booting Unit
  | [] => pure ()
  | link :: rest => do
    let made ← ask (.symlink link.devpath link.symlinkpath)
    (if made.value < 0 then
      info (text "Could not create symlink '" ++ link.symlinkpath ++ text "'->'" ++ link.devpath ++
        text "': " ++ made.strerror)
    else pure ())
    createLinks rest

/-- `create_rootdisk_symlinks`. What the scan of `/sys/block` finds is in the tree; that there is
nothing at all is a message before the root file system is looked at. -/
def createRootdiskSymlinks (qsort : Qsort direntAlphasort) (tree : SysTree)
    (rootfsDevname : CString) : Booting Unit := do
  (if (scandir qsort tree (text "/sys/block") notSpecialFilter).isEmpty then
    info (text "No directories found under /sys/block. Check that /sys is mounted")
  else pure ())
  let st ← ask (.stat rootfsDevname)
  (if st.value < 0 then
    info (text "Could not determine root device for " ++ rootfsDevname.bytes ++ text ": " ++ st.strerror)
  else pure ())
  let rootfsDev := if st.value < 0 then 0 else UInt64.ofInt st.output
  let links := NervesInitramfs.createRootdiskSymlinks qsort tree (fun _ => some rootfsDev) rootfsDevname
  if rootfsDev ≠ 0 ∧ links = [] then
    info (text "Root disk is supposed to be " ++ rootfsDevname.bytes ++
      text ", but it wasn't found or wasn't a partition.")
  else createLinks links

mutual

/-- `cleanup_dir`. A descriptor stands for the directory that it has been opened for. There are no
more entries and directories than `rounds`. -/
def cleanupDir (dirfd : Int) (skipList : List CString) : (rounds : Nat) → Booting Unit
  | 0 => throw .endless
  | rounds + 1 => do
    if (← ask (.fdopendir dirfd)).value < 0 then info (text "fdopendir failed")
    else do
      cleanupLoop dirfd skipList rounds
      ignore (.closedir dirfd)

/-- The loop over the entries. -/
def cleanupLoop (dirfd : Int) (skipList : List CString) : (rounds : Nat) → Booting Unit
  | 0 => throw .endless
  | rounds + 1 => do
    match (← ask (.readdir dirfd)).entry with
    | none => pure ()
    | some dt =>
      if inSkipList dt.name skipList then cleanupLoop dirfd skipList rounds
      else do
        (if dt.type &&& dtDir ≠ 0 then do
          let fd ← ask (.openat dirfd dt.name O_RDONLY)
          (if 0 ≤ fd.value then cleanupDir fd.value nonrootSkipList rounds
          else info (text "openat " ++ dt.name.bytes ++ text " failed"))
          okOrWarn (.unlinkat dirfd dt.name AT_REMOVEDIR)
            (text "unlinkat directory  " ++ dt.name.bytes)
        else okOrWarn (.unlinkat dirfd dt.name 0) (text "unlinkat " ++ dt.name.bytes))
        cleanupLoop dirfd skipList rounds

end

/-- `cleanup_old_rootfs` -/
def cleanupOldRootfs (rounds : Nat) : Booting Unit := do
  let fd ← ask (.openFile (.ofString "/") O_RDONLY)
  if fd.value < 0 then info (text "Can't open '/'?")
  else do
    cleanupDir fd.value rootSkipList rounds
    ignore (.rmdir (.ofString "/sys"))
    ignore (.rmdir (.ofString "/proc"))

/-- `switch_root` -/
def switchRoot (rounds : Nat) : Booting Unit := do
  okOrWarn (.mount (.ofString "/dev") (.ofString "/mnt/dev") none MS_MOVE none)
    (text "moving /dev failed")
  okOrWarn (.umount (.ofString "/sys")) (text "unmounting /sys failed")
  okOrWarn (.umount (.ofString "/proc")) (text "unmounting /proc failed")
  cleanupOldRootfs rounds
  ignore (.chdir (.ofString "/mnt"))
  okOrWarn (.mount (.ofString ".") (.ofString "/") none MS_MOVE none) (text "moving / failed")
  ignore (.chroot (.ofString "."))

/-- What a boot is given besides its command line. -/
structure Given where
  /-- The configuration file, if there is one. -/
  file : Option Script
  /-- The lines that are typed when the REPL runs. -/
  lines : List Script
  /-- `/sys` when the links are made. -/
  tree : SysTree

/-- The script, and the REPL if it is wanted. -/
def runScripts (machine : Machine) (depth : Nat) (given : Given) : Interp Unit := do
  if ← configure machine depth given.file then
    NervesInitramfs.repl machine depth given.lines
  else pure ()

/-- The last lines of `main`, with the `argv` that is there by then. `execv` only returns when it
fails. -/
def execInit : Booting Unit := do
  let failed ← ask (.execv (.ofString "/sbin/init") (← get).own.argv)
  if 0 ≤ failed.value then throw .started
  else fatal (text "Couldn't run /sbin/init: " ++ failed.strerror)

/-- `main` -/
def main (build : Build) (machine : Machine) (depth rounds : Nat) (qsort : Qsort direntAlphasort)
    (given : Given) : Booting Unit := do
  info (text "version " ++ build.programVersion)
  if (← ask .getpid).value ≠ 1 then fatal (text "Must be pid 1")
  else do
    setupInitramfs
    scripted (runScripts machine depth given)
    let rootfsSpec ← scripted (readRootfsSpec machine depth)
    let resolved ← ask (.resolveBlockDeviceSpec rootfsSpec)
    if resolved.value < 0 then
      fatal (text "Can't continue since '" ++ rootfsSpec.bytes ++ text "' does not exist.")
    else do
      let rootfs ← scripted (readRootfs machine depth)
      mountRootfs build resolved.path rootfs
      createRootdiskSymlinks qsort given.tree resolved.path
      switchRoot rounds
      execInit

end NervesInitramfs.Boot
