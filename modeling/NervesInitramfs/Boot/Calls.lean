import NervesInitramfs.CLib.Contract
import NervesInitramfs.Rootfs.Rootdisk
import NervesInitramfs.Script.Main

/-!
# The system calls of the boot (`nerves_initramfs.c`, `util.c`)

The calls that `main` makes around the script, with their arguments, and the messages of `util.c`,
which are written to `/dev/kmsg`. Every call is answered by a kernel that may do what it likes. The
search for the device of the root file system is one call here: the descriptors that it opens it
closes itself. Nor do the reads of the files in `/sys/block` appear, which come before the links.
-/

namespace NervesInitramfs.Boot

open CLib

/-! ## Flags, as Linux numbers them -/

/-- `open` for reading. -/
def O_RDONLY : Nat := 0
/-- `open` for writing. -/
def O_WRONLY : Nat := 1
/-- `open` for both. -/
def O_RDWR : Nat := 2
/-- The descriptor is closed by `execv`. -/
def O_CLOEXEC : Nat := 0o2000000

/-- `mount` without writing. -/
def MS_RDONLY : Nat := 1
/-- Set-user-ID bits have no effect. -/
def MS_NOSUID : Nat := 2
/-- There are no devices in it. -/
def MS_NODEV : Nat := 4
/-- Nothing in it is started. -/
def MS_NOEXEC : Nat := 8
/-- A mount is moved. -/
def MS_MOVE : Nat := 8192

/-- `lseek` from the start. -/
def SEEK_SET : Nat := 0
/-- `lseek` from the end. -/
def SEEK_END : Nat := 2

/-- `unlinkat` removes a directory. -/
def AT_REMOVEDIR : Nat := 0x200

/-- The kernel wipes the buffers of a request, which has a secret in it. -/
def DM_SECURE_DATA_FLAG : UInt32 := 0x8000

/-! ## Requests to the device mapper -/

/-- `struct dm_ioctl`, without what is zero in all requests. -/
structure DmIoctl where
  /-- The version of the interface: major, minor and patch level. -/
  version : UInt32 × UInt32 × UInt32
  /-- The size of the whole buffer. -/
  dataSize : UInt32
  /-- Where in the buffer the targets begin. -/
  dataStart : UInt32
  /-- The number of targets. -/
  targetCount : UInt32
  flags : UInt32
  /-- The name of the mapped device. -/
  name : CString
  uuid : CString
deriving DecidableEq

/-- `struct dm_target_spec`, and the string that follows it. -/
structure DmTarget where
  /-- Where the target begins in the mapped device, in sectors. -/
  sectorStart : UInt64
  /-- How many sectors it has. -/
  length : UInt64
  /-- The name of the driver. -/
  targetType : CString
  /-- What the driver is told. -/
  parameters : CString
deriving DecidableEq

/-- The requests that are made with `ioctl`. -/
inductive IoctlRequest
  /-- `LOOP_SET_FD`: the loop device shows the file with this descriptor. -/
  | loopSetFd (fd : Int)
  /-- `BLKSSZGET`: the size of a block is asked for. -/
  | blkSszGet
  /-- `DM_DEV_CREATE`: a mapped device is made. -/
  | dmDevCreate (dm : DmIoctl)
  /-- `DM_TABLE_LOAD`: the device gets a target. -/
  | dmTableLoad (dm : DmIoctl) (target : DmTarget)
  /-- `DM_DEV_SUSPEND`, without the flag that suspends: the device is started. -/
  | dmDevSuspend (dm : DmIoctl)
deriving DecidableEq

/-- The calls, with their arguments. -/
inductive Call
  | getpid
  | mkdir (path : CString) (mode : Nat)
  | mount (source target : CString) (filesystemtype : Option CString) (mountflags : Nat)
      (data : Option CString)
  | umount (target : CString)
  /-- `open` -/
  | openFile (path : CString) (flags : Nat)
  | openat (dirfd : Int) (path : CString) (flags : Nat)
  | close (fd : Int)
  | write (fd : Int) (bytes : List UInt8)
  | lseek (fd offset : Int) (whence : Nat)
  | ioctl (fd : Int) (request : IoctlRequest)
  | fdopendir (fd : Int)
  /-- `readdir`. A directory is named by the descriptor that it has been opened with. -/
  | readdir (dirfd : Int)
  | closedir (dirfd : Int)
  | unlinkat (dirfd : Int) (path : CString) (flags : Nat)
  | rmdir (path : CString)
  | stat (path : CString)
  | symlink (target linkpath : List UInt8)
  | chdir (path : CString)
  | chroot (path : CString)
  | execv (path : CString) (argv : List CString)
  /-- `resolve_block_device_spec`, with all that it does to find the device. -/
  | resolveBlockDeviceSpec (spec : CString)

/-- The answer to a call. Each call uses the fields that it needs. -/
structure Answer where
  /-- What it returns. -/
  value : Int
  /-- The text for `errno`. -/
  strerror : List UInt8
  /-- The number that it stores for the caller. -/
  output : Int
  /-- The entry that `readdir` returns. -/
  entry : Option Dirent
  /-- The path of the device that has been found. -/
  path : CString

/-- Why the program does not go on. -/
inductive Halt
  /-- The script has stopped it. -/
  | scripted (stop : Stop)
  /-- `fatal` -/
  | exited
  /-- Something that C leaves undefined. -/
  | undefined
  /-- There is no end of directories and their entries. -/
  | endless
  /-- Another program runs in its place. -/
  | started
deriving DecidableEq

/-- A step of the boot. The program itself has the state of the interpreter. -/
abbrev Booting := EStateM Halt (Dialog Call Answer State)

/-- A step of the interpreter, which has a world of its own. -/
def scripted {α : Type} (m : Interp α) : Booting α := fun d =>
  match m d.own with
  | .ok a s => .ok a { d with own := s }
  | .error stop s => .error (.scripted stop) { d with own := s }

/-! ## Messages -/

/-- `log_write` -/
def logWrite (str : List UInt8) : Booting Unit := do
  let logFd ← ask (.openFile (.ofString "/dev/kmsg") (O_WRONLY ||| O_CLOEXEC))
  if 0 ≤ logFd.value then do
    let _ ← ask (.write logFd.value str)
    let _ ← ask (.close logFd.value)
  else do
    let _ ← ask (.write 2 str)

/-- `log_format` -/
def info (message : List UInt8) : Booting Unit :=
  logWrite (text "nerves_initramfs: " ++ message ++ text "\r\n")

/-- `fatal`, which does not return. -/
def fatal {α : Type} (message : List UInt8) : Booting α := do
  logWrite (text "\r\n\r\nFATAL ERROR:\r\n")
  info message
  logWrite (text "\r\n\r\nCANNOT CONTINUE.\r\n")
  throw .exited

/-- `OK_OR_FATAL` -/
def okOrFatal (call : Call) (message : List UInt8) : Booting Unit := do
  if (← ask call).value < 0 then fatal message else pure ()

/-- `OK_OR_WARN` -/
def okOrWarn (call : Call) (message : List UInt8) : Booting Unit := do
  if (← ask call).value < 0 then info message else pure ()

/-- `OK_OR_DEBUG`, or a result that is not looked at. -/
def ignore (call : Call) : Booting Unit := do
  let _ ← ask call

end NervesInitramfs.Boot
