import NervesInitramfs.Boot.Sequence

/-!
# What a boot may do

Two contracts about the calls of a boot. One says in which order it goes about the root file system:
nothing is removed, moved or started before it is mounted, an encrypted one is mounted after its
device has been made in the right steps, and after a failure that is fatal there are only messages.
The other one is about the descriptors.
-/

namespace NervesInitramfs.Boot

open CLib

/-! ## The plan -/

/-- How far the boot has come. -/
inductive Phase
  /-- The file systems of the kernel are mounted, and the scripts run. -/
  | setup
  /-- The device of the root file system has been found at `path`. -/
  | found (path : CString)
  /-- The loop device shows what is on it. -/
  | looped
  /-- The mapped device has been made. -/
  | created
  /-- It has the table that decrypts. -/
  | loaded
  /-- It has been started. -/
  | resumed
  /-- The root file system is mounted. -/
  | mounted
  /-- Something has failed, and that is fatal. -/
  | failed
  /-- `init` has been started. -/
  | started
deriving DecidableEq

/-- The phase, and the descriptor of `/dev/kmsg` while a message is written to it. -/
structure Plan where
  phase : Phase
  kmsg : Option Int
deriving DecidableEq

/-- At the start no message is written. -/
def Plan.start : Plan := ⟨.setup, none⟩

/-- What a boot has to keep to: the specification of the device, what the variables say about the
root file system on it, and the arguments of `init`. -/
structure Orders where
  spec : CString
  rootfs : Rootfs
  argv : List CString

/-- Messages are written to a file that is opened like this. -/
def IsKmsg (path : CString) (flags : Nat) : Prop :=
  path = .ofString "/dev/kmsg" ∧ flags = (O_WRONLY ||| O_CLOEXEC)

instance (path : CString) (flags : Nat) : Decidable (IsKmsg path flags) := instDecidableAnd

/-- The other files that are opened. -/
def Phase.MayOpen (rootfs : Rootfs) (phase : Phase) (path : CString) (flags : Nat) : Prop :=
  match phase with
  | .found rootfsPath => flags = O_RDONLY ∧
      (path = rootfsPath ∨ path = .ofString "/dev/loop0" ∧ rootfs.crypt.isSome)
  | .looped => flags = O_RDWR ∧ path = .ofString "/dev/mapper/control"
  | .mounted => flags = O_RDONLY ∧ path = .ofString "/"
  | _ => False

/-- The device that is mounted, and when: the one that has been found, or the one that decrypts
it. -/
def Rootfs.MountsFrom (rootfs : Rootfs) (phase : Phase) (source : CString) : Prop :=
  if rootfs.crypt = none then phase = .found source
  else phase = .resumed ∧ source = .ofString "/dev/dm-0"

/-- The device has been found, and what is on it has to be decrypted. -/
def Phase.Decrypts (rootfs : Rootfs) (phase : Phase) : Prop :=
  (∃ path, phase = .found path) ∧ rootfs.crypt.isSome

/-- The table is the one for the cipher and the secret. -/
def Rootfs.Encrypts (rootfs : Rootfs) (target : DmTarget) : Prop :=
  ∃ cipher secret, rootfs.crypt = some (cipher, secret) ∧
    target.parameters = cryptParameters cipher secret ∧ Fits target.parameters

/-- What the boot may do. After a failure that is fatal there are only messages, and after the start
of `init` there is nothing. -/
def Plan.May (orders : Orders) (plan : Plan) : Call → Prop
  | .getpid | .mkdir _ _ => plan.phase = .setup
  | .resolveBlockDeviceSpec spec => plan.phase = .setup ∧ spec = orders.spec
  | .mount source target filesystemtype mountflags data =>
    if target = .ofString "/mnt" then
      orders.rootfs.MountsFrom plan.phase source ∧ filesystemtype = some orders.rootfs.fstype ∧
        mountflags = MS_RDONLY ∧ data = none
    else if mountflags = MS_MOVE then plan.phase = .mounted
    else plan.phase = .setup
  | .lseek _ _ _ | .ioctl _ .blkSszGet | .ioctl _ (.loopSetFd _) => plan.phase.Decrypts orders.rootfs
  | .ioctl _ (.dmDevCreate _) => plan.phase = .looped
  | .ioctl _ (.dmTableLoad _ target) => plan.phase = .created ∧ orders.rootfs.Encrypts target
  | .ioctl _ (.dmDevSuspend _) => plan.phase = .loaded
  | .openFile path flags =>
    if IsKmsg path flags then plan.phase ≠ .started
    else plan.phase.MayOpen orders.rootfs path flags
  | .write fd _ => plan.phase ≠ .started ∧ fd = plan.kmsg.getD 2
  | .close fd => plan.phase ≠ .started ∧ (plan.phase = .failed → plan.kmsg = some fd)
  | .execv path argv =>
    plan.phase = .mounted ∧ path = .ofString "/sbin/init" ∧ argv = orders.argv
  | _ => plan.phase = .mounted

/-- A failure is fatal. -/
def Phase.orFailed (phase : Phase) (answer : Answer) : Phase :=
  if answer.value < 0 then .failed else phase

/-- The phase after a call. Only the old root directory may be missing without harm. -/
def Phase.after (phase : Phase) : Call → Answer → Phase
  | .getpid, answer => if answer.value = 1 then phase else .failed
  | .resolveBlockDeviceSpec _, answer => (Phase.found answer.path).orFailed answer
  | .openFile path flags, answer =>
    if IsKmsg path flags ∨ phase = .mounted then phase else phase.orFailed answer
  | .mount _ target _ _ _, answer =>
    if target = .ofString "/mnt" then Phase.mounted.orFailed answer else phase
  | .ioctl _ (.loopSetFd _), answer => Phase.looped.orFailed answer
  | .ioctl _ (.dmDevCreate _), answer => Phase.created.orFailed answer
  | .ioctl _ (.dmTableLoad _ _), answer => Phase.loaded.orFailed answer
  | .ioctl _ (.dmDevSuspend _), answer => Phase.resumed.orFailed answer
  | .execv _ _, answer => Phase.started.orFailed answer
  | _, _ => phase

/-- The descriptor of `/dev/kmsg` after a call. -/
def kmsgAfter (kmsg : Option Int) : Call → Answer → Option Int
  | .openFile path flags, answer =>
    if IsKmsg path flags ∧ 0 ≤ answer.value then some answer.value else kmsg
  | .close fd, _ => if kmsg = some fd then none else kmsg
  | _, _ => kmsg

def Plan.after (plan : Plan) (call : Call) (answer : Answer) : Plan :=
  ⟨plan.phase.after call answer, kmsgAfter plan.kmsg call answer⟩

/-- Nothing is expected of the kernel. -/
def following (orders : Orders) : Contract Call Answer where
  State := Plan
  may := Plan.May orders
  expected _ _ _ := True
  next := Plan.after

/-- The orders of a boot: what the variables say when the scripts have run, first about the device
and then about what is on it, as far as the interpreter comes, and what is left of the command
line. -/
structure Orders.From (orders : Orders) (machine : Machine) (depth : Nat) (given : Given)
    (argv : List CString) (world : World) : Prop where
  spec : ∀ spec s, (do
    runScripts machine depth given
    readRootfsSpec machine depth) (State.boot argv world) = .ok spec s → orders.spec = spec
  rootfs : ∀ rootfs s, (do
    runScripts machine depth given
    let _ ← readRootfsSpec machine depth
    readRootfs machine depth) (State.boot argv world) = .ok rootfs s → orders.rootfs = rootfs
  argv : orders.argv = argvAfter argv

/-! ## Descriptors -/

/-- The descriptors that a call is about. The standard error is always open. -/
def Call.uses : Call → List Int
  | .ioctl fd (.loopSetFd fd') => [fd, fd']
  | .openat fd _ _ | .close fd | .lseek fd _ _ | .ioctl fd _ | .fdopendir fd | .readdir fd
  | .closedir fd | .unlinkat fd _ _ => [fd]
  | .write fd _ => if fd = 2 then [] else [fd]
  | _ => []

/-- Those that are open, and those of them that `fdopendir` has refused, the latest first. -/
structure Descriptors where
  opened : List Int
  refused : List Int
deriving DecidableEq

/-- Those after a call. -/
def Descriptors.after (t : Descriptors) : Call → Answer → Descriptors
  | .openFile _ _, answer | .openat _ _ _, answer =>
    if 0 ≤ answer.value then { t with opened := answer.value :: t.opened } else t
  | .close fd, _ | .closedir fd, _ => { t with opened := t.opened.erase fd }
  | .fdopendir fd, answer => if answer.value < 0 then { t with refused := fd :: t.refused } else t
  | _, _ => t

/-- A descriptor is used while it is open. A new one is none of those that are open. -/
def descriptors : Contract Call Answer where
  State := Descriptors
  may t call := ∀ fd ∈ call.uses, fd ∈ t.opened
  expected t call answer := match call with
    | .openFile _ _ | .openat _ _ _ => answer.value ≠ 2 ∧ answer.value ∉ t.opened
    | _ => True
  next := Descriptors.after

end NervesInitramfs.Boot
