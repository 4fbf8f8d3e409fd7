import NervesInitramfs.Block.Devices

/-!
# Finding and opening a block device (`block_device.c`)

A device is named by a path or by the UUID of a disk or of a partition. When it is not there yet
`open_block_device` waits for it; the number of tries that are left is shared by all calls. What
happens while the program waits is a parameter: each attempt finds the devices, and what can be
opened, of its own moment.
-/

namespace NervesInitramfs

open CLib

/-- The size of the buffers that paths are stored in. -/
def blockDevicePathLen : Nat := 32

/-- What one attempt finds: the devices, what the buffers hold that they are read into, and what
`open` returns for a path and flags. -/
structure Moment where
  sys : SysBlock
  old : CString → Leftover
  opened : (path : List UInt8) → (flags : Int) → Int

/-- What the functions do that can be seen from outside: what they store in the buffer of the
caller, how long they sleep, and what each call of `open_block_device_impl` returns. -/
inductive WaitEvent
  | strcpy (stored : List UInt8)
  | usleep (usec : Nat)
  | attempted (fd : Int)
  | closed (fd : Int)
  | info
deriving DecidableEq

/-- The UUID of a probed device, up to its NUL. -/
def BlockDeviceInfo.uuidString (d : BlockDeviceInfo) : CString := .ofBytes d.uuid

/-- The loop of `find_block_device_by_uuid` over the list. It ends with the path that is copied, or
`none` when it fails without copying one. -/
def findInList (type : BlockDeviceType) (uuid : CString) :
    List BlockDeviceInfo → Option (List UInt8)
  | [] => none
  | device :: next =>
    if type = device.type ∧ strcaseeq uuid device.uuidString then some device.path
    else findInList type uuid next

variable (qsort : Qsort reverseAlphasort)

def findBlockDeviceByUuid (now : Moment) (type : BlockDeviceType) (uuid : CString) :
    Option (List UInt8) :=
  let (rc, devices) := probeBlockDevices qsort now.sys now.old
  if rc < 0 then none else findInList type uuid devices

/-- `&spec[9]` -/
def afterPrefix (spec : CString) : CString := .ofBytes (spec.bytes.drop 9)

def findBlockDeviceBySpec (now : Moment) (spec : CString) : Option (List UInt8) :=
  if spec.bytes.take 9 = text "PARTUUID=" then
    findBlockDeviceByUuid qsort now .partition (afterPrefix spec)
  else if spec.bytes.take 9 = text "DISKUUID=" then
    findBlockDeviceByUuid qsort now .disk (afterPrefix spec)
  else some spec.bytes

/-- `strcpy` stores the NUL as well. -/
def openBlockDeviceImpl (now : Moment) (spec : CString) (flags : Int) : Int × List WaitEvent :=
  match findBlockDeviceBySpec qsort now spec with
  | none => (-1, [.attempted (-1)])
  | some path =>
    let fd := now.opened path flags
    (fd, [.strcpy (path ++ [0]), .attempted fd])

/-- The state of the program: the static `tries`, and the number of attempts so far. -/
structure Waiting where
  tries : Nat
  attempts : Nat
deriving DecidableEq

/-- When the program starts. -/
def Waiting.start : Waiting := ⟨1000, 0⟩

variable (moments : Nat → Moment)

/-- The loop of `open_block_device`, with the tries that are left. -/
def Waiting.waitFor (spec : CString) (flags : Int) :
    (tries : Nat) → (fd : Int) → (attempts : Nat) → Int × List WaitEvent × Waiting
  | 0, fd, attempts => (fd, [], ⟨0, attempts⟩)
  | tries + 1, fd, attempts =>
    if fd < 0 then
      let (fd, events) := openBlockDeviceImpl qsort (moments attempts) spec flags
      let (fd, events', w) := Waiting.waitFor spec flags tries fd (attempts + 1)
      (fd, .usleep 1000 :: events ++ events', w)
    else (fd, [], ⟨tries + 1, attempts⟩)

def Waiting.openBlockDevice (spec : CString) (flags : Int) (w : Waiting) : Int × List WaitEvent × Waiting :=
  let (fd, events) := openBlockDeviceImpl qsort (moments w.attempts) spec flags
  let (fd, events', w) := Waiting.waitFor qsort moments spec flags w.tries fd (w.attempts + 1)
  (fd, events ++ events' ++ (if fd < 0 then [.info] else []), w)

/-- `O_RDONLY` -/
def readOnly : Int := 0

def Waiting.resolveBlockDeviceSpec (spec : CString) (w : Waiting) : Int × List WaitEvent × Waiting :=
  let (fd, events, w) := Waiting.openBlockDevice qsort moments spec readOnly w
  if 0 ≤ fd then (0, events ++ [.closed fd], w) else (-1, events, w)

/-! ## Calls -/

/-- A call from another file. -/
inductive DeviceCall
  | openDevice (spec : CString) (flags : Int)
  | resolveSpec (spec : CString)

/-- The specification of the device that a call is for. -/
def DeviceCall.spec : DeviceCall → CString
  | .openDevice spec _ => spec
  | .resolveSpec spec => spec

def DeviceCall.run : DeviceCall → Waiting → Int × List WaitEvent × Waiting
  | .openDevice spec flags, w => Waiting.openBlockDevice qsort moments spec flags w
  | .resolveSpec spec, w => Waiting.resolveBlockDeviceSpec qsort moments spec w

/-- What a whole run does: one call after the other, in one process. -/
def runCalls : List DeviceCall → Waiting → List WaitEvent × Waiting
  | [], w => ([], w)
  | call :: rest, w =>
    let (_, events, w) := call.run qsort moments w
    let (events', w) := runCalls rest w
    (events ++ events', w)

/-! ## What the calls should do -/

/-- The descriptors that the attempts return, in order. -/
def attemptsOf (events : List WaitEvent) : List Int :=
  events.filterMap fun e => match e with
    | .attempted fd => some fd
    | _ => none

/-- The times that are slept, in microseconds. -/
def sleepsOf (events : List WaitEvent) : List Nat :=
  events.filterMap fun e => match e with
    | .usleep usec => some usec
    | _ => none

/-- What is stored in the buffer of the caller, one string after the other. -/
def storedIn (events : List WaitEvent) : List (List UInt8) :=
  events.filterMap fun e => match e with
    | .strcpy stored => some stored
    | _ => none

/-- The specification asks for a UUID. -/
def AsksForUuid (spec : CString) : Prop :=
  spec.bytes.take 9 = text "PARTUUID=" ∨ spec.bytes.take 9 = text "DISKUUID="

/-- The specification asks for a UUID, or it is a path that fits in the buffer with its NUL. -/
def FitsBuffer (spec : CString) : Prop := AsksForUuid spec ∨ spec.strlen < blockDevicePathLen

/-- Texts that differ in the case of letters only. -/
def SameUpToCase (a b : List UInt8) : Prop := a.map tolower = b.map tolower

/-- `s` is the UUID of a device of the type, up to the case of letters. -/
def HasUuid (type : BlockDeviceType) (s : CString) (d : BlockDeviceInfo) : Prop :=
  d.type = type ∧ SameUpToCase s.bytes d.uuid

/-- The specification with the UUID `s`. -/
def uuidSpec : BlockDeviceType → CString → CString
  | .partition, s => .ofString "PARTUUID=" ++ s
  | .disk, s => .ofString "DISKUUID=" ++ s

/-- The UUID of a disk with an MBR, or of one of its partitions. -/
def IsMbrUuid (uuid : List UInt8) : Prop :=
  ∃ diskUuid, uuid = hexWord diskUuid ∨ ∃ i, uuid = hexWord diskUuid ++ text "-" ++ hexByte i

end NervesInitramfs
