import Mathlib.Data.UInt
import MicroFramework.Library.CStrings

/-!
# Mounting and finding volumes

The list of mounted file system volumes: `FS_MountVolume`, `FS_UnmountVolume`, and the names under
which `FileSystemVolumeList` adds and finds the volumes.  What the drivers and the allocator answer,
and what a new object holds in memory, comes from outside.
-/

namespace MicroFramework.Volumes

open Library

def fsNameDefaultLength : ℕ := 7

def fsNameMaxLength : ℕ := fsNameDefaultLength + 1

/-- An array of `FS_NAME_MAXLENGTH` characters. -/
structure NameBuffer where
  bytes : List UInt8
  length_eq : bytes.length = fsNameMaxLength
  deriving DecidableEq

namespace NameBuffer

/-- A character is stored. -/
def set (b : NameBuffer) (i : ℕ) (c : UInt8) : NameBuffer where
  bytes := b.bytes.set i c
  length_eq := by rw [List.length_set, b.length_eq]

/-- `hal_strncpy_s` of all of a string that fits. -/
def copy (b : NameBuffer) (s : List UInt8) (h : s.length < fsNameMaxLength) : NameBuffer where
  bytes := s ++ 0 :: b.bytes.drop (s.length + 1)
  length_eq := by
    rw [List.length_append, List.length_cons, List.length_drop, b.length_eq]
    omega

end NameBuffer

/-! ### The next name -/

structure NextAvailableName where
  nextAvailableName : NameBuffer
  digit : ℕ
  iteration : ℕ

namespace NextAvailableName

/-- `Initialize`, on memory that holds `memory`, with the string at `originalName`. -/
def initializeName (memory : NextAvailableName) (originalName : List UInt8) :
    Option NextAvailableName :=
  if (cString originalName).length = 0 then none
  else if h : (cString originalName).length < fsNameMaxLength then
    some { memory with
      nextAvailableName := memory.nextAvailableName.copy (cString originalName) h
      iteration := 0 }
  else none

/-- Where the digit of the suffix goes behind a name of this length. -/
def digitPos (nameLength : ℕ) : ℕ :=
  let digitPos := nameLength + 1
  -- if the suffix is too long, the name is trimmed
  if fsNameDefaultLength ≤ digitPos then fsNameDefaultLength - 1 else digitPos

def generateNextAvailableName (n : NextAvailableName) : Option NextAvailableName :=
  if n.iteration = 0 then some { n with iteration := n.iteration + 1 }
  else if n.iteration = 1 then
    let digit := digitPos (cString n.nextAvailableName.bytes).length
    some { n with
      nextAvailableName := (n.nextAvailableName.set (digit - 1) 0x5F).set digit 0x31
      digit := digit
      iteration := n.iteration + 1 }
  else
    match n.nextAvailableName.bytes[n.digit]? with
    | none => none
    | some c =>
      if c = 0x39 then none
      else some { n with nextAvailableName := n.nextAvailableName.set n.digit (c + 1) }

end NextAvailableName

/-! ### The list of volumes -/

section VolumeList

variable {Device Medium Driver : Type*}

/-- `FileSystemVolume` -/
structure Volume (Device Driver : Type*) where
  nameSpace : NameBuffer
  serialNumber : ℕ
  deviceFlags : ℕ
  streamDriver : Option Driver
  fsDriver : Option Driver
  blockStorageDevice : Device
  volumeId : ℕ

def nameTaken (volumes : List (Volume Device Driver)) (name : NameBuffer) : Bool :=
  volumes.any fun current ↦
    strncmpZero fsNameDefaultLength current.nameSpace.bytes name.bytes = some true

/-- The loop of `AddVolume` over the names; ten names at most come from one original name. -/
def nextName (volumes : List (Volume Device Driver)) :
    ℕ → NextAvailableName → Option NextAvailableName
  | 0, _ => none
  | fuel + 1, n =>
    match n.generateNextAvailableName with
    | none => none
    | some n => if nameTaken volumes n.nextAvailableName then nextName volumes fuel n else some n

structure Request (Device Driver : Type*) where
  nameSpace : List UInt8
  serialNumber : ℕ
  deviceFlags : ℕ
  streamDriver : Option Driver
  fsDriver : Option Driver
  blockStorageDevice : Device

/-- What comes from outside for one volume: whether there is memory for it, what the helper for its
name holds before, and whether the driver can initialize it. -/
structure Surroundings where
  allocated : Bool
  memory : NextAvailableName
  initialized : Bool

def addVolume (volumes : List (Volume Device Driver)) (request : Request Device Driver)
    (volumeId : ℕ) (s : Surroundings) : Bool × List (Volume Device Driver) :=
  match s.memory.initializeName request.nameSpace with
  | none => (false, volumes)
  | some n =>
    match nextName volumes 11 n with
    | none => (false, volumes)
    | some n =>
      let fsv : Volume Device Driver :=
        { nameSpace := n.nextAvailableName
          serialNumber := request.serialNumber
          deviceFlags := request.deviceFlags
          streamDriver := request.streamDriver
          fsDriver := request.fsDriver
          blockStorageDevice := request.blockStorageDevice
          volumeId := volumeId }
      let success := if request.fsDriver.isSome then s.initialized else true
      if success then (true, volumes ++ [fsv]) else (false, volumes)

/-- `FindVolume`; a read behind `m_nameSpace` has no result. -/
def findVolume (nameSpace : List UInt8) :
    List (Volume Device Driver) → Option (Option (Volume Device Driver))
  | [] => some none
  | volume :: volumes =>
    match strncmpZero nameSpace.length volume.nameSpace.bytes (nameSpace ++ [0]) with
    | none => none
    | some false => findVolume nameSpace volumes
    | some true =>
      -- the name may be the start of a longer one
      match volume.nameSpace.bytes[nameSpace.length]? with
      | none => none
      | some c => if c = 0 then some (some volume) else findVolume nameSpace volumes

/-! ### Mounting and unmounting -/

/-- An installed file system: its driver, whether the driver can load a device with the medium that
it has at the time, and the number of volumes that it then reports. -/
structure FileSystem (Device Medium Driver : Type*) where
  fsDriver : Option Driver
  streamDriver : Option Driver
  isLoadableMedia : Option (Device → Medium → ℕ → Bool × ℕ)

/-- The file system that will mount the device, and the number of volumes. -/
def findFileSystem (device : Device) (medium : Medium) :
    List (FileSystem Device Medium Driver) → ℕ → Option (FileSystem Device Medium Driver) × ℕ
  | [], _ => (none, 1)
  | fileSystem :: fileSystems, numVolumes =>
    match fileSystem.fsDriver, fileSystem.isLoadableMedia with
    | some _, some isLoadableMedia =>
      let answer := isLoadableMedia device medium numVolumes
      if answer.1 then (some fileSystem, answer.2)
      else findFileSystem device medium fileSystems answer.2
    | _, _ => findFileSystem device medium fileSystems numVolumes

/-- The volumes that are mounted, and those that were. -/
structure VolumeLists (Device Driver : Type*) where
  volumes : List (Volume Device Driver)
  zombies : List (Volume Device Driver)

/-- The loop of `FS_MountVolume` over the numbers of the volumes: one that is not added is left out,
and one without memory ends the loop. -/
def mountVolumes (request : Request Device Driver) (surroundings : ℕ → Surroundings) :
    List ℕ → List (Volume Device Driver) → List (Volume Device Driver)
  | [], volumes => volumes
  | i :: is, volumes =>
    if (surroundings i).allocated then
      mountVolumes request surroundings is (addVolume volumes request i (surroundings i)).2
    else volumes

/-- The request with the drivers of the file system that was found. -/
def requestFor (nameSpace : List UInt8) (serialNumber deviceFlags : ℕ) (device : Device)
    (fileSystem : Option (FileSystem Device Medium Driver)) : Request Device Driver where
  nameSpace := nameSpace
  serialNumber := serialNumber
  deviceFlags := deviceFlags
  streamDriver := fileSystem.bind (·.streamDriver)
  fsDriver := fileSystem.bind (·.fsDriver)
  blockStorageDevice := device

variable [DecidableEq Device]

def mountVolume (fileSystems : List (FileSystem Device Medium Driver)) (nameSpace : List UInt8)
    (serialNumber deviceFlags : ℕ) (device : Device) (medium : Medium)
    (surroundings : ℕ → Surroundings) (s : VolumeLists Device Driver) : VolumeLists Device Driver where
  volumes :=
    let found := findFileSystem device medium fileSystems 0
    mountVolumes (requestFor nameSpace serialNumber deviceFlags device found.1) surroundings
      (List.range found.2) s.volumes
  -- the memory of the former volumes of the device is released
  zombies := s.zombies.filter fun current ↦ current.blockStorageDevice ≠ device

def unmountVolume (device : Device) (s : VolumeLists Device Driver) :
    VolumeLists Device Driver where
  volumes := s.volumes.filter fun current ↦ current.blockStorageDevice ≠ device
  zombies := s.zombies ++ s.volumes.filter fun current ↦ current.blockStorageDevice = device

/-- A call of the file system, and what it meets. -/
inductive Call (Device Medium : Type*)
  | mountVolume (nameSpace : List UInt8) (serialNumber deviceFlags : ℕ) (device : Device)
      (medium : Medium) (surroundings : ℕ → Surroundings)
  | unmountVolume (device : Device)

def step (fileSystems : List (FileSystem Device Medium Driver)) (s : VolumeLists Device Driver) :
    Call Device Medium → Option (VolumeLists Device Driver)
  | .mountVolume nameSpace serialNumber deviceFlags device medium surroundings =>
    some (mountVolume fileSystems nameSpace serialNumber deviceFlags device medium surroundings s)
  | .unmountVolume device => some (unmountVolume device s)

end VolumeList

end MicroFramework.Volumes
