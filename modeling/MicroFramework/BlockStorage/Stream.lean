import MicroFramework.Arrays.Range
import MicroFramework.TinyBooter.BlockStorage

/-!
# Streams over block storage

A stream goes over the ranges of a usage, from device to device.  It describes the range it is in,
moves to the next or the previous one, and reads, writes and erases through the device.
-/

namespace MicroFramework.BlockStorage

open Arrays TinyBooter

def BlockUsage.ANY : UInt32 := 0x0000

structure BlockStorageStream where
  baseAddress : ℕ
  currentIndex : ℕ
  length : ℕ
  blockLength : ℕ
  usage : UInt32
  regionIndex : ℕ
  rangeIndex : ℕ
  isXIP : Bool
  currentUsage : UInt32
  device : Option ℕ
  deriving DecidableEq, Repr

/-- What a device is asked to do: the device, the address, the number of bytes and their place in
the buffer of the caller.  A mapped device is not asked: its address is handed out. -/
inductive Access where
  | read (device address length buffer : ℕ)
  | write (device address length buffer : ℕ)
  | map (device address : ℕ)
  | eraseBlock (device address : ℕ)
  deriving DecidableEq, Repr

/-- The answer of the devices, which may depend on all they were asked before. -/
abbrev Respond := List Access → Access → Bool

/-! ## Looking for a range -/

def findRange (usage : UInt32) : ℕ → List BlockRange → Option (ℕ × BlockRange)
  | _, [] => none
  | rangeIndex, range :: ranges =>
    if range.getBlockUsage = usage ∨ usage = BlockUsage.ANY then some (rangeIndex, range)
    else findRange usage (rangeIndex + 1) ranges

/-- The regions from an index on, the first of them from a range on. -/
def findRegion (usage : UInt32) :
    ℕ → ℕ → List BlockRegionInfo → Option (ℕ × ℕ × BlockRegionInfo × BlockRange)
  | _, _, [] => none
  | regionIndex, rangeIndex, region :: regions =>
    match findRange usage rangeIndex (region.blockRanges.drop rangeIndex) with
    | some (found, range) => some (regionIndex, found, region, range)
    | none => findRegion usage (regionIndex + 1) 0 regions

def findNextUsageBlock (usage : UInt32) (regionIndex rangeIndex : ℕ) (device : BlockDeviceInfo) :
    Option (ℕ × ℕ × BlockRegionInfo × BlockRange) :=
  findRegion usage regionIndex rangeIndex (device.regions.drop regionIndex)

/-- The devices from an index on, the first of them from a range of a region on. -/
def findDevice (usage : UInt32) : ℕ → ℕ → ℕ → List BlockDeviceInfo →
    Option (ℕ × BlockDeviceInfo × ℕ × ℕ × BlockRegionInfo × BlockRange)
  | _, _, _, [] => none
  | deviceIndex, regionIndex, rangeIndex, device :: devices =>
    match findNextUsageBlock usage regionIndex rangeIndex device with
    | some found => some (deviceIndex, device, found)
    | none => findDevice usage (deviceIndex + 1) 0 0 devices

/-- `BlockStorageStream::NextStream`: without a next range the stream stays as it is. -/
def nextStream (devices : List BlockDeviceInfo) (s : BlockStorageStream) :
    BlockStorageStream × Bool :=
  let deviceIndex := s.device.getD 0
  let rangeIndex := if s.device = none then s.rangeIndex else (s.rangeIndex + 1) % 2 ^ 32
  match findDevice s.usage deviceIndex s.regionIndex rangeIndex (devices.drop deviceIndex) with
  | none => (s, false)
  | some (deviceIndex, device, regionIndex, rangeIndex, region, range) =>
    ({ s with
       baseAddress := region.blockAddress range.startBlock
       currentIndex := 0
       length := range.getBlockCount * region.bytesPerBlock
       blockLength := region.bytesPerBlock
       regionIndex := regionIndex
       rangeIndex := rangeIndex
       isXIP := if s.device = some deviceIndex then s.isXIP else device.supportsXIP
       currentUsage := range.getBlockUsage
       device := some deviceIndex }, true)

def lookup (devices : List BlockDeviceInfo) (deviceIndex regionIndex rangeIndex : ℕ) :
    Option (BlockDeviceInfo × BlockRegionInfo × BlockRange) := do
  let device ← devices[deviceIndex]?
  let region ← device.regions[regionIndex]?
  let range ← region.blockRanges[rangeIndex]?
  some (device, region, range)

def numRegions (devices : List BlockDeviceInfo) (deviceIndex : ℕ) : ℕ :=
  (devices[deviceIndex]?.map (·.regions.length)).getD 0

def numBlockRanges (devices : List BlockDeviceInfo) (deviceIndex regionIndex : ℕ) : ℕ :=
  ((devices[deviceIndex]?.bind (·.regions[regionIndex]?)).map (·.blockRanges.length)).getD 0

/-- The indices one range before, which need not exist: a device may be without regions, and a
region without ranges. -/
def stepBack (devices : List BlockDeviceInfo) (deviceIndex regionIndex rangeIndex : ℕ) :
    Option (ℕ × ℕ × ℕ) :=
  if rangeIndex ≠ 0 then some (deviceIndex, regionIndex, rangeIndex - 1)
  else if regionIndex ≠ 0 then
    some (deviceIndex, regionIndex - 1, numBlockRanges devices deviceIndex (regionIndex - 1) - 1)
  else if deviceIndex ≠ 0 then
    let last := numRegions devices (deviceIndex - 1) - 1
    some (deviceIndex - 1, last, numBlockRanges devices (deviceIndex - 1) last - 1)
  else none

/-- The loop of `PrevStream`, in at most so many turns; it has no result where it looks at a range
that does not exist. -/
def findBack (devices : List BlockDeviceInfo) (usage : UInt32) : ℕ → ℕ → ℕ → ℕ →
    Option (Option (ℕ × ℕ × ℕ × BlockDeviceInfo × BlockRegionInfo × BlockRange))
  | 0, _, _, _ => none
  | turns + 1, deviceIndex, regionIndex, rangeIndex =>
    match stepBack devices deviceIndex regionIndex rangeIndex with
    | none => some none
    | some (deviceIndex, regionIndex, rangeIndex) =>
      (lookup devices deviceIndex regionIndex rangeIndex).bind fun (device, region, range) ↦
        if range.getBlockUsage = usage then
          some (some (deviceIndex, regionIndex, rangeIndex, device, region, range))
        else findBack devices usage turns deviceIndex regionIndex rangeIndex

def countRanges (devices : List BlockDeviceInfo) : ℕ :=
  (devices.map fun device ↦ (device.regions.map fun region ↦ region.blockRanges.length).sum).sum

/-- `BlockStorageStream::PrevStream`: without a previous range the stream stays as it is. -/
def prevStream (devices : List BlockDeviceInfo) (s : BlockStorageStream) :
    Option (BlockStorageStream × Bool) :=
  match s.device with
  | none => some (s, false)
  | some deviceIndex =>
    (findBack devices s.usage (countRanges devices + 1) deviceIndex s.regionIndex s.rangeIndex).map
      fun found ↦
        match found with
        | none => (s, false)
        | some (deviceIndex, regionIndex, rangeIndex, device, region, range) =>
          ({ s with
             baseAddress := region.blockAddress range.startBlock
             currentIndex := 0
             length := range.getBlockCount * region.bytesPerBlock
             blockLength := region.bytesPerBlock
             regionIndex := regionIndex
             rangeIndex := rangeIndex
             isXIP := device.supportsXIP
             device := some deviceIndex }, true)

/-- `BlockStorageStream::Initialize`: at the first range of the usage, on the given device or behind
it.  Without a primary device nothing is changed. -/
def initializeStream (devices : List BlockDeviceInfo) (primary : Bool) (usage : UInt32)
    (device : Option ℕ) (s : BlockStorageStream) : BlockStorageStream × Bool :=
  if primary = false then (s, false)
  else
    let device := device.filter (· < devices.length)
    nextStream devices
      { baseAddress := 0, currentIndex := 0, length := 0, blockLength := 0, usage := usage,
        regionIndex := 0, rangeIndex := if device = none then 0 else 2 ^ 32 - 1,
        isXIP := ((device.bind (devices[·]?)).map (·.supportsXIP)).getD false,
        currentUsage := 0, device := device }

/-! ## Seeking -/

inductive SeekOrigin where
  | seekBegin
  | seekCurrent
  | seekEnd
  | other
  deriving DecidableEq, Repr

def STREAM_SEEK_NEXT_BLOCK : ℤ := 0x7FFFFFFF

def STREAM_SEEK_PREV_BLOCK : ℤ := 0x7FFFFFFE

/-- The offset of a seek: to the next or the previous block, or as given. -/
def seekOffset (seekIndex offset : ℤ) (s : BlockStorageStream) : ℤ :=
  let blkOffset := seekIndex % 2 ^ 32 % s.blockLength
  if offset = STREAM_SEEK_NEXT_BLOCK then int32 (s.blockLength - blkOffset)
  else if offset = STREAM_SEEK_PREV_BLOCK then
    if blkOffset ≠ 0 then int32 (-blkOffset) else int32 (-s.blockLength)
  else offset

/-- The first loop of `Seek`, in at most so many turns. -/
def seekForward (devices : List BlockDeviceInfo) :
    ℕ → ℤ → BlockStorageStream → Option (ℤ × BlockStorageStream × Bool)
  | 0, _, _ => none
  | turns + 1, seekIndex, s =>
    if int32 s.length ≤ seekIndex then
      match nextStream devices s with
      | (next, true) => seekForward devices turns (int32 (seekIndex - s.length)) next
      | (next, false) => some (int32 (seekIndex - s.length), next, false)
    else some (seekIndex, s, true)

/-- The second loop of `Seek`, in at most so many turns. -/
def seekBackward (devices : List BlockDeviceInfo) :
    ℕ → ℤ → BlockStorageStream → Option (ℤ × BlockStorageStream × Bool)
  | 0, _, _ => none
  | turns + 1, seekIndex, s =>
    if seekIndex < 0 then
      (prevStream devices s).bind fun (previous, found) ↦
        if found then seekBackward devices turns (int32 (seekIndex + previous.length)) previous
        else some (seekIndex, previous, false)
    else some (seekIndex, s, true)

def seekStart (origin : SeekOrigin) (s : BlockStorageStream) : Option ℤ :=
  match origin with
  | .seekBegin => some 0
  | .seekCurrent => some (int32 s.currentIndex)
  | .seekEnd => some (int32 s.length)
  | .other => none

/-- `BlockStorageStream::Seek`: it has no result where the sum of the start and the offset is no
`int`. -/
def seek (devices : List BlockDeviceInfo) (offset : ℤ) (origin : SeekOrigin)
    (s : BlockStorageStream) : Option (BlockStorageStream × Bool) :=
  match seekStart origin s with
  | none => some (s, false)
  | some seekIndex =>
    let seekIndex := seekIndex + seekOffset seekIndex offset s
    if IsInt32 seekIndex then
      (seekForward devices (countRanges devices + 1) seekIndex s).bind fun (seekIndex, s, found) ↦
        if found then
          (seekBackward devices (countRanges devices + 1) seekIndex s).map
            fun (seekIndex, s, found) ↦
              if found then ({ s with currentIndex := seekIndex.toNat }, true) else (s, false)
        else some (s, false)
    else none

/-! ## Reading, writing and erasing -/

def currentAddress (s : BlockStorageStream) : ℕ := (s.baseAddress + s.currentIndex) % 2 ^ 32

def hasDevice (devices : List BlockDeviceInfo) (s : BlockStorageStream) : Bool :=
  s.device.any (· < devices.length)

/-- The loop of `Read` and `Write`, in at most so many turns: what is done with a part in one range
is given. -/
def transfer (devices : List BlockDeviceInfo)
    (part : List Access → BlockStorageStream → ℕ → ℕ → List Access × Bool) :
    ℕ → ℕ → ℕ → BlockStorageStream → List Access →
      Option (BlockStorageStream × List Access × Bool)
  | 0, length, _, s, accesses => if length = 0 then some (s, accesses, true) else none
  | turns + 1, length, buffer, s, accesses =>
    if length = 0 then some (s, accesses, true)
    else
      let entered := if s.currentIndex = s.length then nextStream devices s else (s, true)
      if entered.2 = false then some (entered.1, accesses, false)
      else
        let s := entered.1
        let count :=
          if s.length < (s.currentIndex + length) % 2 ^ 32 then
            (s.length + 2 ^ 32 - s.currentIndex) % 2 ^ 32
          else length
        let done := part accesses s count buffer
        if done.2 = false then some (s, done.1, false)
        else
          transfer devices part turns (length - count) (buffer + count)
            { s with currentIndex := (s.currentIndex + count) % 2 ^ 32 } done.1

/-- A part of a write or of a read goes to the device. -/
def ask (respond : Respond) (access : ℕ → ℕ → ℕ → ℕ → Access) (accesses : List Access)
    (s : BlockStorageStream) (count buffer : ℕ) : List Access × Bool :=
  let request := access (s.device.getD 0) (currentAddress s) count buffer
  (accesses ++ [request], respond accesses request)

/-- Of a mapped device the address of the first part is handed out. -/
def handOut (accesses : List Access) (s : BlockStorageStream) (_count buffer : ℕ) :
    List Access × Bool :=
  if buffer = 0 then (accesses ++ [.map (s.device.getD 0) (currentAddress s)], true)
  else (accesses, true)

def write (devices : List BlockDeviceInfo) (respond : Respond) (data : Bool) (length : ℕ)
    (s : BlockStorageStream) (accesses : List Access) :
    Option (BlockStorageStream × List Access × Bool) :=
  if hasDevice devices s = false ∨ data = false then some (s, accesses, false)
  else transfer devices (ask respond .write) length length 0 s accesses

def read (devices : List BlockDeviceInfo) (respond : Respond) (ppBuffer : Bool) (length : ℕ)
    (s : BlockStorageStream) (accesses : List Access) :
    Option (BlockStorageStream × List Access × Bool) :=
  if hasDevice devices s = false ∨ ppBuffer = false then some (s, accesses, false)
  else if ((s.device.bind (devices[·]?)).map (·.supportsXIP)).getD false then
    transfer devices handOut length length 0 s accesses
  else transfer devices (ask respond .read) length length 0 s accesses

/-- The loop of `Erase`, in at most so many turns.  A block that is not erased leaves at once,
without a value. -/
def eraseLoop (devices : List BlockDeviceInfo) (respond : Respond) :
    ℕ → ℤ → BlockStorageStream → List Access →
      Option (BlockStorageStream × List Access × Option Bool)
  | 0, len, s, accesses => if 0 < len then none else some (s, accesses, some true)
  | turns + 1, len, s, accesses =>
    if 0 < len then
      let request := .eraseBlock (s.device.getD 0) (currentAddress s)
      if respond accesses request = false then some (s, accesses ++ [request], none)
      else
        (seek devices STREAM_SEEK_NEXT_BLOCK .seekCurrent s).bind fun (next, found) ↦
          let moved := if found then (next, true) else nextStream devices next
          if moved.2 then
            eraseLoop devices respond turns (int32 (len - moved.1.blockLength)) moved.1
              (accesses ++ [request])
          else some (moved.1, accesses ++ [request], some false)
    else some (s, accesses, some true)

/-- `BlockStorageStream::Erase`: the stream goes back to where it was, but not where a block was
not erased. -/
def erase (devices : List BlockDeviceInfo) (respond : Respond) (length : ℕ)
    (s : BlockStorageStream) (accesses : List Access) :
    Option (BlockStorageStream × List Access × Bool) :=
  if hasDevice devices s = false then some (s, accesses, false)
  else
    let entered := if s.currentIndex = s.length then nextStream devices s else (s, true)
    if entered.2 = false then some (entered.1, accesses, false)
    else
      (eraseLoop devices respond length (int32 length) entered.1 accesses).map
        fun (stopped, accesses, result) ↦
          match result with
          | none => (stopped, accesses, false)
          | some result => (s, accesses, result)

/-! ## Calls -/

inductive Call where
  | nextStream
  | prevStream
  | seek (offset : ℤ) (origin : SeekOrigin)
  | read (ppBuffer : Bool) (length : ℕ)
  | write (data : Bool) (length : ℕ)
  | erase (length : ℕ)
  deriving DecidableEq, Repr

/-- A call on a stream: the stream behind it, all accesses so far and the value. -/
def call (devices : List BlockDeviceInfo) (respond : Respond) (op : Call)
    (s : BlockStorageStream) (accesses : List Access) :
    Option (BlockStorageStream × List Access × Bool) :=
  match op with
  | .nextStream => some ((nextStream devices s).1, accesses, (nextStream devices s).2)
  | .prevStream => (prevStream devices s).map fun (s, result) ↦ (s, accesses, result)
  | .seek offset origin =>
    (seek devices offset origin s).map fun (s, result) ↦ (s, accesses, result)
  | .read ppBuffer length => read devices respond ppBuffer length s accesses
  | .write data length => write devices respond data length s accesses
  | .erase length => erase devices respond length s accesses

end MicroFramework.BlockStorage
