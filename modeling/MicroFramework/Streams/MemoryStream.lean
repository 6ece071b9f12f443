import MicroFramework.Heap.ArrayCreation

/-!
# Memory streams

`CLR_RT_HeapBlock_MemoryStream`: bits are written and read, the highest first, in a list of
buffers of fixed size.  `m_pos` is the byte in use and `m_avail` the number of its bits that are
still to come; both move to the next byte only when a bit of it is needed.
-/

namespace MicroFramework.Streams

open Heap

/-- `c_PayloadSize`: 32 heap blocks, less the pointer and the length. -/
def payloadSize : ℕ := 32 * 12 - 4 - 4

inductive Failure
  | outOfRange
  | outOfMemory
  /-- An access outside the buffers. -/
  | wild
  deriving DecidableEq

/-- `CLR_RT_HeapBlock_MemoryStream::Buffer`; `data` is the caller's memory where `m_data` does not
point to the payload. -/
structure Buffer where
  data : Option (List UInt8)
  length : ℕ
  payload : Vector UInt8 payloadSize

/-- The bytes that `m_data` points to. -/
def Buffer.bytes (b : Buffer) : List UInt8 :=
  b.data.getD b.payload.toList

/-- `memcpy` of the payload: it must not run over its end. -/
def Buffer.copyPayload (b : Buffer) : Option (List UInt8) :=
  if b.length ≤ payloadSize then some (b.payload.toList.take b.length) else none

/-- What `EVENTCACHE_EXTRACT_NODE` gives for the buffer with this number: the bytes left over in
the block, or nothing. -/
abbrev EventCache := ℕ → Option (Vector UInt8 payloadSize)

/-- `current` is the number of `m_current` in the list, and the length of the list for its
tail. -/
structure MemoryStream where
  buffers : List Buffer
  current : ℕ
  pos : ℤ
  avail : ℕ

namespace MemoryStream

variable (cache : EventCache) (s : MemoryStream)

def newBuffer : Except Failure { s' : MemoryStream // s'.pos = -1 } :=
  match cache s.buffers.length with
  | none => .error .outOfMemory
  | some payload =>
    .ok ⟨{ buffers := s.buffers ++ [⟨none, 0, payload⟩]
           current := s.buffers.length
           pos := -1
           avail := 0 }, rfl⟩

def createInstance (buf : Option (List UInt8)) : Except Failure MemoryStream := do
  let s ← newBuffer cache ⟨[], 0, -1, 0⟩
  match buf with
  | none => return s.1
  | some buf =>
    return { s.1 with
      buffers := s.1.buffers.modify s.1.current fun b ↦
        { b with data := some buf, length := buf.length } }

/-! ## Counting -/

/-- A value of type `int`. -/
def toInt32 (x : ℤ) : ℤ := x.bmod (2 ^ 32)

def bitsAvailable : ℤ :=
  toInt32 (s.avail - 8 * s.pos - 8 + 8 * ((s.buffers.drop s.current).map Buffer.length).sum)

def bitsWritten : ℤ :=
  toInt32 (s.pos * 8 - s.avail + 8 + 8 * ((s.buffers.take s.current).map Buffer.length).sum)

/-- `ToArray`: the array and the bytes copied to its elements.  There is no result where the
creation of the array has none or a copy runs over the end of a payload. -/
def toArray (engine : Engine) (heap : ClusterHeap) (uint8 : ReflectionDef) :
    Option (HResult × Option (ArrayBlock × List UInt8)) := do
  let tot := UInt32.ofNat (s.buffers.map Buffer.length).sum
  let creation ← Heap.createInstance engine heap tot uint8
  if creation.hr ≠ .ok then return (creation.hr, none)
  let array ← creation.reference
  let copies ← s.buffers.mapM Buffer.copyPayload
  return (.ok, some (array, copies.flatten))

/-! ## Writing -/

def mask (insert : ℕ) : UInt32 := (1 <<< UInt32.ofNat insert) - 1

/-- The byte `i` of the current buffer becomes the one in use. -/
def startByte (i : ℕ) (h : i < payloadSize) :
    Except Failure { s' : MemoryStream // 0 < s'.avail } :=
  match s.buffers[s.current]? with
  | none => .error .wild
  | some b =>
    let b := { b with length := b.length + 1, payload := b.payload.set i 0 h }
    .ok ⟨{ s with buffers := s.buffers.set s.current b, pos := i, avail := 8 }, Nat.succ_pos 7⟩

/-- The inner loop of `WriteBits`.  Its second turn is in a new buffer, where it ends. -/
def roomToWrite : Except Failure { s' : MemoryStream // 0 < s'.avail } :=
  if h : 0 < s.avail then .ok ⟨s, h⟩
  else if h : (s.pos + 1).toNat < payloadSize then s.startByte (s.pos + 1).toNat h
  else do
    let s ← s.newBuffer cache
    s.1.startByte (s.1.pos + 1).toNat (by rw [s.2]; decide)

/-- `chunk` goes below the bits that are already in the byte. -/
def putChunk (chunk : UInt32) (insert : ℕ) : Except Failure MemoryStream :=
  match s.buffers[s.current]? with
  | none => .error .wild
  | some b =>
    if h : s.pos.toNat < payloadSize then
      let byte := (chunk <<< UInt32.ofNat (s.avail - insert)).toUInt8
      let b := { b with payload := b.payload.set s.pos.toNat (b.payload[s.pos.toNat] ||| byte) }
      .ok { s with buffers := s.buffers.set s.current b, avail := s.avail - insert }
    else .error .wild

/-- `WriteBits` for a word of 32 bits.  In the source `pos` goes down together with `bits`. -/
def writeBits32 (val : UInt32) (bits : ℕ) (s : MemoryStream) : Except Failure MemoryStream :=
  if bits = 0 then .ok s
  else
    match s.roomToWrite cache with
    | .error e => .error e
    | .ok ⟨s, _⟩ =>
      let insert := min bits s.avail
      match s.putChunk ((val >>> UInt32.ofNat (bits - insert)) &&& mask insert) insert with
      | .error e => .error e
      | .ok s => writeBits32 val (bits - insert) s
termination_by bits
decreasing_by omega

def writeBits (res : UInt64) (bits : ℕ) : Except Failure MemoryStream :=
  if bits > 32 then do
    let s ← s.writeBits32 cache (res >>> 32).toUInt32 (bits - 32)
    s.writeBits32 cache res.toUInt32 32
  else s.writeBits32 cache res.toUInt32 bits

/-! ## Reading -/

/-- The innermost loop of `ReadBits`, which passes over the buffers that are used up. -/
def seekData (s : MemoryStream) : Except Failure MemoryStream :=
  match _h : s.buffers[s.current]? with
  | none => .error .wild
  | some b =>
    if s.pos ≥ b.length then
      if s.current + 1 = s.buffers.length then .error .outOfRange
      else seekData { s with current := s.current + 1, pos := 0 }
    else .ok s
termination_by s.buffers.length - s.current
decreasing_by
  have := (List.getElem?_eq_some_iff.mp _h).1
  omega

/-- The loop of `ReadBits` that moves to the next byte. -/
def dataToRead : Except Failure { s' : MemoryStream // 0 < s'.avail } :=
  if h : 0 < s.avail then .ok ⟨s, h⟩
  else do
    let s ← seekData { s with pos := s.pos + 1 }
    return ⟨{ s with avail := 8 }, Nat.succ_pos 7⟩

/-- `m_data[m_pos]` -/
def currentData : Except Failure UInt8 :=
  match s.buffers[s.current]? with
  | none => .error .wild
  | some b =>
    match b.bytes[s.pos.toNat]? with
    | none => .error .wild
    | some byte => .ok byte

def readLoop (val : UInt32) (bits : ℕ) (s : MemoryStream) :
    Except Failure (UInt32 × MemoryStream) :=
  if bits = 0 then .ok (val, s)
  else
    match s.dataToRead with
    | .error e => .error e
    | .ok ⟨s, _⟩ =>
      match s.currentData with
      | .error e => .error e
      | .ok data =>
        let insert := min bits s.avail
        let chunk := (data.toUInt32 >>> UInt32.ofNat (s.avail - insert)) &&& mask insert
        readLoop (val ||| chunk <<< UInt32.ofNat (bits - insert)) (bits - insert)
          { s with avail := s.avail - insert }
termination_by bits
decreasing_by omega

def readBits32 (bits : ℕ) : Except Failure (UInt32 × MemoryStream) :=
  readLoop 0 bits s

def readBits (bits : ℕ) : Except Failure (UInt64 × MemoryStream) :=
  if bits > 32 then do
    let (high, s) ← s.readBits32 (bits - 32)
    let (low, s) ← s.readBits32 32
    return (high.toUInt64 <<< 32 ||| low.toUInt64, s)
  else do
    let (low, s) ← s.readBits32 bits
    return (low.toUInt64, s)

end MemoryStream

end MicroFramework.Streams
