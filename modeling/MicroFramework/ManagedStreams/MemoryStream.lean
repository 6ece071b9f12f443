import MicroFramework.Arrays.Copy
import MicroFramework.Library.Simulation

/-!
# `System.IO.MemoryStream`

The stream over an array that is allocated by the stream and grows, or is given by the user and does
not.  The origin is 0 in both, and the stream is open.  Arrays can be allocated, and the array of a
call is not that of the stream.
-/

namespace MicroFramework.ManagedStreams

open Arrays Library

/-- What the calls throw; `outside` is a copy that goes outside the arrays. -/
inductive Thrown where
  | argumentNull
  | argumentOutOfRange
  | argument
  | notSupported
  | ioException
  | indexOutOfRange
  | outside
deriving DecidableEq, Repr

/-- `SeekOrigin`; `other` is a value that is none of the three. -/
inductive SeekOrigin where
  | atBegin
  | atCurrent
  | atEnd
  | other
deriving DecidableEq, Repr

/-- What the calls return; a reading call leaves its bytes in the array of the caller. -/
inductive Answer where
  | nothing
  | number (n : ℤ)
  | filled (n : ℤ) (buffer : List UInt8)
  | bytes (copy : List UInt8)
deriving DecidableEq, Repr

/-- The calls, with their arguments; an array is there unless its reference is null. -/
inductive Op where
  | read (buffer : Option (List UInt8)) (offset count : ℤ)
  | readByte
  | write (buffer : Option (List UInt8)) (offset count : ℤ)
  | writeByte (value : UInt8)
  | seek (offset : ℤ) (origin : SeekOrigin)
  | getPosition
  | setPosition (value : ℤ)
  | getLength
  | setLength (value : ℤ)
  | toArray

def memStreamMaxLength : ℤ := 0xFFFF

structure MemoryStream where
  buffer : List UInt8
  position : ℤ
  length : ℤ
  capacity : ℤ
  expandable : Bool
deriving DecidableEq, Repr

/-- The checks of the arguments of `Read` and `Write`. -/
def checkBuffer (buffer : Option (List UInt8)) (offset count : ℤ) : Except Thrown (List UInt8) :=
  match buffer with
  | none => .error .argumentNull
  | some buffer =>
    if offset < 0 ∨ count < 0 then .error .argumentOutOfRange
    else if buffer.length - offset < count then .error .argument
    else .ok buffer

def arrayCopy (source : List UInt8) (sourceIndex : ℤ) (destination : List UInt8)
    (destinationIndex length : ℤ) : Except Thrown (List UInt8) :=
  match copy source sourceIndex destination destinationIndex length with
  | .ok bytes => .ok bytes
  | .error .outOfRange => .error .argumentOutOfRange
  | .error .outside => .error .outside

namespace MemoryStream

variable (s : MemoryStream)

def expanding : MemoryStream := ⟨List.replicate 256 0, 0, 0, 256, true⟩

def overBuffer (buffer : List UInt8) : MemoryStream :=
  ⟨buffer, 0, buffer.length, buffer.length, false⟩

/-- `EnsureCapacity`, with whether a new array was allocated. -/
def ensureCapacity (value : ℤ) : Except Thrown (MemoryStream × Bool) :=
  if s.capacity < value then
    let newCapacity := if value < 256 then 256 else value
    let newCapacity :=
      if newCapacity < int32 (s.capacity * 2) then int32 (s.capacity * 2) else newCapacity
    if s.expandable = false ∧ s.capacity < newCapacity then .error .notSupported
    else
      .ok ({ s with
        buffer := s.buffer.take s.length.toNat ++
          List.replicate (newCapacity.toNat - s.length.toNat) 0
        capacity := newCapacity }, true)
  else .ok (s, false)

def read (buffer : Option (List UInt8)) (offset count : ℤ) :
    MemoryStream × Except Thrown Answer :=
  match checkBuffer buffer offset count with
  | .error e => (s, .error e)
  | .ok buffer =>
    let n := int32 (s.length - s.position)
    let n := if count < n then count else n
    if n ≤ 0 then (s, .ok (.filled 0 buffer))
    else
      match arrayCopy s.buffer s.position buffer offset n with
      | .error e => (s, .error e)
      | .ok buffer => ({ s with position := int32 (s.position + n) }, .ok (.filled n buffer))

def readByte : MemoryStream × Except Thrown Answer :=
  if s.length ≤ s.position then (s, .ok (.number (-1)))
  else
    let moved := { s with position := int32 (s.position + 1) }
    if 0 ≤ s.position ∧ s.position < s.buffer.length then
      (moved, .ok (.number (s.buffer.getD s.position.toNat 0).toNat))
    else (moved, .error .indexOutOfRange)

/-- The stream that is long enough for what `Write` writes up to `i`. -/
def lengthen (i : ℤ) : Except Thrown MemoryStream :=
  if s.length < i then
    if s.capacity < i then (s.ensureCapacity i).map fun grown ↦ { grown.1 with length := i }
    else .ok { s with length := i }
  else .ok s

def write (buffer : Option (List UInt8)) (offset count : ℤ) :
    MemoryStream × Except Thrown Answer :=
  match checkBuffer buffer offset count with
  | .error e => (s, .error e)
  | .ok buffer =>
    let i := int32 (s.position + count)
    match s.lengthen i with
    | .error e => (s, .error e)
    | .ok s =>
      match arrayCopy buffer offset s.buffer s.position count with
      | .error e => (s, .error e)
      | .ok written => ({ s with buffer := written, position := i }, .ok .nothing)

def reach : Except Thrown MemoryStream :=
  if s.capacity ≤ s.position then (s.ensureCapacity (int32 (s.position + 1))).map Prod.fst
  else .ok s

def writeByte (value : UInt8) : MemoryStream × Except Thrown Answer :=
  match s.reach with
  | .error e => (s, .error e)
  | .ok s =>
    let position := int32 (s.position + 1)
    if 0 ≤ s.position ∧ s.position < s.buffer.length then
      ({ s with
        buffer := s.buffer.set s.position.toNat value
        position := position
        length := if s.length < position then position else s.length }, .ok .nothing)
    else ({ s with position := position }, .error .indexOutOfRange)

/-- The new position is set and returned. -/
def moveTo (position : ℤ) : MemoryStream × Except Thrown Answer :=
  ({ s with position := position }, .ok (.number position))

def seek (offset : ℤ) (origin : SeekOrigin) : MemoryStream × Except Thrown Answer :=
  if memStreamMaxLength < offset then (s, .error .argumentOutOfRange)
  else
    match origin with
    | .atBegin =>
      if offset < 0 then (s, .error .ioException) else s.moveTo (int32 offset)
    | .atCurrent =>
      if (offset + s.position).bmod (2 ^ 64) < 0 then (s, .error .ioException)
      else s.moveTo (int32 (s.position + int32 offset))
    | .atEnd =>
      if (s.length + offset).bmod (2 ^ 64) < 0 then (s, .error .ioException)
      else s.moveTo (int32 (s.length + int32 offset))
    | .other => (s, .error .argument)

def setPosition (value : ℤ) : MemoryStream × Except Thrown Answer :=
  if value < 0 ∨ memStreamMaxLength < value then (s, .error .argumentOutOfRange)
  else ({ s with position := value }, .ok .nothing)

def setLength (value : ℤ) : MemoryStream × Except Thrown Answer :=
  if memStreamMaxLength < value ∨ value < 0 then (s, .error .argumentOutOfRange)
  else
    match s.ensureCapacity value with
    | .error e => (s, .error e)
    | .ok (s, allocatedNewArray) =>
      let buffer :=
        if allocatedNewArray = false ∧ s.length < value then
          replaceRange s.buffer s.length.toNat (List.replicate (value - s.length).toNat 0)
        else s.buffer
      ({ s with
        buffer := buffer
        length := value
        position := if value < s.position then value else s.position }, .ok .nothing)

def toArray : List UInt8 := s.buffer.take s.length.toNat

/-- A call. -/
def perform : Op → MemoryStream × Except Thrown Answer
  | .read buffer offset count => s.read buffer offset count
  | .readByte => s.readByte
  | .write buffer offset count => s.write buffer offset count
  | .writeByte value => s.writeByte value
  | .seek offset origin => s.seek offset origin
  | .getPosition => (s, .ok (.number s.position))
  | .setPosition value => s.setPosition value
  | .getLength => (s, .ok (.number s.length))
  | .setLength value => s.setLength value
  | .toArray => (s, .ok (.bytes s.toArray))

end MemoryStream

/-!
## Bytes with a cursor

What a memory stream is for: a list of bytes with a cursor, which a write behind the end fills up with
zeros.  A list of limited size stands for a stream over the array of the user.  The stream refines it
as long as no write starts behind the end where the array still holds other bytes than zeros, and the
position stays below `2 ^ 31`.
-/

/-- Bytes with a cursor, which may be behind their end, and the limit of their number. -/
structure ByteCursor where
  bytes : List UInt8
  cursor : ℕ
  limit : Option ℕ
deriving DecidableEq, Repr

/-- The list is filled up with zeros to the length `n`. -/
def padTo (n : ℕ) (bytes : List UInt8) : List UInt8 :=
  bytes ++ List.replicate (n - bytes.length) 0

namespace ByteCursor

variable (a : ByteCursor)

/-- The bytes may be as many as that. -/
def Fits (n : ℕ) : Prop :=
  match a.limit with
  | none => True
  | some limit => n ≤ limit

instance (n : ℕ) : Decidable (a.Fits n) :=
  match h : a.limit with
  | none => .isTrue (by rw [Fits, h]; trivial)
  | some limit => decidable_of_iff (n ≤ limit) (by rw [Fits, h])

def put (chunk : List UInt8) : ByteCursor × Except Thrown Answer :=
  if a.Fits (a.cursor + chunk.length) then
    ({ a with
      bytes := replaceRange (padTo (a.cursor + chunk.length) a.bytes) a.cursor chunk
      cursor := a.cursor + chunk.length }, .ok .nothing)
  else (a, .error .notSupported)

def read (buffer : Option (List UInt8)) (offset count : ℤ) : ByteCursor × Except Thrown Answer :=
  match checkBuffer buffer offset count with
  | .error e => (a, .error e)
  | .ok buffer =>
    let n := min count.toNat (a.bytes.length - a.cursor)
    ({ a with cursor := a.cursor + n },
      .ok (.filled n (replaceRange buffer offset.toNat (readRange a.bytes a.cursor n))))

def readByte : ByteCursor × Except Thrown Answer :=
  match a.bytes[a.cursor]? with
  | none => (a, .ok (.number (-1)))
  | some value => ({ a with cursor := a.cursor + 1 }, .ok (.number value.toNat))

def write (buffer : Option (List UInt8)) (offset count : ℤ) : ByteCursor × Except Thrown Answer :=
  match checkBuffer buffer offset count with
  | .error e => (a, .error e)
  | .ok buffer => a.put (readRange buffer offset.toNat count.toNat)

/-- The cursor is set to a position counted from `base`. -/
def moveFrom (base offset : ℤ) : ByteCursor × Except Thrown Answer :=
  if base + offset < 0 then (a, .error .ioException)
  else ({ a with cursor := (base + offset).toNat }, .ok (.number (base + offset)))

def seek (offset : ℤ) (origin : SeekOrigin) : ByteCursor × Except Thrown Answer :=
  if memStreamMaxLength < offset then (a, .error .argumentOutOfRange)
  else
    match origin with
    | .atBegin => a.moveFrom 0 offset
    | .atCurrent => a.moveFrom a.cursor offset
    | .atEnd => a.moveFrom a.bytes.length offset
    | .other => (a, .error .argument)

def setPosition (value : ℤ) : ByteCursor × Except Thrown Answer :=
  if value < 0 ∨ memStreamMaxLength < value then (a, .error .argumentOutOfRange)
  else ({ a with cursor := value.toNat }, .ok .nothing)

def setLength (value : ℤ) : ByteCursor × Except Thrown Answer :=
  if memStreamMaxLength < value ∨ value < 0 then (a, .error .argumentOutOfRange)
  else if a.Fits value.toNat then
    ({ a with
      bytes := padTo value.toNat (a.bytes.take value.toNat)
      cursor := min a.cursor value.toNat }, .ok .nothing)
  else (a, .error .notSupported)

/-- A call. -/
def perform : Op → ByteCursor × Except Thrown Answer
  | .read buffer offset count => a.read buffer offset count
  | .readByte => a.readByte
  | .write buffer offset count => a.write buffer offset count
  | .writeByte value => a.put [value]
  | .seek offset origin => a.seek offset origin
  | .getPosition => (a, .ok (.number a.cursor))
  | .setPosition value => a.setPosition value
  | .getLength => (a, .ok (.number a.bytes.length))
  | .setLength value => a.setLength value
  | .toArray => (a, .ok (.bytes a.bytes))

/-- The specification, as a relation. -/
def Allows (op : Op) (answer : Except Thrown Answer) (b : ByteCursor) : Prop :=
  a.perform op = (b, answer)

/-! ### A call that throws -/

/-- What a call that throws leaves is what it found. -/
def KeepsOnError (outcome : ByteCursor × Except Thrown Answer) : Prop :=
  ∀ e, outcome.2 = .error e → outcome.1 = a

theorem keepsOnError_error (e : Thrown) : a.KeepsOnError (a, .error e) := fun _ _ ↦ rfl

theorem keepsOnError_ok (b : ByteCursor) (answer : Answer) : a.KeepsOnError (b, .ok answer) := by
  intro e h
  cases h

theorem put_keeps (chunk : List UInt8) : a.KeepsOnError (a.put chunk) := by
  rw [put]
  split
  · apply keepsOnError_ok
  · apply keepsOnError_error

theorem read_keeps (buffer : Option (List UInt8)) (offset count : ℤ) :
    a.KeepsOnError (a.read buffer offset count) := by
  rw [read]
  split
  · apply keepsOnError_error
  · apply keepsOnError_ok

theorem readByte_keeps : a.KeepsOnError a.readByte := by
  rw [readByte]
  split <;> apply keepsOnError_ok

theorem write_keeps (buffer : Option (List UInt8)) (offset count : ℤ) :
    a.KeepsOnError (a.write buffer offset count) := by
  rw [write]
  split
  · apply keepsOnError_error
  · apply put_keeps

theorem moveFrom_keeps (base offset : ℤ) : a.KeepsOnError (a.moveFrom base offset) := by
  rw [moveFrom]
  split
  · apply keepsOnError_error
  · apply keepsOnError_ok

theorem seek_keeps (offset : ℤ) (origin : SeekOrigin) : a.KeepsOnError (a.seek offset origin) := by
  unfold seek
  split
  · apply keepsOnError_error
  · cases origin with
    | atBegin | atCurrent | atEnd => apply moveFrom_keeps
    | other => apply keepsOnError_error

theorem setPosition_keeps (value : ℤ) : a.KeepsOnError (a.setPosition value) := by
  rw [setPosition]
  split
  · apply keepsOnError_error
  · apply keepsOnError_ok

theorem setLength_keeps (value : ℤ) : a.KeepsOnError (a.setLength value) := by
  rw [setLength]
  split
  · apply keepsOnError_error
  · split
    · apply keepsOnError_ok
    · apply keepsOnError_error

/-- A call that throws changes nothing. -/
theorem perform_keeps (op : Op) : a.KeepsOnError (a.perform op) := by
  cases op with
  | read buffer offset count => exact a.read_keeps buffer offset count
  | readByte => exact a.readByte_keeps
  | write buffer offset count => exact a.write_keeps buffer offset count
  | writeByte value => exact a.put_keeps [value]
  | seek offset origin => exact a.seek_keeps offset origin
  | getPosition | getLength | toArray => exact a.keepsOnError_ok a _
  | setPosition value => exact a.setPosition_keeps value
  | setLength value => exact a.setLength_keeps value

end ByteCursor

/-! ## The refinement -/

/-- The offset of `Seek` is a `long`, and the length of an array an `int`. -/
def Op.Valid : Op → Prop
  | .read (some buffer) _ _ | .write (some buffer) _ _ => buffer.length < 2 ^ 31
  | .seek offset _ => -2 ^ 63 ≤ offset
  | _ => True

namespace MemoryStream

variable {s : MemoryStream} {a : ByteCursor}

structure Holds (s : MemoryStream) (a : ByteCursor) : Prop where
  length_eq : s.length = a.bytes.length
  bytes_eq : s.buffer.take a.bytes.length = a.bytes
  length_le : a.bytes.length ≤ s.buffer.length
  capacity_eq : s.capacity = s.buffer.length
  buffer_lt : s.buffer.length < 2 ^ 31
  position_eq : s.position = a.cursor
  position_lt : a.cursor < 2 ^ 31
  limit_eq : a.limit = if s.expandable then none else some s.buffer.length

/-- A write of so many bytes that starts behind the end finds zeros between, or takes a new array; and
the new position is below `2 ^ 31`. -/
def CleanWrite (s : MemoryStream) (count : ℤ) : Prop :=
  s.position + count < 2 ^ 31 ∧
    (s.capacity < s.position + count ∨
      ∀ j : ℕ, s.length ≤ j → (j : ℤ) < s.position → s.buffer[j]? = some 0)

/-- The calls that do not reach the defects. -/
def Clean (s : MemoryStream) : Op → Prop
  | .write _ _ count => 0 ≤ count → s.CleanWrite count
  | .writeByte _ => s.CleanWrite 1
  | .seek offset .atCurrent => s.position + offset < 2 ^ 31
  | .seek offset .atEnd => s.length + offset < 2 ^ 31
  | _ => True

end MemoryStream

end MicroFramework.ManagedStreams
