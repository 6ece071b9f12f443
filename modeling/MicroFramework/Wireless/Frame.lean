import MicroFramework.Arrays.Copy
import MicroFramework.Library.Simulation
import MicroFramework.Support.LittleEndian

/-!
# Frames

A frame is a range in a buffer, with room in front of it and behind it.  The calls check their
arguments against the range, the room or the buffer, and `Array.Copy` checks them once more; sums
are values of `int`.  No call of this build marks a frame as released.
-/

namespace MicroFramework.Wireless

open Arrays Library Support

inductive Thrown
  | argumentOutOfRange
  | indexOutOfRange
  deriving DecidableEq

/-- What a call comes to that does not return: it throws, or its copy goes outside the arrays. -/
inductive Failure
  | thrown (e : Thrown)
  | outside
  deriving DecidableEq

structure Frame where
  buf : List UInt8
  lenOffset : ℤ
  lenData : ℤ
  deriving DecidableEq

def arrayCopy (source : List UInt8) (sourceIndex : ℤ) (destination : List UInt8)
    (destinationIndex length : ℤ) : Except Failure (List UInt8) :=
  match copy source sourceIndex destination destinationIndex length with
  | .ok bytes => .ok bytes
  | .error .outOfRange => .error (.thrown .argumentOutOfRange)
  | .error .outside => .error .outside

def readElement (array : List UInt8) (index : ℤ) : Except Failure UInt8 :=
  if 0 ≤ index then
    match array[index.toNat]? with
    | some b => .ok b
    | none => .error (.thrown .indexOutOfRange)
  else .error (.thrown .indexOutOfRange)

def readElements (array : List UInt8) (index : ℤ) : ℕ → Except Failure (List UInt8)
  | 0 => .ok []
  | n + 1 => do
    let b ← readElement array index
    let rest ← readElements array (int32 (index + 1)) n
    .ok (b :: rest)

/-- The bytes of a number, most significant first, shifted together. -/
def combine (bytes : List UInt8) : ℕ := bytes.foldl (fun res b ↦ res <<< 8 ||| b.toNat) 0

namespace Frame

variable (f : Frame)

/-! ### The room -/

def lengthDataUsed : ℤ := f.lenData

def lengthDataAvail : ℤ := int32 (int32 (f.buf.length - f.lenOffset) - f.lenData)

/-- `new Frame(size)`, then `ReserveHeader(len)`. -/
def create (size len : ℕ) : Frame := ⟨List.replicate size 0, len, 0⟩

def grow (nbBytes : ℤ) : Frame :=
  { f with lenData := int32 (f.lenData + nbBytes), lenOffset := int32 (f.lenOffset - nbBytes) }

/-- The range is moved before the bytes are copied. -/
def appendToFront (byteArray : List UInt8) (index nbBytes : ℤ) : Frame × Except Failure Unit :=
  if f.lenOffset < nbBytes then (f, .error (.thrown .argumentOutOfRange))
  else
    match arrayCopy byteArray index f.buf (f.grow nbBytes).lenOffset nbBytes with
    | .ok buf => ({ f.grow nbBytes with buf := buf }, .ok ())
    | .error e => (f.grow nbBytes, .error e)

def appendToBack (byteArray : List UInt8) (index nbBytes : ℤ) : Frame × Except Failure Unit :=
  if f.lengthDataAvail < nbBytes then (f, .error (.thrown .argumentOutOfRange))
  else
    match arrayCopy byteArray index f.buf (int32 (f.lenOffset + f.lenData)) nbBytes with
    | .ok buf => ({ f with buf := buf, lenData := int32 (f.lenData + nbBytes) }, .ok ())
    | .error e => (f, .error e)

def deleteFromFront (nbBytes : ℤ) : Frame × Except Failure Unit :=
  if f.lenData < nbBytes then (f, .error (.thrown .argumentOutOfRange))
  else ({ f with
    lenData := int32 (f.lenData - nbBytes), lenOffset := int32 (f.lenOffset + nbBytes) }, .ok ())

def deleteFromBack (nbBytes : ℤ) : Frame × Except Failure Unit :=
  if f.lenData < nbBytes then (f, .error (.thrown .argumentOutOfRange))
  else ({ f with lenData := int32 (f.lenData - nbBytes) }, .ok ())

def allocFront (nbBytes : ℤ) : Frame × Except Failure Unit :=
  if f.lenOffset < nbBytes then (f, .error (.thrown .argumentOutOfRange))
  else (f.grow nbBytes, .ok ())

def allocBack (nbBytes : ℤ) : Frame × Except Failure Unit :=
  if f.lengthDataAvail < nbBytes then (f, .error (.thrown .argumentOutOfRange))
  else ({ f with lenData := int32 (f.lenData + nbBytes) }, .ok ())

/-! ### Reading -/

def readBytes (byteArray : List UInt8) (indexArray indexFrame nbBytes : ℤ) :
    Except Failure (List UInt8) :=
  if f.lenData < int32 (nbBytes + indexFrame) then .error (.thrown .argumentOutOfRange)
  else arrayCopy f.buf (int32 (f.lenOffset + indexFrame)) byteArray indexArray nbBytes

def readRaw (nbBytes : ℕ) (indexFrame : ℤ) : Except Failure (List UInt8) :=
  if f.lenData < int32 (nbBytes + indexFrame) then .error (.thrown .argumentOutOfRange)
  else readElements f.buf (int32 (indexFrame + f.lenOffset)) nbBytes

def readNetwork (nbBytes : ℕ) (indexFrame : ℤ) : Except Failure ℕ :=
  (f.readRaw nbBytes indexFrame).map combine

def readCanonical (nbBytes : ℕ) (indexFrame : ℤ) : Except Failure ℕ :=
  (f.readRaw nbBytes indexFrame).map fun bytes ↦ combine bytes.reverse

def readByte (indexFrame : ℤ) : Except Failure ℕ := f.readNetwork 1 indexFrame

def readUInt16 (indexFrame : ℤ) : Except Failure ℕ := f.readNetwork 2 indexFrame

def readUInt32 (indexFrame : ℤ) : Except Failure ℕ := f.readNetwork 4 indexFrame

def readUInt64 (indexFrame : ℤ) : Except Failure ℕ := f.readNetwork 8 indexFrame

def readUInt16Canonical (indexFrame : ℤ) : Except Failure ℕ := f.readCanonical 2 indexFrame

def readUInt32Canonical (indexFrame : ℤ) : Except Failure ℕ := f.readCanonical 4 indexFrame

def readUInt64Canonical (indexFrame : ℤ) : Except Failure ℕ := f.readCanonical 8 indexFrame

/-! ### Writing -/

def writeElement (index : ℤ) (b : UInt8) : Frame × Except Failure Unit :=
  if 0 ≤ index ∧ index < f.buf.length then
    ({ f with buf := f.buf.set index.toNat b }, .ok ())
  else (f, .error (.thrown .indexOutOfRange))

def writeUp (f : Frame) (index : ℤ) : List UInt8 → Frame × Except Failure Unit
  | [] => (f, .ok ())
  | b :: rest =>
    match f.writeElement index b with
    | (f, .ok ()) => writeUp f (int32 (index + 1)) rest
    | (f, .error e) => (f, .error e)

/-- Bytes written one after the other, the first at the highest index, down to `index`. -/
def writeDown (f : Frame) (index : ℤ) : List UInt8 → Frame × Except Failure Unit
  | [] => (f, .ok ())
  | b :: rest =>
    match f.writeElement (int32 (index + rest.length)) b with
    | (f, .ok ()) => writeDown f index rest
    | (f, .error e) => (f, .error e)

/-- The writers of numbers: the check, and the bytes in the order `write` has. -/
def writeRaw (write : Frame → ℤ → List UInt8 → Frame × Except Failure Unit) (bytes : List UInt8)
    (indexFrame : ℤ) : Frame × Except Failure Unit :=
  if f.lenData < int32 (bytes.length + indexFrame) then (f, .error (.thrown .argumentOutOfRange))
  else write f (int32 (indexFrame + f.lenOffset)) bytes

def writeByte (indexFrame : ℤ) (val : UInt8) : Frame × Except Failure Unit :=
  f.writeRaw writeUp [val] indexFrame

/-- The high byte is written first. -/
def writeUInt16 (indexFrame : ℤ) (val : UInt16) : Frame × Except Failure Unit :=
  f.writeRaw writeUp (leBytes 2 val.toNat).reverse indexFrame

/-- The low byte is written first, at the highest index. -/
def writeUInt32 (indexFrame : ℤ) (val : UInt32) : Frame × Except Failure Unit :=
  f.writeRaw writeDown (leBytes 4 val.toNat) indexFrame

def writeUInt64 (indexFrame : ℤ) (val : UInt64) : Frame × Except Failure Unit :=
  f.writeRaw writeDown (leBytes 8 val.toNat) indexFrame

def writeUInt16Canonical (indexFrame : ℤ) (val : UInt16) : Frame × Except Failure Unit :=
  f.writeRaw writeUp (leBytes 2 val.toNat) indexFrame

def writeUInt32Canonical (indexFrame : ℤ) (val : UInt32) : Frame × Except Failure Unit :=
  f.writeRaw writeUp (leBytes 4 val.toNat) indexFrame

def writeUInt64Canonical (indexFrame : ℤ) (val : UInt64) : Frame × Except Failure Unit :=
  f.writeRaw writeUp (leBytes 8 val.toNat) indexFrame

/-- The end is compared with the length of the buffer. -/
def writeBytes (indexFrame : ℤ) (b : List UInt8) : Frame × Except Failure Unit :=
  if f.buf.length < int32 (indexFrame + b.length) then (f, .error (.thrown .argumentOutOfRange))
  else
    match arrayCopy b 0 f.buf (int32 (f.lenOffset + indexFrame)) b.length with
    | .ok buf => ({ f with buf := buf }, .ok ())
    | .error e => (f, .error e)

/-! ### Other frames -/

def appendFrameToFront (srcFrame : Frame) (index nbBytes : ℤ) : Frame × Except Failure Unit :=
  f.appendToFront srcFrame.buf (int32 (srcFrame.lenOffset + index)) nbBytes

def appendFrameToBack (srcFrame : Frame) (index nbBytes : ℤ) : Frame × Except Failure Unit :=
  f.appendToBack srcFrame.buf (int32 (srcFrame.lenOffset + index)) nbBytes

/-- `ReadBytes` into another frame, which is returned: its buffer is the array. -/
def readBytesTo (toFrame : Frame) (indexToFrame indexFrame nbBytes : ℤ) :
    Frame × Except Failure Unit :=
  if toFrame.lengthDataUsed < int32 (toFrame.lenOffset + nbBytes) then
    (toFrame, .error (.thrown .argumentOutOfRange))
  else
    match f.readBytes toFrame.buf indexToFrame indexFrame nbBytes with
    | .ok buf => ({ toFrame with buf := buf }, .ok ())
    | .error e => (toFrame, .error e)

def writeToFront (byteArray : List UInt8) : Frame × Except Failure Unit :=
  f.appendToFront byteArray 0 byteArray.length

def writeToBack (byteArray : List UInt8) : Frame × Except Failure Unit :=
  f.appendToBack byteArray 0 byteArray.length

def writeFrameToFront (frame : Frame) : Frame × Except Failure Unit :=
  f.appendFrameToFront frame 0 frame.lengthDataUsed

def writeFrameToBack (frame : Frame) : Frame × Except Failure Unit :=
  f.appendFrameToBack frame 0 frame.lengthDataUsed

end Frame

/-! ## Byte sequences with room -/

/-- A byte sequence, with the bytes in the room in front of it and behind it. -/
structure Window where
  front : List UInt8
  bytes : List UInt8
  back : List UInt8
  deriving DecidableEq

/-- A part of a sequence; no bytes are a part wherever they are asked for. -/
def slice (bytes : List UInt8) (index nbBytes : ℤ) : Option (List UInt8) :=
  if nbBytes = 0 ∨ InRange index nbBytes bytes.length then
    some (readRange bytes index.toNat nbBytes.toNat)
  else none

def overwrite (bytes : List UInt8) (index : ℤ) (part : List UInt8) : Option (List UInt8) :=
  if part = [] ∨ InRange index part.length bytes.length then
    some (replaceRange bytes index.toNat part)
  else none

namespace Window

variable (w : Window)

/-- The room in front becomes shorter by the bytes that are appended. -/
def appendFront (part : List UInt8) : Option Window :=
  if part.length ≤ w.front.length then
    some ⟨w.front.take (w.front.length - part.length), part ++ w.bytes, w.back⟩
  else none

def appendBack (part : List UInt8) : Option Window :=
  if part.length ≤ w.back.length then
    some ⟨w.front, w.bytes ++ part, w.back.drop part.length⟩
  else none

def deleteFront (nbBytes : ℤ) : Option Window :=
  if InRange 0 nbBytes w.bytes.length then
    some ⟨w.front ++ w.bytes.take nbBytes.toNat, w.bytes.drop nbBytes.toNat, w.back⟩
  else none

def deleteBack (nbBytes : ℤ) : Option Window :=
  if InRange 0 nbBytes w.bytes.length then
    some ⟨w.front, w.bytes.take (w.bytes.length - nbBytes.toNat),
      w.bytes.drop (w.bytes.length - nbBytes.toNat) ++ w.back⟩
  else none

/-- The bytes that were in the room come into the sequence. -/
def allocFront (nbBytes : ℤ) : Option Window :=
  if InRange 0 nbBytes w.front.length then
    some ⟨w.front.take (w.front.length - nbBytes.toNat),
      w.front.drop (w.front.length - nbBytes.toNat) ++ w.bytes, w.back⟩
  else none

def allocBack (nbBytes : ℤ) : Option Window :=
  if InRange 0 nbBytes w.back.length then
    some ⟨w.front, w.bytes ++ w.back.take nbBytes.toNat, w.back.drop nbBytes.toNat⟩
  else none

def write (index : ℤ) (part : List UInt8) : Option Window :=
  (overwrite w.bytes index part).map fun bytes ↦ { w with bytes := bytes }

end Window

/-! ## Programs with frames -/

structure ManagedArray where
  bytes : List UInt8
  length_lt : bytes.length < 2 ^ 31

/-- The size of a buffer, and the room in front that it is created with. -/
structure Room where
  size : ℕ
  header : ℕ
  header_le : header ≤ size
  size_lt : size < 2 ^ 31

/-- Where bytes to append come from. -/
inductive Source
  | array (a : ManagedArray)
  | frame (id : ℕ)

inductive Reader
  | byte
  | uint16
  | uint32
  | uint64
  | uint16Canonical
  | uint32Canonical
  | uint64Canonical

inductive Number
  | byte (val : UInt8)
  | uint16 (val : UInt16)
  | uint32 (val : UInt32)
  | uint64 (val : UInt64)
  | uint16Canonical (val : UInt16)
  | uint32Canonical (val : UInt32)
  | uint64Canonical (val : UInt64)

/-- The calls, with the frames they are made on. -/
inductive Op
  | create (id : ℕ) (room : Room)
  | appendToFront (id : ℕ) (source : Source) (index nbBytes : Int32)
  | appendToBack (id : ℕ) (source : Source) (index nbBytes : Int32)
  | writeToFront (id : ℕ) (source : Source)
  | writeToBack (id : ℕ) (source : Source)
  | deleteFromFront (id : ℕ) (nbBytes : Int32)
  | deleteFromBack (id : ℕ) (nbBytes : Int32)
  | allocFront (id : ℕ) (nbBytes : Int32)
  | allocBack (id : ℕ) (nbBytes : Int32)
  | read (id : ℕ) (reader : Reader) (indexFrame : Int32)
  | write (id : ℕ) (number : Number) (indexFrame : Int32)
  | writeBytes (id : ℕ) (indexFrame : Int32) (b : ManagedArray)
  | readBytes (id : ℕ) (byteArray : ManagedArray) (indexArray indexFrame nbBytes : Int32)
  | readBytesTo (id toId : ℕ) (indexToFrame indexFrame nbBytes : Int32)

/-- What a call comes to.  Outside the arrays anything may happen. -/
inductive Answer
  | threw
  | outside
  | done
  | number (value : ℕ)
  | array (bytes : List UInt8)

namespace Reader

def nbBytes : Reader → ℕ
  | byte => 1
  | uint16 | uint16Canonical => 2
  | uint32 | uint32Canonical => 4
  | uint64 | uint64Canonical => 8

def read (f : Frame) (indexFrame : ℤ) : Reader → Except Failure ℕ
  | byte => f.readByte indexFrame
  | uint16 => f.readUInt16 indexFrame
  | uint32 => f.readUInt32 indexFrame
  | uint64 => f.readUInt64 indexFrame
  | uint16Canonical => f.readUInt16Canonical indexFrame
  | uint32Canonical => f.readUInt32Canonical indexFrame
  | uint64Canonical => f.readUInt64Canonical indexFrame

/-- The number whose bytes these are. -/
def value (bytes : List UInt8) : Reader → ℕ
  | byte | uint16 | uint32 | uint64 => leValue bytes.reverse
  | uint16Canonical | uint32Canonical | uint64Canonical => leValue bytes

end Reader

namespace Number

def write (f : Frame) (indexFrame : ℤ) : Number → Frame × Except Failure Unit
  | byte val => f.writeByte indexFrame val
  | uint16 val => f.writeUInt16 indexFrame val
  | uint32 val => f.writeUInt32 indexFrame val
  | uint64 val => f.writeUInt64 indexFrame val
  | uint16Canonical val => f.writeUInt16Canonical indexFrame val
  | uint32Canonical val => f.writeUInt32Canonical indexFrame val
  | uint64Canonical val => f.writeUInt64Canonical indexFrame val

def bytes : Number → List UInt8
  | byte val => [val]
  | uint16 val => (leBytes 2 val.toNat).reverse
  | uint32 val => (leBytes 4 val.toNat).reverse
  | uint64 val => (leBytes 8 val.toNat).reverse
  | uint16Canonical val => leBytes 2 val.toNat
  | uint32Canonical val => leBytes 4 val.toNat
  | uint64Canonical val => leBytes 8 val.toNat

def firstWritten : Number → ℕ
  | uint32 _ => 3
  | uint64 _ => 7
  | _ => 0

end Number

abbrev Frames := ℕ → Option Frame

section run

variable (frames : Frames)

def answerOf {α : Type} (answer : α → Answer) : Except Failure α → Answer
  | .ok x => answer x
  | .error (.thrown _) => .threw
  | .error .outside => .outside

/-- A call on a frame; there is none behind a null reference. -/
def onFrame (id : ℕ) (call : Frame → Frame × Except Failure Unit) : Frames × Answer :=
  match frames id with
  | none => (frames, .threw)
  | some f => (Function.update frames id (some (call f).1), answerOf (fun _ ↦ .done) (call f).2)

def withFrame (id : ℕ) (call : Frame → Frames × Answer) : Frames × Answer :=
  match frames id with
  | none => (frames, .threw)
  | some f => call f

def step : Op → Frames × Answer
  | .create id room => (Function.update frames id (some (.create room.size room.header)), .done)
  | .appendToFront id (.array a) index nbBytes =>
    onFrame frames id (·.appendToFront a.bytes index.toInt nbBytes.toInt)
  | .appendToFront id (.frame src) index nbBytes =>
    withFrame frames src fun g ↦
      onFrame frames id (·.appendFrameToFront g index.toInt nbBytes.toInt)
  | .appendToBack id (.array a) index nbBytes =>
    onFrame frames id (·.appendToBack a.bytes index.toInt nbBytes.toInt)
  | .appendToBack id (.frame src) index nbBytes =>
    withFrame frames src fun g ↦ onFrame frames id (·.appendFrameToBack g index.toInt nbBytes.toInt)
  | .writeToFront id (.array a) => onFrame frames id (·.writeToFront a.bytes)
  | .writeToFront id (.frame src) =>
    withFrame frames src fun g ↦ onFrame frames id (·.writeFrameToFront g)
  | .writeToBack id (.array a) => onFrame frames id (·.writeToBack a.bytes)
  | .writeToBack id (.frame src) =>
    withFrame frames src fun g ↦ onFrame frames id (·.writeFrameToBack g)
  | .deleteFromFront id nbBytes => onFrame frames id (·.deleteFromFront nbBytes.toInt)
  | .deleteFromBack id nbBytes => onFrame frames id (·.deleteFromBack nbBytes.toInt)
  | .allocFront id nbBytes => onFrame frames id (·.allocFront nbBytes.toInt)
  | .allocBack id nbBytes => onFrame frames id (·.allocBack nbBytes.toInt)
  | .read id reader indexFrame =>
    withFrame frames id fun f ↦ (frames, answerOf .number (reader.read f indexFrame.toInt))
  | .write id number indexFrame => onFrame frames id fun f ↦ number.write f indexFrame.toInt
  | .writeBytes id indexFrame b => onFrame frames id (·.writeBytes indexFrame.toInt b.bytes)
  | .readBytes id byteArray indexArray indexFrame nbBytes =>
    withFrame frames id fun f ↦ (frames, answerOf .array
      (f.readBytes byteArray.bytes indexArray.toInt indexFrame.toInt nbBytes.toInt))
  | .readBytesTo id toId indexToFrame indexFrame nbBytes =>
    withFrame frames id fun f ↦ onFrame frames toId fun toFrame ↦
      f.readBytesTo toFrame indexToFrame.toInt indexFrame.toInt nbBytes.toInt

end run

/-! ## What the calls should do -/

abbrev Windows := ℕ → Option Window

section spec

variable (windows : Windows)

def Source.sequence : Source → Option (List UInt8)
  | .array a => some a.bytes
  | .frame id => (windows id).map Window.bytes

def onWindow (id : ℕ) (call : Window → Option Window) : Option (Windows × Answer) :=
  (windows id).bind fun w ↦ (call w).map fun w' ↦ (Function.update windows id (some w'), .done)

/-- The effect of a call on the sequences, if it has one. -/
def effect : Op → Option (Windows × Answer)
  | .create id room => some (Function.update windows id (some
      ⟨List.replicate room.header 0, [], List.replicate (room.size - room.header) 0⟩), .done)
  | .appendToFront id source index nbBytes =>
    (source.sequence windows).bind fun bytes ↦
      (slice bytes index.toInt nbBytes.toInt).bind fun part ↦
        onWindow windows id (·.appendFront part)
  | .appendToBack id source index nbBytes =>
    (source.sequence windows).bind fun bytes ↦
      (slice bytes index.toInt nbBytes.toInt).bind fun part ↦
        onWindow windows id (·.appendBack part)
  | .writeToFront id source =>
    (source.sequence windows).bind fun bytes ↦ onWindow windows id (·.appendFront bytes)
  | .writeToBack id source =>
    (source.sequence windows).bind fun bytes ↦ onWindow windows id (·.appendBack bytes)
  | .deleteFromFront id nbBytes => onWindow windows id (·.deleteFront nbBytes.toInt)
  | .deleteFromBack id nbBytes => onWindow windows id (·.deleteBack nbBytes.toInt)
  | .allocFront id nbBytes => onWindow windows id (·.allocFront nbBytes.toInt)
  | .allocBack id nbBytes => onWindow windows id (·.allocBack nbBytes.toInt)
  | .read id reader indexFrame =>
    (windows id).bind fun w ↦ (slice w.bytes indexFrame.toInt reader.nbBytes).map fun bytes ↦
      (windows, .number (reader.value bytes))
  | .write id number indexFrame => onWindow windows id (·.write indexFrame.toInt number.bytes)
  | .writeBytes id indexFrame b => onWindow windows id (·.write indexFrame.toInt b.bytes)
  | .readBytes id byteArray indexArray indexFrame nbBytes =>
    (windows id).bind fun w ↦ (slice w.bytes indexFrame.toInt nbBytes.toInt).bind fun part ↦
      (overwrite byteArray.bytes indexArray.toInt part).map fun bytes ↦ (windows, .array bytes)
  | .readBytesTo id toId indexToFrame indexFrame nbBytes =>
    (windows id).bind fun w ↦ (slice w.bytes indexFrame.toInt nbBytes.toInt).bind fun part ↦
      onWindow windows toId (·.write indexToFrame.toInt part)

/-- A call throws and changes nothing, or has exactly its effect. -/
def Allowed (op : Op) (answer : Answer) (windows' : Windows) : Prop :=
  (answer = .threw ∧ windows' = windows) ∨ effect windows op = some (windows', answer)

end spec

end MicroFramework.Wireless
