import Mathlib.Data.List.DropRight
import Mathlib.Data.UInt

/-!
# The input stream of an HTTP connection

The stream wrapper that the body of a response is read from.  Below it is the network stream, whose
bytes come in segments as they arrive; an empty segment stands for a moment at which nothing has
arrived.  The wrapper keeps up to 256 bytes that were received and not asked for yet, decodes the
chunks of a chunked body, and counts the bytes that a response of declared length still has.  The
buffer of the caller has room for what the caller asks for.
-/

namespace MicroFramework.Http

/-- What the calls throw. -/
inductive Exception
  | connectionAborted
  | protocolViolation (message : String)
  | argument
  | indexOutOfRange
  deriving DecidableEq, Repr

section NetworkStream

def available (arrivals : List (List UInt8)) : ℕ :=
  (arrivals.head?.map List.length).getD 0

/-- `Receive` of the socket waits for a byte, and takes what is there up to `count`. -/
def receive : List (List UInt8) → ℕ → List UInt8 × List (List UInt8)
  | [], _ => ([], [])
  | segment :: arrivals, count =>
    if segment = [] then receive arrivals count
    else
      (segment.take count,
        if segment.length ≤ count then arrivals else segment.drop count :: arrivals)

def readStream (arrivals : List (List UInt8)) (count : ℕ) : List UInt8 × List (List UInt8) :=
  if count > available arrivals ∧ available arrivals > 0 then
    receive arrivals (available arrivals)
  else receive arrivals count

end NetworkStream

section Convert

/-- The value of an upper-case hexadecimal digit. -/
def hexDigit (c : UInt8) : Option ℕ :=
  if 48 ≤ c ∧ c ≤ 57 then some (c.toNat - 48)
  else if 65 ≤ c ∧ c ≤ 70 then some (c.toNat - 55)
  else none

def toUpper (c : UInt8) : UInt8 := if 97 ≤ c ∧ c ≤ 122 then c - 32 else c

def trim (text : List UInt8) : List UInt8 :=
  (text.dropWhile fun c ↦ c == 32).rdropWhile fun c ↦ c == 32

/-- The loop of `ToInt32` over the digits, as the unsigned value of the 32 bits. -/
def toInt32Loop : ℕ → List UInt8 → Except Exception ℕ
  | result, [] => .ok result
  | result, c :: text =>
    match hexDigit c with
    | some digit => toInt32Loop ((result * 16 + digit) % 2 ^ 32) text
    | none => .error .argument

def toInt32 (hexNumber : List UInt8) : Except Exception ℕ :=
  let text := (trim hexNumber).map toUpper
  let digits := if text.take 2 = [48, 88] then text.drop 2 else text
  if digits.length > 8 then .error .argument else toInt32Loop 0 digits

end Convert

inductive ChunkState
  | size
  | name
  | value
  | lf
  | initialLF
  deriving DecidableEq, Repr

structure Chunk where
  size : ℕ
  offsetIntoChunk : ℕ
  deriving DecidableEq, Repr

/-- The local variables of `GetChunk`: `buffer` is the filled part of its 1024 bytes. -/
structure ChunkParser where
  nextChunkSize : ℕ
  parsing : Bool
  state : ChunkState
  buffer : List UInt8
  deriving DecidableEq, Repr

namespace ChunkParser

def initial : ChunkParser := ⟨0, true, .initialLF, []⟩

/-- One turn of the loop of `GetChunk`. -/
def step (p : ChunkParser) (readByte : UInt8) : Except Exception ChunkParser :=
  if readByte = 13 then
    match p.state with
    | .initialLF => .ok p
    | .size =>
      match toInt32 p.buffer with
      | .ok size => .ok { p with nextChunkSize := size, buffer := [], state := .lf }
      | .error e => .error e
    | .value => .ok { p with buffer := [], state := .lf }
    | .name | .lf => .error (.protocolViolation "Wrong state for CR")
  else if readByte = 10 then
    match p.state with
    | .lf => .ok { p with parsing := false }
    | .initialLF => .ok { p with state := .size }
    | .size | .name | .value =>
      .error (.protocolViolation "Incorrectly formated Chunk - Unexpected Line Feed")
  else if readByte = 59 then
    match p.state with
    | .size =>
      match toInt32 p.buffer with
      | .ok size => .ok { p with nextChunkSize := size, buffer := [], state := .name }
      | .error e => .error e
    | .name | .value | .lf | .initialLF => .error (.protocolViolation "Incorrectly formated Chunk")
  else if readByte = 61 then
    match p.state with
    | .name => .ok { p with buffer := [], state := .value }
    | .size | .value | .lf | .initialLF => .error (.protocolViolation "Incorrectly formated Chunk")
  else
    let state := if p.state = .initialLF then .size else p.state
    if 1024 ≤ p.buffer.length then .error .indexOutOfRange
    else if state = .lf then .error (.protocolViolation "Unexpected data after Line Feed")
    else .ok { p with state := state, buffer := p.buffer ++ [readByte] }

end ChunkParser

/-- The wrapper: `buffered` are the bytes of its buffer that were not taken yet. -/
structure InputNetworkStreamWrapper where
  stream : List (List UInt8)
  buffered : List UInt8
  enableChunkedDecoding : Bool
  chunk : Option Chunk
  bytesLeftInResponse : ℤ
  deriving DecidableEq, Repr

def readBufferSize : ℕ := 256

namespace InputNetworkStreamWrapper

variable (w : InputNetworkStreamWrapper)

/-- The bytes of the connection that no call has taken yet. -/
def unread : List UInt8 := w.buffered ++ w.stream.flatten

/-- `RefillInternalBuffer`: what has arrived, up to the size of the buffer, or else one byte. -/
def refillInternalBuffer : InputNetworkStreamWrapper :=
  let length := available w.stream
  let readCount :=
    if length > readBufferSize then readBufferSize else if length = 0 then 1 else length
  { w with
    buffered := (readStream w.stream readCount).1
    stream := (readStream w.stream readCount).2 }

/-- The last step of `ReadInternal`. -/
def updateBytesLeft (retVal : ℕ) : InputNetworkStreamWrapper :=
  if w.bytesLeftInResponse > 0 then
    { w with
      bytesLeftInResponse :=
        if w.bytesLeftInResponse - retVal < 0 then 0 else w.bytesLeftInResponse - retVal }
  else w

/-- `ReadInternal`: the buffered bytes, and then more if they are not enough.  When no more come,
it returns nothing. -/
def readInternal (size : ℕ) : List UInt8 × InputNetworkStreamWrapper :=
  let copied := w.buffered.take size
  let w := { w with buffered := w.buffered.drop size }
  let size := size - copied.length
  if size > 0 ∧ (w.bytesLeftInResponse = -1 ∨ w.bytesLeftInResponse > (copied.length : ℤ)) then
    if size < readBufferSize then
      let w := w.refillInternalBuffer
      if w.buffered = [] then ([], w)
      else
        let more := w.buffered.take size
        (copied ++ more, { w with buffered := w.buffered.drop size }.updateBytesLeft
          (copied.length + more.length))
    else
      let more := (readStream w.stream size).1
      (copied ++ more, { w with stream := (readStream w.stream size).2 }.updateBytesLeft
        (copied.length + more.length))
  else (copied, w.updateBytesLeft copied.length)

def readByte : Except Exception UInt8 × InputNetworkStreamWrapper :=
  let w := if w.buffered = [] then w.refillInternalBuffer else w
  match w.buffered with
  | [] => (.error .connectionAborted, w)
  | byte :: buffered => (.ok byte, { w with buffered := buffered })

/-- The loop of `GetChunk`: every turn takes a byte, so that as many turns as there are bytes, and
one that finds none, are enough. -/
def getChunkLoop : ℕ → ChunkParser → InputNetworkStreamWrapper →
    Except Exception Chunk × InputNetworkStreamWrapper
  | 0, _, w => (.error .connectionAborted, w)
  | turns + 1, p, w =>
    match w.readByte with
    | (.error e, w) => (.error e, w)
    | (.ok byte, w) =>
      match p.step byte with
      | .error e => (.error e, w)
      | .ok p => if p.parsing then getChunkLoop turns p w else (.ok ⟨p.nextChunkSize, 0⟩, w)

def getChunk : Except Exception Chunk × InputNetworkStreamWrapper :=
  getChunkLoop (w.unread.length + 1) .initial w

def readChunk (chunk : Chunk) (size : ℕ) : List UInt8 × InputNetworkStreamWrapper :=
  if chunk.size = 0 then ([], { w with chunk := some chunk })
  else
    let size :=
      if size > chunk.size - chunk.offsetIntoChunk then chunk.size - chunk.offsetIntoChunk else size
    let result := w.readInternal size
    let offset := chunk.offsetIntoChunk + result.1.length
    (result.1, { result.2 with
      chunk := if offset = chunk.size then none else some ⟨chunk.size, offset⟩ })

def read (size : ℕ) : Except Exception (List UInt8) × InputNetworkStreamWrapper :=
  if w.enableChunkedDecoding then
    match w.chunk with
    | some chunk => (.ok (w.readChunk chunk size).1, (w.readChunk chunk size).2)
    | none =>
      match w.getChunk with
      | (.error e, w) => (.error e, w)
      | (.ok chunk, w) => (.ok (w.readChunk chunk size).1, (w.readChunk chunk size).2)
  else (.ok (w.readInternal size).1, (w.readInternal size).2)

end InputNetworkStreamWrapper

end MicroFramework.Http
