import Mathlib.Data.Prod.Lex
import MicroFramework.Support.Crc
import MicroFramework.Support.LittleEndian

/-!
# Wire-protocol packets

The 32-byte header `WP_Packet`, its memory image, the two ways a sender fills it in and the
checks a receiver makes on it.  The header checksum is computed over the whole header with its
own field zeroed, so the sender and the receiver agree exactly when they see the same image.
-/

namespace MicroFramework.WireProtocol

open Support List

/-- `MARKER_DEBUGGER_V1`, the NUL-terminated string `MSdbgV1`. -/
def markerDebuggerV1 : List UInt8 := [0x4D, 0x53, 0x64, 0x62, 0x67, 0x56, 0x31, 0x00]

/-- `MARKER_PACKET_V1`, the NUL-terminated string `MSpktV1`. -/
def markerPacketV1 : List UInt8 := [0x4D, 0x53, 0x70, 0x6B, 0x74, 0x56, 0x31, 0x00]

/-- `sizeof(m_header.m_signature)`. -/
abbrev signatureSize : ℕ := 8

/-- `sizeof(WP_Packet)`. -/
abbrev headerSize : ℕ := 32

namespace Flags

def nonCritical : UInt32 := 0x0001
def reply : UInt32 := 0x0002
def badHeader : UInt32 := 0x0004
def badPayload : UInt32 := 0x0008
def nack : UInt32 := 0x4000

end Flags

@[ext]
structure Packet where
  signature : List UInt8
  crcHeader : UInt32
  crcData : UInt32
  cmd : UInt32
  seq : UInt16
  seqReply : UInt16
  flags : UInt32
  size : UInt32
  deriving DecidableEq, Repr

namespace Packet

/-- The bytes of the header as they lie in memory and on the wire. -/
def image (packet : Packet) : List UInt8 :=
  packet.signature ++ (leBytes 4 packet.crcHeader.toNat ++ (leBytes 4 packet.crcData.toNat ++
    (leBytes 4 packet.cmd.toNat ++ (leBytes 2 packet.seq.toNat ++
      (leBytes 2 packet.seqReply.toNat ++ (leBytes 4 packet.flags.toNat ++
        leBytes 4 packet.size.toNat))))))

/-- The header that a 32-byte buffer holds. -/
def ofImage (buf : List UInt8) : Packet where
  signature := buf.take 8
  crcHeader := UInt32.ofNat (leValue ((buf.drop 8).take 4))
  crcData := UInt32.ofNat (leValue ((buf.drop 12).take 4))
  cmd := UInt32.ofNat (leValue ((buf.drop 16).take 4))
  seq := UInt16.ofNat (leValue ((buf.drop 20).take 2))
  seqReply := UInt16.ofNat (leValue ((buf.drop 22).take 2))
  flags := UInt32.ofNat (leValue ((buf.drop 24).take 4))
  size := UInt32.ofNat (leValue ((buf.drop 28).take 4))

theorem image_length (packet : Packet) (h : packet.signature.length = signatureSize) :
    packet.image.length = headerSize := by
  simp [image, h]

/-- A header survives the trip through memory. -/
theorem ofImage_image (packet : Packet) (h : packet.signature.length = signatureSize) :
    ofImage packet.image = packet := by
  have hdrop (width : ℕ) (value : ℕ) (n : ℕ) (rest : List UInt8) :
      List.drop (width + n) (leBytes width value ++ rest) = List.drop n rest := by
    rw [← drop_drop, drop_left' (leBytes_length width value)]
  have hsig (n : ℕ) (rest : List UInt8) :
      List.drop (8 + n) (packet.signature ++ rest) = List.drop n rest := by
    rw [← drop_drop, drop_left' h]
  have htake (width value : ℕ) (rest : List UInt8) :
      List.take width (leBytes width value ++ rest) = leBytes width value :=
    take_left' (leBytes_length width value)
  apply Packet.ext
  · exact take_left' h
  · change UInt32.ofNat (leValue (List.take 4 (List.drop (8 + 0) packet.image))) = _
    rw [image, hsig, drop_zero, htake, leValue_leBytes_toUInt32]
  · change UInt32.ofNat (leValue (List.take 4 (List.drop (8 + (4 + 0)) packet.image))) = _
    rw [image, hsig, hdrop, drop_zero, htake, leValue_leBytes_toUInt32]
  · change UInt32.ofNat (leValue (List.take 4 (List.drop (8 + (4 + (4 + 0))) packet.image))) = _
    rw [image, hsig, hdrop, hdrop, drop_zero, htake, leValue_leBytes_toUInt32]
  · change UInt16.ofNat (leValue (List.take 2
      (List.drop (8 + (4 + (4 + (4 + 0)))) packet.image))) = _
    rw [image, hsig, hdrop, hdrop, hdrop, drop_zero, htake, leValue_leBytes_toUInt16]
  · change UInt16.ofNat (leValue (List.take 2
      (List.drop (8 + (4 + (4 + (4 + (2 + 0))))) packet.image))) = _
    rw [image, hsig, hdrop, hdrop, hdrop, hdrop, drop_zero, htake,
      leValue_leBytes_toUInt16]
  · change UInt32.ofNat (leValue (List.take 4
      (List.drop (8 + (4 + (4 + (4 + (2 + (2 + 0)))))) packet.image))) = _
    rw [image, hsig, hdrop, hdrop, hdrop, hdrop, hdrop, drop_zero, htake,
      leValue_leBytes_toUInt32]
  · change UInt32.ofNat (leValue (List.take 4
      (List.drop (8 + (4 + (4 + (4 + (2 + (2 + (4 + 0))))))) packet.image))) = _
    rw [image, hsig, hdrop, hdrop, hdrop, hdrop, hdrop, hdrop, drop_zero,
      take_of_length_le (by simp), leValue_leBytes_toUInt32]

/-- The checksum of a header, taken with `m_crcHeader` set to zero. -/
def headerCRC (packet : Packet) : UInt32 :=
  computeCRC { packet with crcHeader := 0 }.image headerSize 0

def verifyHeader (packet : Packet) : Bool :=
  packet.headerCRC == packet.crcHeader

/-- `WP_Message::VerifyPayload`: `payload` is `m_payload`, `none` when it is `NULL`. -/
def verifyPayload (packet : Packet) (payload : Option (List UInt8)) : Bool :=
  if payload = none ∧ packet.size ≠ 0 then false
  else computeCRC (payload.getD []) (lengthAsInt packet.size) 0 == packet.crcData

/-- Zero the checksum field, compute it over the whole header and store it. -/
def stamp (packet : Packet) : Packet :=
  { packet with crcHeader := packet.headerCRC }

@[simp]
theorem verifyHeader_stamp (packet : Packet) : packet.stamp.verifyHeader = true := by
  simp [verifyHeader, stamp, headerCRC]

end Packet

/-- What `WP_Controller` keeps for the packets it sends: the configured marker, `none` for a
`NULL` `m_szMarker`, and the running sequence number. -/
structure Controller where
  szMarker : Option (List UInt8)
  lastOutboundMessage : UInt16

namespace Controller

def marker (controller : Controller) : List UInt8 :=
  (controller.szMarker.getD markerPacketV1).take signatureSize

/-- `m_lastOutboundMessage++`. -/
def bump (controller : Controller) : Controller :=
  { controller with lastOutboundMessage := controller.lastOutboundMessage + 1 }

end Controller

/-- `WP_Message::PrepareRequest`: the header of a request with the given payload. -/
def prepareRequest (controller : Controller) (cmd flags : UInt32) (payload : List UInt8) :
    Packet :=
  Packet.stamp {
    signature := controller.marker
    crcHeader := 0
    crcData := computeCRC payload (lengthAsInt (UInt32.ofNat payload.length)) 0
    cmd := cmd
    seq := controller.lastOutboundMessage
    seqReply := 0
    flags := flags
    size := UInt32.ofNat payload.length }

/-- `WP_Message::PrepareReply`: the header of the reply to `req` with the given payload. -/
def prepareReply (controller : Controller) (req : Packet) (flags : UInt32)
    (payload : List UInt8) : Packet :=
  Packet.stamp {
    signature := controller.marker
    crcHeader := 0
    crcData := computeCRC payload (lengthAsInt (UInt32.ofNat payload.length)) 0
    cmd := req.cmd
    seq := controller.lastOutboundMessage
    seqReply := req.seq
    flags := flags ||| Flags.reply
    size := UInt32.ofNat payload.length }

/-- What a receiver relies on in a packet: the header verifies, carries the sender's marker and
describes the payload. -/
structure Packet.Describes (packet : Packet) (marker payload : List UInt8) : Prop where
  signature : packet.signature = marker
  header : packet.verifyHeader = true
  size : packet.size.toNat = payload.length
  data : packet.verifyPayload (some payload) = true

theorem prepareRequest_describes (controller : Controller) (cmd flags : UInt32)
    (payload : List UInt8) (h : payload.length < 2 ^ 32) :
    (prepareRequest controller cmd flags payload).Describes controller.marker payload where
  signature := rfl
  header := Packet.verifyHeader_stamp _
  size := by simpa [prepareRequest, Packet.stamp] using Nat.mod_eq_of_lt h
  data := by simp [prepareRequest, Packet.stamp, Packet.verifyPayload]

theorem prepareReply_describes (controller : Controller) (req : Packet) (flags : UInt32)
    (payload : List UInt8) (h : payload.length < 2 ^ 32) :
    (prepareReply controller req flags payload).Describes controller.marker payload where
  signature := rfl
  header := Packet.verifyHeader_stamp _
  size := by simpa [prepareReply, Packet.stamp] using Nat.mod_eq_of_lt h
  data := by simp [prepareReply, Packet.stamp, Packet.verifyPayload]

/-!
## The receiving state machine of the wire protocol

`WP_Message::Process` as an explicit step function over the receiver's state and the bytes the
physical layer still has to deliver.  The physical layer is a list of chunks: every call of
`ReceiveBytes` takes at most the requested number of bytes from the first chunk, and an empty
chunk is a moment at which nothing is available, so that the call fails and `Process` returns.
-/

inductive ReceiveState where
  | idle
  | initialise
  | waitingForHeader
  | readingHeader
  | completeHeader
  | readingPayload
  | completePayload
  deriving DecidableEq, Repr

/-- What `m_app->ProcessHeader` does with a header: refuse it, or accept it and leave `m_payload`
`NULL` or pointing to a buffer of `m_size` bytes. -/
inductive Verdict where
  | refuse
  | acceptNoBuffer
  | acceptWithBuffer
  deriving DecidableEq, Repr

/-- What the receiver does that its surroundings can see. -/
inductive Event where
  | processHeader (header : Packet)
  | processPayload (header : Packet) (payload : Option (List UInt8))
  | transmit (header : Packet)
  deriving DecidableEq, Repr

/-- The surroundings of a receiver: the application's verdict on a header, the readings of
`HAL_Time_CurrentTicks` in the order in which they are taken, and `HAL_Time_TicksToTime`. -/
structure Environment where
  processHeader : Packet → Verdict
  currentTicks : ℕ → UInt64
  ticksToTime : UInt64 → UInt64

def payloadTimeout : UInt64 := 60000000

/-- No two consecutive readings of the clock are a payload timeout apart. -/
def Environment.Timely (env : Environment) : Prop :=
  ∀ n, env.ticksToTime (env.currentTicks (n + 1) - env.currentTicks n) < payloadTimeout

/-- `WP_Message` together with the controller it answers through.  `header` holds the bytes of
`m_header` below `m_pos` (all of them once the header is complete), `payload` those of
`m_payload` below `m_pos`; `readings` counts the clock readings taken so far. -/
structure Receiver where
  controller : Controller
  rxState : ReceiveState
  header : List UInt8
  payload : Option (List UInt8)
  size : ℕ
  payloadTicks : UInt64
  readings : ℕ

/-- The bytes the physical layer has not delivered yet, chunk by chunk. -/
abbrev Pending := List (List UInt8)

/-- `m_phy->ReceiveBytes` for `size` bytes: the result, the bytes stored and what is left. -/
def receiveBytes (size : ℕ) (pending : Pending) : Bool × List UInt8 × Pending :=
  if size = 0 then (true, [], pending)
  else match pending with
    | [] => (false, [], [])
    | [] :: rest => (false, [], rest)
    | chunk :: rest =>
      (true, chunk.take size,
        if chunk.length ≤ size then rest else chunk.drop size :: rest)

/-- The comparison of the first `min(len, 8)` bytes received with one marker. -/
def startsMarker (marker buf : List UInt8) : Bool :=
  buf.take signatureSize == marker.take (min buf.length signatureSize)

/-- The comparison that ends the synchronisation loop. -/
def synchronised (buf : List UInt8) : Bool :=
  startsMarker markerDebuggerV1 buf || startsMarker markerPacketV1 buf

/-- The synchronisation loop: drop the first byte received until the rest can be the start of a
marker.  Every `memmove` also moves `m_pos` back and increases `m_size`. -/
def synchronise : List UInt8 → List UInt8
  | [] => []
  | byte :: rest => if synchronised (byte :: rest) then byte :: rest else synchronise rest

namespace Receiver

/-- `WP_Message::Release`. -/
def release (st : Receiver) : Receiver :=
  { st with payload := none }

def badPacketReply (controller : Controller) (flags : UInt32) : Packet :=
  prepareRequest controller 0 (Flags.nonCritical ||| Flags.nack ||| flags) []

def replyBadPacket (st : Receiver) (flags : UInt32) : Receiver × List Event :=
  ({ st with controller := st.controller.bump },
    [.transmit (badPacketReply st.controller flags)])

def packet (st : Receiver) : Packet := Packet.ofImage st.header

/-- The tail of the `CompleteHeader` case: answer a bad packet unless it is non-critical. -/
def badHeader (st : Receiver) : Receiver × List Event :=
  let reply := if st.packet.flags &&& Flags.nonCritical = 0
    then st.replyBadPacket Flags.badHeader else (st, [])
  ({ reply.1 with rxState := .initialise }, reply.2)

/-- Where `m_payload` points after `ProcessHeader` has accepted a header. -/
def bufferFor (st : Receiver) : Verdict → Option (List UInt8)
  | .acceptWithBuffer => some []
  | _ => st.payload

def completeHeader (env : Environment) (st : Receiver) : Receiver × List Event :=
  if st.packet.verifyHeader then
    let verdict := env.processHeader st.packet
    let seen := Event.processHeader st.packet
    if verdict = .refuse then
      let bad := st.badHeader
      (bad.1, seen :: bad.2)
    else if st.packet.size ≠ 0 then
      -- "Bad, no buffer": the payload will be scanned for the next header
      if st.bufferFor verdict = none then ({ st with rxState := .initialise }, [seen])
      else
        ({ st with
            payload := some []
            payloadTicks := env.currentTicks st.readings
            readings := st.readings + 1
            rxState := .readingPayload
            size := st.packet.size.toNat }, [seen])
    else
      ({ st with payload := st.bufferFor verdict, rxState := .completePayload }, [seen])
  else st.badHeader

def completePayload (st : Receiver) : Receiver × List Event :=
  if st.packet.verifyPayload st.payload then
    ({ st with rxState := .initialise }, [.processPayload st.packet st.payload])
  else
    let reply := st.replyBadPacket Flags.badPayload
    ({ reply.1 with rxState := .initialise }, reply.2)

/-- What one turn of the loop of `Process` leads to: return to the caller, or go round again. -/
inductive Turn where
  | ret (st : Receiver) (pending : Pending)
  | again (st : Receiver) (pending : Pending) (events : List Event)

/-- One turn of the loop of `Process`. -/
def turn (env : Environment) (st : Receiver) (pending : Pending) : Turn :=
  match st.rxState with
  | .idle => .ret st pending
  | .initialise =>
    .again { st.release with rxState := .waitingForHeader, header := [], size := headerSize }
      pending []
  | .waitingForHeader =>
    match receiveBytes st.size pending with
    | (false, _, left) => .ret st left
    | (true, bytes, left) =>
      let buf := synchronise (st.header ++ bytes)
      .again { st with
          header := buf
          size := headerSize - buf.length
          rxState := if signatureSize ≤ buf.length then .readingHeader else .waitingForHeader }
        left []
  | .readingHeader =>
    match receiveBytes st.size pending with
    | (false, _, left) => .ret st left
    | (true, bytes, left) =>
      .again { st with
          header := st.header ++ bytes
          size := st.size - bytes.length
          rxState := if st.size - bytes.length = 0 then .completeHeader else .readingHeader }
        left []
  | .completeHeader =>
    let done := st.completeHeader env
    .again done.1 pending done.2
  | .readingPayload =>
    let curTicks := env.currentTicks st.readings
    let st := { st with readings := st.readings + 1 }
    if env.ticksToTime (curTicks - st.payloadTicks) < payloadTimeout then
      let st := { st with payloadTicks := curTicks }
      match receiveBytes st.size pending with
      | (false, _, left) => .ret st left
      | (true, bytes, left) =>
        .again { st with
            payload := st.payload.map (· ++ bytes)
            size := st.size - bytes.length
            rxState := if st.size - bytes.length = 0 then .completePayload else .readingPayload }
          left []
    else .again { st with rxState := .initialise } pending []
  | .completePayload =>
    let done := st.completePayload
    .again done.1 pending done.2

end Receiver

end MicroFramework.WireProtocol
