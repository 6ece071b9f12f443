import MicroFramework.Library.Runs
import MicroFramework.Serial.Queue

/-!
# A port of the serial driver

The state of a port and the operations of `USART_Driver` on it.  The flag word is one field a bit;
the two bits of the receive XOFF state stay together.  What runs with interrupts off, and so at
once, is one definition.
-/

namespace MicroFramework.Serial

def xon : UInt8 := 0x11

def xoff : UInt8 := 0x13

/-- The receive queue reached its high-water mark. -/
def xoffFlagFull : BitVec 2 := 1

/-- The clock of the port is about to stop. -/
def xoffClockHalt : BitVec 2 := 2

def highWaterMark (size : ℕ) : ℕ := size * 3 / 4

def lowWaterMark (size : ℕ) : ℕ := size * 1 / 4

structure Usart where
  txQueue : HalQueue UInt8
  rxQueue : HalQueue UInt8
  txBufferXoff : Bool
  txBufferXon : Bool
  txSwFlowCtrl : Bool
  txXonState : Bool
  rxSwFlowCtrl : Bool
  rxHwFlowCtrl : Bool
  rxXoffState : BitVec 2
  powerSave : Bool
  initialized : Bool
  ticksStartTxXoff : ℕ
  rxBufferHighWaterMark : ℕ
  rxBufferLowWaterMark : ℕ

namespace Usart

/-- `Initialize` of a port that is not initialized, with the flow control that the flow value asks
for. -/
def initializePort (txBuffer rxBuffer : ℕ → UInt8) (txSize rxSize : ℕ) (htx : 0 < txSize)
    (hrx : 0 < rxSize) (flowSwIn flowSwOut flowHwIn : Bool) : Usart where
  txQueue := .initializeQueue txBuffer txSize htx
  rxQueue := .initializeQueue rxBuffer rxSize hrx
  txBufferXoff := false
  txBufferXon := false
  txSwFlowCtrl := flowSwOut
  txXonState := true
  rxSwFlowCtrl := flowSwIn
  rxHwFlowCtrl := flowHwIn
  rxXoffState := 0
  powerSave := false
  initialized := true
  ticksStartTxXoff := 0
  rxBufferHighWaterMark := highWaterMark rxSize
  rxBufferLowWaterMark := lowWaterMark rxSize

def sendXoff (s : Usart) (flag : BitVec 2) : Usart :=
  if s.powerSave then s
  else
    { s with
      -- the XOFF is sent by the first to add its flag
      txBufferXoff := s.txBufferXoff || decide (s.rxXoffState = 0)
      rxXoffState := s.rxXoffState ||| flag }

def sendXon (s : Usart) (flag : BitVec 2) : Usart :=
  if s.powerSave then s
  else
    { s with
      -- the XON is sent by the last to remove its flag
      txBufferXon := s.txBufferXon || decide (s.rxXoffState &&& ~~~flag = 0)
      rxXoffState := s.rxXoffState &&& ~~~flag }

def addCharToRxBuffer (s : Usart) (c : UInt8) (now : ℕ) : Bool × Usart :=
  if s.txSwFlowCtrl = true ∧ c = xoff then
    (true, { s with ticksStartTxXoff := now, txXonState := false })
  else if s.txSwFlowCtrl = true ∧ c = xon then (true, { s with txXonState := true })
  else
    match s.rxQueue.push c with
    | none => (false, s)
    | some q =>
      if s.rxBufferHighWaterMark ≤ q.numberOfElements ∧ s.rxSwFlowCtrl = true then
        (true, { s with rxQueue := q }.sendXoff xoffFlagFull)
      else (true, { s with rxQueue := q })

theorem addCharToRxBuffer_push {s : Usart} {c : UInt8} {now : ℕ} {q : HalQueue UInt8}
    (hxoff : ¬ (s.txSwFlowCtrl = true ∧ c = xoff)) (hxon : ¬ (s.txSwFlowCtrl = true ∧ c = xon))
    (hpush : s.rxQueue.push c = some q) :
    s.addCharToRxBuffer c now =
      if s.rxBufferHighWaterMark ≤ q.numberOfElements ∧ s.rxSwFlowCtrl = true then
        (true, { s with rxQueue := q }.sendXoff xoffFlagFull)
      else (true, { s with rxQueue := q }) := by
  rw [addCharToRxBuffer, if_neg hxoff, if_neg hxon, hpush]

/-- The next character for the wire: an XOFF goes before an XON, and both before the data. -/
def removeCharFromTxBuffer (s : Usart) : Option UInt8 × Usart :=
  if s.txBufferXoff then (some xoff, { s with txBufferXoff := false })
  else if s.txBufferXon then (some xon, { s with txBufferXon := false })
  else
    match s.txQueue.pop with
    | some (c, q) => (some c, { s with txQueue := q })
    | none => (none, s)

def setPowerSave (s : Usart) (enable : Bool) : Bool × Usart :=
  (s.powerSave, { s with powerSave := enable })

def prepareForClockStop (s : Usart) : Usart :=
  if s.rxSwFlowCtrl then s.sendXoff xoffClockHalt else s

def clockStopFinished (s : Usart) : Usart :=
  if s.rxSwFlowCtrl then s.sendXon xoffClockHalt else s

def discardBuffer (s : Usart) (fRx : Bool) : Usart :=
  if fRx then
    let s := { s with rxQueue := s.rxQueue.discard }
    if s.rxSwFlowCtrl then s.sendXon xoffFlagFull else s
  else { s with txQueue := s.txQueue.discard }

/-- The check `Read` starts with. -/
def canRead (s : Usart) : Bool := !s.powerSave && s.initialized

/-- A turn of the loop of `Read` that still wants `toRead` characters; no characters mean that the
loop is left. -/
def readBlock (s : Usart) (toRead : ℕ) : Option (List UInt8) × Usart :=
  match s.rxQueue.popBlock toRead with
  | (none, q) => (none, { s with rxQueue := q })
  | (some chars, q) =>
    if q.numberOfElements ≤ s.rxBufferLowWaterMark ∧
        s.rxBufferLowWaterMark < q.numberOfElements + chars.length ∧ s.rxSwFlowCtrl = true then
      (some chars, { s with rxQueue := q }.sendXon xoffFlagFull)
    else (some chars, { s with rxQueue := q })

/-- The checks `Write` starts with, at the time `now`: `some` means that it goes on.  A peer that
sent an XOFF is waited for no longer than `timeout`, if there is one. -/
def canWrite (s : Usart) (timeout : Option ℕ) (now : ℕ) : Option Usart :=
  if s.powerSave = true ∨ s.initialized = false then none
  else if s.txSwFlowCtrl = true ∧ s.txXonState = false then
    match timeout with
    | none => none
    | some ticks =>
      if ticks < now - s.ticksStartTxXoff then some { s with txXonState := true } else none
  else some s

/-- A turn of the loop of `Write`: the number of characters it put into the queue. -/
def writeBlock (s : Usart) (chars : List UInt8) : ℕ × Usart :=
  let (n, q) := s.txQueue.pushBlock chars
  (n, { s with txQueue := q })

end Usart

/-!
## A serial port under interrupts and calls

A port that was opened with software flow control on input, the reads and writes in progress, and
the flow-control characters and queue lengths of the past, under any order of interrupts and calls.
-/

open Library

structure System where
  usart : Usart
  /-- The characters that the `Read` in progress still wants. -/
  reading : Option ℕ
  /-- The turns that the `Write` in progress has left, and its characters. -/
  writing : Option (ℕ × List UInt8)
  /-- The flow-control characters put on the wire, the latest first. -/
  wire : List UInt8
  /-- The lengths of the receive queue, the latest first. -/
  levels : List ℕ

/-- What runs at once: an interrupt, a call with interrupts off, or a turn of a loop with interrupts
off. -/
inductive Action
  | addCharToRxBuffer (c : UInt8) (now : ℕ)
  | removeCharFromTxBuffer
  | powerSave (enable : Bool)
  | prepareForClockStop
  | clockStopFinished
  | discardBuffer (fRx : Bool)
  | read (size : ℕ)
  | readBlock
  | write (chars : List UInt8) (timeout : Option ℕ) (now : ℕ)
  | writeBlock
  deriving DecidableEq

namespace System

/-- The system goes on with the port `s` and writes down the length of its receive queue. -/
def withUsart (m : System) (s : Usart) : System :=
  { m with usart := s, levels := s.rxQueue.numberOfElements :: m.levels }

/-- A transmit interrupt; a character that does not come from the queue is a flow-control
character. -/
def transmit (m : System) : System :=
  let (c, s) := m.usart.removeCharFromTxBuffer
  if m.usart.txBufferXoff || m.usart.txBufferXon then
    { m.withUsart s with wire := c.toList ++ m.wire }
  else m.withUsart s

/-- The start of a `Read`, which comes to nothing when its checks fail. -/
def startRead (m : System) (size : ℕ) : Option System :=
  if m.reading.isSome then none
  else if m.usart.canRead then some { m with reading := some size }
  else some m

/-- A turn of the loop of the `Read` in progress, or its end. -/
def readTurn (m : System) : Option System :=
  match m.reading with
  | none => none
  | some 0 => some { m with reading := none }
  | some toRead =>
    match m.usart.readBlock toRead with
    | (none, s) => some { m.withUsart s with reading := none }
    | (some chars, s) => some { m.withUsart s with reading := some (toRead - chars.length) }

/-- The start of a `Write`, whose loop makes two turns. -/
def startWrite (m : System) (chars : List UInt8) (timeout : Option ℕ) (now : ℕ) : Option System :=
  if m.writing.isSome then none
  else if chars = [] then some m
  else
    match m.usart.canWrite timeout now with
    | some s => some { m.withUsart s with writing := some (2, chars) }
    | none => some m

/-- A turn of the loop of the `Write` in progress, or its end.  A full queue ends the loop unless
hardware flow control is on. -/
def writeTurn (m : System) : Option System :=
  match m.writing with
  | none => none
  | some (0, _) => some { m with writing := none }
  | some (_, []) => some { m with writing := none }
  | some (j + 1, chars) =>
    let (n, s) := m.usart.writeBlock chars
    if n = 0 ∧ m.usart.rxHwFlowCtrl = false then some { m.withUsart s with writing := none }
    else some { m.withUsart s with writing := some (j, chars.drop n) }

/-- One action; `none` when a turn is asked of a loop that does not run, or a loop is started while
another one runs. -/
def step (m : System) : Action → Option System
  | .addCharToRxBuffer c now => some (m.withUsart (m.usart.addCharToRxBuffer c now).2)
  | .removeCharFromTxBuffer => some m.transmit
  | .powerSave enable => some (m.withUsart (m.usart.setPowerSave enable).2)
  | .prepareForClockStop => some (m.withUsart m.usart.prepareForClockStop)
  | .clockStopFinished => some (m.withUsart m.usart.clockStopFinished)
  | .discardBuffer fRx => some (m.withUsart (m.usart.discardBuffer fRx))
  | .read size => m.startRead size
  | .readBlock => m.readTurn
  | .write chars timeout now => m.startWrite chars timeout now
  | .writeBlock => m.writeTurn

/-- The port was just opened with software flow control on input. -/
def Opened (m : System) : Prop :=
  ∃ txBuffer rxBuffer txSize rxSize htx hrx flowSwOut flowHwIn,
    m = ⟨.initializePort txBuffer rxBuffer txSize rxSize htx hrx true flowSwOut flowHwIn,
      none, none, [], [0]⟩

/-- No flow-control character waits to be transmitted. -/
def Quiet (s : Usart) : Prop := s.txBufferXoff = false ∧ s.txBufferXon = false

/-- The receive queue has not been drained to the low-water mark since it last reached the
high-water mark. -/
def FullSince (s : Usart) (levels : List ℕ) : Prop :=
  Since (fun n ↦ s.rxBufferLowWaterMark < n) (fun n ↦ s.rxBufferHighWaterMark ≤ n) levels

/-- With no flow-control character on its way, the peer was told to stop last if and only if the
port wants it stopped, and the full flag is up only while the receive queue is full in this
sense. -/
def Honest (m : System) : Prop :=
  (Quiet m.usart →
    (m.wire.head? = some xoff ↔ m.usart.rxXoffState ≠ 0) ∧
    (m.wire.head? = some xon ∨ m.wire.head? = none ↔ m.usart.rxXoffState = 0)) ∧
  (m.usart.rxXoffState &&& xoffFlagFull ≠ 0 → FullSince m.usart m.levels)

def SendsXoff (s : Usart) : Action → Prop
  | .addCharToRxBuffer c _ =>
    ¬ (s.txSwFlowCtrl = true ∧ (c = xoff ∨ c = xon)) ∧ s.rxQueue.full = false ∧
      s.rxBufferHighWaterMark ≤ s.rxQueue.numberOfElements + 1
  | .prepareForClockStop => True
  | _ => False

/-- The length that the action leaves the receive queue with, if it takes characters from it. -/
def drainedTo (m : System) : Action → Option ℕ
  | .discardBuffer true => some 0
  | .readBlock =>
    match m.reading with
    | some (toRead + 1) =>
      some (m.usart.rxQueue.numberOfElements - min m.usart.rxQueue.maxPop (toRead + 1))
    | _ => none
  | _ => none

/-- The action raises the first XOFF while an XON still waits to be transmitted. -/
def OvertakesXon (m : System) (a : Action) : Prop :=
  SendsXoff m.usart a ∧ m.usart.powerSave = false ∧ m.usart.rxXoffState = 0 ∧
    m.usart.txBufferXon = true

/-- The action drains the receive queue to the low-water mark behind the full flag, while power save
keeps the flag from being lowered. -/
def DrainsAsleep (m : System) (a : Action) : Prop :=
  m.usart.powerSave = true ∧ m.usart.rxXoffState &&& xoffFlagFull ≠ 0 ∧
    ∃ n, m.drainedTo a = some n ∧ n ≤ m.usart.rxBufferLowWaterMark ∧
      n < m.usart.rxBufferHighWaterMark

def Safe (m : System) (a : Action) : Prop := ¬ m.OvertakesXon a ∧ ¬ m.DrainsAsleep a

end System

end MicroFramework.Serial
