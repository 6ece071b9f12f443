import MicroFramework.Serial.Queue

/-!
# The elements of a queue

What a circular queue holds, from the reader to the writer, and what its operations do to it.
`Hal_Queue_KnownSize` keeps its buffer in itself; its `Push`, `Pop` and `Initialize` are those of
`Hal_Queue_UnknownSize` on a buffer that stays in place.
-/

namespace MicroFramework.Serial.HalQueue

open List

variable {T : Type} {q q' : HalQueue T} {x : T} {i : ℕ}

/-- `Initialize` of a queue that keeps its buffer. -/
def clear (q : HalQueue T) : HalQueue T :=
  initializeQueue q.data q.size q.size_pos

def peek (q : HalQueue T) : Option T :=
  if q.writer = q.reader ∧ q.full = false then none else some (q.data q.reader)

/-- The place of the element `i` behind the reader. -/
def slot (q : HalQueue T) (i : ℕ) : ℕ :=
  if q.reader + i < q.size then q.reader + i else q.reader + i - q.size

/-- The elements, in the order in which they were pushed. -/
def elements (q : HalQueue T) : List T :=
  (List.range q.numberOfElements).map fun i ↦ q.data (q.slot i)

@[simp]
theorem length_elements (q : HalQueue T) : q.elements.length = q.numberOfElements := by
  simp [elements]

@[simp]
theorem elements_clear (q : HalQueue T) : q.clear.elements = [] := by simp [elements, clear]

theorem getElem_elements (h : i < q.elements.length) : q.elements[i] = q.data (q.slot i) := by
  simp [elements]

theorem slot_ne_writer (hfull : q.full = false) (hi : i < q.numberOfElements) :
    q.slot i ≠ q.writer := by
  have hwriter := q.writer_lt
  have hreader := q.reader_lt
  unfold numberOfElements at hi
  unfold slot
  simp only [hfull, Bool.false_eq_true, if_false] at hi
  split at hi <;> split <;> omega

theorem slot_numberOfElements (hfull : q.full = false) : q.slot q.numberOfElements = q.writer := by
  have hwriter := q.writer_lt
  have hreader := q.reader_lt
  unfold slot numberOfElements
  simp only [hfull, Bool.false_eq_true, if_false]
  split <;> split <;> omega

theorem elements_push (h : q.push x = some q') : q'.elements = q.elements ++ [x] := by
  have hcount := numberOfElements_push h
  unfold push at h
  split at h
  · cases h
  · next hfull =>
    rw [Bool.not_eq_true] at hfull
    have hq := Option.some.inj h
    apply ext_getElem
    · rw [length_elements, hcount, length_append, length_elements, length_singleton]
    · intro i hi hi'
      rw [getElem_elements, ← hq]
      rw [length_elements, hcount] at hi
      rcases Nat.lt_succ_iff_lt_or_eq.mp hi with hold | hnew
      · rw [getElem_append_left (by rwa [length_elements]), getElem_elements]
        exact Function.update_of_ne (slot_ne_writer hfull hold) x q.data
      · have hslot : q.slot i = q.writer := by
          rw [hnew]
          exact slot_numberOfElements hfull
        rw [getElem_append_right (by rw [length_elements]; omega)]
        simp only [getElem_singleton]
        exact (congrArg (Function.update q.data q.writer x) hslot).trans
          (Function.update_self q.writer x q.data)

theorem peek_eq_head? (q : HalQueue T) : q.peek = q.elements.head? := by
  have hwriter := q.writer_lt
  have hreader := q.reader_lt
  unfold peek
  split
  · next hempty =>
    have hzero : q.numberOfElements = 0 := by simp [numberOfElements, hempty.1, hempty.2]
    rw [head?_eq_none_iff.mpr (length_eq_zero_iff.mp (by rwa [length_elements]))]
  · next hmore =>
    have hpos : 0 < q.numberOfElements := by
      apply Nat.pos_of_ne_zero
      intro hzero
      have hempty := isEmpty_iff.mpr hzero
      simp only [isEmpty, Bool.and_eq_true, decide_eq_true_eq, Bool.not_eq_true'] at hempty
      exact hmore hempty
    have hslot : q.slot 0 = q.reader := by simp [slot, hreader]
    rw [head?_eq_getElem?, getElem?_eq_getElem (by rwa [length_elements]),
      getElem_elements, hslot]

/-- A pop of a queue that is not empty leaves the elements behind the first. -/
theorem elements_pop {y : T} (h : q.pop = some (y, q')) : q.elements = y :: q'.elements := by
  have hwriter := q.writer_lt
  have hreader := q.reader_lt
  unfold pop at h
  split at h
  · cases h
  · next hmore =>
    have hpair := Option.some.inj h
    have hy : q.data q.reader = y := congrArg Prod.fst hpair
    have hq := congrArg Prod.snd hpair
    simp only at hq
    have hcount : q.numberOfElements = q'.numberOfElements + 1 := by
      rw [← hq]
      cases hfull : q.full with
      | false =>
        simp only [hfull, and_true] at hmore
        simp only [numberOfElements, wrap, hfull, Bool.false_eq_true, if_false]
        split_ifs <;> omega
      | true =>
        have heq := q.eq_of_full hfull
        simp only [numberOfElements, wrap, hfull, if_true, Bool.false_eq_true, if_false]
        split_ifs <;> omega
    apply ext_getElem
    · rw [length_elements, hcount, length_cons, length_elements]
    · intro i hi hi'
      rw [getElem_elements]
      cases i with
      | zero =>
        have hslot : q.slot 0 = q.reader := by simp [slot, hreader]
        rw [getElem_cons_zero, hslot, hy]
      | succ i =>
        have hbound : i + 1 < q.size + 1 := by
          have hle := q.numberOfElements_le
          rw [length_elements] at hi
          omega
        have hslot : q'.slot i = q.slot (i + 1) := by
          rw [← hq]
          simp only [slot, wrap]
          split_ifs <;> omega
        rw [getElem_cons_succ, getElem_elements, hslot, ← hq]

theorem pop_isSome (h : q.elements ≠ []) : ∃ y q', q.pop = some (y, q') := by
  unfold pop
  split
  · next hempty =>
    exfalso
    apply h
    apply length_eq_zero_iff.mp
    rw [length_elements]
    simp [numberOfElements, hempty.1, hempty.2]
  · exact ⟨_, _, rfl⟩

end MicroFramework.Serial.HalQueue

/-!
## The USB driver's streams

The part of `USB_CONTROLLER_STATE` that bulk streams use, and the operations on it: opening and
closing streams, reading, the pieces of `Write` that change a queue, what the controller enqueues
and dequeues, and the device states, whose changes clear queues.  Each runs with interrupts locked
and is one step.  The number of bytes already read of the packet at the head of a queue is kept
beside the queue, in eight bits.
-/

namespace MicroFramework.Usb

open Serial

/-! ## Packets and the controller's state -/

/-- `USB_PACKET64`: what stands in memory from `Buffer` on, also behind its end. -/
structure Packet64 where
  size : UInt32
  buffer : ℕ → UInt8

def Packet64.bytes (packet : Packet64) : List UInt8 :=
  (List.range packet.size.toNat).map packet.buffer

/-- The packet with `bytes` stored at the start of its buffer and their number as its size. -/
def Packet64.filled (packet : Packet64) (bytes : List UInt8) : Packet64 where
  size := UInt32.ofNat bytes.length
  buffer := fun i ↦ (bytes[i]?).getD (packet.buffer i)

inductive DeviceState
  | detached
  | attached
  | powered
  | default
  | address
  | configured
  | suspended
  | uninitialized
  deriving DecidableEq

structure StreamMap where
  rxEP : Option ℕ
  txEP : Option ℕ
  deriving DecidableEq

structure Controller where
  maxQueues : ℕ
  initialized : Bool
  currentState : DeviceState
  deviceState : DeviceState
  event : ℕ → Bool
  queues : ℕ → Option (HalQueue Packet64)
  currentPacketOffset : ℕ → UInt8
  maxPacketSize : ℕ → UInt8
  isTxQueue : ℕ → Bool
  streams : ℕ → StreamMap

/-- A copy that `Read` makes out of a packet: its offset and length, and the packet's size. -/
structure Copy where
  offset : ℕ
  length : ℕ
  size : ℕ
  deriving DecidableEq

namespace Controller

def setQueue (st : Controller) (endpoint : ℕ) (queue : HalQueue Packet64) : Controller :=
  { st with queues := Function.update st.queues endpoint (some queue) }

def clearQueue (st : Controller) (endpoint : ℕ) : Controller :=
  match st.queues endpoint with
  | none => st
  | some queue => st.setQueue endpoint queue.clear

/-! ## Streams -/

def openStream (st : Controller) (stream : ℕ) (writeEP readEP : Option ℕ) : Bool × Controller :=
  if st.initialized = false then (false, st)
  else if st.maxQueues ≤ stream ∨ (readEP = none ∧ writeEP = none) ∨
      (∃ ep ∈ readEP, ep < 1 ∨ st.maxQueues ≤ ep) ∨ (∃ ep ∈ writeEP, ep < 1 ∨ st.maxQueues ≤ ep)
  then (false, st)
  else if (st.streams stream).rxEP ≠ none ∨ (st.streams stream).txEP ≠ none then (false, st)
  else if (∃ ep ∈ readEP, (st.queues ep).isNone) ∨ (∃ ep ∈ writeEP, (st.queues ep).isNone)
  then (false, st)
  else if (∃ ep ∈ readEP, st.isTxQueue ep = true) ∨ (∃ ep ∈ writeEP, st.isTxQueue ep = false)
  then (false, st)
  else if ∃ other < st.maxQueues,
      (∃ ep ∈ readEP, (st.streams other).rxEP = some ep ∨ (st.streams other).txEP = some ep) ∨
        (∃ ep ∈ writeEP, (st.streams other).rxEP = some ep ∨ (st.streams other).txEP = some ep)
  then (false, st)
  else (true, { st with streams := Function.update st.streams stream ⟨readEP, writeEP⟩ })

/-- The controller with the queue of an endpoint cleared, if there is an endpoint. -/
def clearEndpoint (st : Controller) : Option ℕ → Controller
  | none => st
  | some endpoint => st.clearQueue endpoint

def closeStream (st : Controller) (stream : ℕ) : Bool × Controller :=
  if st.initialized = false ∨ st.maxQueues ≤ stream then (false, st)
  else
    let map := st.streams stream
    let st' := (st.clearEndpoint map.rxEP).clearEndpoint map.txEP
    (true, { st' with streams := Function.update st.streams stream ⟨none, none⟩ })

end Controller

/-! ## Reading -/

/-- The locals of `Read` with the queue and the offset it works on; `count`, the length of what was
copied so far, and `remain` add up to the size asked for. -/
structure Reading where
  queue : HalQueue Packet64
  offset : UInt8
  remain : UInt32
  data : List UInt8
  copies : List Copy
  ranEmpty : Bool

/-- One turn of the loop of `Read` over the packet at the head. -/
def Reading.turn (rd : Reading) (packet : Packet64) : Reading :=
  let left := packet.size - rd.offset.toUInt32
  let maxMove := if rd.remain < left then rd.remain else left
  let offset := rd.offset + maxMove.toUInt8
  let moved := { rd with
    offset := offset
    remain := rd.remain - maxMove
    data := rd.data ++ (List.range maxMove.toNat).map fun i ↦ packet.buffer (rd.offset.toNat + i)
    copies := rd.copies ++ [⟨rd.offset.toNat, maxMove.toNat, packet.size.toNat⟩] }
  if offset.toUInt32 = packet.size then
    { moved with offset := 0, queue := ((rd.queue.pop).map Prod.snd).getD rd.queue }
  else moved

/-- The loop of `Read`: each turn copies a byte or pops a packet. -/
def Reading.loop : ℕ → Reading → Reading
  | 0, rd => rd
  | n + 1, rd =>
    if rd.remain = 0 then rd
    else
      match rd.queue.peek with
      | none => { rd with ranEmpty := true }
      | some packet => loop n (rd.turn packet)

namespace Controller

/-- `Read`: the bytes read, the copies made for them and the controller behind. -/
def read (st : Controller) (stream : ℕ) (size : UInt32) : List UInt8 × List Copy × Controller :=
  if st.maxQueues ≤ stream then ([], [], st)
  else if st.deviceState ≠ .configured then ([], [], st)
  else
    match (st.streams stream).rxEP with
    | none => ([], [], st)
    | some endpoint =>
      match st.queues endpoint with
      | none => ([], [], st)
      | some queue =>
        let rd := Reading.loop (size.toNat + queue.numberOfElements + 1)
          ⟨queue, st.currentPacketOffset endpoint, size, [], [], false⟩
        (rd.data, rd.copies,
          { st.setQueue endpoint rd.queue with
            currentPacketOffset := Function.update st.currentPacketOffset endpoint rd.offset
            event := if rd.ranEmpty then Function.update st.event endpoint false else st.event })

/-! ## Writing -/

/-- The turn of the loop of `Write` that stores a packet, when there is a slot for it. -/
def writePacket (st : Controller) (stream : ℕ) (bytes : List UInt8) : Controller :=
  match (st.streams stream).txEP with
  | none => st
  | some endpoint =>
    match st.queues endpoint with
    | none => st
    | some queue =>
      match queue.push ((queue.data queue.writer).filled bytes) with
      | none => st
      | some queue => st.setQueue endpoint queue

/-- What `Write` does when it could not send anything for too long. -/
def writeTimeout (st : Controller) (stream : ℕ) : Controller :=
  st.clearEndpoint (st.streams stream).txEP

/-! ## The controller's side -/

/-- `USB_RxEnqueue`, with the store through the pointer it returns; the packet is lost when it is
null. -/
def rxEnqueue (st : Controller) (endpoint : ℕ) (bytes : List UInt8) : Bool × Controller :=
  match st.queues endpoint with
  | none => (false, st)
  | some queue =>
    let st := { st with event := Function.update st.event endpoint true }
    match queue.push ((queue.data queue.writer).filled bytes) with
    | none => (false, st)
    | some queue => (true, st.setQueue endpoint queue)

def txDequeue (st : Controller) (endpoint : ℕ) : Controller :=
  match st.queues endpoint with
  | none => st
  | some queue =>
    match queue.pop with
    | none => st
    | some (_, queue) => st.setQueue endpoint queue

/-! ## Device states -/

def clearQueues (st : Controller) (clrRxQueue clrTxQueue : Bool) : Controller :=
  { st with queues := fun endpoint ↦
      if endpoint < st.maxQueues ∧
          (clrRxQueue ∧ st.isTxQueue endpoint = false ∨ clrTxQueue ∧ st.isTxQueue endpoint = true)
      then (st.queues endpoint).map HalQueue.clear
      else st.queues endpoint }

/-- `USB_StateCallback`: the queues are cleared when the configured state is left, and the receive
queues when it is entered. -/
def stateCallback (st : Controller) : Controller :=
  if st.currentState = st.deviceState then st
  else
    let left := if st.currentState = .configured then st.clearQueues true true else st
    let entered := { left with currentState := st.deviceState }
    if st.deviceState = .configured then entered.clearQueues true false else entered

end Controller

/-! ## Steps -/

inductive Action
  | openStream (stream : ℕ) (writeEP readEP : Option ℕ)
  | closeStream (stream : ℕ)
  | read (stream : ℕ) (size : UInt32)
  | writePacket (stream : ℕ) (bytes : List UInt8)
  | writeTimeout (stream : ℕ)
  | rxEnqueue (endpoint : ℕ) (bytes : List UInt8)
  | txDequeue (endpoint : ℕ)
  | deviceState (state : DeviceState)
  | stateCallback

/-- The controller together with what each endpoint received and what was read of it, both since
its queue was last cleared, and the copies that were made for it. -/
structure System where
  controller : Controller
  received : ℕ → List UInt8
  returned : ℕ → List UInt8
  copies : List Copy

namespace System

def clears (s : System) : Action → ℕ → Prop
  | .closeStream stream, endpoint =>
    s.controller.initialized = true ∧ stream < s.controller.maxQueues ∧
      (s.controller.streams stream).rxEP = some endpoint
  | .stateCallback, endpoint =>
    s.controller.currentState ≠ s.controller.deviceState ∧
      (s.controller.currentState = .configured ∨ s.controller.deviceState = .configured) ∧
        endpoint < s.controller.maxQueues ∧ s.controller.isTxQueue endpoint = false
  | _, _ => False

instance (s : System) (a : Action) (endpoint : ℕ) : Decidable (s.clears a endpoint) :=
  match a with
  | .closeStream _ | .stateCallback => inferInstanceAs (Decidable (_ ∧ _))
  | .openStream .. | .read .. | .writePacket .. | .writeTimeout _ | .rxEnqueue .. | .txDequeue _
  | .deviceState _ => inferInstanceAs (Decidable False)

/-- The system after the queues an action clears have lost their history. -/
def forget (s : System) (a : Action) : System :=
  { s with
    received := fun endpoint ↦ if s.clears a endpoint then [] else s.received endpoint
    returned := fun endpoint ↦ if s.clears a endpoint then [] else s.returned endpoint }

/-- One step.  The controller enqueues packets on receive endpoints only, of at most their packet
size, and dequeues from the others. -/
def step (s : System) (a : Action) : Option System :=
  match a with
  | .openStream stream writeEP readEP =>
    some { s with controller := (s.controller.openStream stream writeEP readEP).2 }
  | .closeStream stream =>
    some { s.forget a with controller := (s.controller.closeStream stream).2 }
  | .read stream size =>
    let result := s.controller.read stream size
    some { s with
      controller := result.2.2
      returned := fun endpoint ↦
        if (s.controller.streams stream).rxEP = some endpoint
        then s.returned endpoint ++ result.1 else s.returned endpoint
      copies := s.copies ++ result.2.1 }
  | .writePacket stream bytes => some { s with controller := s.controller.writePacket stream bytes }
  | .writeTimeout stream => some { s with controller := s.controller.writeTimeout stream }
  | .rxEnqueue endpoint bytes =>
    if (s.controller.queues endpoint).isSome ∧ s.controller.isTxQueue endpoint = false ∧
        bytes.length ≤ (s.controller.maxPacketSize endpoint).toNat then
      let result := s.controller.rxEnqueue endpoint bytes
      some { s with
        controller := result.2
        received := if result.1 then
          Function.update s.received endpoint (s.received endpoint ++ bytes) else s.received }
    else none
  | .txDequeue endpoint =>
    if s.controller.isTxQueue endpoint = true then
      some { s with controller := s.controller.txDequeue endpoint }
    else none
  | .deviceState state => some { s with controller := { s.controller with deviceState := state } }
  | .stateCallback => some { s.forget a with controller := s.controller.stateCallback }

/-- A controller as `Initialize` leaves it: no open stream, empty queues, no packet begun. -/
structure Initial (s : System) : Prop where
  streams : ∀ stream, s.controller.streams stream = ⟨none, none⟩
  empty : ∀ endpoint queue, s.controller.queues endpoint = some queue → queue.elements = []
  bounded : ∀ endpoint, (s.controller.queues endpoint).isSome → endpoint < s.controller.maxQueues
  offsets : ∀ endpoint, s.controller.currentPacketOffset endpoint = 0
  received : ∀ endpoint, s.received endpoint = []
  returned : ∀ endpoint, s.returned endpoint = []
  copies : s.copies = []

end System

end MicroFramework.Usb
