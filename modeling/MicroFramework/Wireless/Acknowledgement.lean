import MicroFramework.Wireless.PibAttributes

/-!
# Waiting for an acknowledgement

A frame is sent by one thread and acknowledged by another, and the two meet in a flag, a sequence
number and an event that resets itself when a wait consumes it.  The waits and the backoffs only
pass time, which is not modelled: a wait may run out whenever the event is not set.
-/

namespace MicroFramework.Wireless.PhySendReceive

open Library List Nat

/-! ## The two threads -/

inductive Capabilities
  | powerOff
  | autoFcs
  | addressFilter
  | autoAck
  | txCache
  | ieee2006
  deriving DecidableEq

def isCapabilitySupported : Capabilities → Bool
  | .powerOff => true
  | .autoFcs => true
  | .addressFilter => true
  | .autoAck => true
  | .txCache => true
  | .ieee2006 => false

inductive FrameType
  | beacon
  | data
  | ack
  | cmd
  | reserved
  deriving DecidableEq

/-- `Header.GetType`: the low bits of the frame control field. -/
def getType : List UInt8 → Option FrameType
  | low :: high :: _ =>
    let fcs := low.toUInt16 ||| high.toUInt16 <<< 8
    some (match fcs &&& 0x7 with
      | 0 => .beacon
      | 1 => .data
      | 2 => .ack
      | 3 => .cmd
      | _ => .reserved)
  | _ => none

/-- A call of `SendFrame`, and its variables. -/
structure Call where
  ackRequest : Bool
  seqNo : UInt8
  macMaxFrameRetries : ℕ
  macMaxCSMABackoffs : ℕ
  retry : ℕ
  noClearChannel : Bool
  ackPending : Bool
  deriving DecidableEq

inductive Sender
  | idle
  /-- at the head of the loop of retries -/
  | retrying (c : Call)
  /-- at the head of the loop for a clear channel -/
  | backingOff (c : Call) (nb : ℕ)
  /-- before the frame is handed over -/
  | sending (c : Call)
  /-- before `_ackSeqNo` is written -/
  | numbering (c : Call)
  /-- before `_ackPending` is set -/
  | arming (c : Call)
  | waiting (c : Call)
  | polling (c : Call)
  /-- before the wait that does not block -/
  | checking (c : Call)
  /-- before `_ackPending` is cleared -/
  | disarming (c : Call)
  deriving DecidableEq

/-- Where the receiving thread stands in `PhyDataIndicationHandler`. -/
inductive Receiver
  | idle
  | inspecting (frame : Option (List UInt8))
  /-- before `_ackPending` is read, with an acknowledgement -/
  | testing (frame : List UInt8)
  /-- before the number is compared -/
  | comparing (seqNo : UInt8)
  /-- before the event is set -/
  | signalling
  deriving DecidableEq

/-- What is seen of the two threads. -/
inductive Event
  | called (ackRequest : Bool) (seqNo : UInt8) (macMaxFrameRetries : ℕ)
  | handedOver
  | received (frame : Option (List UInt8))
  | returned (result : MacEnum)
  deriving DecidableEq

/-- The fields both threads use, the threads, and what happened, the latest first. -/
structure System where
  phyCapAutoFCS : Bool
  ackPending : Bool
  ackSeqNo : UInt8
  ackReceived : Bool
  sender : Sender
  receiver : Receiver
  history : List Event
  deriving DecidableEq

inductive Action
  | call (ackRequest : Bool) (seqNo : UInt8) (macMaxFrameRetries macMaxCSMABackoffs : ℕ)
  | loop
  | cca (status : PhyStatus)
  | dataRequest
  | writeSeqNo
  | setPending
  | wakeUp
  | timeOut
  | dataPoll
  | check
  | clearPending
  | deliver (frame : Option (List UInt8))
  | inspect
  | testPending
  | compare
  | signal
  deriving DecidableEq

namespace System

variable (s : System)

def log (e : Event) : System := { s with history := e :: s.history }

/-- The end of `SendFrame`. -/
def finish (result : MacEnum) : System := { s.log (.returned result) with sender := .idle }

def resultOf (c : Call) : MacEnum :=
  if c.noClearChannel then .channelAccessFailure
  else if c.ackPending then .noAck
  else .success

/-- The next time round, behind an attempt that handed the frame over. -/
def nextRetry (c : Call) : System :=
  { s with sender := .retrying { c with noClearChannel := false, retry := c.retry + 1 } }

def sendStep : Action → Option System
  | .call ackRequest seqNo macMaxFrameRetries macMaxCSMABackoffs =>
    match s.sender with
    | .idle =>
      let s := s.log (.called ackRequest seqNo macMaxFrameRetries)
      if s.phyCapAutoFCS then
        some { s with sender := .retrying ⟨ackRequest, seqNo, macMaxFrameRetries,
          macMaxCSMABackoffs, 0, true, true⟩ }
      else some (s.finish .notImplemented)
    | _ => none
  | .loop =>
    match s.sender with
    | .retrying c =>
      if c.ackPending ∧ c.retry ≤ c.macMaxFrameRetries then
        some { s with sender := .backingOff c 0 }
      else some (s.finish (resultOf c))
    | _ => none
  | .cca status =>
    match s.sender with
    | .backingOff c nb =>
      if nb ≤ c.macMaxCSMABackoffs then
        if status = .idle then some { s with sender := .sending c }
        else some { s with sender := .backingOff c (nb + 1) }
      else some { s with sender := .retrying { c with retry := c.retry + 1 } }
    | _ => none
  | .dataRequest =>
    match s.sender with
    | .sending c =>
      let s := s.log .handedOver
      if c.ackRequest then some { s with sender := .numbering c }
      else some (s.nextRetry { c with ackPending := false })
    | _ => none
  | .writeSeqNo =>
    match s.sender with
    | .numbering c => some { s with ackSeqNo := c.seqNo, sender := .arming c }
    | _ => none
  | .setPending =>
    match s.sender with
    | .arming c => some { s with ackPending := true, sender := .waiting c }
    | _ => none
  | .wakeUp =>
    match s.sender with
    | .waiting c =>
      if s.ackReceived then
        some { s with ackReceived := false, sender := .disarming { c with ackPending := false } }
      else none
    | _ => none
  | .timeOut =>
    match s.sender with
    | .waiting c => if s.ackReceived then none else some { s with sender := .polling c }
    | _ => none
  | .dataPoll =>
    match s.sender with
    | .polling c => some { s with sender := .checking c }
    | _ => none
  | .check =>
    match s.sender with
    | .checking c =>
      some { s with
        ackReceived := false
        sender := .disarming { c with ackPending := c.ackPending && !s.ackReceived } }
    | _ => none
  | .clearPending =>
    match s.sender with
    | .disarming c => some ({ s with ackPending := false }.nextRetry c)
    | _ => none
  | _ => none

/-- A step of the receiving thread.  Frames of other types go to the MAC layer or are dropped, and
touch nothing here. -/
def receiveStep : Action → Option System
  | .deliver frame =>
    match s.receiver with
    | .idle => some { s.log (.received frame) with receiver := .inspecting frame }
    | _ => none
  | .inspect =>
    match s.receiver with
    | .inspecting none => some { s with receiver := .idle }
    | .inspecting (some frame) =>
      if 3 ≤ frame.length ∧ getType frame = some .ack then
        some { s with receiver := .testing frame }
      else some { s with receiver := .idle }
    | _ => none
  | .testPending =>
    match s.receiver with
    | .testing frame =>
      if s.ackPending then frame[2]?.map fun seqNo ↦ { s with receiver := .comparing seqNo }
      else some { s with receiver := .idle }
    | _ => none
  | .compare =>
    match s.receiver with
    | .comparing seqNo =>
      some { s with receiver := if seqNo = s.ackSeqNo then .signalling else .idle }
    | _ => none
  | .signal =>
    match s.receiver with
    | .signalling => some { s with ackReceived := true, receiver := .idle }
    | _ => none
  | _ => none

/-- The constructor, with what the driver supports. -/
def new : System where
  phyCapAutoFCS := isCapabilitySupported .autoFcs
  ackPending := false
  ackSeqNo := 0
  ackReceived := false
  sender := .idle
  receiver := .idle
  history := []

end System

def step (s : System) (a : Action) : Option System :=
  (s.sendStep a).or (s.receiveStep a)

/-! ## What the history tells of a call -/

/-- The request and the number of the latest call, and how often it may try again. -/
def callOf : List Event → Option (Bool × UInt8 × ℕ)
  | .called ackRequest seqNo retries :: _ => some (ackRequest, seqNo, retries)
  | _ :: older => callOf older
  | [] => none

def sinceCall : List Event → List Event
  | .called _ _ _ :: _ => []
  | e :: older => e :: sinceCall older
  | [] => []

def handOvers (history : List Event) : ℕ := (sinceCall history).count .handedOver

def ackNumber (frame : Option (List UInt8)) : Option UInt8 :=
  frame.bind fun bytes ↦
    if 3 ≤ bytes.length ∧ getType bytes = some .ack then bytes[2]? else none

/-- An acknowledgement with the number was received after the latest call had handed its frame
over. -/
def Acknowledged (seqNo : UInt8) (history : List Event) : Prop :=
  ∃ frame, ackNumber frame = some seqNo ∧
    [Event.received frame, .handedOver].Sublist (sinceCall history)

/-- Every call that returned did so in accordance with what had happened. -/
def Returns (right : MacEnum → List Event → Prop) (history : List Event) : Prop :=
  ∀ result older, .returned result :: older <:+ history → right result older

/-- The frame of the latest call was handed over at most once for each retry and once before. -/
def Bounded (history : List Event) : Prop :=
  ∀ ackRequest seqNo retries, callOf history = some (ackRequest, seqNo, retries) →
    handOvers history ≤ retries + 1

/-- A failed access to the channel is reported when the frame was never handed over. -/
def Counted (result : MacEnum) (history : List Event) : Prop :=
  (result = .channelAccessFailure ↔ .handedOver ∉ sinceCall history) ∧ Bounded history

/-- Success of a call that asked for an acknowledgement means that it was received. -/
def Confirmed (result : MacEnum) (history : List Event) : Prop :=
  ∀ seqNo retries, callOf history = some (true, seqNo, retries) → result = .success →
    Acknowledged seqNo history

/-- The receiving thread is at an acknowledgement that it may still take for the one with the
number. -/
def Receiver.Threatens (seqNo ackSeqNo : UInt8) : Receiver → Prop
  | .idle => False
  | .inspecting frame => ackNumber frame = some seqNo
  | .testing frame => frame[2]? = some seqNo
  | .comparing number => number = seqNo ∨ number = ackSeqNo
  | .signalling => True

/-- When a call that asks for an acknowledgement hands its frame over for the first time, the event
is not set, and the receiving thread is at no acknowledgement that may set it. -/
def Clean (s : System) (a : Action) : Prop :=
  ∀ c, a = .dataRequest → s.sender = .sending c → c.ackRequest = true →
    .handedOver ∉ sinceCall s.history →
      s.ackReceived = false ∧ ¬ s.receiver.Threatens c.seqNo s.ackSeqNo

section history

variable {history older : List Event} {e : Event} {seqNo : UInt8} {result : MacEnum}
  {right : MacEnum → List Event → Prop}

@[simp] theorem sinceCall_handedOver :
    sinceCall (.handedOver :: history) = .handedOver :: sinceCall history := rfl

@[simp] theorem sinceCall_received (frame : Option (List UInt8)) :
    sinceCall (.received frame :: history) = .received frame :: sinceCall history := rfl

@[simp] theorem sinceCall_returned :
    sinceCall (.returned result :: history) = .returned result :: sinceCall history := rfl

@[simp] theorem sinceCall_called (ackRequest : Bool) (retries : ℕ) :
    sinceCall (.called ackRequest seqNo retries :: history) = [] := rfl

@[simp] theorem callOf_handedOver : callOf (.handedOver :: history) = callOf history := rfl

@[simp] theorem callOf_received (frame : Option (List UInt8)) :
    callOf (.received frame :: history) = callOf history := rfl

@[simp] theorem callOf_returned : callOf (.returned result :: history) = callOf history := rfl

@[simp] theorem callOf_called (ackRequest : Bool) (retries : ℕ) :
    callOf (.called ackRequest seqNo retries :: history) = some (ackRequest, seqNo, retries) := rfl

@[simp] theorem handOvers_handedOver :
    handOvers (.handedOver :: history) = handOvers history + 1 := by
  simp [handOvers]

@[simp] theorem handOvers_received (frame : Option (List UInt8)) :
    handOvers (.received frame :: history) = handOvers history := by
  simp [handOvers]

@[simp] theorem handOvers_called (ackRequest : Bool) (retries : ℕ) :
    handOvers (.called ackRequest seqNo retries :: history) = 0 := rfl

theorem handOvers_eq_zero : handOvers history = 0 ↔ .handedOver ∉ sinceCall history := count_eq_zero

/-- What was received since the call stays received. -/
theorem Acknowledged.mono (h : Acknowledged seqNo history)
    (hsince : sinceCall (e :: history) = e :: sinceCall history) :
    Acknowledged seqNo (e :: history) := by
  obtain ⟨frame, hnumber, hsub⟩ := h
  exact ⟨frame, hnumber, hsince ▸ hsub.cons e⟩

theorem Acknowledged.received {frame : Option (List UInt8)} (hnumber : ackNumber frame = some seqNo)
    (h : .handedOver ∈ sinceCall history) : Acknowledged seqNo (.received frame :: history) :=
  ⟨frame, hnumber, (singleton_sublist.mpr h).cons_cons _⟩

theorem returns_nil : Returns right [] := by
  intro result older h
  exact absurd (suffix_nil.mp h) nofun

theorem Returns.cons (h : Returns right history) (he : ∀ result, e ≠ .returned result) :
    Returns right (e :: history) := by
  intro result older hsuffix
  cases suffix_cons_iff.mp hsuffix with
  | inl heq => exact absurd (List.cons.inj heq).1.symm (he result)
  | inr hsuffix => exact h result older hsuffix

theorem Returns.returned (h : Returns right history) (hresult : right result history) :
    Returns right (.returned result :: history) := by
  intro result' older hsuffix
  cases suffix_cons_iff.mp hsuffix with
  | inl heq =>
    cases heq
    exact hresult
  | inr hsuffix => exact h result' older hsuffix

end history

/-! ## What a step can do -/

inductive SendStep (s : System) : Action → System → Prop
  | call (ackRequest : Bool) (seqNo : UInt8) (retries backoffs : ℕ) (hat : s.sender = .idle)
      (hfcs : s.phyCapAutoFCS = true) :
      SendStep s (.call ackRequest seqNo retries backoffs)
        { s.log (.called ackRequest seqNo retries) with
          sender := .retrying ⟨ackRequest, seqNo, retries, backoffs, 0, true, true⟩ }
  | refuse (ackRequest : Bool) (seqNo : UInt8) (retries backoffs : ℕ) (hat : s.sender = .idle)
      (hfcs : s.phyCapAutoFCS = false) :
      SendStep s (.call ackRequest seqNo retries backoffs)
        ((s.log (.called ackRequest seqNo retries)).finish .notImplemented)
  | again {c : Call} (hat : s.sender = .retrying c)
      (hmore : c.ackPending = true ∧ c.retry ≤ c.macMaxFrameRetries) :
      SendStep s .loop { s with sender := .backingOff c 0 }
  | finish {c : Call} (hat : s.sender = .retrying c)
      (hmore : ¬ (c.ackPending = true ∧ c.retry ≤ c.macMaxFrameRetries)) :
      SendStep s .loop (s.finish (System.resultOf c))
  | clear {c : Call} {nb : ℕ} (hat : s.sender = .backingOff c nb) :
      SendStep s (.cca .idle) { s with sender := .sending c }
  | occupied {c : Call} {nb : ℕ} (status : PhyStatus) (hat : s.sender = .backingOff c nb) :
      SendStep s (.cca status) { s with sender := .backingOff c (nb + 1) }
  | giveUp {c : Call} {nb : ℕ} (status : PhyStatus) (hat : s.sender = .backingOff c nb) :
      SendStep s (.cca status) { s with sender := .retrying { c with retry := c.retry + 1 } }
  | handOver {c : Call} (hat : s.sender = .sending c) (hack : c.ackRequest = true) :
      SendStep s .dataRequest { s.log .handedOver with sender := .numbering c }
  | handOff {c : Call} (hat : s.sender = .sending c) (hack : c.ackRequest = false) :
      SendStep s .dataRequest ((s.log .handedOver).nextRetry { c with ackPending := false })
  | number {c : Call} (hat : s.sender = .numbering c) :
      SendStep s .writeSeqNo { s with ackSeqNo := c.seqNo, sender := .arming c }
  | arm {c : Call} (hat : s.sender = .arming c) :
      SendStep s .setPending { s with ackPending := true, sender := .waiting c }
  | wake {c : Call} (hat : s.sender = .waiting c) (hset : s.ackReceived = true) :
      SendStep s .wakeUp
        { s with ackReceived := false, sender := .disarming { c with ackPending := false } }
  | timeOut {c : Call} (hat : s.sender = .waiting c) :
      SendStep s .timeOut { s with sender := .polling c }
  | poll {c : Call} (hat : s.sender = .polling c) :
      SendStep s .dataPoll { s with sender := .checking c }
  | check {c : Call} (hat : s.sender = .checking c) :
      SendStep s .check { s with
        ackReceived := false
        sender := .disarming { c with ackPending := c.ackPending && !s.ackReceived } }
  | disarm {c : Call} (hat : s.sender = .disarming c) :
      SendStep s .clearPending ({ s with ackPending := false }.nextRetry c)

inductive ReceiveStep (s : System) : System → Prop
  | deliver (frame : Option (List UInt8)) :
      ReceiveStep s { s.log (.received frame) with receiver := .inspecting frame }
  | drop : ReceiveStep s { s with receiver := .idle }
  | inspect {frame : List UInt8} (hat : s.receiver = .inspecting (some frame))
      (hack : 3 ≤ frame.length ∧ getType frame = some .ack) :
      ReceiveStep s { s with receiver := .testing frame }
  | test {frame : List UInt8} {seqNo : UInt8} (hat : s.receiver = .testing frame)
      (hpending : s.ackPending = true) (hnumber : frame[2]? = some seqNo) :
      ReceiveStep s { s with receiver := .comparing seqNo }
  | same {seqNo : UInt8} (hat : s.receiver = .comparing seqNo) (hsame : seqNo = s.ackSeqNo) :
      ReceiveStep s { s with receiver := .signalling }
  | signal (hat : s.receiver = .signalling) :
      ReceiveStep s { s with ackReceived := true, receiver := .idle }

section steps

variable {s s' : System} {a : Action}

theorem sendStep_cases (h : s.sendStep a = some s') : SendStep s a s' := by
  cases a with
  | call ackRequest seqNo retries backoffs =>
    simp only [System.sendStep] at h
    split at h
    · split_ifs at h with hfcs
      · cases h
        exact .call ackRequest seqNo retries backoffs ‹_› hfcs
      · cases h
        exact .refuse ackRequest seqNo retries backoffs ‹_› (Bool.eq_false_iff.mpr hfcs)
    · cases h
  | loop =>
    simp only [System.sendStep] at h
    split at h
    · split_ifs at h with hmore
      · cases h
        exact .again ‹_› hmore
      · cases h
        exact .finish ‹_› hmore
    · cases h
  | cca status =>
    simp only [System.sendStep] at h
    split at h
    · split_ifs at h with hnb hstatus
      · cases h
        rw [hstatus]
        exact .clear ‹_›
      · cases h
        exact .occupied status ‹_›
      · cases h
        exact .giveUp status ‹_›
    · cases h
  | dataRequest =>
    simp only [System.sendStep] at h
    split at h
    · split_ifs at h with hack
      · cases h
        exact .handOver ‹_› hack
      · cases h
        exact .handOff ‹_› (Bool.eq_false_iff.mpr hack)
    · cases h
  | wakeUp =>
    simp only [System.sendStep] at h
    split at h
    · split_ifs at h with hset
      cases h
      exact .wake ‹_› hset
    · cases h
  | timeOut =>
    simp only [System.sendStep] at h
    split at h
    · split_ifs at h
      cases h
      exact .timeOut ‹_›
    · cases h
  | writeSeqNo =>
    simp only [System.sendStep] at h
    split at h <;> cases h
    exact .number ‹_›
  | setPending =>
    simp only [System.sendStep] at h
    split at h <;> cases h
    exact .arm ‹_›
  | dataPoll =>
    simp only [System.sendStep] at h
    split at h <;> cases h
    exact .poll ‹_›
  | check =>
    simp only [System.sendStep] at h
    split at h <;> cases h
    exact .check ‹_›
  | clearPending =>
    simp only [System.sendStep] at h
    split at h <;> cases h
    exact .disarm ‹_›
  | deliver _ | inspect | testPending | compare | signal => cases h

theorem receiveStep_cases (h : s.receiveStep a = some s') : ReceiveStep s s' := by
  cases a with
  | deliver frame =>
    simp only [System.receiveStep] at h
    split at h <;> cases h
    exact .deliver frame
  | inspect =>
    simp only [System.receiveStep] at h
    split at h
    · cases h
      exact .drop
    · split_ifs at h with hack
      · cases h
        exact .inspect ‹_› hack
      · cases h
        exact .drop
    · cases h
  | testPending =>
    simp only [System.receiveStep] at h
    split at h
    · split_ifs at h with hpending
      · obtain ⟨seqNo, hnumber, rfl⟩ := Option.map_eq_some_iff.mp h
        exact .test ‹_› hpending hnumber
      · cases h
        exact .drop
    · cases h
  | compare =>
    simp only [System.receiveStep] at h
    split at h
    · split_ifs at h with hsame
      · cases h
        exact .same ‹_› hsame
      · cases h
        exact .drop
    · cases h
  | signal =>
    simp only [System.receiveStep] at h
    split at h <;> cases h
    exact .signal ‹_›
  | _ => cases h

theorem step_cases (h : step s a = some s') : SendStep s a s' ∨ ReceiveStep s s' := by
  cases Option.or_eq_some_iff.mp h with
  | inl hsend => exact .inl (sendStep_cases hsend)
  | inr hreceive => exact .inr (receiveStep_cases hreceive.2)

end steps

/-! ## How often a frame is handed over -/

def Call.IsLatest (c : Call) (history : List Event) : Prop :=
  callOf history = some (c.ackRequest, c.seqNo, c.macMaxFrameRetries)

/-- Between two attempts: each of those before handed the frame over at most once. -/
structure Call.Between (c : Call) (history : List Event) : Prop where
  latest : c.IsLatest history
  tries : handOvers history ≤ c.retry
  noClear : c.noClearChannel = true ↔ handOvers history = 0

/-- Behind the hand-over of an attempt. -/
structure Call.Sent (c : Call) (history : List Event) : Prop where
  latest : c.IsLatest history
  asked : c.ackRequest = true
  retry_le : c.retry ≤ c.macMaxFrameRetries
  tries : handOvers history ≤ c.retry + 1
  sent : 0 < handOvers history

/-- What the sending thread knows of its call, by where it stands. -/
def Progress (history : List Event) : Sender → Prop
  | .idle => True
  | .retrying c => c.Between history ∧ c.retry ≤ c.macMaxFrameRetries + 1
  | .backingOff c _ => c.Between history ∧ c.retry ≤ c.macMaxFrameRetries
  | .sending c => c.Between history ∧ c.retry ≤ c.macMaxFrameRetries
  | .numbering c => c.Sent history
  | .arming c => c.Sent history
  | .waiting c => c.Sent history
  | .polling c => c.Sent history
  | .checking c => c.Sent history
  | .disarming c => c.Sent history

/-- What holds in every run. -/
structure Counting (s : System) : Prop where
  autoFcs : s.phyCapAutoFCS = true
  past : Returns Counted s.history
  progress : Progress s.history s.sender

section counting

variable {s s' : System} {a : Action} {c : Call} {history : List Event}

theorem Progress.received {sender : Sender} (h : Progress history sender)
    (frame : Option (List UInt8)) : Progress (.received frame :: history) sender := by
  have hbetween {c : Call} (h : c.Between history) : c.Between (.received frame :: history) :=
    ⟨h.latest, by simpa using h.tries, by simpa using h.noClear⟩
  have hsent {c : Call} (h : c.Sent history) : c.Sent (.received frame :: history) :=
    ⟨h.latest, h.asked, h.retry_le, by simpa using h.tries, by simpa using h.sent⟩
  cases sender with
  | idle => trivial
  | retrying _ | backingOff _ _ | sending _ => exact ⟨hbetween h.1, h.2⟩
  | _ => exact hsent h

theorem Call.IsLatest.bounded (h : c.IsLatest history)
    (hle : handOvers history ≤ c.macMaxFrameRetries + 1) : Bounded history := by
  intro ackRequest seqNo retries hcall
  have hsame := h.symm.trans hcall
  simp only [Option.some.injEq, Prod.mk.injEq] at hsame
  rwa [← hsame.2.2]

theorem Progress.bounded {sender : Sender} (h : Progress history sender) (hbusy : sender ≠ .idle) :
    Bounded history := by
  cases sender with
  | idle => exact absurd rfl hbusy
  | retrying c => exact h.1.latest.bounded (Nat.le_trans h.1.tries h.2)
  | backingOff c _ | sending c =>
    exact h.1.latest.bounded (le_succ_of_le (Nat.le_trans h.1.tries h.2))
  | _ => exact h.latest.bounded (Nat.le_trans h.tries (succ_le_succ h.retry_le))

theorem Call.Between.counted (h : c.Between history) (hretry : c.retry ≤ c.macMaxFrameRetries + 1) :
    Counted (System.resultOf c) history := by
  constructor
  · rw [← handOvers_eq_zero, ← h.noClear, System.resultOf]
    split_ifs with hclear hpending
    · exact iff_of_true rfl hclear
    · exact iff_of_false nofun hclear
    · exact iff_of_false nofun hclear
  · exact h.latest.bounded (Nat.le_trans h.tries hretry)

theorem Call.Between.handOver (h : c.Between history) (hretry : c.retry ≤ c.macMaxFrameRetries)
    (hack : c.ackRequest = true) : c.Sent (.handedOver :: history) where
  latest := h.latest
  asked := hack
  retry_le := hretry
  tries := by
    rw [handOvers_handedOver]
    exact succ_le_succ h.tries
  sent := by
    rw [handOvers_handedOver]
    exact succ_pos _

theorem between_next (hlatest : c.IsLatest history) (htries : handOvers history ≤ c.retry + 1)
    (hsent : 0 < handOvers history) (pending : Bool) :
    Call.Between { c with ackPending := pending, noClearChannel := false, retry := c.retry + 1 }
      history where
  latest := hlatest
  tries := htries
  noClear := iff_of_false nofun (Nat.pos_iff_ne_zero.mp hsent)

theorem Counting.sendStep (h : Counting s) (hstep : SendStep s a s') : Counting s' := by
  have hprogress := h.progress
  cases hstep with
  | call ackRequest seqNo retries backoffs _ _ =>
    exact ⟨h.autoFcs, h.past.cons nofun, ⟨rfl, zero_le _, iff_of_true rfl rfl⟩, zero_le _⟩
  | refuse _ _ _ _ _ hfcs =>
    rw [h.autoFcs] at hfcs
    cases hfcs
  | again hat hmore =>
    rw [hat] at hprogress
    exact ⟨h.autoFcs, h.past, hprogress.1, hmore.2⟩
  | finish hat _ =>
    rw [hat] at hprogress
    exact ⟨h.autoFcs, h.past.returned (hprogress.1.counted hprogress.2), trivial⟩
  | clear hat | occupied _ hat | number hat | arm hat | timeOut hat | poll hat =>
    rw [hat] at hprogress
    exact ⟨h.autoFcs, h.past, hprogress⟩
  | giveUp _ hat =>
    rw [hat] at hprogress
    obtain ⟨hbetween, hretry⟩ := hprogress
    exact ⟨h.autoFcs, h.past,
      ⟨hbetween.latest, le_succ_of_le hbetween.tries, hbetween.noClear⟩,
      succ_le_succ hretry⟩
  | handOver hat hack =>
    rw [hat] at hprogress
    exact ⟨h.autoFcs, h.past.cons nofun, hprogress.1.handOver hprogress.2 hack⟩
  | handOff hat _ =>
    rw [hat] at hprogress
    obtain ⟨hbetween, hretry⟩ := hprogress
    have hcount : handOvers (.handedOver :: s.history) = handOvers s.history + 1 :=
      handOvers_handedOver
    have hlatest : Call.IsLatest _ (.handedOver :: s.history) := hbetween.latest
    have hnext := between_next hlatest (Nat.le_trans (Nat.le_of_eq hcount) (succ_le_succ
      hbetween.tries))
      (hcount ▸ succ_pos _) false
    exact ⟨h.autoFcs, h.past.cons nofun, hnext, succ_le_succ hretry⟩
  | wake hat _ | check hat =>
    rw [hat] at hprogress
    exact ⟨h.autoFcs, h.past, hprogress.latest, hprogress.asked, hprogress.retry_le,
      hprogress.tries, hprogress.sent⟩
  | disarm hat =>
    rw [hat] at hprogress
    exact ⟨h.autoFcs, h.past, between_next hprogress.latest hprogress.tries hprogress.sent _,
      succ_le_succ hprogress.retry_le⟩

theorem Counting.receiveStep (h : Counting s) (hstep : ReceiveStep s s') : Counting s' := by
  cases hstep with
  | deliver frame => exact ⟨h.autoFcs, h.past.cons nofun, h.progress.received frame⟩
  | _ => exact ⟨h.autoFcs, h.past, h.progress⟩

theorem Counting.step (h : Counting s) (hstep : step s a = some s') : Counting s' := by
  cases step_cases hstep with
  | inl hsend => exact h.sendStep hsend
  | inr hreceive => exact h.receiveStep hreceive

theorem counting_new : Counting System.new := ⟨rfl, returns_nil, trivial⟩

end counting

/-! ## What the event tells -/

/-- The latest call asked for an acknowledgement with the number, and has handed its frame over. -/
def Awaits (seqNo : UInt8) (history : List Event) : Prop :=
  (∃ retries, callOf history = some (true, seqNo, retries)) ∧ .handedOver ∈ sinceCall history

def Sender.call? : Sender → Option Call
  | .idle => none
  | .retrying c => some c
  | .backingOff c _ => some c
  | .sending c => some c
  | .numbering c => some c
  | .arming c => some c
  | .waiting c => some c
  | .polling c => some c
  | .checking c => some c
  | .disarming c => some c

/-- The call whose number is in `_ackSeqNo`. -/
def Sender.numbered? : Sender → Option Call
  | .arming c => some c
  | .waiting c => some c
  | .polling c => some c
  | .checking c => some c
  | .disarming c => some c
  | _ => none

/-- The call that has set `_ackPending`. -/
def Sender.armed? : Sender → Option Call
  | .waiting c => some c
  | .polling c => some c
  | .checking c => some c
  | .disarming c => some c
  | _ => none

/-- What holds in runs without a signal that is left over. -/
structure Signalling (s : System) : Prop extends Counting s where
  confirmed : Returns Confirmed s.history
  numbered : ∀ c, s.sender.numbered? = some c → s.ackSeqNo = c.seqNo
  armed : s.ackPending = true → ∃ c, s.sender.armed? = some c
  done : ∀ c, s.sender.call? = some c → c.ackRequest = true → c.ackPending = false →
    Acknowledged c.seqNo s.history
  event : ∀ seqNo, Awaits seqNo s.history → s.ackReceived = true → Acknowledged seqNo s.history
  receiver : ∀ seqNo, Awaits seqNo s.history → s.receiver.Threatens seqNo s.ackSeqNo →
    Acknowledged seqNo s.history

section signalling

variable {s s' : System} {a : Action} {c : Call} {history : List Event} {seqNo : UInt8}

theorem Call.IsLatest.awaits (h : c.IsLatest history) (hask : c.ackRequest = true)
    (hsent : 0 < handOvers history) : Awaits c.seqNo history :=
  ⟨⟨c.macMaxFrameRetries, by rw [← hask]; exact h⟩, count_pos_iff.mp hsent⟩

theorem not_awaits_called (ackRequest : Bool) (number : UInt8) (retries : ℕ) :
    ¬ Awaits seqNo (.called ackRequest number retries :: history) :=
  fun h ↦ absurd h.2 not_mem_nil

theorem Awaits.of_received {frame : Option (List UInt8)}
    (h : Awaits seqNo (.received frame :: history)) : Awaits seqNo history :=
  ⟨h.1, (mem_cons.mp h.2).resolve_left nofun⟩

theorem Awaits.of_returned {result : MacEnum}
    (h : Awaits seqNo (.returned result :: history)) : Awaits seqNo history :=
  ⟨h.1, (mem_cons.mp h.2).resolve_left nofun⟩

/-- A call's request and number are those of the history. -/
theorem Awaits.seqNo_eq (h : Awaits seqNo history) (hlatest : c.IsLatest history) :
    c.ackRequest = true ∧ c.seqNo = seqNo := by
  obtain ⟨⟨retries, hcall⟩, -⟩ := h
  have hsame := hlatest.symm.trans hcall
  simp only [Option.some.injEq, Prod.mk.injEq] at hsame
  exact ⟨hsame.1, hsame.2.1⟩

/-- With its own number in `_ackSeqNo`, a call has no other number to fear. -/
theorem Receiver.Threatens.renumber {receiver : Receiver} (ackSeqNo : UInt8)
    (h : receiver.Threatens seqNo seqNo) : receiver.Threatens seqNo ackSeqNo := by
  cases receiver with
  | comparing number => exact .inl (Or.elim h id id)
  | _ => exact h

/-- The call that has set `_ackPending` is the latest one. -/
theorem Progress.armed {sender : Sender} (h : Progress history sender)
    (harmed : sender.armed? = some c) : c.IsLatest history ∧ sender.numbered? = some c := by
  cases sender with
  | waiting _ | polling _ | checking _ | disarming _ =>
    cases harmed
    exact ⟨h.latest, rfl⟩
  | _ => cases harmed

section

variable (h : Signalling s)

include h

/-- While `_ackPending` is set, `_ackSeqNo` is the number that is awaited. -/
theorem Signalling.seqNo_eq (hpending : s.ackPending = true)
    (hawaits : Awaits seqNo s.history) : s.ackSeqNo = seqNo := by
  obtain ⟨c, hc⟩ := h.armed hpending
  obtain ⟨hlatest, hnumbered⟩ := h.progress.armed hc
  exact (h.numbered c hnumbered).trans (hawaits.seqNo_eq hlatest).2

/-- A step that leaves the history alone and sets no event. -/
theorem Signalling.quiet (hcounting : Counting s')
    (hhistory : s'.history = s.history) (hevent : s'.ackReceived = true → s.ackReceived = true)
    (hnumbered : ∀ c, s'.sender.numbered? = some c → s'.ackSeqNo = c.seqNo)
    (harmed : s'.ackPending = true → ∃ c, s'.sender.armed? = some c)
    (hdone : ∀ c, s'.sender.call? = some c → c.ackRequest = true → c.ackPending = false →
      Acknowledged c.seqNo s.history)
    (hthreat : ∀ seqNo, Awaits seqNo s.history → s'.receiver.Threatens seqNo s'.ackSeqNo →
      s.receiver.Threatens seqNo s.ackSeqNo) : Signalling s' where
  toCounting := hcounting
  confirmed := hhistory ▸ h.confirmed
  numbered := hnumbered
  armed := harmed
  done := hhistory ▸ hdone
  event seqNo hawaits hset := hhistory ▸ h.event seqNo (hhistory ▸ hawaits) (hevent hset)
  receiver seqNo hawaits hat :=
    hhistory ▸ h.receiver seqNo (hhistory ▸ hawaits) (hthreat seqNo (hhistory ▸ hawaits) hat)

/-- A step of the receiving thread that leaves the history and the event alone. -/
theorem Signalling.setReceiver {receiver : Receiver}
    (hcounting : Counting { s with receiver := receiver })
    (hthreat : ∀ seqNo, Awaits seqNo s.history → receiver.Threatens seqNo s.ackSeqNo →
      s.receiver.Threatens seqNo s.ackSeqNo) : Signalling { s with receiver := receiver } :=
  h.quiet hcounting rfl id h.numbered h.armed h.done hthreat

theorem Signalling.receiveStep (hstep : ReceiveStep s s') : Signalling s' := by
  have hcounting := h.toCounting.receiveStep hstep
  cases hstep with
  | deliver frame =>
    exact
      { toCounting := hcounting
        confirmed := h.confirmed.cons nofun
        numbered := h.numbered
        armed := h.armed
        done := fun c hc hask hover ↦ (h.done c hc hask hover).mono rfl
        event := fun seqNo hawaits hset ↦ (h.event seqNo (Awaits.of_received hawaits) hset).mono rfl
        receiver := fun seqNo hawaits hnumber ↦ .received hnumber (Awaits.of_received hawaits).2 }
  | drop => exact h.setReceiver hcounting fun _ _ hat ↦ hat.elim
  | inspect hat hack =>
    refine h.setReceiver hcounting fun seqNo _ hnumber ↦ ?_
    rw [hat]
    exact (if_pos hack).trans hnumber
  | test hat hpending hnumber =>
    refine h.setReceiver hcounting fun seqNo hawaits hnumbers ↦ ?_
    rw [hat]
    cases hnumbers with
    | inl hsame => exact hsame ▸ hnumber
    | inr hsame => exact (hsame.trans (h.seqNo_eq hpending hawaits)) ▸ hnumber
  | same hat hsame =>
    refine h.setReceiver hcounting fun seqNo _ _ ↦ ?_
    rw [hat]
    exact .inr hsame
  | signal hat =>
    exact
      { toCounting := hcounting
        confirmed := h.confirmed
        numbered := h.numbered
        armed := h.armed
        done := h.done
        event := fun seqNo hawaits _ ↦ h.receiver seqNo hawaits (by rw [hat]; trivial)
        receiver := fun _ _ hidle ↦ hidle.elim }

/-- `_ackPending` is not set before a call has set it. -/
theorem Signalling.unarmed (hnone : s.sender.armed? = none) : ¬ s.ackPending = true := by
  intro hpending
  obtain ⟨c, hc⟩ := h.armed hpending
  cases hnone.symm.trans hc

/-- The frame is handed over: an event that is set, or may be set, tells of an acknowledgement that
came behind an earlier attempt. -/
theorem Signalling.handOver (hclean : Clean s .dataRequest)
    (hat : s.sender = .sending c) (hawaits : Awaits seqNo (.handedOver :: s.history))
    (hleft : s.ackReceived = true ∨ s.receiver.Threatens seqNo s.ackSeqNo) :
    Acknowledged seqNo (.handedOver :: s.history) := by
  by_cases hbefore : .handedOver ∈ sinceCall s.history
  · cases hleft with
    | inl hset => exact (h.event seqNo ⟨hawaits.1, hbefore⟩ hset).mono rfl
    | inr hthreat => exact (h.receiver seqNo ⟨hawaits.1, hbefore⟩ hthreat).mono rfl
  · have hprogress := h.progress
    rw [hat] at hprogress
    obtain ⟨hask, hsame⟩ := hawaits.seqNo_eq (c := c) hprogress.1.latest
    obtain ⟨hset, hthreat⟩ := hclean c rfl hat hask hbefore
    cases hleft with
    | inl hset' => exact absurd (hset.symm.trans hset') Bool.false_ne_true
    | inr hthreat' => exact absurd (hsame ▸ hthreat') hthreat

theorem Signalling.sendStep (hclean : Clean s a) (hstep : SendStep s a s') : Signalling s' := by
  have hcounting := h.toCounting.sendStep hstep
  have hprogress := h.progress
  have hunarmed (hnone : s.sender.armed? = none) {P : Prop} (hpending : s.ackPending = true) : P :=
    absurd hpending (h.unarmed hnone)
  cases hstep with
  | call ackRequest seqNo retries backoffs hat _ =>
    exact
      { toCounting := hcounting
        confirmed := h.confirmed.cons nofun
        numbered := nofun
        armed := hunarmed (by rw [hat]; rfl)
        done := by
          intro c hc _ hover
          cases hc
          cases hover
        event := fun _ hawaits ↦ absurd hawaits (not_awaits_called _ _ _)
        receiver := fun _ hawaits ↦ absurd hawaits (not_awaits_called _ _ _) }
  | refuse _ _ _ _ _ hfcs =>
    rw [h.autoFcs] at hfcs
    cases hfcs
  | again hat _ | clear hat | occupied _ hat =>
    exact h.quiet hcounting rfl id nofun (hunarmed (by rw [hat]; rfl))
      (fun c hc ↦ h.done c (by rw [hat]; exact hc)) fun _ _ ↦ id
  | @finish c hat _ =>
    rw [hat] at hprogress
    have hconfirmed : Confirmed (System.resultOf c) s.history := by
      intro seqNo retries hcall hsuccess
      have hsame := hprogress.1.latest.symm.trans hcall
      simp only [Option.some.injEq, Prod.mk.injEq] at hsame
      rw [System.resultOf] at hsuccess
      split_ifs at hsuccess with _ hover
      exact hsame.2.1 ▸ h.done c (by rw [hat]; rfl) hsame.1 (Bool.eq_false_iff.mpr hover)
    exact
      { toCounting := hcounting
        confirmed := h.confirmed.returned hconfirmed
        numbered := nofun
        armed := hunarmed (by rw [hat]; rfl)
        done := nofun
        event := fun seqNo hawaits hset ↦ (h.event seqNo (Awaits.of_returned hawaits) hset).mono rfl
        receiver := fun seqNo hawaits hthreat ↦
          (h.receiver seqNo (Awaits.of_returned hawaits) hthreat).mono rfl }
  | @giveUp c nb _ hat =>
    refine h.quiet hcounting rfl id nofun (hunarmed (by rw [hat]; rfl)) ?_ fun _ _ ↦ id
    intro c' hc
    cases hc
    exact h.done c (by rw [hat]; rfl)
  | handOver hat _ =>
    exact
      { toCounting := hcounting
        confirmed := h.confirmed.cons nofun
        numbered := nofun
        armed := hunarmed (by rw [hat]; rfl)
        done := fun c hc hask hover ↦ (h.done c (by rw [hat]; exact hc) hask hover).mono rfl
        event := fun _ hawaits hset ↦ h.handOver hclean hat hawaits (.inl hset)
        receiver := fun _ hawaits hthreat ↦ h.handOver hclean hat hawaits (.inr hthreat) }
  | handOff hat hack =>
    exact
      { toCounting := hcounting
        confirmed := h.confirmed.cons nofun
        numbered := nofun
        armed := hunarmed (by rw [hat]; rfl)
        done := by
          intro c hc hask _
          cases hc
          cases hack.symm.trans hask
        event := fun _ hawaits hset ↦ h.handOver hclean hat hawaits (.inl hset)
        receiver := fun _ hawaits hthreat ↦ h.handOver hclean hat hawaits (.inr hthreat) }
  | @number c hat =>
    rw [hat] at hprogress
    refine h.quiet hcounting rfl id ?_ (hunarmed (by rw [hat]; rfl))
      (fun c hc ↦ h.done c (by rw [hat]; exact hc)) fun seqNo hawaits hthreat ↦ ?_
    · intro c' hc
      cases hc
      rfl
    · have hsame : c.seqNo = seqNo := (hawaits.seqNo_eq hprogress.latest).2
      exact Receiver.Threatens.renumber _ (hsame ▸ hthreat)
  | arm hat | timeOut hat | poll hat =>
    exact h.quiet hcounting rfl id (fun c hc ↦ h.numbered c (by rw [hat]; exact hc))
      (fun _ ↦ ⟨_, rfl⟩) (fun c hc ↦ h.done c (by rw [hat]; exact hc)) fun _ _ ↦ id
  | @wake c hat hset =>
    rw [hat] at hprogress
    refine h.quiet hcounting rfl nofun ?_ (fun _ ↦ ⟨_, rfl⟩) ?_ fun _ _ ↦ id
    · intro c' hc
      cases hc
      exact h.numbered c (by rw [hat]; rfl)
    · intro c' hc _ _
      cases hc
      exact h.event c.seqNo (hprogress.latest.awaits hprogress.asked hprogress.sent) hset
  | @check c hat =>
    rw [hat] at hprogress
    refine h.quiet hcounting rfl nofun ?_ (fun _ ↦ ⟨_, rfl⟩) ?_ fun _ _ ↦ id
    · intro c' hc
      cases hc
      exact h.numbered c (by rw [hat]; rfl)
    · intro c' hc hask hover
      cases hc
      cases hset : s.ackReceived with
      | true => exact h.event c.seqNo (hprogress.latest.awaits hprogress.asked hprogress.sent) hset
      | false =>
        have hover' : c.ackPending = false := by simpa [hset] using hover
        exact h.done c (by rw [hat]; rfl) hask hover'
  | @disarm c hat =>
    refine h.quiet hcounting rfl id nofun nofun ?_ fun _ _ ↦ id
    intro c' hc
    cases hc
    exact h.done c (by rw [hat]; rfl)

theorem Signalling.step (hclean : Clean s a) (hstep : step s a = some s') : Signalling s' := by
  cases step_cases hstep with
  | inl hsend => exact h.sendStep hclean hsend
  | inr hreceive => exact h.receiveStep hreceive

end

theorem signalling_new : Signalling System.new :=
  { toCounting := counting_new
    confirmed := returns_nil
    numbered := nofun
    armed := nofun
    done := nofun
    event := fun _ hawaits ↦ absurd hawaits.2 not_mem_nil
    receiver := fun _ hawaits ↦ absurd hawaits.2 not_mem_nil }

end signalling

/-! ## What is reported -/

/-- In every run, a failed access to the channel means that the frame was not handed over, and no
frame is handed over more often than its retries allow.  In a run in which no signal of an earlier
acknowledgement is left when a frame is handed over for the first time, success means that the frame
was acknowledged. -/
theorem success_acknowledged (s : System) :
    (Reachable step (fun _ _ ↦ True) (· = System.new) s →
      Returns Counted s.history ∧ (s.sender ≠ .idle → Bounded s.history)) ∧
      (Reachable step Clean (· = System.new) s → Returns Confirmed s.history) := by
  constructor
  · intro hreach
    have hcounting : Counting s := hreach.invariant
      (fun _ hs ↦ by cases hs; exact counting_new) fun _ _ _ h _ hstep ↦ h.step hstep
    exact ⟨hcounting.past, hcounting.progress.bounded⟩
  · intro hreach
    have hsignalling : Signalling s := hreach.invariant
      (fun _ hs ↦ by cases hs; exact signalling_new) fun _ _ _ h hclean hstep ↦ h.step hclean hstep
    exact hsignalling.confirmed

def ackFrame (seqNo : UInt8) : List UInt8 := [2, 0, seqNo]

/-- A call up to where its frame is handed over. -/
def opening (seqNo : UInt8) : List Action := [.call true seqNo 0 0, .loop, .cca .idle]

def handling (seqNo : UInt8) : List Action :=
  [.deliver (some (ackFrame seqNo)), .inspect, .testPending, .compare, .signal]

theorem clean_of_ne {s : System} {a : Action} (h : a ≠ .dataRequest) : Clean s a :=
  fun _ ha ↦ absurd ha h

/-- The first frame, before it is handed over and behind it. -/
def firstOpened (seqNo : UInt8) : System :=
  { System.new.log (.called true seqNo 0) with
    sender := .sending ⟨true, seqNo, 0, 0, 0, true, true⟩ }

def firstSent (seqNo : UInt8) : System :=
  { (firstOpened seqNo).log .handedOver with
    sender := .numbering ⟨true, seqNo, 0, 0, 0, true, true⟩ }

theorem firstSent_reachable (seqNo : UInt8) :
    Reachable step Clean (· = System.new) (firstSent seqNo) := by
  have hrun : (opening seqNo).foldlM step System.new = some (firstOpened seqNo) := rfl
  have hopen : Reachable step Clean (· = System.new) (firstOpened seqNo) := by
    refine Reachable.foldlM_of_mem (fun s a ha ↦ clean_of_ne ?_) (.start rfl) hrun
    rintro rfl
    simp [opening] at ha
  exact .step .dataRequest hopen (fun _ _ _ _ _ ↦ ⟨rfl, id⟩) rfl

/-- The acknowledgement comes while the call waits. -/
def answered (seqNo : UInt8) : List Action :=
  [.writeSeqNo, .setPending] ++ handling seqNo ++ [.wakeUp, .clearPending, .loop]

theorem success_acknowledged_once :
    ∃ s, (answered 5).foldlM step (firstSent 5) = some s ∧
      s.history.head? = some (.returned .success) ∧ Returns Confirmed s.history := by
  obtain ⟨s, hrun, hhead⟩ : ∃ s, (answered 5).foldlM step (firstSent 5) = some s ∧
      s.history.head? = some (.returned .success) := ⟨_, rfl, rfl⟩
  refine ⟨s, hrun, hhead, (success_acknowledged s).2 ?_⟩
  refine (firstSent_reachable 5).foldlM_of_mem (fun s a ha ↦ clean_of_ne ?_) hrun
  rintro rfl
  simp [answered, handling] at ha

/-- The acknowledgement of the first frame comes when its call has given up, and the next call takes
the signal for its own. -/
def late : List Action :=
  [.writeSeqNo, .setPending, .timeOut, .dataPoll, .check] ++ handling 1 ++ [.clearPending, .loop] ++
    opening 2 ++ [.dataRequest, .writeSeqNo, .setPending, .wakeUp, .clearPending, .loop]

theorem success_unacknowledged :
    ∃ s, Reachable step (fun _ _ ↦ True) (· = System.new) s ∧ ¬ Returns Confirmed s.history := by
  obtain ⟨s, hrun, hhistory⟩ : ∃ s, late.foldlM step (firstSent 1) = some s ∧
      s.history = [.returned .success, .handedOver, .called true 2 0, .returned .noAck,
        .received (some (ackFrame 1)), .handedOver, .called true 1 0] := ⟨_, rfl, rfl⟩
  have hfirst := (firstSent_reachable 1).mono fun _ _ _ ↦ trivial
  refine ⟨s, hfirst.foldlM (fun _ _ ↦ trivial) late hrun, fun hreturns ↦ ?_⟩
  rw [hhistory] at hreturns
  obtain ⟨frame, -, hsub⟩ := hreturns .success _ suffix_rfl 2 0 rfl rfl
  have hlength : 2 ≤ 1 := hsub.length_le
  exact absurd hlength (by decide)

end MicroFramework.Wireless.PhySendReceive
