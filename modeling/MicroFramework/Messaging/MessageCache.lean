import MicroFramework.Messaging.Endpoints

/-!
# The caches of requests and replies

`CLR_Messaging` keeps the replies it sent, to send them again when their request comes again, and
the requests it sent, to take their replies only once.  Here the caches stand with the sizes and
times that `PurgeCache` goes by.  What a handler does with the messaging is a list of calls; which
writes and allocations succeed, and what the clock says, comes with each call.
-/

namespace MicroFramework.Messaging.Caching

open WireProtocol

/-! ## The state -/

/-- `WP_Message`: the header and what `m_payload` points to. -/
structure WireMessage where
  header : Packet
  payload : Option (List UInt8)
  deriving DecidableEq

/-- `CachedMessage`, with the number of its heap block. -/
structure CachedMessage where
  node : ℕ
  processed : Bool
  size : UInt32
  lastSeen : ℤ
  message : WireMessage
  deriving DecidableEq

def sizeofCachedMessage : UInt32 := 96

def maxCacheSize : UInt32 := 5 * 1024

/-- `CLR_Messaging`.  The lists have their front first; `nodes` counts the heap blocks handed out,
and `heapSize` is what the heap has in all. -/
structure State where
  controller : Controller
  requestLookup : List UInt32
  replyLookup : List UInt32
  cacheSubordinate : List CachedMessage
  cacheMaster : List CachedMessage
  cacheTotalSize : UInt32
  nodes : ℕ
  heapSize : UInt32

def bytes (lst : List CachedMessage) : ℕ :=
  (lst.map (·.size.toNat)).sum

def State.cachedBytes (s : State) : ℕ :=
  bytes s.cacheMaster + bytes s.cacheSubordinate

/-- What a transmission meets: whether the port takes the header and the payload, whether the heap
has a free run, and the time. -/
structure Outcome where
  headerWritten : Bool
  payloadWritten : Bool
  free : Bool
  now : ℤ

/-- What the messaging does that its surroundings can see. -/
inductive Output
  | dispatched (msg : WireMessage)
  | answered (reply : WireMessage)
  | sent (request : WireMessage)
  deriving DecidableEq

/-! ## Transmitting -/

def cacheMessage (msg : WireMessage) : WireMessage :=
  if msg.header.size ≠ 0 ∧ msg.payload.isSome then
    { msg with payload := msg.payload.map (·.take msg.header.size.toNat) }
  else { header := { msg.header with size := 0 }, payload := none }

def State.newEntry (s : State) (msg : WireMessage) (o : Outcome) : CachedMessage where
  node := s.nodes
  processed := false
  size := sizeofCachedMessage + msg.header.size
  lastSeen := o.now
  message := cacheMessage msg

def State.hasRoom (s : State) (entry : CachedMessage) (o : Outcome) : Bool :=
  o.free && decide (s.cachedBytes + entry.size.toNat ≤ s.heapSize.toNat)

def transmitMessage (s : State) (msg : WireMessage) (fQueue : Bool) (o : Outcome) : State :=
  if o.headerWritten = false then s
  else if msg.header.size ≠ 0 ∧ msg.payload.isSome ∧ o.payloadWritten = false then s
  else if fQueue ∧ msg.header.flags &&& noCaching = 0 then
    let entry := s.newEntry msg o
    if msg.header.flags &&& Flags.reply ≠ 0 then
      if s.hasRoom entry o then
        { s with
          cacheTotalSize := s.cacheTotalSize + entry.size
          nodes := s.nodes + 1
          cacheSubordinate := entry :: s.cacheSubordinate }
      else s
    else if msg.header.flags &&& Flags.nonCritical ≠ 0 then s
    else if s.hasRoom entry o then
      { s with
        cacheTotalSize := s.cacheTotalSize + entry.size
        nodes := s.nodes + 1
        cacheMaster := entry :: s.cacheMaster }
    else s
  else s

def sendEvent (s : State) (cmd flags : UInt32) (payload : Option (List UInt8)) (o : Outcome) :
    State × List Output :=
  let msg : WireMessage := ⟨prepareRequest s.controller cmd flags (payload.getD []), payload⟩
  (transmitMessage { s with controller := s.controller.bump } msg true o, [.sent msg])

def replyToCommand (s : State) (msg : WireMessage) (fSuccess fCritical : Bool)
    (payload : Option (List UInt8)) (o : Outcome) : State × WireMessage × List Output :=
  if msg.header.flags &&& Flags.nonCritical ≠ 0 then (s, msg, [])
  else
    let msg : WireMessage :=
      { msg with header := { msg.header with flags := msg.header.flags ||| Flags.nonCritical } }
    let caching := if msg.header.flags &&& noCaching ≠ 0 then noCaching else 0
    let success := if fSuccess then ack else Flags.nack
    let critical := if fCritical then 0 else Flags.nonCritical
    let payload := if fSuccess then payload else none
    let reply : WireMessage :=
      ⟨prepareReply s.controller msg.header (caching ||| success ||| critical) (payload.getD []),
        payload⟩
    (transmitMessage { s with controller := s.controller.bump } reply true o, msg,
      [.answered reply])

/-! ## Handlers -/

inductive HandlerCall
  | reply (fSuccess fCritical : Bool) (payload : Option (List UInt8)) (o : Outcome)
  | event (cmd flags : UInt32) (payload : Option (List UInt8)) (o : Outcome)

def runHandler : List HandlerCall → State → WireMessage → State × WireMessage × List Output
  | [], s, msg => (s, msg, [])
  | .reply fSuccess fCritical payload o :: calls, s, msg =>
    let r := replyToCommand s msg fSuccess fCritical payload o
    let rest := runHandler calls r.1 r.2.1
    (rest.1, rest.2.1, r.2.2 ++ rest.2.2)
  | .event cmd flags payload o :: calls, s, msg =>
    let r := sendEvent s cmd flags payload o
    let rest := runHandler calls r.1 msg
    (rest.1, rest.2.1, r.2 ++ rest.2.2)

/-- A received packet, the time, the calls and the result of its handler, and what the last
transmission meets. -/
structure Reception where
  msg : WireMessage
  now : ℤ
  calls : List HandlerCall
  result : Bool
  o : Outcome

/-- The end of `ProcessPayload`: the handler is looked up. -/
def dispatch (s : State) (r : Reception) (lookup : List UInt32) : State × List Output :=
  if r.msg.header.cmd ∈ lookup then
    let handled := runHandler r.calls s r.msg
    let reply := replyToCommand handled.1 handled.2.1 r.result false none r.o
    (reply.1, .dispatched r.msg :: handled.2.2 ++ reply.2.2)
  else
    let reply := replyToCommand s r.msg false false none r.o
    (reply.1, reply.2.2)

/-! ## Receiving -/

/-- The command of a request and its sequence number. -/
abbrev Key := UInt32 × UInt16

def requestKey (header : Packet) : Key :=
  (header.cmd, header.seq)

def replyKey (header : Packet) : Key :=
  (header.cmd, header.seqReply)

/-- `LinkAtFront` of the first entry with a property, with a change to it. -/
def linkAtFront (p : CachedMessage → Bool) (entry : CachedMessage) (lst : List CachedMessage) :
    List CachedMessage :=
  entry :: lst.eraseP p

def isAnsweredBy (reply : Packet) (cache : CachedMessage) : Bool :=
  decide (requestKey cache.message.header = replyKey reply)

def isAnswerTo (request : Packet) (cache : CachedMessage) : Bool :=
  decide (replyKey cache.message.header = requestKey request)

/-- The request that a reply answers goes to the front and is marked. -/
def State.takeReply (s : State) (reply : Packet) (cache : CachedMessage) (now : ℤ) : State :=
  { s with
    cacheMaster := linkAtFront (isAnsweredBy reply)
      { cache with lastSeen := now, processed := true } s.cacheMaster }

def State.touchReply (s : State) (request : Packet) (cache : CachedMessage) (now : ℤ) : State :=
  { s with
    cacheSubordinate := linkAtFront (isAnswerTo request) { cache with lastSeen := now }
      s.cacheSubordinate }

def processPayload (s : State) (r : Reception) : State × List Output :=
  if r.msg.header.flags &&& Flags.nack ≠ 0 then (s, [])
  else if r.msg.header.flags &&& Flags.reply ≠ 0 then
    match s.cacheMaster.find? (isAnsweredBy r.msg.header) with
    | some cache =>
      if cache.processed then (s.takeReply r.msg.header cache r.now, [])
      else dispatch (s.takeReply r.msg.header cache r.now) r s.replyLookup
    | none => dispatch s r s.replyLookup
  else
    match s.cacheSubordinate.find? (isAnswerTo r.msg.header) with
    | some cache =>
      (transmitMessage (s.touchReply r.msg.header cache r.now) cache.message false r.o,
        [.answered cache.message])
    | none => dispatch s r s.requestLookup

/-! ## Purging -/

def purgeBackward (oldest : ℤ) : List CachedMessage → UInt32 → List CachedMessage × UInt32
  | [], total => ([], total)
  | cache :: lst, total =>
    if cache.lastSeen < oldest ∨ maxCacheSize < total then
      purgeBackward oldest lst (total - cache.size)
    else
      let rest := purgeBackward oldest lst total
      (cache :: rest.1, rest.2)

def purgeList (oldest : ℤ) (lst : List CachedMessage) (total : UInt32) :
    List CachedMessage × UInt32 :=
  let kept := purgeBackward oldest lst.reverse total
  (kept.1.reverse, kept.2)

/-- `PurgeCache`, where a second is `TIME_CONVERSION__TO_SECONDS`. -/
def purgeCache (s : State) (now : ℤ) : State :=
  let oldest := now - 10000000 * 3
  let master := purgeList oldest s.cacheMaster s.cacheTotalSize
  let subordinate := purgeList oldest s.cacheSubordinate master.2
  { s with
    cacheMaster := master.1
    cacheSubordinate := subordinate.1
    cacheTotalSize := subordinate.2 }

/-! ## Runs -/

inductive Op
  | receive (r : Reception)
  | send (cmd flags : UInt32) (payload : Option (List UInt8)) (o : Outcome)
  | purge (now : ℤ)

def step (s : State) : Op → State × List Output
  | .receive r => processPayload s r
  | .send cmd flags payload o => sendEvent s cmd flags payload o
  | .purge now => (purgeCache s now, [])

structure Initial (s : State) : Prop where
  master : s.cacheMaster = []
  subordinate : s.cacheSubordinate = []
  total : s.cacheTotalSize = 0

inductive Reachable : State → Prop
  | start {s} : Initial s → Reachable s
  | step {s} (op) : Reachable s → Reachable (step s op).1

inductive RunsWhile (P : State → Prop) : State → List Output → State → Prop
  | nil {s} : P s → RunsWhile P s [] s
  | step {s t outputs} (op) : P s → RunsWhile P (step s op).1 outputs t →
      RunsWhile P s ((step s op).2 ++ outputs) t

end MicroFramework.Messaging.Caching
