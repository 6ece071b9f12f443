import MicroFramework.Messaging.DebuggerHandlers

/-!
# Messages to endpoints

`CLR_Messaging` is the application behind the wire protocol: a request or a reply is looked up in two
tables of handlers, and the handlers answer it or queue a message at an endpoint.  Every access to
the received payload is recorded with its place, and every queued message with the room its block
has.  The second tables are what `Initialize` is given: none on a port of the messaging alone, the
debugger's on a port that it shares.  The times in the caches, which only `PurgeCache` reads, and what
the debugger does to the runtime are left out.
-/

namespace MicroFramework.Messaging

open Support WireProtocol

/-! ## Addresses, messages and endpoints -/

/-- `CLR_RT_HeapBlock_EndPoint::Port`. -/
structure Port where
  type : UInt32
  id : UInt32
  deriving DecidableEq

/-- `CLR_RT_HeapBlock_EndPoint::Address`. -/
structure Address where
  seq : UInt32
  sender : Port
  receiver : Port
  deriving DecidableEq

def sizeofAddress : UInt32 := 20

/-- `sizeof(CLR_RT_HeapBlock_EndPoint::Message)`. -/
def sizeofMessage : UInt32 := 48

def Address.ofBytes (bytes : List UInt8) : Address where
  seq := wordAt bytes 0
  sender := ⟨wordAt bytes 4, wordAt bytes 8⟩
  receiver := ⟨wordAt bytes 12, wordAt bytes 16⟩

def Address.bytes (addr : Address) : List UInt8 :=
  leBytes 4 addr.seq.toNat ++ (leBytes 4 addr.sender.type.toNat ++
    (leBytes 4 addr.sender.id.toNat ++ (leBytes 4 addr.receiver.type.toNat ++
      leBytes 4 addr.receiver.id.toNat)))

/-- `CLR_RT_HeapBlock_EndPoint::Message`, with the bytes copied into it and the bytes of its
block. -/
structure Message where
  cmd : UInt32
  addr : Address
  found : Bool
  length : UInt32
  data : List UInt8
  capacity : ℕ
  deriving DecidableEq

structure EndPoint where
  addr : Port
  messages : List Message
  deriving DecidableEq

def findEndPoint (endPoints : List EndPoint) (port : Port) : Option ℕ :=
  endPoints.findIdx? fun endPoint ↦ endPoint.addr = port

def appProcessHeader (env : Surroundings) (msg : Packet) : Verdict :=
  if msg.size = 0 then .acceptNoBuffer
  else if (allocate env.headerHeap msg.size).isSome then .acceptWithBuffer
  else .refuse

/-! ## The messaging state -/

/-- `CachedMessage`: whether it is marked `c_Processed`, and the message. -/
structure CachedMessage where
  processed : Bool
  header : Packet
  payload : List UInt8
  deriving DecidableEq

/-- `CLR_Messaging`, with the list of endpoints and the second tables. -/
structure State where
  controller : Controller
  cacheSubordinate : List CachedMessage
  cacheMaster : List CachedMessage
  endPoints : List EndPoint
  requestLookup : List (DebuggerHandler × UInt32)
  replyLookup : List (DebuggerHandler × UInt32)

/-- What handling a packet does that can be seen: the places of the payload that are read, as
offset and number of bytes, the messages queued and the messages transmitted. -/
structure Trace where
  reads : List (ℕ × ℕ)
  queued : List Message
  sent : List (Packet × List UInt8)
  deriving DecidableEq

def Trace.empty : Trace := ⟨[], [], []⟩

def Trace.append (first second : Trace) : Trace :=
  ⟨first.reads ++ second.reads, first.queued ++ second.queued, first.sent ++ second.sent⟩

/-- `WP_Flags::c_NoCaching` and `WP_Flags::c_ACK`. -/
def noCaching : UInt32 := 0x2000

def ack : UInt32 := 0x8000

/-! ## Transmitting and replying -/

/-- `TransmitMessage`: a reply is cached with the subordinate's, a critical request with the
master's messages. -/
def transmitMessage (env : Surroundings) (st : State) (header : Packet) (payload : List UInt8)
    (fQueue : Bool) : State × Trace :=
  if env.written then
    let sent : Trace := ⟨[], [], [(header, payload)]⟩
    let cache : CachedMessage := ⟨false, header, payload⟩
    if fQueue ∧ header.flags &&& noCaching = 0 ∧ env.cacheRoom then
      if header.flags &&& Flags.reply ≠ 0 then
        ({ st with cacheSubordinate := cache :: st.cacheSubordinate }, sent)
      else if header.flags &&& Flags.nonCritical ≠ 0 then (st, sent)
      else ({ st with cacheMaster := cache :: st.cacheMaster }, sent)
    else (st, sent)
  else (st, .empty)

/-- `ReplyToCommand`: it replies only once, since it marks the request as non-critical. -/
def replyToCommand (env : Surroundings) (st : State) (msg : Packet) (fSuccess fCritical : Bool)
    (payload : List UInt8) : Packet × State × Trace :=
  if msg.flags &&& Flags.nonCritical ≠ 0 then (msg, st, .empty)
  else
    let msg := { msg with flags := msg.flags ||| Flags.nonCritical }
    let caching := if msg.flags &&& noCaching ≠ 0 then noCaching else 0
    let success := if fSuccess then ack else Flags.nack
    let critical := if fCritical then 0 else Flags.nonCritical
    let payload := if fSuccess then payload else []
    let header := prepareReply st.controller msg (caching ||| success ||| critical) payload
    let sent := transmitMessage env { st with controller := st.controller.bump } header payload true
    (msg, sent.1, sent.2)

/-! ## The handlers -/

namespace Commands

def messagingQuery : UInt32 := 0x00020090
def messagingSend : UInt32 := 0x00020091
def messagingReply : UInt32 := 0x00020092

end Commands

/-- `AllocateAndQueueMessage`: the data is the place in the payload it is copied from. -/
def allocateAndQueueMessage (env : Surroundings) (st : State) (payload : Option (List UInt8))
    (cmd length : UInt32) (data : Option ℕ) (port : Port) (addr : Address) (found : Bool) :
    Bool × State × Trace :=
  match findEndPoint st.endPoints port with
  | none => (false, st, .empty)
  | some place =>
    match allocate env.heap (sizeofMessage + length) with
    | none => (false, st, .empty)
    | some capacity =>
      let copied := match data with
        | none => []
        | some offset => peek env payload offset length.toNat
      let rpc : Message := ⟨cmd, addr, found, length, copied, capacity⟩
      let reads := match data with
        | none => []
        | some offset => [(offset, length.toNat)]
      (true,
        { st with endPoints := st.endPoints.modify place fun endPoint ↦
            { endPoint with messages := endPoint.messages ++ [rpc] } },
        ⟨reads, [rpc], []⟩)

/-- `m_found` and `m_addr` of the three reply structures. -/
def replyBytes (found : Bool) (addr : Address) : List UInt8 :=
  leBytes 4 (if found then 1 else 0) ++ addr.bytes

def addressOf (env : Surroundings) (payload : Option (List UInt8)) : Address :=
  Address.ofBytes (peek env payload 0 20)

def messagingQuery (env : Surroundings) (st : State) (msg : Packet)
    (payload : Option (List UInt8)) : Bool × Packet × State × Trace :=
  let addr := addressOf env payload
  let found := (findEndPoint st.endPoints addr.receiver).isSome
  let reply := replyToCommand env st msg true false (replyBytes found addr)
  (true, reply.1, reply.2.1, (Trace.mk [(12, 8), (0, 20)] [] []).append reply.2.2)

/-- The body that `Messaging_Send` and `Messaging_Reply` share: the rest of the payload is queued at
the endpoint with this port. -/
def forward (env : Surroundings) (st : State) (msg : Packet) (payload : Option (List UInt8))
    (cmd : UInt32) (port : Address → Port) : Bool × Packet × State × Trace :=
  let addr := addressOf env payload
  let length := msg.size - sizeofAddress
  let queued := allocateAndQueueMessage env st payload cmd length (some 20) (port addr) addr false
  let reply := replyToCommand env queued.2.1 msg queued.1 false (replyBytes true addr)
  (true, reply.1, reply.2.1,
    (Trace.mk [(0, 20)] [] []).append
      (queued.2.2.append ((Trace.mk [(0, 20)] [] []).append reply.2.2)))

def messagingSend (env : Surroundings) (st : State) (msg : Packet)
    (payload : Option (List UInt8)) : Bool × Packet × State × Trace :=
  forward env st msg payload Commands.messagingSend Address.receiver

def messagingReply (env : Surroundings) (st : State) (msg : Packet)
    (payload : Option (List UInt8)) : Bool × Packet × State × Trace :=
  forward env st msg payload Commands.messagingReply Address.sender

/-- The reply that a handler of the debugger sends before it returns, if it sends one. -/
def debuggerReply (env : Surroundings) (st : State) (msg : Packet) : Packet × State × Trace :=
  match env.answers.reply with
  | none => (msg, st, Trace.empty)
  | some (fSuccess, bytes) => replyToCommand env st msg fSuccess false bytes

def DebuggerHandler.run (handler : DebuggerHandler) (env : Surroundings) (st : State) (msg : Packet)
    (payload : Option (List UInt8)) : Bool × Packet × State × Trace :=
  let reply := debuggerReply env st msg
  (env.answers.result, reply.1, reply.2.1,
    (Trace.mk (handler.reads env msg payload) [] []).append reply.2.2)

/-! ## Looking a packet up -/

inductive Handler
  | query
  | send
  | reply
  | debugger (handler : DebuggerHandler)
  deriving DecidableEq

def lookupRequest : List (Handler × UInt32) :=
  [(.query, Commands.messagingQuery), (.send, Commands.messagingSend),
    (.reply, Commands.messagingReply)]

/-- `c_Messaging_Lookup_Reply`: it names the handlers of requests too. -/
def lookupReply : List (Handler × UInt32) :=
  [(.query, Commands.messagingQuery), (.send, Commands.messagingSend),
    (.reply, Commands.messagingReply)]

def Handler.run (handler : Handler) (env : Surroundings) (st : State) (msg : Packet)
    (payload : Option (List UInt8)) : Bool × Packet × State × Trace :=
  match handler with
  | .query => messagingQuery env st msg payload
  | .send => messagingSend env st msg payload
  | .reply => messagingReply env st msg payload
  | .debugger handler => handler.run env st msg payload

/-- The loop over the tables at the end of `ProcessPayload`: the handler of the command. -/
def lookup (table : List (Handler × UInt32)) (second : List (DebuggerHandler × UInt32))
    (msg : Packet) : Option Handler :=
  let tables := table ++ second.map fun entry ↦ (.debugger entry.1, entry.2)
  (tables.find? fun entry ↦ entry.2 = msg.cmd).map (·.1)

/-- The handler is run, and its result is the reply unless it has replied. -/
def dispatch (env : Surroundings) (st : State) (msg : Packet) (payload : Option (List UInt8)) :
    Option Handler → State × Trace
  | some handler =>
    let ran := handler.run env st msg payload
    let reply := replyToCommand env ran.2.2.1 ran.2.1 ran.1 false []
    (reply.2.1, ran.2.2.2.append reply.2.2)
  | none => (replyToCommand env st msg false false []).2

/-- The place in the master's cache of the request that a reply answers. -/
def cachedRequest (st : State) (msg : Packet) : Option ℕ :=
  st.cacheMaster.findIdx? fun cache ↦ cache.header.cmd = msg.cmd ∧ cache.header.seq = msg.seqReply

/-- The place in the subordinate's cache of the reply to a request that comes again. -/
def cachedReply (st : State) (msg : Packet) : Option ℕ :=
  st.cacheSubordinate.findIdx? fun cache ↦
    msg.cmd = cache.header.cmd ∧ msg.seq = cache.header.seqReply

def linkAtFront (caches : List CachedMessage) (place : ℕ) : List CachedMessage :=
  (caches[place]?).toList ++ caches.eraseIdx place

def processPayload (env : Surroundings) (st : State) (msg : Packet)
    (payload : Option (List UInt8)) : State × Trace :=
  if msg.flags &&& Flags.nack ≠ 0 then (st, .empty)
  else if msg.flags &&& Flags.reply ≠ 0 then
    match cachedRequest st msg with
    | some place =>
      let marked := st.cacheMaster.modify place fun cache ↦ { cache with processed := true }
      let st' := { st with cacheMaster := linkAtFront marked place }
      if (st.cacheMaster[place]?).any CachedMessage.processed then (st', .empty)
      else dispatch env st' msg payload (lookup lookupReply st.replyLookup msg)
    | none => dispatch env st msg payload (lookup lookupReply st.replyLookup msg)
  else
    match cachedReply st msg with
    | some place =>
      let st' := { st with cacheSubordinate := linkAtFront st.cacheSubordinate place }
      match st.cacheSubordinate[place]? with
      | some cache => transmitMessage env st' cache.header cache.payload false
      | none => (st', .empty)
    | none => dispatch env st msg payload (lookup lookupRequest st.requestLookup msg)

end MicroFramework.Messaging
