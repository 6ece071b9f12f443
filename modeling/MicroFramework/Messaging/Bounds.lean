import MicroFramework.Messaging.Endpoints

/-!
# Staying inside what was received

The handlers read the fields at the start of the payload without a look at its size, and take the
address off the size in 32 bits.  A packet stays inside its payload, and so do the messages it
queues, exactly when no handler sees it or its payload holds an address, or for the debugger the fields
that its handler reads; where the size is so large that the rounding of its own buffer wraps around, a
message must not be queued either.
-/

namespace MicroFramework.Messaging

open WireProtocol List

/-! ## The property -/

/-- All reads are inside the first `size` bytes of the payload; every queued message has a block
for its header and the bytes copied into it, and a length of at most `size`. -/
structure StaysInside (size : UInt32) (trace : Trace) : Prop where
  reads : ∀ read ∈ trace.reads, read.1 + read.2 ≤ size.toNat
  blocks : ∀ rpc ∈ trace.queued, sizeofMessage.toNat + rpc.data.length ≤ rpc.capacity
  lengths : ∀ rpc ∈ trace.queued, rpc.length.toNat ≤ size.toNat

theorem staysInside_append {size : UInt32} {first second : Trace} :
    StaysInside size (first.append second) ↔ StaysInside size first ∧ StaysInside size second := by
  constructor
  · intro h
    constructor
    · exact ⟨fun read hr ↦ h.reads read (mem_append_left _ hr),
        fun rpc hq ↦ h.blocks rpc (mem_append_left _ hq),
        fun rpc hq ↦ h.lengths rpc (mem_append_left _ hq)⟩
    · exact ⟨fun read hr ↦ h.reads read (mem_append_right _ hr),
        fun rpc hq ↦ h.blocks rpc (mem_append_right _ hq),
        fun rpc hq ↦ h.lengths rpc (mem_append_right _ hq)⟩
  · rintro ⟨hfirst, hsecond⟩
    refine ⟨?_, ?_, ?_⟩
    · intro read hread
      rcases mem_append.mp hread with hread | hread
      · exact hfirst.reads read hread
      · exact hsecond.reads read hread
    · intro rpc hrpc
      rcases mem_append.mp hrpc with hrpc | hrpc
      · exact hfirst.blocks rpc hrpc
      · exact hsecond.blocks rpc hrpc
    · intro rpc hrpc
      rcases mem_append.mp hrpc with hrpc | hrpc
      · exact hfirst.lengths rpc hrpc
      · exact hsecond.lengths rpc hrpc

theorem staysInside_of_quiet {size : UInt32} {trace : Trace} (hreads : trace.reads = [])
    (hqueued : trace.queued = []) : StaysInside size trace := by
  refine ⟨?_, ?_, ?_⟩
  · simp [hreads]
  · simp [hqueued]
  · simp [hqueued]

theorem staysInside_reads {size : UInt32} {reads : List (ℕ × ℕ)} :
    StaysInside size ⟨reads, [], []⟩ ↔ ∀ read ∈ reads, read.1 + read.2 ≤ size.toNat := by
  constructor
  · intro h
    exact h.reads
  · intro h
    exact ⟨h, by simp, by simp⟩

/-! ## Replies touch no payload -/

theorem transmitMessage_quiet (env : Surroundings) (st : State) (header : Packet)
    (payload : List UInt8) (fQueue : Bool) :
    (transmitMessage env st header payload fQueue).2.reads = [] ∧
      (transmitMessage env st header payload fQueue).2.queued = [] := by
  unfold transmitMessage
  dsimp only
  split
  · split
    · split
      · exact ⟨rfl, rfl⟩
      · split
        · exact ⟨rfl, rfl⟩
        · exact ⟨rfl, rfl⟩
    · exact ⟨rfl, rfl⟩
  · exact ⟨rfl, rfl⟩

theorem transmitMessage_staysInside (env : Surroundings) (st : State) (header : Packet)
    (payload : List UInt8) (fQueue : Bool) (size : UInt32) :
    StaysInside size (transmitMessage env st header payload fQueue).2 := by
  have hquiet := transmitMessage_quiet env st header payload fQueue
  exact staysInside_of_quiet hquiet.1 hquiet.2

theorem replyToCommand_staysInside (env : Surroundings) (st : State) (msg : Packet)
    (fSuccess fCritical : Bool) (payload : List UInt8) (size : UInt32) :
    StaysInside size (replyToCommand env st msg fSuccess fCritical payload).2.2 := by
  unfold replyToCommand
  split
  · exact staysInside_of_quiet rfl rfl
  · exact transmitMessage_staysInside env _ _ _ _ size

/-! ## Allocation -/

/-- A buffer of `size` bytes is granted only for a size of less than `0xFFFF` heap blocks, or for
one so large that the rounding wraps around. -/
theorem size_of_allocate {heap : UInt32 → Bool} {size : UInt32}
    (h : (allocate heap size).isSome) : size.toNat < 786405 ∨ 2 ^ 32 - 27 ≤ size.toNat := by
  unfold allocate at h
  dsimp only at h
  split at h
  · cases h
  · next hblocks =>
    have hsize := size.toNat_lt
    have hle : ((16 + size + 11) / 12).toNat ≤ 0xFFFF :=
      UInt32.le_iff_toNat_le.mp (UInt32.not_lt.mp hblocks)
    simp only [UInt32.toNat_div, UInt32.toNat_add, UInt32.reduceToNat] at hle
    omega

/-- No block has more room than `0xFFFF` heap blocks. -/
theorem allocate_le {heap : UInt32 → Bool} {length : UInt32} {capacity : ℕ}
    (h : allocate heap length = some capacity) : capacity < 2 ^ 31 := by
  unfold allocate at h
  dsimp only at h
  split at h
  · cases h
  · next hblocks =>
    have hle : ((16 + length + 11) / 12).toNat ≤ 0xFFFF :=
      UInt32.le_iff_toNat_le.mp (UInt32.not_lt.mp hblocks)
    split at h
    · cases h
      omega
    · cases h

/-- A block granted without a wrap around holds what was asked for. -/
theorem le_of_allocate {heap : UInt32 → Bool} {length : UInt32} {capacity : ℕ}
    (hlength : length.toNat < 2 ^ 31) (h : allocate heap length = some capacity) :
    length.toNat ≤ capacity := by
  unfold allocate at h
  dsimp only at h
  split at h
  · cases h
  · split at h
    · cases h
      simp only [UInt32.toNat_div, UInt32.toNat_add, UInt32.reduceToNat]
      omega
    · cases h

/-! ## The handlers -/

@[simp]
theorem length_peek (env : Surroundings) (payload : Option (List UInt8)) (offset n : ℕ) :
    (peek env payload offset n).length = n := by
  simp [peek]

/-- A message for the port is queued: the endpoint is there and the heap grants the block. -/
def Queues (env : Surroundings) (st : State) (length : UInt32) (port : Port) : Prop :=
  (findEndPoint st.endPoints port).isSome ∧ (allocate env.heap (sizeofMessage + length)).isSome

/-- What `AllocateAndQueueMessage` reads and queues for the rest of a payload that holds an
address. -/
theorem allocateAndQueueMessage_staysInside {env : Surroundings} {st : State} {size : UInt32}
    {payload : Option (List UInt8)} {cmd : UInt32} {port : Port} {addr : Address} {found : Bool}
    (hsize : 20 ≤ size.toNat) (haccepted : size.toNat < 786405 ∨ 2 ^ 32 - 27 ≤ size.toNat) :
    StaysInside size (allocateAndQueueMessage env st payload cmd (size - sizeofAddress) (some 20)
        port addr found).2.2 ↔
      (Queues env st (size - sizeofAddress) port → size.toNat < 2 ^ 32 - 27) := by
  have hlength : (size - sizeofAddress).toNat = size.toNat - 20 :=
    UInt32.toNat_sub_of_le size sizeofAddress (UInt32.le_iff_toNat_le.mpr hsize)
  have hbound := size.toNat_lt
  unfold allocateAndQueueMessage
  cases hfind : findEndPoint st.endPoints port with
  | none =>
    simp only [Queues, hfind]
    exact ⟨fun _ h ↦ by simp at h, fun _ ↦ staysInside_of_quiet rfl rfl⟩
  | some place =>
    cases hblock : allocate env.heap (sizeofMessage + (size - sizeofAddress)) with
    | none =>
      simp only [Queues, hblock]
      exact ⟨fun _ h ↦ by simp at h, fun _ ↦ staysInside_of_quiet rfl rfl⟩
    | some capacity =>
      constructor
      · intro h _
        have hroom := h.blocks _ (mem_singleton.mpr rfl)
        have hcapacity := allocate_le hblock
        simp only [length_peek, hlength] at hroom
        omega
      · intro h
        have hsmall := h ⟨by simp [hfind], by simp [hblock]⟩
        have hrequest : (sizeofMessage + (size - sizeofAddress)).toNat = size.toNat + 28 := by
          rw [UInt32.toNat_add, hlength, show sizeofMessage.toNat = 48 from rfl]
          omega
        have hroom := le_of_allocate (by omega) hblock
        rw [hrequest] at hroom
        refine ⟨?_, ?_, ?_⟩
        · intro read hread
          cases mem_singleton.mp hread
          simp only [hlength]
          omega
        · intro rpc hrpc
          cases mem_singleton.mp hrpc
          simp only [length_peek, hlength, show sizeofMessage.toNat = 48 from rfl]
          omega
        · intro rpc hrpc
          cases mem_singleton.mp hrpc
          simp only [hlength]
          omega

theorem messagingQuery_staysInside (env : Surroundings) (st : State) (msg : Packet)
    (payload : Option (List UInt8)) :
    StaysInside msg.size (messagingQuery env st msg payload).2.2.2 ↔ 20 ≤ msg.size.toNat := by
  unfold messagingQuery
  rw [staysInside_append, staysInside_reads]
  constructor
  · intro h
    exact h.1 (0, 20) (by simp)
  · intro h
    refine ⟨?_, replyToCommand_staysInside _ _ _ _ _ _ _⟩
    intro read hread
    rcases mem_cons.mp hread with rfl | hread
    · exact h
    · cases mem_singleton.mp hread
      exact h

theorem forward_staysInside {env : Surroundings} {st : State} {msg : Packet}
    {payload : Option (List UInt8)} {cmd : UInt32} {port : Address → Port}
    (haccepted : 20 ≤ msg.size.toNat →
      msg.size.toNat < 786405 ∨ 2 ^ 32 - 27 ≤ msg.size.toNat) :
    StaysInside msg.size (forward env st msg payload cmd port).2.2.2 ↔
      20 ≤ msg.size.toNat ∧
        (Queues env st (msg.size - sizeofAddress) (port (addressOf env payload)) →
          msg.size.toNat < 2 ^ 32 - 27) := by
  unfold forward
  rw [staysInside_append, staysInside_append, staysInside_append, staysInside_reads]
  constructor
  · rintro ⟨haddr, hqueued, -⟩
    have hsize : 20 ≤ msg.size.toNat := haddr (0, 20) (by simp)
    exact ⟨hsize, (allocateAndQueueMessage_staysInside hsize (haccepted hsize)).mp hqueued⟩
  · rintro ⟨hsize, hqueues⟩
    have haddr : ∀ read ∈ [(0, 20)], read.1 + read.2 ≤ msg.size.toNat := by
      intro read hread
      cases mem_singleton.mp hread
      exact hsize
    exact ⟨haddr, (allocateAndQueueMessage_staysInside hsize (haccepted hsize)).mpr hqueues, haddr,
      replyToCommand_staysInside _ _ _ _ _ _ _⟩

/-! ## Every packet -/

/-- A packet that the handler sees: it is no refusal, its command is the handler's in the tables, and
neither is it a reply that was processed before nor a request whose reply is still cached. -/
def Dispatched (st : State) (msg : Packet) (handler : Handler) : Prop :=
  msg.flags &&& Flags.nack = 0 ∧
    if msg.flags &&& Flags.reply = 0 then
      lookup lookupRequest st.requestLookup msg = some handler ∧ cachedReply st msg = none
    else
      lookup lookupReply st.replyLookup msg = some handler ∧
        ∀ place, cachedRequest st msg = some place →
          (st.cacheMaster[place]?).any CachedMessage.processed = false

/-- What a packet needs so that the handler it is given to stays inside: its payload holds an address,
and no message is queued for a size that wraps around; for the debugger, its payload holds the fields
that the handler reads. -/
def Handler.Fits (env : Surroundings) (st : State) (msg : Packet) (payload : Option (List UInt8)) :
    Handler → Prop
  | .query => 20 ≤ msg.size.toNat
  | .send => 20 ≤ msg.size.toNat ∧
    (Queues env st (msg.size - sizeofAddress) (addressOf env payload).receiver →
      msg.size.toNat < 2 ^ 32 - 27)
  | .reply => 20 ≤ msg.size.toNat ∧
    (Queues env st (msg.size - sizeofAddress) (addressOf env payload).sender →
      msg.size.toNat < 2 ^ 32 - 27)
  | .debugger handler => handler.extent env msg payload ≤ msg.size.toNat

/-- The payload is what `App_ProcessHeader` made room for, filled with the received bytes. -/
def Received (env : Surroundings) (msg : Packet) : Option (List UInt8) → Prop
  | none => appProcessHeader env msg = .acceptNoBuffer
  | some bytes => appProcessHeader env msg = .acceptWithBuffer ∧ bytes.length = msg.size.toNat

theorem size_of_received {env : Surroundings} {msg : Packet} {payload : Option (List UInt8)}
    (h : Received env msg payload) (hsize : 20 ≤ msg.size.toNat) :
    msg.size.toNat < 786405 ∨ 2 ^ 32 - 27 ≤ msg.size.toNat := by
  have hpositive : msg.size ≠ 0 := by
    intro hzero
    rw [hzero] at hsize
    exact absurd hsize (by decide)
  refine @size_of_allocate env.headerHeap msg.size ?_
  cases payload with
  | none =>
    have haccepted : appProcessHeader env msg = .acceptNoBuffer := h
    unfold appProcessHeader at haccepted
    rw [if_neg hpositive] at haccepted
    split at haccepted
    · cases haccepted
    · cases haccepted
  | some bytes =>
    have haccepted := h.1
    unfold appProcessHeader at haccepted
    rw [if_neg hpositive] at haccepted
    split at haccepted
    · assumption
    · cases haccepted

theorem debugger_staysInside (env : Surroundings) (st : State) (msg : Packet)
    (payload : Option (List UInt8)) (handler : DebuggerHandler) :
    StaysInside msg.size (handler.run env st msg payload).2.2.2 ↔
      handler.extent env msg payload ≤ msg.size.toNat := by
  have hreply : StaysInside msg.size (debuggerReply env st msg).2.2 := by
    unfold debuggerReply
    split
    · exact staysInside_of_quiet rfl rfl
    · exact replyToCommand_staysInside ..
  unfold DebuggerHandler.run
  rw [staysInside_append, staysInside_reads, and_iff_left hreply]
  exact DebuggerHandler.extent_le_iff.symm

/-- The handler that a packet is given to. -/
theorem dispatch_staysInside {env : Surroundings} {st : State} {msg : Packet}
    {payload : Option (List UInt8)} (hreceived : Received env msg payload) (found : Option Handler) :
    StaysInside msg.size (dispatch env st msg payload found).2 ↔
      ∀ handler, found = some handler → handler.Fits env st msg payload := by
  have haccepted := size_of_received hreceived
  cases found with
  | none =>
    simp only [reduceCtorEq, false_implies, implies_true, iff_true]
    exact replyToCommand_staysInside ..
  | some handler =>
    have hran : StaysInside msg.size (dispatch env st msg payload (some handler)).2 ↔
        StaysInside msg.size (handler.run env st msg payload).2.2.2 := by
      rw [dispatch, staysInside_append]
      exact and_iff_left (replyToCommand_staysInside ..)
    simp only [Option.some.injEq, forall_eq']
    rw [hran]
    cases handler with
    | query => exact messagingQuery_staysInside env st msg payload
    | send => exact forward_staysInside haccepted
    | reply => exact forward_staysInside haccepted
    | debugger handler => exact debugger_staysInside env st msg payload handler

/-- A packet that `App_ProcessHeader` has accepted stays inside what was received, and so do the
messages queued for it, exactly when it fits every handler that sees it. -/
theorem processPayload_staysInside_iff {env : Surroundings} {st : State} {msg : Packet}
    {payload : Option (List UInt8)} (hreceived : Received env msg payload) :
    StaysInside msg.size (processPayload env st msg payload).2 ↔
      ∀ handler, Dispatched st msg handler → handler.Fits env st msg payload := by
  have hquiet : StaysInside msg.size Trace.empty := staysInside_of_quiet rfl rfl
  have hdispatch := fun st' ↦ @dispatch_staysInside env st' msg payload hreceived
  unfold processPayload Dispatched
  by_cases hnack : msg.flags &&& Flags.nack = 0
  · rw [if_neg (not_not_intro hnack)]
    by_cases hflag : msg.flags &&& Flags.reply = 0
    · rw [if_neg (not_not_intro hflag)]
      simp only [hnack, hflag, if_true, true_and]
      cases hcached : cachedReply st msg with
      | none =>
        simp only [and_true]
        exact hdispatch st _
      | some place =>
        simp only [reduceCtorEq, and_false, false_implies, implies_true, iff_true]
        cases st.cacheSubordinate[place]? with
        | none => exact hquiet
        | some cache => exact transmitMessage_staysInside env _ _ _ _ _
    · rw [if_pos hflag]
      simp only [hnack, hflag, if_false, true_and]
      cases hcached : cachedRequest st msg with
      | none =>
        simp only [reduceCtorEq, false_implies, implies_true, and_true]
        exact hdispatch st _
      | some place =>
        cases hprocessed : (st.cacheMaster[place]?).any CachedMessage.processed with
        | true =>
          have hno : ¬ ∀ place', some place = some place' →
              (st.cacheMaster[place']?).any CachedMessage.processed = false := by
            intro h
            rw [h place rfl] at hprocessed
            cases hprocessed
          simp only [hno, and_false, false_implies, implies_true, iff_true, hprocessed, if_true]
          exact hquiet
        | false =>
          have hyes : ∀ place', some place = some place' →
              (st.cacheMaster[place']?).any CachedMessage.processed = false := by
            intro place' heq
            cases heq
            exact hprocessed
          simp only [and_iff_left hyes, hprocessed, Bool.false_eq_true, if_false]
          exact hdispatch _ _
  · rw [if_pos hnack]
    simp only [hnack, false_and, false_implies, implies_true, iff_true]
    exact hquiet

/-- Surroundings that grant every request and have zeros in memory. -/
def generous : Surroundings where
  headerHeap := fun _ ↦ true
  heap := fun _ ↦ true
  cacheRoom := true
  written := true
  answers := ⟨fun _ ↦ true, 0, none, true⟩
  beyond := fun _ ↦ 0

/-- Empty caches and one endpoint, at the port with zeros for its type and id; the debugger shares the
port. -/
def oneEndPoint : State where
  controller := ⟨none, 0⟩
  cacheSubordinate := []
  cacheMaster := []
  endPoints := [⟨⟨0, 0⟩, []⟩]
  requestLookup := debuggerLookupRequest
  replyLookup := debuggerLookupReply

def request (cmd size : UInt32) : Packet := ⟨markerPacketV1, 0, 0, cmd, 1, 0, 0, size⟩

/-- A query with the 20 bytes of an address. -/
theorem processPayload_staysInside_query :
    StaysInside 20 (processPayload generous oneEndPoint (request Commands.messagingQuery 20)
        (some (replicate 20 0))).2 ↔
      ∀ handler, Dispatched oneEndPoint (request Commands.messagingQuery 20) handler →
        handler.Fits generous oneEndPoint (request Commands.messagingQuery 20)
          (some (replicate 20 0)) :=
  @processPayload_staysInside_iff generous oneEndPoint (request Commands.messagingQuery 20)
    (some (replicate 20 0)) ⟨by decide, by decide⟩

/-- A message of 4 bytes is sent to the endpoint: the address is read past its end, and the message
that is queued has a length of almost `2 ^ 32` in a block of 32 bytes. -/
theorem send_leaves_payload :
    Received generous (request Commands.messagingSend 4) (some (replicate 4 0)) ∧
      ((processPayload generous oneEndPoint (request Commands.messagingSend 4)
        (some (replicate 4 0))).2.queued.map fun rpc ↦ (rpc.length, rpc.capacity)) =
          [(0xFFFFFFF0, 32)] ∧
      ¬ StaysInside 4 (processPayload generous oneEndPoint (request Commands.messagingSend 4)
        (some (replicate 4 0))).2 := by
  have hqueued : ((processPayload generous oneEndPoint (request Commands.messagingSend 4)
      (some (replicate 4 0))).2.queued.map fun rpc ↦ (rpc.length, rpc.capacity)) =
        [(0xFFFFFFF0, 32)] := by
    decide
  refine ⟨⟨by decide, by decide⟩, hqueued, ?_⟩
  intro h
  have hmem : ((0xFFFFFFF0 : UInt32), 32) ∈ (processPayload generous oneEndPoint
      (request Commands.messagingSend 4) (some (replicate 4 0))).2.queued.map
        fun rpc ↦ (rpc.length, rpc.capacity) := by
    rw [hqueued]
    exact mem_singleton.mpr rfl
  obtain ⟨rpc, hrpc, heq⟩ := mem_map.mp hmem
  have hlength := h.lengths rpc hrpc
  rw [show rpc.length = 0xFFFFFFF0 from congrArg Prod.fst heq] at hlength
  exact absurd hlength (by decide)

end MicroFramework.Messaging
