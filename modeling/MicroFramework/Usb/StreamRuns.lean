import MicroFramework.Usb.Delivery

/-!
# Every run of the USB driver

The remaining steps keep the invariant, so that all states of a run are good as long as its steps
are clean; a step that is not clean leaves an offset without a packet.
-/

namespace MicroFramework.Usb

open Serial Library Function HalQueue List Option Controller
open Usb.System

/-! ## Reading -/

variable {endpoint : ℕ} {s : System}

/-- What a `Read` of an open receive stream does: it copies out of the packets of the queue and
keeps what is unread. -/
theorem read_sound (h : Invariant s) {queue : HalQueue Packet64}
    (hqueue : s.controller.queues endpoint = some queue)
    (hrx : s.controller.isTxQueue endpoint = false) (size : UInt32) (n : ℕ) :
    (Reading.loop n ⟨queue, s.controller.currentPacketOffset endpoint, size, [], [],
      false⟩).Sound (unread queue (s.controller.currentPacketOffset endpoint)) := by
  apply loop_sound
  exact ⟨h.head endpoint queue hqueue, h.short endpoint queue hqueue hrx, by simp, by simp⟩

/-- `Read` does nothing, or runs its loop over the queue of the stream's receive endpoint. -/
theorem read_cases (st : Controller) (stream : ℕ) (size : UInt32) :
    st.read stream size = ([], [], st) ∨
      ∃ endpoint queue rd, (st.streams stream).rxEP = some endpoint ∧
        st.queues endpoint = some queue ∧
        rd = Reading.loop (size.toNat + queue.numberOfElements + 1)
          ⟨queue, st.currentPacketOffset endpoint, size, [], [], false⟩ ∧
        st.read stream size = (rd.data, rd.copies,
          { st.setQueue endpoint rd.queue with
            currentPacketOffset := update st.currentPacketOffset endpoint rd.offset
            event := if rd.ranEmpty then update st.event endpoint false else st.event }) := by
  unfold Controller.read
  split
  · exact .inl rfl
  · split
    · exact .inl rfl
    · split
      · exact .inl rfl
      · next endpoint hrx =>
        split
        · exact .inl rfl
        · next queue hqueue => exact .inr ⟨endpoint, queue, _, hrx, hqueue, rfl, rfl⟩

theorem read_keeps (h : Invariant s) (stream : ℕ) (size : UInt32) :
    Invariant { s with
      controller := (s.controller.read stream size).2.2
      returned := fun endpoint ↦
        if (s.controller.streams stream).rxEP = some endpoint
        then s.returned endpoint ++ (s.controller.read stream size).1 else s.returned endpoint
      copies := s.copies ++ (s.controller.read stream size).2.1 } := by
  rcases read_cases s.controller stream size with
    hnone | ⟨endpoint, queue, rd, hrx, hqueue, hrd, hread⟩
  · simpa [hnone] using h
  · have hdirection := h.rxStream stream endpoint hrx
    have hdelivered := h.delivered endpoint queue hqueue hdirection
    have hsound : rd.Sound (unread queue (s.controller.currentPacketOffset endpoint)) := by
      rw [hrd]
      exact read_sound h hqueue hdirection size _
    rw [hread]
    simp only [hrx, Option.some.injEq]
    refine ⟨⟨?_, ?_, ?_⟩, ?_, ?_, h.rxStream, h.txStream, ?_⟩
    · intro other queue' hqueue'
      by_cases heq : other = endpoint
      · have hnew : rd.queue = queue' := by
          simpa [setQueue, heq] using hqueue'
        rw [heq, ← hnew]
        simpa using hsound.head
      · simpa [heq] using
          h.head other queue' (by simpa [setQueue, heq] using hqueue')
    · intro copy hcopy
      rcases mem_append.mp hcopy with hcopy | hcopy
      · exact h.copies copy hcopy
      · exact hsound.copies copy hcopy
    · intro other queue' hqueue' hrx'
      by_cases heq : other = endpoint
      · have hnew : rd.queue = queue' := by
          simpa [setQueue, heq] using hqueue'
        rw [heq, ← hnew]
        simp only [if_true, update_self]
        rw [append_assoc, hsound.data]
        exact hdelivered
      · simp only [if_neg (Ne.symm heq), update_of_ne heq]
        exact h.delivered other queue' (by simpa [setQueue, heq] using hqueue') hrx'
    · intro other queue' hqueue' hrx'
      by_cases heq : other = endpoint
      · have hnew : rd.queue = queue' := by
          simpa [setQueue, heq] using hqueue'
        rw [← hnew]
        exact hsound.short
      · exact h.short other queue'
          (by simpa [setQueue, heq] using hqueue') hrx'
    · intro other htx
      have hne : other ≠ endpoint := by
        rintro rfl
        rw [show s.controller.isTxQueue other = true from htx] at hdirection
        cases hdirection
      simpa [hne] using h.txOffset other htx
    · intro other hsome
      by_cases heq : other = endpoint
      · rw [heq]
        exact h.bounded endpoint (by simp [hqueue])
      · exact h.bounded other (by simpa [setQueue, heq] using hsome)

/-! ## Packets coming in -/

/-- A packet is stored at the end of the queue, or lost when the queue is full. -/
theorem rxEnqueue_cases {st : Controller} {queue : HalQueue Packet64}
    (hqueue : st.queues endpoint = some queue) (bytes : List UInt8) :
    st.rxEnqueue endpoint bytes = (false, { st with event := update st.event endpoint true }) ∨
      ∃ queue', queue.push ((queue.data queue.writer).filled bytes) = some queue' ∧
        st.rxEnqueue endpoint bytes =
          (true, { st with event := update st.event endpoint true }.setQueue endpoint
            queue') := by
  unfold rxEnqueue
  rw [hqueue]
  dsimp only
  split
  · exact .inl rfl
  · next queue' hpush => exact .inr ⟨queue', hpush, rfl⟩

theorem rxEnqueue_keeps (h : Invariant s) {bytes : List UInt8}
    (hsome : (s.controller.queues endpoint).isSome) (hrx : s.controller.isTxQueue endpoint = false)
    (hsize : bytes.length ≤ (s.controller.maxPacketSize endpoint).toNat) :
    Invariant { s with
      controller := (s.controller.rxEnqueue endpoint bytes).2
      received := if (s.controller.rxEnqueue endpoint bytes).1 then
        update s.received endpoint (s.received endpoint ++ bytes) else s.received } := by
  have hshort : bytes.length < 256 :=
    Nat.lt_of_le_of_lt hsize (s.controller.maxPacketSize endpoint).toNat_lt
  obtain ⟨queue, hqueue⟩ := isSome_iff_exists.mp hsome
  rcases rxEnqueue_cases hqueue bytes with hlost | ⟨queue', hpush, henqueue⟩
  · rw [hlost]
    exact ⟨⟨h.head, h.copies, h.delivered⟩, h.short, h.txOffset, h.rxStream, h.txStream, h.bounded⟩
  · rw [henqueue]
    have helements := elements_push hpush
    have hbound := h.head endpoint queue hqueue
    have hbytes : queueBytes queue' = queueBytes queue ++ bytes := by
      simp [queueBytes, helements, bytes_filled _ hshort]
    have hsizeFilled : ((queue.data queue.writer).filled bytes).size.toNat < 256 := by
      rw [← length_bytes, bytes_filled _ hshort]
      exact hshort
    refine ⟨⟨?_, h.copies, ?_⟩, ?_, h.txOffset, h.rxStream, h.txStream, ?_⟩
    · intro other queue'' hqueue''
      by_cases heq : other = endpoint
      · have hnew : queue' = queue'' := by
          simpa [setQueue, heq] using hqueue''
        rw [heq, ← hnew]
        cases hold : queue.elements with
        | nil =>
          have hzero := (headBound_nil hold).mp hbound
          show HeadBound queue' (s.controller.currentPacketOffset endpoint)
          rw [hzero]
          exact headBound_zero queue'
        | cons packet rest =>
          rw [hold] at helements
          exact (headBound_cons helements).mpr ((headBound_cons hold).mp hbound)
      · exact h.head other queue'' (by simpa [setQueue, heq] using hqueue'')
    · intro other queue'' hqueue'' hrx'
      by_cases heq : other = endpoint
      · have hnew : queue' = queue'' := by
          simpa [setQueue, heq] using hqueue''
        have hdelivered := h.delivered endpoint queue hqueue hrx
        rw [heq, ← hnew]
        simp only [if_true, update_self]
        show s.returned endpoint ++ (queueBytes queue').drop
          (s.controller.currentPacketOffset endpoint).toNat = s.received endpoint ++ bytes
        rw [hbytes, drop_append_of_le_length hbound.le_length, ← hdelivered,
          append_assoc]
        rfl
      · simp only [if_true, update_of_ne heq]
        exact h.delivered other queue'' (by simpa [setQueue, heq] using hqueue'') hrx'
    · intro other queue'' hqueue'' hrx'
      by_cases heq : other = endpoint
      · have hnew : queue' = queue'' := by
          simpa [setQueue, heq] using hqueue''
        intro packet hpacket
        rw [← hnew, helements] at hpacket
        rcases mem_append.mp hpacket with hpacket | hpacket
        · exact h.short endpoint queue hqueue hrx packet hpacket
        · rw [mem_singleton.mp hpacket]
          exact hsizeFilled
      · exact h.short other queue'' (by simpa [setQueue, heq] using hqueue'') hrx'
    · intro other hsome
      by_cases heq : other = endpoint
      · rw [heq]
        exact h.bounded endpoint (by simp [hqueue])
      · exact h.bounded other (by simpa [setQueue, heq] using hsome)

/-! ## Packets going out -/

theorem writePacket_keeps (h : Invariant s) (stream : ℕ) (bytes : List UInt8) :
    Invariant { s with controller := s.controller.writePacket stream bytes } := by
  unfold writePacket
  split
  · exact h
  · next endpoint htx =>
    split
    · exact h
    · next queue hqueue =>
      split
      · exact h
      · next queue' hpush =>
        exact h.setTxQueue (h.txStream stream endpoint htx)
          (h.bounded endpoint (by simp [hqueue])) queue'

theorem writeTimeout_keeps (h : Invariant s) (stream : ℕ) :
    Invariant { s with controller := s.controller.writeTimeout stream } := by
  unfold writeTimeout
  cases htx : (s.controller.streams stream).txEP with
  | none => exact h
  | some endpoint => exact h.clearTx (h.txStream stream endpoint htx)

theorem txDequeue_keeps (h : Invariant s) (htx : s.controller.isTxQueue endpoint = true) :
    Invariant { s with controller := s.controller.txDequeue endpoint } := by
  unfold txDequeue
  split
  · exact h
  · next queue hqueue =>
    split
    · exact h
    · next packet queue' hpop =>
      exact h.setTxQueue htx (h.bounded endpoint (by simp [hqueue])) queue'

/-! ## Device states -/

/-- The queues behind a state callback: those of the receive endpoints that it clears are empty,
the transmit queues are cleared when the configured state is left, and the rest stay. -/
theorem stateCallback_queues (endpoint : ℕ) :
    (s.clears .stateCallback endpoint →
        s.controller.stateCallback.queues endpoint = (s.controller.queues endpoint).map clear) ∧
      (¬ s.clears .stateCallback endpoint → s.controller.isTxQueue endpoint = false →
        s.controller.stateCallback.queues endpoint = s.controller.queues endpoint) := by
  have hclear : ∀ queue : HalQueue Packet64, queue.clear.clear = queue.clear := fun _ ↦ rfl
  have hcomp : clear ∘ clear = (clear : HalQueue Packet64 → _) := funext hclear
  unfold stateCallback
  by_cases hsame : s.controller.currentState = s.controller.deviceState
  · rw [if_pos hsame]
    exact ⟨fun hc ↦ absurd hsame hc.1, fun _ _ ↦ rfl⟩
  · rw [if_neg hsame]
    constructor
    · rintro ⟨-, hstate, hlt, hrx⟩
      by_cases hleft : s.controller.currentState = .configured
      · by_cases hentered : s.controller.deviceState = .configured
        · exact absurd (hleft.trans hentered.symm) hsame
        · simp [clearQueues, hleft, hentered, hlt]
      · have hentered := hstate.resolve_left hleft
        simp [clearQueues, hleft, hentered, hlt, hrx]
    · intro hno hrx
      by_cases hleft : s.controller.currentState = .configured
      · have hnone : ¬ endpoint < s.controller.maxQueues :=
          fun hlt ↦ hno ⟨hsame, .inl hleft, hlt, hrx⟩
        by_cases hentered : s.controller.deviceState = .configured
        · exact absurd (hleft.trans hentered.symm) hsame
        · simp [clearQueues, hleft, hentered, hnone]
      · by_cases hentered : s.controller.deviceState = .configured
        · have hnone : ¬ endpoint < s.controller.maxQueues :=
            fun hlt ↦ hno ⟨hsame, .inr hentered, hlt, hrx⟩
          simp [clearQueues, hleft, hentered, hnone]
        · simp [hleft, hentered]

/-- A state callback changes the queues and `CurrentState` only. -/
theorem stateCallback_rest (st : Controller) :
    st.stateCallback.currentPacketOffset = st.currentPacketOffset ∧
      st.stateCallback.isTxQueue = st.isTxQueue ∧ st.stateCallback.streams = st.streams ∧
      st.stateCallback.maxQueues = st.maxQueues := by
  unfold stateCallback
  by_cases hsame : st.currentState = st.deviceState
  · simp [hsame]
  · by_cases hleft : st.currentState = .configured
    · by_cases hentered : st.deviceState = .configured
      · exact absurd (hleft.trans hentered.symm) hsame
      · rw [if_neg hsame, if_pos hleft, if_neg hentered]
        exact ⟨rfl, rfl, rfl, rfl⟩
    · by_cases hentered : st.deviceState = .configured
      · rw [if_neg hsame, if_neg hleft, if_pos hentered]
        exact ⟨rfl, rfl, rfl, rfl⟩
      · rw [if_neg hsame, if_neg hleft, if_neg hentered]
        exact ⟨rfl, rfl, rfl, rfl⟩

theorem stateCallback_isSome (st : Controller) (endpoint : ℕ) :
    (st.stateCallback.queues endpoint).isSome = (st.queues endpoint).isSome := by
  have hclear : ∀ (st : Controller) (rx tx : Bool),
      ((st.clearQueues rx tx).queues endpoint).isSome = (st.queues endpoint).isSome := by
    intro st rx tx
    simp only [clearQueues]
    split
    · exact isSome_map
    · rfl
  unfold stateCallback
  split
  · rfl
  · dsimp only
    split
    · rw [hclear]
      dsimp only
      split
      · exact hclear _ _ _
      · rfl
    · dsimp only
      split
      · exact hclear _ _ _
      · rfl

theorem stateCallback_keeps (h : Invariant s) (hclean : Clean s .stateCallback) :
    Invariant { s.forget .stateCallback with controller := s.controller.stateCallback } := by
  obtain ⟨hoffset, hdirection, hstreams, hmax⟩ := stateCallback_rest s.controller
  have hqueues := fun endpoint ↦ stateCallback_queues (s := s) endpoint
  refine ⟨⟨?_, h.copies, ?_⟩, ?_, ?_, ?_, ?_, ?_⟩
  · intro endpoint queue hqueue
    simp only [hoffset]
    by_cases htx : s.controller.isTxQueue endpoint = true
    · rw [h.txOffset endpoint htx]
      exact headBound_zero queue
    · by_cases hc : s.clears .stateCallback endpoint
      · have hold : (s.controller.queues endpoint).isSome := by
          rw [← stateCallback_isSome, hqueue]
          rfl
        rw [hclean endpoint hc hold]
        exact headBound_zero queue
      · rw [(hqueues endpoint).2 hc (by simpa using htx)] at hqueue
        exact h.head endpoint queue hqueue
  · intro endpoint queue hqueue hrx
    simp only [hdirection] at hrx
    simp only [hoffset, forget]
    by_cases hc : s.clears .stateCallback endpoint
    · rw [(hqueues endpoint).1 hc] at hqueue
      obtain ⟨old, -, hold⟩ := map_eq_some_iff.mp hqueue
      simp [hc, ← hold, unread, queueBytes]
    · rw [(hqueues endpoint).2 hc hrx] at hqueue
      simp only [if_neg hc]
      exact h.delivered endpoint queue hqueue hrx
  · intro endpoint queue hqueue hrx
    simp only [hdirection] at hrx
    by_cases hc : s.clears .stateCallback endpoint
    · rw [(hqueues endpoint).1 hc] at hqueue
      obtain ⟨old, -, hold⟩ := map_eq_some_iff.mp hqueue
      intro packet hpacket
      rw [← hold, elements_clear] at hpacket
      cases hpacket
    · rw [(hqueues endpoint).2 hc hrx] at hqueue
      exact h.short endpoint queue hqueue hrx
  · intro endpoint htx
    simp only [hdirection] at htx
    simp only [hoffset]
    exact h.txOffset endpoint htx
  · intro stream endpoint hrx
    simp only [hstreams] at hrx
    simp only [hdirection]
    exact h.rxStream stream endpoint hrx
  · intro stream endpoint htx
    simp only [hstreams] at htx
    simp only [hdirection]
    exact h.txStream stream endpoint htx
  · intro endpoint hsome
    simp only [hmax]
    rw [stateCallback_isSome] at hsome
    exact h.bounded endpoint hsome

/-! ## Steps and runs -/

theorem step_keeps (s : System) (a : Action) (s' : System) (h : Invariant s) (hclean : Clean s a)
    (hstep : s.step a = some s') : Invariant s' := by
  cases a with
  | openStream stream writeEP readEP =>
    cases hstep
    exact openStream_keeps h stream writeEP readEP
  | closeStream stream =>
    cases hstep
    exact closeStream_keeps h hclean
  | read stream size =>
    cases hstep
    exact read_keeps h stream size
  | writePacket stream bytes =>
    cases hstep
    exact writePacket_keeps h stream bytes
  | writeTimeout stream =>
    cases hstep
    exact writeTimeout_keeps h stream
  | rxEnqueue endpoint bytes =>
    unfold step at hstep
    dsimp only at hstep
    split at hstep
    · next hguard =>
      cases hstep
      exact rxEnqueue_keeps h hguard.1 hguard.2.1 hguard.2.2
    · cases hstep
  | txDequeue endpoint =>
    unfold step at hstep
    dsimp only at hstep
    split at hstep
    · next htx =>
      cases hstep
      exact txDequeue_keeps h htx
    · cases hstep
  | deviceState state =>
    cases hstep
    exact ⟨⟨h.head, h.copies, h.delivered⟩, h.short, h.txOffset, h.rxStream, h.txStream,
      h.bounded⟩
  | stateCallback =>
    cases hstep
    exact stateCallback_keeps h hclean

/-- Behind a step that clears a queue the head of that queue has no bytes, and a good state then
has no offset. -/
theorem clean_of_good (s : System) (a : Action) (s' : System) (h : Invariant s)
    (hstep : s.step a = some s') (hgood : Good s') : Clean s a := by
  intro endpoint hclears hsome
  obtain ⟨queue, hqueue⟩ := isSome_iff_exists.mp hsome
  cases a with
  | closeStream stream =>
    obtain ⟨hinitialized, hbound, hrx⟩ := hclears
    cases hstep
    have hno : ¬ (s.controller.initialized = false ∨ s.controller.maxQueues ≤ stream) := by
      rw [hinitialized]
      simpa using hbound
    have hne : ∀ other, (s.controller.streams stream).txEP = some other → other ≠ endpoint := by
      rintro other htx rfl
      have hfalse := h.rxStream stream other hrx
      rw [h.txStream stream other htx] at hfalse
      cases hfalse
    have hcleared : (s.controller.closeStream stream).2.queues endpoint = some queue.clear := by
      unfold closeStream
      rw [if_neg hno]
      simp only [hrx, clearEndpoint]
      cases htx : (s.controller.streams stream).txEP with
      | none => simp [clearQueue, hqueue, setQueue]
      | some other =>
        have hother := hne other htx
        simp only [clearQueue, hqueue, setQueue,
          update_of_ne hother]
        split
        · exact update_self ..
        · simp [Ne.symm hother]
    have hoffset : (s.controller.closeStream stream).2.currentPacketOffset =
        s.controller.currentPacketOffset := by
      unfold closeStream
      rw [if_neg hno]
      simp only [hrx, clearEndpoint]
      cases (s.controller.streams stream).txEP with
      | none => simp [clearQueue, hqueue, setQueue]
      | some other =>
        simp only [clearQueue, hqueue, setQueue]
        split
        · rfl
        · rfl
    have hhead := hgood.head endpoint queue.clear hcleared
    rw [headBound_nil (elements_clear queue)] at hhead
    exact (congrFun hoffset endpoint).symm.trans hhead
  | stateCallback =>
    cases hstep
    have hcleared := (stateCallback_queues endpoint).1 hclears
    rw [hqueue] at hcleared
    have hhead := hgood.head endpoint queue.clear hcleared
    rw [headBound_nil (elements_clear queue)] at hhead
    exact (congrFun (stateCallback_rest s.controller).1 endpoint).symm.trans hhead
  | openStream | read | writePacket | writeTimeout | rxEnqueue | txDequeue | deviceState =>
    exact hclears.elim

/-- In a run from an initialised controller all states deliver the received bytes exactly when no
step clears a receive queue whose first packet is half read. -/
theorem streams_deliver_iff {start final : System} {actions : List Action}
    (hstart : start.Initial) (hrun : actions.foldlM step start = some final) :
    (∀ done rest s, done ++ rest = actions → done.foldlM step start = some s → Good s) ↔
      ∀ done a rest s, done ++ a :: rest = actions → done.foldlM step start = some s →
        Clean s a :=
  good_iff_clean step_keeps (fun _ h ↦ h.toGood) clean_of_good actions (Initial.invariant hstart)
    hrun

/-- An initialised controller whose endpoint 1 receives into a queue of two packets. -/
def attached : System where
  controller := {
    maxQueues := 3
    initialized := true
    currentState := .configured
    deviceState := .configured
    event := fun _ ↦ false
    queues := fun endpoint ↦ if endpoint = 1
      then some (initializeQueue (fun _ ↦ ⟨0, fun _ ↦ 0⟩) 2 (by decide)) else none
    currentPacketOffset := fun _ ↦ 0
    maxPacketSize := fun _ ↦ 64
    isTxQueue := fun endpoint ↦ endpoint = 2
    streams := fun _ ↦ ⟨none, none⟩ }
  received := fun _ ↦ []
  returned := fun _ ↦ []
  copies := []

theorem attached_initial : attached.Initial where
  streams := fun _ ↦ rfl
  empty := fun endpoint queue hqueue ↦ by
    by_cases heq : endpoint = 1
    · have hnew : initializeQueue (fun _ ↦ ⟨0, fun _ ↦ 0⟩) 2 (by decide) = queue := by
        simpa [attached, heq] using hqueue
      rw [← hnew]
      rfl
    · simp [attached, heq] at hqueue
  bounded := fun endpoint hsome ↦ by
    by_cases heq : endpoint = 1
    · rw [heq]
      decide
    · simp [attached, heq] at hsome
  offsets := fun _ ↦ rfl
  received := fun _ ↦ rfl
  returned := fun _ ↦ rfl
  copies := rfl

/-- A packet of two bytes is read in two calls, the next packet and no more in the third. -/
def readInParts : List Action :=
  [.openStream 0 none (some 1), .rxEnqueue 1 [7, 8], .read 0 1, .rxEnqueue 1 [9], .read 0 1,
    .read 0 5]

theorem streams_deliver_attached :
    ∃ final, readInParts.foldlM step attached = some final ∧
      final.received 1 = [7, 8, 9] ∧ final.returned 1 = [7, 8, 9] ∧
      ((∀ done rest s, done ++ rest = readInParts → done.foldlM step attached = some s → Good s) ↔
        ∀ done a rest s, done ++ a :: rest = readInParts →
          done.foldlM step attached = some s → Clean s a) := by
  obtain ⟨final, hrun, hbytes⟩ := map_eq_some_iff.mp (show
    (readInParts.foldlM step attached).map (fun s : System ↦ (s.received 1, s.returned 1)) =
      some ([7, 8, 9], [7, 8, 9]) by decide)
  exact ⟨final, hrun, congrArg Prod.fst hbytes, congrArg Prod.snd hbytes,
    streams_deliver_iff attached_initial hrun⟩

/-- A packet of two bytes is received and the stream closed when one of them has been read. -/
def closedHalfRead : List Action :=
  [.openStream 0 none (some 1), .rxEnqueue 1 [7, 8], .read 0 1, .closeStream 0]

/-- The queue is empty then, but its offset is one; of the two bytes that come in after the stream
was opened again, the next `Read` returns the second only. -/
theorem closedHalfRead_loses_byte :
    (closedHalfRead.foldlM step attached).map (fun s ↦
        ((s.controller.queues 1).map numberOfElements,
          s.controller.currentPacketOffset 1)) = some (some 0, 1) ∧
      ((closedHalfRead ++ [Action.openStream 0 none (some 1), .rxEnqueue 1 [9, 10],
        .read 0 2]).foldlM step attached).map (fun s : System ↦ (s.received 1, s.returned 1)) = some
          ([9, 10], [10]) ∧
      ¬ ∀ done rest s, done ++ rest = closedHalfRead →
        done.foldlM step attached = some s → Good s := by
  have hstate : (closedHalfRead.foldlM step attached).map (fun s ↦
      ((s.controller.queues 1).map numberOfElements,
        s.controller.currentPacketOffset 1)) = some (some 0, 1) := by
    decide
  refine ⟨hstate, by decide, ?_⟩
  intro hall
  obtain ⟨s, hs, hpair⟩ := map_eq_some_iff.mp hstate
  obtain ⟨queue, hqueue, hcount⟩ := map_eq_some_iff.mp (congrArg Prod.fst hpair)
  have hempty : queue.elements = [] := by
    apply length_eq_zero_iff.mp
    rw [length_elements, hcount]
  have hhead := (hall closedHalfRead [] s (append_nil _) hs).head 1 queue hqueue
  rw [headBound_nil hempty, show s.controller.currentPacketOffset 1 = 1 from
    congrArg Prod.snd hpair] at hhead
  exact absurd hhead (by decide)

end MicroFramework.Usb
