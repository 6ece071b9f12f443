import MicroFramework.Usb.Reading
import MicroFramework.Library.Runs

/-!
# Bulk streams deliver the received bytes

What a state has to be for the streams to deliver what was received, the invariant behind it, and
that every step keeps it as long as no receive queue is cleared while its first packet is half
read.  Clearing such a queue leaves an offset without a packet, so the condition is exact.
-/

namespace MicroFramework.Usb

open Serial Library Controller

/-! ## What is to hold -/

/-- The offsets are inside the packets at the heads, the copies were inside the packets they were
made from, and what was returned and what is left unread make up what was received. -/
structure Good (s : System) : Prop where
  head : ∀ endpoint queue, s.controller.queues endpoint = some queue →
    HeadBound queue (s.controller.currentPacketOffset endpoint)
  copies : ∀ copy ∈ s.copies, copy.offset + copy.length ≤ copy.size
  delivered : ∀ endpoint queue, s.controller.queues endpoint = some queue →
    s.controller.isTxQueue endpoint = false →
      s.returned endpoint ++ unread queue (s.controller.currentPacketOffset endpoint) =
        s.received endpoint

/-- No action clears a receive queue whose first packet is half read. -/
def Clean (s : System) (a : Action) : Prop :=
  ∀ endpoint, s.clears a endpoint → (s.controller.queues endpoint).isSome →
    s.controller.currentPacketOffset endpoint = 0

structure Invariant (s : System) : Prop extends Good s where
  short : ∀ endpoint queue, s.controller.queues endpoint = some queue →
    s.controller.isTxQueue endpoint = false → Short queue
  txOffset : ∀ endpoint, s.controller.isTxQueue endpoint = true →
    s.controller.currentPacketOffset endpoint = 0
  rxStream : ∀ stream endpoint, (s.controller.streams stream).rxEP = some endpoint →
    s.controller.isTxQueue endpoint = false
  txStream : ∀ stream endpoint, (s.controller.streams stream).txEP = some endpoint →
    s.controller.isTxQueue endpoint = true
  bounded : ∀ endpoint, (s.controller.queues endpoint).isSome →
    endpoint < s.controller.maxQueues

theorem Initial.invariant {s : System} (h : s.Initial) : Invariant s where
  head := fun endpoint queue _ ↦ by
    rw [h.offsets endpoint]
    exact headBound_zero queue
  copies := fun copy hcopy ↦ by
    rw [h.copies] at hcopy
    cases hcopy
  delivered := fun endpoint queue hqueue _ ↦ by
    rw [h.returned endpoint, h.received endpoint, unread, queueBytes, h.empty endpoint queue hqueue]
    simp
  short := fun endpoint queue hqueue _ packet hpacket ↦ by
    rw [h.empty endpoint queue hqueue] at hpacket
    cases hpacket
  txOffset := fun endpoint _ ↦ h.offsets endpoint
  rxStream := fun stream endpoint hrx ↦ by
    rw [h.streams stream] at hrx
    cases hrx
  txStream := fun stream endpoint htx ↦ by
    rw [h.streams stream] at htx
    cases htx
  bounded := h.bounded

/-! ## Edits of a transmit queue and of the rest -/

section Edits

variable {s : System} {endpoint : ℕ} {queue : HalQueue Packet64}

/-- A transmit queue may change at will: its offset is zero. -/
theorem Invariant.setTxQueue (h : Invariant s) (htx : s.controller.isTxQueue endpoint = true)
    (hbound : endpoint < s.controller.maxQueues) (queue : HalQueue Packet64) :
    Invariant { s with controller := s.controller.setQueue endpoint queue } where
  head := fun other queue' hqueue' ↦ by
    by_cases heq : other = endpoint
    · rw [heq, show (s.controller.setQueue endpoint queue).currentPacketOffset endpoint = 0 from
        h.txOffset endpoint htx]
      exact headBound_zero queue'
    · exact h.head other queue' (by simpa [setQueue, heq] using hqueue')
  copies := h.copies
  delivered := fun other queue' hqueue' hrx ↦ by
    have hne : other ≠ endpoint := by
      rintro rfl
      rw [show (s.controller.setQueue other queue).isTxQueue other = true from htx] at hrx
      cases hrx
    exact h.delivered other queue' (by simpa [setQueue, hne] using hqueue') hrx
  short := fun other queue' hqueue' hrx ↦ by
    have hne : other ≠ endpoint := by
      rintro rfl
      rw [show (s.controller.setQueue other queue).isTxQueue other = true from htx] at hrx
      cases hrx
    exact h.short other queue' (by simpa [setQueue, hne] using hqueue') hrx
  txOffset := h.txOffset
  rxStream := h.rxStream
  txStream := h.txStream
  bounded := fun other hsome ↦ by
    by_cases heq : other = endpoint
    · rw [heq]
      exact hbound
    · exact h.bounded other (by simpa [setQueue, heq] using hsome)

theorem Invariant.clearTx (h : Invariant s) (htx : s.controller.isTxQueue endpoint = true) :
    Invariant { s with controller := s.controller.clearQueue endpoint } := by
  unfold clearQueue
  cases hqueue : s.controller.queues endpoint with
  | none => exact h
  | some queue => exact h.setTxQueue htx (h.bounded endpoint (by simp [hqueue])) queue.clear

/-- A receive queue that is not half read may be cleared, when its history is forgotten. -/
theorem Invariant.clearRx (h : Invariant s) (hoffset : (s.controller.queues endpoint).isSome →
      s.controller.currentPacketOffset endpoint = 0) :
    Invariant { s with
      controller := s.controller.clearQueue endpoint
      received := fun other ↦ if endpoint = other then [] else s.received other
      returned := fun other ↦ if endpoint = other then [] else s.returned other } := by
  unfold clearQueue
  cases hqueue : s.controller.queues endpoint with
  | none =>
    have hne : ∀ other queue', s.controller.queues other = some queue' → endpoint ≠ other := by
      rintro other queue' hqueue' rfl
      rw [hqueue] at hqueue'
      cases hqueue'
    refine ⟨⟨h.head, h.copies, ?_⟩, h.short, h.txOffset, h.rxStream, h.txStream, h.bounded⟩
    intro other queue' hqueue' hrx'
    simp only [if_neg (hne other queue' hqueue')]
    exact h.delivered other queue' hqueue' hrx'
  | some queue =>
    have hzero := hoffset (by simp [hqueue])
    refine ⟨⟨?_, h.copies, ?_⟩, ?_, h.txOffset, h.rxStream, h.txStream, ?_⟩
    · intro other queue' hqueue'
      by_cases heq : endpoint = other
      · rw [← heq, show (s.controller.setQueue endpoint queue.clear).currentPacketOffset endpoint =
          0 from hzero]
        exact headBound_zero queue'
      · exact h.head other queue' (by simpa [setQueue, Ne.symm heq] using hqueue')
    · intro other queue' hqueue' hrx'
      by_cases heq : endpoint = other
      · have hclear : queue' = queue.clear := by
          simpa [setQueue, heq] using hqueue'.symm
        simp [heq, hclear, unread, queueBytes]
      · simp only [if_neg heq]
        exact h.delivered other queue' (by simpa [setQueue, Ne.symm heq] using hqueue') hrx'
    · intro other queue' hqueue' hrx'
      by_cases heq : endpoint = other
      · have hclear : queue' = queue.clear := by
          simpa [setQueue, heq] using hqueue'.symm
        intro packet hpacket
        rw [hclear, HalQueue.elements_clear] at hpacket
        cases hpacket
      · exact h.short other queue'
          (by simpa [setQueue, Ne.symm heq] using hqueue') hrx'
    · intro other hsome
      by_cases heq : endpoint = other
      · rw [← heq]
        exact h.bounded endpoint (by simp [hqueue])
      · exact h.bounded other (by simpa [setQueue, Ne.symm heq] using hsome)

end Edits

/-! ## Streams -/

/-- A stream opens on a receive endpoint to read and a transmit endpoint to write. -/
theorem openStream_cases (st : Controller) (stream : ℕ) (writeEP readEP : Option ℕ) :
    (st.openStream stream writeEP readEP).2 = st ∨
      (∀ ep ∈ readEP, st.isTxQueue ep = false) ∧ (∀ ep ∈ writeEP, st.isTxQueue ep = true) ∧
        (st.openStream stream writeEP readEP).2 =
          { st with streams := Function.update st.streams stream ⟨readEP, writeEP⟩ } := by
  unfold openStream
  split
  · exact .inl rfl
  · split
    · exact .inl rfl
    · split
      · exact .inl rfl
      · split
        · exact .inl rfl
        · split
          · exact .inl rfl
          · next hdirection =>
            split
            · exact .inl rfl
            · right
              refine ⟨?_, ?_, rfl⟩
              · intro ep hep
                by_contra htx
                exact hdirection (.inl ⟨ep, hep, by simpa using htx⟩)
              · intro ep hep
                by_contra hrx
                exact hdirection (.inr ⟨ep, hep, by simpa using hrx⟩)

theorem openStream_keeps {s : System} (h : Invariant s) (stream : ℕ) (writeEP readEP : Option ℕ) :
    Invariant { s with controller := (s.controller.openStream stream writeEP readEP).2 } := by
  rcases openStream_cases s.controller stream writeEP readEP with hsame | ⟨hrx, htx, hopen⟩
  · rw [hsame]
    exact h
  · rw [hopen]
    refine ⟨⟨h.head, h.copies, h.delivered⟩, h.short, h.txOffset, ?_, ?_, h.bounded⟩
    · intro other endpoint hother
      by_cases heq : other = stream
      · rw [heq] at hother
        exact hrx endpoint (by simpa using hother)
      · exact h.rxStream other endpoint (by simpa [heq] using hother)
    · intro other endpoint hother
      by_cases heq : other = stream
      · rw [heq] at hother
        exact htx endpoint (by simpa using hother)
      · exact h.txStream other endpoint (by simpa [heq] using hother)

theorem Invariant.unmap {s : System} (h : Invariant s) (stream : ℕ) :
    Invariant { s with controller := { s.controller with
      streams := Function.update s.controller.streams stream ⟨none, none⟩ } } := by
  refine ⟨⟨h.head, h.copies, h.delivered⟩, h.short, h.txOffset, ?_, ?_, h.bounded⟩
  · intro other endpoint hother
    by_cases heq : other = stream
    · rw [heq] at hother
      simp at hother
    · exact h.rxStream other endpoint (by simpa [heq] using hother)
  · intro other endpoint hother
    by_cases heq : other = stream
    · rw [heq] at hother
      simp at hother
    · exact h.txStream other endpoint (by simpa [heq] using hother)

theorem clearQueue_isTxQueue (st : Controller) (endpoint : ℕ) :
    (st.clearQueue endpoint).isTxQueue = st.isTxQueue := by
  unfold clearQueue
  split
  · rfl
  · rfl

theorem closeStream_keeps {s : System} (h : Invariant s) {stream : ℕ}
    (hclean : Clean s (.closeStream stream)) :
    Invariant { s.forget (.closeStream stream) with
      controller := (s.controller.closeStream stream).2 } := by
  unfold closeStream
  split
  · next hno =>
    have hnone : ∀ endpoint, ¬ s.clears (.closeStream stream) endpoint := by
      rintro endpoint ⟨hinitialized, hbound, -⟩
      rcases hno with hno | hno
      · rw [hinitialized] at hno
        cases hno
      · omega
    simp only [System.forget, if_neg (hnone _)]
    exact h
  · next hyes =>
    rw [not_or] at hyes
    have hinitialized : s.controller.initialized = true := by simpa using hyes.1
    have hbound : stream < s.controller.maxQueues := Nat.lt_of_not_le hyes.2
    have hclears : ∀ endpoint, s.clears (.closeStream stream) endpoint ↔
        (s.controller.streams stream).rxEP = some endpoint := by
      intro endpoint
      exact ⟨fun hc ↦ hc.2.2, fun hc ↦ ⟨hinitialized, hbound, hc⟩⟩
    -- the receive queue first, then the transmit queue, then the map
    have hreceive : Invariant { s.forget (.closeStream stream) with
        controller := s.controller.clearEndpoint (s.controller.streams stream).rxEP } := by
      simp only [System.forget, hclears]
      cases hrx : (s.controller.streams stream).rxEP with
      | none =>
        simp only [reduceCtorEq, if_false, clearEndpoint]
        exact h
      | some endpoint =>
        simp only [Option.some.injEq, clearEndpoint]
        exact h.clearRx (hclean endpoint ((hclears endpoint).mpr hrx))
    have htransmit : Invariant { s.forget (.closeStream stream) with
        controller := (s.controller.clearEndpoint (s.controller.streams stream).rxEP).clearEndpoint
          (s.controller.streams stream).txEP } := by
      cases htx : (s.controller.streams stream).txEP with
      | none => exact hreceive
      | some endpoint =>
        refine @Invariant.clearTx _ endpoint hreceive ?_
        have hdirection := h.txStream stream endpoint htx
        cases hrx : (s.controller.streams stream).rxEP with
        | none => exact hdirection
        | some other =>
          simp only [clearEndpoint, clearQueue_isTxQueue]
          exact hdirection
    have hstreams : ((s.controller.clearEndpoint (s.controller.streams stream).rxEP).clearEndpoint
        (s.controller.streams stream).txEP).streams = s.controller.streams := by
      have hclear : ∀ (st : Controller) (ep : Option ℕ), (st.clearEndpoint ep).streams =
          st.streams := by
        intro st ep
        cases ep with
        | none => rfl
        | some endpoint =>
          unfold clearEndpoint clearQueue
          dsimp only
          split
          · rfl
          · rfl
      rw [hclear, hclear]
    have hunmap := htransmit.unmap stream
    rw [show ({ s.forget (.closeStream stream) with
        controller := (s.controller.clearEndpoint (s.controller.streams stream).rxEP).clearEndpoint
          (s.controller.streams stream).txEP } : System).controller.streams =
        s.controller.streams from hstreams] at hunmap
    exact hunmap

end MicroFramework.Usb
