import MicroFramework.Serial.Usart

/-!
# What keeps software flow control honest

The flags of a port and the wire tell the same, and so do the full flag and the past lengths of the
receive queue.  Every action keeps this invariant that raises no XOFF while an XON waits to be sent,
and drains no receive queue behind a full flag during power save.
-/

namespace MicroFramework.Serial

open Library Option Usart

section Flags

/-- What a wire and the flags of a port say to each other when the port is honest. -/
structure FlowInvariant (s : Usart) (wire : List UInt8) : Prop where
  stopped : s.rxXoffState ≠ 0 →
    s.txBufferXon = false ∧ (s.txBufferXoff = true ∨ wire.head? = some xoff)
  running : s.rxXoffState = 0 →
    s.txBufferXon = true ∨ s.txBufferXoff = false ∧ wire.head? ≠ some xoff
  wire_mem : ∀ c ∈ wire, c = xoff ∨ c = xon

variable {s s' : Usart} {wire : List UInt8} {flag : BitVec 2}

namespace FlowInvariant

section

variable (h : FlowInvariant s wire)

include h

theorem congr (hstate : s'.rxXoffState = s.rxXoffState)
    (hxoff : s'.txBufferXoff = s.txBufferXoff) (hxon : s'.txBufferXon = s.txBufferXon) :
    FlowInvariant s' wire := by
  refine ⟨?_, ?_, h.wire_mem⟩
  · rw [hstate, hxoff, hxon]
    exact h.stopped
  · rw [hstate, hxoff, hxon]
    exact h.running

theorem sendXoff (hflag : ∀ state : BitVec 2, state ||| flag ≠ 0)
    (hsafe : ¬ (s.powerSave = false ∧ s.rxXoffState = 0 ∧ s.txBufferXon = true)) :
    FlowInvariant (s.sendXoff flag) wire := by
  cases hpower : s.powerSave
  · simp only [Usart.sendXoff, hpower, Bool.false_eq_true, if_false]
    refine ⟨fun _ ↦ ?_, fun hzero ↦ absurd hzero (hflag _), h.wire_mem⟩
    by_cases hstate : s.rxXoffState = 0
    · have hxon : s.txBufferXon = false := by
        rw [← Bool.not_eq_true]
        exact fun hxon ↦ hsafe ⟨hpower, hstate, hxon⟩
      exact ⟨hxon, .inl (by simp [hstate])⟩
    · rw [decide_eq_false hstate, Bool.or_false]
      exact h.stopped hstate
  · simpa only [Usart.sendXoff, hpower, if_true] using h

theorem sendXon (flag : BitVec 2) : FlowInvariant (s.sendXon flag) wire := by
  cases hpower : s.powerSave
  · simp only [Usart.sendXon, hpower, Bool.false_eq_true, if_false]
    refine ⟨fun hstate ↦ ?_, fun hstate ↦ .inl ?_, h.wire_mem⟩
    · have hbefore : s.rxXoffState ≠ 0 := by
        rintro hzero
        simp [hzero] at hstate
      rw [decide_eq_false hstate, Bool.or_false]
      exact h.stopped hbefore
    · rw [decide_eq_true hstate, Bool.or_true]
  · simpa only [Usart.sendXon, hpower, if_true] using h

/-- A character that goes to the wire: the flags and the wire agree again on what is left. -/
theorem removeXoff (hxoff : s.txBufferXoff = true) :
    FlowInvariant { s with txBufferXoff := false } (xoff :: wire) := by
  refine ⟨fun hstate ↦ ⟨(h.stopped hstate).1, .inr rfl⟩, fun hstate ↦ ?_, ?_⟩
  · rcases h.running hstate with hxon | ⟨hnot, -⟩
    · exact .inl hxon
    · exact absurd hxoff (by simp [hnot])
  · intro c hc
    rcases List.mem_cons.mp hc with rfl | hc
    · exact .inl rfl
    · exact h.wire_mem c hc

theorem removeXon (hxoff : s.txBufferXoff = false) (hxon : s.txBufferXon = true) :
    FlowInvariant { s with txBufferXon := false } (xon :: wire) := by
  refine ⟨fun hstate ↦ ?_, fun _ ↦ .inr ⟨hxoff, by simp [xon, xoff]⟩, ?_⟩
  · exact absurd hxon (by simp [(h.stopped hstate).1])
  · intro c hc
    rcases List.mem_cons.mp hc with rfl | hc
    · exact .inr rfl
    · exact h.wire_mem c hc

/-- With no flow-control character on its way, the wire ends with what the port wants. -/
theorem quiet (hquiet : System.Quiet s) :
    (wire.head? = some xoff ↔ s.rxXoffState ≠ 0) ∧
    (wire.head? = some xon ∨ wire.head? = none ↔ s.rxXoffState = 0) := by
  obtain ⟨hxoff, hxon⟩ := hquiet
  have hlast : wire.head? ≠ some xoff ↔ wire.head? = some xon ∨ wire.head? = none := by
    cases wire with
    | nil => simp
    | cons c wire =>
      rcases h.wire_mem c List.mem_cons_self with rfl | rfl
      · simp [xon, xoff]
      · simp [xon, xoff]
  have hrunning : s.rxXoffState = 0 ↔ wire.head? ≠ some xoff := by
    constructor
    · intro hstate
      rcases h.running hstate with hpending | ⟨-, hne⟩
      · exact absurd hpending (by simp [hxon])
      · exact hne
    · intro hne
      by_contra hstate
      rcases (h.stopped hstate).2 with hpending | heq
      · exact absurd hpending (by simp [hxoff])
      · exact hne heq
  exact ⟨by rw [ne_eq, hrunning, not_not], by rw [hrunning, hlast]⟩

end

end FlowInvariant

end Flags

section Levels

/-- What the full flag of a port and the past lengths of its receive queue say to each other. -/
structure LevelInvariant (s : Usart) (levels : List ℕ) : Prop where
  swFlow : s.rxSwFlowCtrl = true
  high : s.rxBufferHighWaterMark = highWaterMark s.rxQueue.size
  low : s.rxBufferLowWaterMark = lowWaterMark s.rxQueue.size
  latest : levels.head? = some s.rxQueue.numberOfElements
  full : s.rxXoffState &&& xoffFlagFull ≠ 0 → System.FullSince s levels

variable {s s' : Usart} {levels : List ℕ} {flag : BitVec 2}

@[simp] theorem frame_sendXoff (s : Usart) (flag : BitVec 2) :
    (s.sendXoff flag).rxQueue = s.rxQueue ∧ (s.sendXoff flag).rxSwFlowCtrl = s.rxSwFlowCtrl ∧
    (s.sendXoff flag).rxBufferHighWaterMark = s.rxBufferHighWaterMark ∧
    (s.sendXoff flag).rxBufferLowWaterMark = s.rxBufferLowWaterMark := by
  unfold sendXoff
  split <;> exact ⟨rfl, rfl, rfl, rfl⟩

theorem frame_sendXon (s : Usart) (flag : BitVec 2) :
    (s.sendXon flag).rxQueue = s.rxQueue ∧ (s.sendXon flag).rxSwFlowCtrl = s.rxSwFlowCtrl ∧
    (s.sendXon flag).rxBufferHighWaterMark = s.rxBufferHighWaterMark ∧
    (s.sendXon flag).rxBufferLowWaterMark = s.rxBufferLowWaterMark := by
  unfold sendXon
  split <;> exact ⟨rfl, rfl, rfl, rfl⟩

theorem full_sendXoff_clockHalt (s : Usart) :
    (s.sendXoff xoffClockHalt).rxXoffState &&& xoffFlagFull = s.rxXoffState &&& xoffFlagFull := by
  have hbits : ∀ state : BitVec 2,
      (state ||| xoffClockHalt) &&& xoffFlagFull = state &&& xoffFlagFull := by decide
  unfold sendXoff
  split
  · rfl
  · exact hbits _

theorem full_sendXon_clockHalt (s : Usart) :
    (s.sendXon xoffClockHalt).rxXoffState &&& xoffFlagFull = s.rxXoffState &&& xoffFlagFull := by
  have hbits : ∀ state : BitVec 2,
      (state &&& ~~~xoffClockHalt) &&& xoffFlagFull = state &&& xoffFlagFull := by decide
  unfold sendXon
  split
  · rfl
  · exact hbits _

/-- Awake, `SendXON` lowers the full flag. -/
theorem full_sendXon_full (hpower : s.powerSave = false) :
    (s.sendXon xoffFlagFull).rxXoffState &&& xoffFlagFull = 0 := by
  have hbits : ∀ state : BitVec 2, (state &&& ~~~xoffFlagFull) &&& xoffFlagFull = 0 := by decide
  simp only [sendXon, hpower, Bool.false_eq_true, if_false]
  exact hbits _

theorem sendXon_asleep (hpower : s.powerSave = true) : s.sendXon flag = s := by
  simp only [sendXon, hpower, if_true]

namespace LevelInvariant

section

variable (h : LevelInvariant s levels)

include h

/-- What is left to show of a step: that the full flag after it is explained. -/
theorem next (hsize : s'.rxQueue.size = s.rxQueue.size)
    (hframe : s'.rxSwFlowCtrl = s.rxSwFlowCtrl ∧
      s'.rxBufferHighWaterMark = s.rxBufferHighWaterMark ∧
      s'.rxBufferLowWaterMark = s.rxBufferLowWaterMark)
    (hfull : s'.rxXoffState &&& xoffFlagFull ≠ 0 →
      System.FullSince s (s'.rxQueue.numberOfElements :: levels)) :
    LevelInvariant s' (s'.rxQueue.numberOfElements :: levels) := by
  obtain ⟨hsw, hhigh, hlow⟩ := hframe
  refine ⟨hsw.trans h.swFlow, ?_, ?_, rfl, ?_⟩
  · rw [hhigh, hsize, h.high]
  · rw [hlow, hsize, h.low]
  · unfold System.FullSince at hfull ⊢
    rw [hhigh, hlow]
    exact hfull

variable {n : ℕ}

/-- A queue that has not got shorter is as full as it was. -/
theorem fullSince_of_le
    (hle : s.rxQueue.numberOfElements ≤ n) (hfull : s.rxXoffState &&& xoffFlagFull ≠ 0) :
    System.FullSince s (n :: levels) := by
  have hsince := h.full hfull
  cases levels with
  | nil => exact absurd hsince (by simp [System.FullSince])
  | cons level older =>
    obtain rfl : level = s.rxQueue.numberOfElements := by simpa using h.latest
    exact hsince.next (fun hlt ↦ Nat.lt_of_lt_of_le hlt hle) (fun hge ↦ Nat.le_trans hge hle)

/-- A queue that stays above the low-water mark stays full. -/
theorem fullSince_of_low_lt
    (hlow : s.rxBufferLowWaterMark < n) (hfull : s.rxXoffState &&& xoffFlagFull ≠ 0) :
    System.FullSince s (n :: levels) :=
  .inr ⟨hlow, h.full hfull⟩

/-- Behind a full flag the queue is above its low-water mark, if it has an element. -/
theorem low_lt (hfull : s.rxXoffState &&& xoffFlagFull ≠ 0)
    (hpos : 0 < s.rxQueue.numberOfElements) :
    s.rxBufferLowWaterMark < s.rxQueue.numberOfElements := by
  have hsince := h.full hfull
  cases levels with
  | nil => exact absurd hsince (by simp [System.FullSince])
  | cons level older =>
    obtain rfl : level = s.rxQueue.numberOfElements := by simpa using h.latest
    have hle := s.rxQueue.numberOfElements_le
    rcases hsince with hge | ⟨hlt, -⟩
    · rw [h.high, highWaterMark] at hge
      rw [h.low, lowWaterMark]
      omega
    · exact hlt

end

end LevelInvariant

end Levels

namespace System

variable {m : System}

theorem transmit_xoff (hxoff : m.usart.txBufferXoff = true) :
    m.transmit =
      { m.withUsart { m.usart with txBufferXoff := false } with wire := xoff :: m.wire } := by
  simp [transmit, removeCharFromTxBuffer, hxoff]

theorem transmit_xon (hxoff : m.usart.txBufferXoff = false) (hxon : m.usart.txBufferXon = true) :
    m.transmit =
      { m.withUsart { m.usart with txBufferXon := false } with wire := xon :: m.wire } := by
  simp [transmit, removeCharFromTxBuffer, hxoff, hxon]

theorem transmit_data (hxoff : m.usart.txBufferXoff = false) (hxon : m.usart.txBufferXon = false) :
    ∃ q, m.transmit = m.withUsart { m.usart with txQueue := q } := by
  have hpending : ¬ (m.usart.txBufferXoff || m.usart.txBufferXon) = true := by simp [hxoff, hxon]
  obtain ⟨c, q, hchar⟩ : ∃ c q,
      m.usart.removeCharFromTxBuffer = (c, { m.usart with txQueue := q }) := by
    rw [removeCharFromTxBuffer, if_neg (by simp [hxoff]), if_neg (by simp [hxon])]
    split
    · exact ⟨_, _, rfl⟩
    · exact ⟨none, m.usart.txQueue, rfl⟩
  refine ⟨q, ?_⟩
  rw [transmit, hchar]
  exact if_neg hpending

end System

structure Invariant (m : System) : Prop where
  flow : FlowInvariant m.usart m.wire
  level : LevelInvariant m.usart m.levels

namespace Invariant

variable {m m' : System}

theorem honest (h : Invariant m) : m.Honest := ⟨h.flow.quiet, h.level.full⟩

theorem of_opened (h : m.Opened) : Invariant m := by
  obtain ⟨txBuffer, rxBuffer, txSize, rxSize, htx, hrx, flowSwOut, flowHwIn, rfl⟩ := h
  refine ⟨⟨fun hstate ↦ absurd rfl hstate, fun _ ↦ .inr ⟨rfl, by simp⟩, by simp⟩,
    ⟨rfl, rfl, rfl, rfl, fun hfull ↦ absurd ?_ hfull⟩⟩
  exact (by decide : (0 : BitVec 2) &&& xoffFlagFull = 0)

section

variable (h : Invariant m)

include h

/-- What is left to show of a step that puts no flow-control character on the wire. -/
theorem next {s : Usart} (hflow : FlowInvariant s m.wire)
    (hsize : s.rxQueue.size = m.usart.rxQueue.size)
    (hframe : s.rxSwFlowCtrl = m.usart.rxSwFlowCtrl ∧
      s.rxBufferHighWaterMark = m.usart.rxBufferHighWaterMark ∧
      s.rxBufferLowWaterMark = m.usart.rxBufferLowWaterMark)
    (hfull : s.rxXoffState &&& xoffFlagFull ≠ 0 →
      System.FullSince m.usart (s.rxQueue.numberOfElements :: m.levels)) :
    Invariant (m.withUsart s) :=
  ⟨hflow, h.level.next hsize hframe hfull⟩

/-- A port that changes neither its flags, nor its receive queue, nor its marks. -/
theorem withUsart (s : Usart) (hstate : s.rxXoffState = m.usart.rxXoffState)
    (hxoff : s.txBufferXoff = m.usart.txBufferXoff) (hxon : s.txBufferXon = m.usart.txBufferXon)
    (hqueue : s.rxQueue = m.usart.rxQueue)
    (hframe : s.rxSwFlowCtrl = m.usart.rxSwFlowCtrl ∧
      s.rxBufferHighWaterMark = m.usart.rxBufferHighWaterMark ∧
      s.rxBufferLowWaterMark = m.usart.rxBufferLowWaterMark) :
    Invariant (m.withUsart s) := by
  refine h.next (h.flow.congr hstate hxoff hxon) (by rw [hqueue]) hframe fun hfull ↦ ?_
  rw [hstate] at hfull
  exact h.level.fullSince_of_le (by rw [hqueue]) hfull

theorem prepareForClockStop (hsafe : m.Safe .prepareForClockStop) :
    Invariant (m.withUsart m.usart.prepareForClockStop) := by
  have hsw := h.level.swFlow
  obtain ⟨hqueue, hframe⟩ := frame_sendXoff m.usart xoffClockHalt
  rw [Usart.prepareForClockStop, if_pos hsw]
  refine h.next (h.flow.sendXoff (by decide) fun hfirst ↦ hsafe.1 ⟨trivial, hfirst⟩)
    (by rw [hqueue]) hframe fun hfull ↦ ?_
  rw [full_sendXoff_clockHalt] at hfull
  exact h.level.fullSince_of_le (by rw [hqueue]) hfull

theorem clockStopFinished : Invariant (m.withUsart m.usart.clockStopFinished) := by
  have hsw := h.level.swFlow
  obtain ⟨hqueue, hframe⟩ := frame_sendXon m.usart xoffClockHalt
  rw [Usart.clockStopFinished, if_pos hsw]
  refine h.next (h.flow.sendXon _) (by rw [hqueue]) hframe fun hfull ↦ ?_
  rw [full_sendXon_clockHalt] at hfull
  exact h.level.fullSince_of_le (by rw [hqueue]) hfull

theorem transmit : Invariant m.transmit := by
  by_cases hxoff : m.usart.txBufferXoff = true
  · rw [System.transmit_xoff hxoff]
    refine ⟨h.flow.removeXoff hxoff, h.level.next rfl ⟨rfl, rfl, rfl⟩ fun hfull ↦ ?_⟩
    exact h.level.fullSince_of_le le_rfl hfull
  · rw [Bool.not_eq_true] at hxoff
    by_cases hxon : m.usart.txBufferXon = true
    · rw [System.transmit_xon hxoff hxon]
      refine ⟨h.flow.removeXon hxoff hxon, h.level.next rfl ⟨rfl, rfl, rfl⟩ fun hfull ↦ ?_⟩
      exact h.level.fullSince_of_le le_rfl hfull
    · rw [Bool.not_eq_true] at hxon
      obtain ⟨q, hdata⟩ := System.transmit_data hxoff hxon
      rw [hdata]
      exact h.withUsart _ rfl rfl rfl rfl ⟨rfl, rfl, rfl⟩

theorem addCharToRxBuffer (c : UInt8) (now : ℕ) (hsafe : m.Safe (.addCharToRxBuffer c now)) :
    Invariant (m.withUsart (m.usart.addCharToRxBuffer c now).2) := by
  by_cases hxoff : m.usart.txSwFlowCtrl = true ∧ c = xoff
  · rw [Usart.addCharToRxBuffer, if_pos hxoff]
    exact h.withUsart _ rfl rfl rfl rfl ⟨rfl, rfl, rfl⟩
  · by_cases hxon : m.usart.txSwFlowCtrl = true ∧ c = xon
    · rw [Usart.addCharToRxBuffer, if_neg hxoff, if_pos hxon]
      exact h.withUsart _ rfl rfl rfl rfl ⟨rfl, rfl, rfl⟩
    · cases hpush : m.usart.rxQueue.push c with
      | none =>
        rw [Usart.addCharToRxBuffer, if_neg hxoff, if_neg hxon, hpush]
        exact h.withUsart _ rfl rfl rfl rfl ⟨rfl, rfl, rfl⟩
      | some q =>
        have hsize := HalQueue.size_push hpush
        have hcount := HalQueue.numberOfElements_push hpush
        by_cases hhigh : m.usart.rxBufferHighWaterMark ≤ q.numberOfElements ∧
            m.usart.rxSwFlowCtrl = true
        · have hnotfull : m.usart.rxQueue.full = false := by
            have hsome := m.usart.rxQueue.push_isSome c
            rw [hpush] at hsome
            simpa using hsome.symm
          have hsends : System.SendsXoff m.usart (.addCharToRxBuffer c now) := by
            refine ⟨?_, hnotfull, by rw [← hcount]; exact hhigh.1⟩
            rintro ⟨hsw, hc | hc⟩
            · exact hxoff ⟨hsw, hc⟩
            · exact hxon ⟨hsw, hc⟩
          have hflow : FlowInvariant { m.usart with rxQueue := q } m.wire :=
            h.flow.congr rfl rfl rfl
          obtain ⟨hqueue, hframe⟩ := frame_sendXoff { m.usart with rxQueue := q } xoffFlagFull
          rw [addCharToRxBuffer_push hxoff hxon hpush, if_pos hhigh]
          refine h.next (hflow.sendXoff (by decide) fun hfirst ↦ hsafe.1 ⟨hsends, hfirst⟩)
            (by rw [hqueue, hsize]) hframe fun _ ↦ .inl ?_
          rw [hqueue]
          exact hhigh.1
        · rw [addCharToRxBuffer_push hxoff hxon hpush, if_neg hhigh]
          refine h.next (h.flow.congr rfl rfl rfl) hsize ⟨rfl, rfl, rfl⟩ fun hfull ↦ ?_
          exact h.level.fullSince_of_le (by rw [hcount]; omega) hfull

variable {a : Action} {q : HalQueue UInt8}

/-- Characters that leave the receive queue, by `DiscardBuffer` or by a turn of `Read`: the full flag
comes down with them when the queue reaches the low-water mark. -/
theorem drain (hsafe : m.Safe a)
    (hsize : q.size = m.usart.rxQueue.size) (hdrained : m.drainedTo a = some q.numberOfElements)
    (hlow : q.numberOfElements ≤ m.usart.rxBufferLowWaterMark) :
    Invariant (m.withUsart (({ m.usart with rxQueue := q } : Usart).sendXon xoffFlagFull)) := by
  have hflow : FlowInvariant { m.usart with rxQueue := q } m.wire := h.flow.congr rfl rfl rfl
  obtain ⟨hqueue, hframe⟩ := frame_sendXon { m.usart with rxQueue := q } xoffFlagFull
  refine h.next (hflow.sendXon _) (by rw [hqueue, hsize]) hframe fun hfull ↦ ?_
  rw [hqueue]
  cases hpower : m.usart.powerSave
  · exact absurd (full_sendXon_full (s := { m.usart with rxQueue := q }) hpower) hfull
  · rw [sendXon_asleep (s := { m.usart with rxQueue := q }) hpower] at hfull
    refine .inl (Nat.le_of_not_lt fun hhigh ↦ hsafe.2 ⟨hpower, hfull, _, hdrained, hlow, hhigh⟩)

theorem discardBuffer (fRx : Bool) (hsafe : m.Safe (.discardBuffer fRx)) :
    Invariant (m.withUsart (m.usart.discardBuffer fRx)) := by
  cases fRx with
  | false => exact h.withUsart _ rfl rfl rfl rfl ⟨rfl, rfl, rfl⟩
  | true =>
    have hsw := h.level.swFlow
    rw [Usart.discardBuffer, if_pos rfl, if_pos hsw]
    exact h.drain hsafe (by simp) (by simp [System.drainedTo]) (by simp)

/-- A turn of `Read` that took characters and left the queue above the low-water mark, or took it
from below the mark. -/
theorem shorten (hsize : q.size = m.usart.rxQueue.size)
    (hkeep : m.usart.rxXoffState &&& xoffFlagFull ≠ 0 →
      System.FullSince m.usart (q.numberOfElements :: m.levels)) :
    Invariant (m.withUsart { m.usart with rxQueue := q }) :=
  h.next (h.flow.congr rfl rfl rfl) hsize ⟨rfl, rfl, rfl⟩ hkeep

/-- A turn of the loop of `Read`. -/
theorem readBlock {toRead : ℕ} (hreading : m.reading = some (toRead + 1))
    (hsafe : m.Safe .readBlock) :
    Invariant (m.withUsart (m.usart.readBlock (toRead + 1)).2) := by
  have hcount := m.usart.rxQueue.numberOfElements_popBlock (toRead + 1)
  have hsize := m.usart.rxQueue.size_popBlock (toRead + 1)
  have hnone := @HalQueue.popBlock_none _ m.usart.rxQueue (toRead + 1)
  have hsome := @HalQueue.popBlock_some _ m.usart.rxQueue (toRead + 1)
  rw [Usart.readBlock]
  cases hblock : m.usart.rxQueue.popBlock (toRead + 1) with
  | mk chars q =>
    rw [hblock] at hcount hsize hnone hsome
    dsimp only at hcount hsize
    cases chars with
    | none => exact h.shorten hsize fun hfull ↦ h.level.fullSince_of_le (hnone rfl).ge hfull
    | some chars =>
      obtain ⟨hlength, hpos, hle⟩ := hsome rfl
      have hdrained : m.drainedTo .readBlock = some q.numberOfElements := by
        simp only [System.drainedTo, hreading, hcount]
      by_cases hmark : q.numberOfElements ≤ m.usart.rxBufferLowWaterMark ∧
          m.usart.rxBufferLowWaterMark < q.numberOfElements + chars.length ∧
          m.usart.rxSwFlowCtrl = true
      · show Invariant (m.withUsart (ite _ _ _ : Option (List UInt8) × Usart).2)
        rw [if_pos hmark]
        exact h.drain hsafe hsize hdrained hmark.1
      · show Invariant (m.withUsart (ite _ _ _ : Option (List UInt8) × Usart).2)
        rw [if_neg hmark]
        refine h.shorten hsize fun hfull ↦ ?_
        have habove := h.level.low_lt hfull (by omega)
        by_cases hlow : m.usart.rxBufferLowWaterMark < q.numberOfElements
        · exact h.level.fullSince_of_low_lt hlow hfull
        · exact absurd ⟨by omega, by omega, h.level.swFlow⟩ hmark

theorem readTurn (hsafe : m.Safe .readBlock) (hturn : m.readTurn = some m') : Invariant m' := by
  unfold System.readTurn at hturn
  split at hturn
  · exact absurd hturn (by simp)
  · obtain rfl := some.inj hturn
    exact ⟨h.flow, h.level⟩
  · rename_i toRead hne hreading
    obtain ⟨n, rfl⟩ : ∃ n, toRead = n + 1 := Nat.exists_eq_succ_of_ne_zero hne
    have hblock := h.readBlock hreading hsafe
    split at hturn
    · rename_i hresult
      rw [hresult] at hblock
      obtain rfl := some.inj hturn
      exact ⟨hblock.flow, hblock.level⟩
    · rename_i hresult
      rw [hresult] at hblock
      obtain rfl := some.inj hturn
      exact ⟨hblock.flow, hblock.level⟩

theorem startRead {size : ℕ} (hstart : m.startRead size = some m') : Invariant m' := by
  unfold System.startRead at hstart
  split_ifs at hstart
  · obtain rfl := some.inj hstart
    exact ⟨h.flow, h.level⟩
  · obtain rfl := some.inj hstart
    exact h

variable {now : ℕ} {timeout : Option ℕ}

/-- What `Write` checks first changes no more than its own view of the peer. -/
theorem canWrite {s : Usart}
    (hwrite : m.usart.canWrite timeout now = some s) : Invariant (m.withUsart s) := by
  unfold Usart.canWrite at hwrite
  split_ifs at hwrite
  · split at hwrite
    · exact absurd hwrite (by simp)
    · split_ifs at hwrite
      obtain rfl := some.inj hwrite
      exact h.withUsart _ rfl rfl rfl rfl ⟨rfl, rfl, rfl⟩
  · obtain rfl := some.inj hwrite
    exact h.withUsart _ rfl rfl rfl rfl ⟨rfl, rfl, rfl⟩

theorem startWrite {chars : List UInt8}
    (hstart : m.startWrite chars timeout now = some m') : Invariant m' := by
  unfold System.startWrite at hstart
  split_ifs at hstart
  · obtain rfl := some.inj hstart
    exact h
  · split at hstart
    · rename_i s hwrite
      have hs := h.canWrite hwrite
      obtain rfl := some.inj hstart
      exact ⟨hs.flow, hs.level⟩
    · obtain rfl := some.inj hstart
      exact h

theorem writeTurn (hturn : m.writeTurn = some m') : Invariant m' := by
  unfold System.writeTurn at hturn
  split at hturn
  · exact absurd hturn (by simp)
  · obtain rfl := some.inj hturn
    exact ⟨h.flow, h.level⟩
  · obtain rfl := some.inj hturn
    exact ⟨h.flow, h.level⟩
  · rename_i j chars _ _
    have hblock : Invariant (m.withUsart (m.usart.writeBlock chars).2) :=
      h.withUsart _ rfl rfl rfl rfl ⟨rfl, rfl, rfl⟩
    dsimp only at hturn
    split at hturn
    · obtain rfl := some.inj hturn
      exact ⟨hblock.flow, hblock.level⟩
    · obtain rfl := some.inj hturn
      exact ⟨hblock.flow, hblock.level⟩

theorem step (hsafe : m.Safe a) (hstep : m.step a = some m') : Invariant m' := by
  cases a with
  | addCharToRxBuffer c now =>
    obtain rfl := some.inj hstep
    exact h.addCharToRxBuffer c now hsafe
  | removeCharFromTxBuffer =>
    obtain rfl := some.inj hstep
    exact h.transmit
  | powerSave enable =>
    obtain rfl := some.inj hstep
    exact h.withUsart _ rfl rfl rfl rfl ⟨rfl, rfl, rfl⟩
  | prepareForClockStop =>
    obtain rfl := some.inj hstep
    exact h.prepareForClockStop hsafe
  | clockStopFinished =>
    obtain rfl := some.inj hstep
    exact h.clockStopFinished
  | discardBuffer fRx =>
    obtain rfl := some.inj hstep
    exact h.discardBuffer fRx hsafe
  | read size => exact h.startRead hstep
  | readBlock => exact h.readTurn hsafe hstep
  | write chars timeout now => exact h.startWrite hstep
  | writeBlock => exact h.writeTurn hstep

end

end Invariant

end MicroFramework.Serial
