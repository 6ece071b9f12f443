import MicroFramework.Serial.FlowControl

/-!
# Flow control in every run

A run of safe actions tells the peer the truth in every state.  An action that is not safe leads to
a lie, at once or after two transmit interrupts.
-/

namespace MicroFramework.Serial

open Library

namespace System

variable {m m' : System}

theorem invariant_of_reachable (h : Reachable step Safe Opened m) : Invariant m :=
  h.invariant (fun _ ↦ Invariant.of_opened) fun _ _ _ hm hsafe hstep ↦ hm.step hsafe hstep

/-- Software flow control tells the peer the truth in every run of safe actions. -/
theorem flow_control_honest (h : Reachable step Safe Opened m) : m.Honest :=
  (invariant_of_reachable h).honest

theorem bufferSize_pos : 0 < 512 := by decide

/-- A port with queues of 512 characters. -/
def opened : System :=
  ⟨.initializePort (fun _ ↦ 0) (fun _ ↦ 0) 512 512 bufferSize_pos bufferSize_pos true false false,
    none, none, [], [0]⟩

/-- The clock of the port stops, and the peer is told. -/
theorem flow_control_honest_clockStop :
    ∃ m, [.prepareForClockStop, .removeCharFromTxBuffer].foldlM step opened = some m ∧
      m.Honest := by
  have hopened : Reachable step Safe Opened opened := .start ⟨_, _, _, _, _, _, _, _, rfl⟩
  have hsafe : opened.Safe .prepareForClockStop := by
    refine ⟨fun hovertakes ↦ absurd hovertakes.2.2.2 (by decide), ?_⟩
    exact fun hdrains ↦ absurd hdrains.1 (by decide)
  have hstopped : Reachable step Safe Opened (opened.withUsart opened.usart.prepareForClockStop) :=
    .step _ hopened hsafe rfl
  have htold : Reachable step Safe Opened
      (opened.withUsart opened.usart.prepareForClockStop).transmit := by
    refine .step .removeCharFromTxBuffer hstopped ⟨fun hovertakes ↦ hovertakes.1.elim, ?_⟩ rfl
    exact fun hdrains ↦ absurd hdrains.1 (by decide)
  exact ⟨_, rfl, flow_control_honest htold⟩

/-- The port is opened, its clock stops and goes on, and after the XOFF was sent its clock stops
again; the transmitter then sends an XOFF and, last of all, the XON that still waited. -/
def clockStops : List Action :=
  [.prepareForClockStop, .clockStopFinished, .removeCharFromTxBuffer, .prepareForClockStop,
    .removeCharFromTxBuffer, .removeCharFromTxBuffer]

/-- In some run the peer is left running while the port wants it stopped. -/
theorem clockStops_not_honest : ¬ ∀ m, Reachable step (fun _ _ ↦ True) Opened m → m.Honest := by
  intro hall
  have hopened : Reachable step (fun _ _ ↦ True) Opened opened :=
    .start ⟨_, _, _, _, _, _, _, _, rfl⟩
  have hrun : clockStops.foldlM step opened =
      some { opened with
        usart := { opened.usart with rxXoffState := xoffClockHalt }
        wire := [xon, xoff, xoff]
        levels := [0, 0, 0, 0, 0, 0, 0] } := rfl
  have hhonest := hall _ (hopened.foldlM (fun _ _ ↦ trivial) clockStops hrun)
  have hlast := (hhonest.1 ⟨rfl, rfl⟩).1.mpr (by decide)
  exact absurd hlast (by decide)

theorem not_honest_of_both_pending (hxoff : m.usart.txBufferXoff = true)
    (hxon : m.usart.txBufferXon = true) (hstate : m.usart.rxXoffState ≠ 0) :
    ¬ m.transmit.transmit.Honest := by
  have hfirst := transmit_xoff hxoff
  have hsecond := @transmit_xon m.transmit (by rw [hfirst]; rfl) (by rw [hfirst]; exact hxon)
  rw [hsecond, hfirst]
  intro hhonest
  have hlast := (hhonest.1 ⟨rfl, rfl⟩).1.mpr hstate
  exact absurd (Option.some.inj hlast) (by decide)

theorem both_pending_sendXoff {s : Usart} {flag : BitVec 2} (hpower : s.powerSave = false)
    (hstate : s.rxXoffState = 0) (hxon : s.txBufferXon = true) (hflag : flag ≠ 0) :
    (s.sendXoff flag).txBufferXoff = true ∧ (s.sendXoff flag).txBufferXon = true ∧
      (s.sendXoff flag).rxXoffState ≠ 0 := by
  simp only [Usart.sendXoff, hpower, Bool.false_eq_true, if_false]
  refine ⟨?_, hxon, ?_⟩
  · rw [decide_eq_true hstate, Bool.or_true]
  · have hzero : ∀ flag : BitVec 2, 0 ||| flag = flag := by decide
    rw [hstate, hzero]
    exact hflag

/-- An XOFF that overtakes an XON is undone by it: two transmit interrupts later the peer was told
to go on, and the port wants it stopped. -/
theorem not_honest_of_overtakesXon {a : Action} (h : Invariant m) (hstep : m.step a = some m')
    (hovertakes : m.OvertakesXon a) : ¬ m'.transmit.transmit.Honest := by
  obtain ⟨hsends, hpower, hstate, hxon⟩ := hovertakes
  have hsw := h.level.swFlow
  cases a with
  | prepareForClockStop =>
    obtain rfl := Option.some.inj hstep
    obtain ⟨hxoff', hxon', hstate'⟩ :=
      @both_pending_sendXoff m.usart xoffClockHalt hpower hstate hxon (by decide)
    rw [Usart.prepareForClockStop, if_pos hsw]
    exact not_honest_of_both_pending hxoff' hxon' hstate'
  | addCharToRxBuffer c now =>
    obtain rfl := Option.some.inj hstep
    obtain ⟨hdata, hroom, hhigh⟩ := hsends
    obtain ⟨q, hpush⟩ : ∃ q, m.usart.rxQueue.push c = some q := by
      rw [← Option.isSome_iff_exists, HalQueue.push_isSome, hroom, Bool.not_false]
    have hcount := HalQueue.numberOfElements_push hpush
    obtain ⟨hxoff', hxon', hstate'⟩ :=
      @both_pending_sendXoff { m.usart with rxQueue := q } xoffFlagFull hpower hstate hxon
        (by decide)
    rw [Usart.addCharToRxBuffer_push (fun hc ↦ hdata ⟨hc.1, .inl hc.2⟩)
      (fun hc ↦ hdata ⟨hc.1, .inr hc.2⟩) hpush, if_pos ⟨by rw [hcount]; exact hhigh, hsw⟩]
    exact not_honest_of_both_pending hxoff' hxon' hstate'
  | removeCharFromTxBuffer => exact hsends.elim
  | powerSave enable => exact hsends.elim
  | clockStopFinished => exact hsends.elim
  | discardBuffer fRx => exact hsends.elim
  | read size => exact hsends.elim
  | readBlock => exact hsends.elim
  | write chars timeout now => exact hsends.elim
  | writeBlock => exact hsends.elim

/-- A queue drained behind a full flag that stays up is a queue the peer waits for in vain. -/
theorem not_honest_of_asleep {s : Usart} {q : HalQueue UInt8} (hpower : s.powerSave = true)
    (hfull : s.rxXoffState &&& xoffFlagFull ≠ 0)
    (hlow : q.numberOfElements ≤ s.rxBufferLowWaterMark)
    (hhigh : q.numberOfElements < s.rxBufferHighWaterMark)
    (hm : m.usart = ({ s with rxQueue := q } : Usart).sendXon xoffFlagFull ∨
      m.usart = { s with rxQueue := q })
    (hlevels : m.levels.head? = some q.numberOfElements) : ¬ m.Honest := by
  rw [sendXon_asleep (s := { s with rxQueue := q }) hpower, or_self] at hm
  intro hhonest
  have hsince := hhonest.2 (by rw [hm]; exact hfull)
  rw [FullSince, hm] at hsince
  cases hm' : m.levels with
  | nil => simp [hm'] at hsince
  | cons level older =>
    obtain rfl : level = q.numberOfElements := by simpa [hm'] using hlevels
    rw [hm'] at hsince
    rcases hsince with hge | ⟨hlt, -⟩
    · exact Nat.not_le_of_lt hhigh hge
    · exact Nat.not_lt_of_le hlow hlt

/-- What a turn of `Read` makes of the port: it takes its block, and may send an XON. -/
theorem readTurn_eq {toRead : ℕ} (hreading : m.reading = some (toRead + 1))
    (hturn : m.readTurn = some m') :
    (m'.usart = ({ m.usart with rxQueue := (m.usart.rxQueue.popBlock (toRead + 1)).2 } :
        Usart).sendXon xoffFlagFull ∨
      m'.usart = { m.usart with rxQueue := (m.usart.rxQueue.popBlock (toRead + 1)).2 }) ∧
    m'.levels.head? = some (m.usart.rxQueue.popBlock (toRead + 1)).2.numberOfElements := by
  simp only [readTurn, hreading, Usart.readBlock] at hturn
  cases hblock : m.usart.rxQueue.popBlock (toRead + 1) with
  | mk chars q =>
    rw [hblock] at hturn
    cases chars with
    | none =>
      obtain rfl := Option.some.inj hturn
      exact ⟨.inr rfl, rfl⟩
    | some chars =>
      dsimp only at hturn
      split_ifs at hturn
      · obtain rfl := Option.some.inj hturn
        refine ⟨.inl rfl, ?_⟩
        show some (HalQueue.numberOfElements (Usart.sendXon _ _).rxQueue) = _
        rw [(frame_sendXon _ _).1]
      · obtain rfl := Option.some.inj hturn
        exact ⟨.inr rfl, rfl⟩

/-- An action that drains the queue asleep leaves the full flag up for nothing. -/
theorem not_honest_of_drainsAsleep {a : Action} (h : Invariant m) (hstep : m.step a = some m')
    (hdrains : m.DrainsAsleep a) : ¬ m'.Honest := by
  obtain ⟨hpower, hfull, n, hdrained, hlow, hhigh⟩ := hdrains
  have hsw := h.level.swFlow
  cases a with
  | discardBuffer fRx =>
    cases fRx with
    | false => exact absurd hdrained (by simp [drainedTo])
    | true =>
      obtain rfl : 0 = n := by simpa [drainedTo] using hdrained
      obtain rfl := Option.some.inj hstep
      have hcount := m.usart.rxQueue.numberOfElements_discard
      rw [Usart.discardBuffer, if_pos rfl, if_pos hsw]
      refine not_honest_of_asleep hpower hfull (by rw [hcount]; exact hlow)
        (by rw [hcount]; exact hhigh) (.inl rfl) ?_
      show some (HalQueue.numberOfElements (Usart.sendXon _ _).rxQueue) = _
      rw [(frame_sendXon _ _).1]
  | readBlock =>
    obtain ⟨toRead, hreading, hn⟩ : ∃ toRead, m.reading = some (toRead + 1) ∧
        m.usart.rxQueue.numberOfElements - min m.usart.rxQueue.maxPop (toRead + 1) = n := by
      simp only [drainedTo] at hdrained
      split at hdrained
      · exact ⟨_, ‹_›, Option.some.inj hdrained⟩
      · exact absurd hdrained (by simp)
    have hcount := m.usart.rxQueue.numberOfElements_popBlock (toRead + 1)
    rw [hn] at hcount
    obtain ⟨husart, hlevels⟩ := readTurn_eq hreading hstep
    exact not_honest_of_asleep hpower hfull (by rw [hcount]; exact hlow)
      (by rw [hcount]; exact hhigh) husart hlevels
  | addCharToRxBuffer c now => exact absurd hdrained (by simp [drainedTo])
  | removeCharFromTxBuffer => exact absurd hdrained (by simp [drainedTo])
  | powerSave enable => exact absurd hdrained (by simp [drainedTo])
  | prepareForClockStop => exact absurd hdrained (by simp [drainedTo])
  | clockStopFinished => exact absurd hdrained (by simp [drainedTo])
  | read size => exact absurd hdrained (by simp [drainedTo])
  | write chars timeout now => exact absurd hdrained (by simp [drainedTo])
  | writeBlock => exact absurd hdrained (by simp [drainedTo])

end System

end MicroFramework.Serial
