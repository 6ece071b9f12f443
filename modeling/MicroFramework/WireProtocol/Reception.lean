import MicroFramework.WireProtocol.ByteMachine

/-!
# Reception does not depend on how bytes arrive

Every turn of `Process` is a move of the byte machine: what the turn consumes and emits is what
the machine consumes and emits, up to the events the receiver's internal states still owe.  Whole
runs over any chunks therefore emit what the machine emits on the concatenation, and a packet
behind a prefix without a marker is delivered as it was sent.
-/

namespace MicroFramework.WireProtocol

open Library Support ByteState

namespace Receiver

/-- The state a receiver is in right after `PrepareReception`. -/
def prepareReception (controller : Controller) : Receiver where
  controller := controller
  rxState := .initialise
  header := []
  payload := none
  size := 0
  payloadTicks := 0
  readings := 0

/-- What holds of a receiver between turns. -/
structure Valid (env : Environment) (st : Receiver) : Prop where
  active : st.rxState ≠ .idle
  waiting : st.rxState = .waitingForHeader →
    st.header.length < signatureSize ∧ st.size = headerSize - st.header.length ∧ st.payload = none
  reading : st.rxState = .readingHeader →
    signatureSize ≤ st.header.length ∧ st.header.length ≤ headerSize ∧
      st.size = headerSize - st.header.length ∧ st.payload = none
  complete : st.rxState = .completeHeader → st.payload = none
  payload : st.rxState = .readingPayload →
    st.payload ≠ none ∧ 0 < st.readings ∧ st.payloadTicks = env.currentTicks (st.readings - 1)

/-- The abstract state of a receiver, and the events its pending turns still owe. -/
def abstract (env : Environment) (st : Receiver) : ByteState × List Event :=
  match st.rxState with
  | .idle => (⟨st.controller, .sync []⟩, [])
  | .initialise => (⟨st.controller, .sync []⟩, [])
  | .waitingForHeader => (⟨st.controller, .sync st.header⟩, [])
  | .readingHeader => proceed env.processHeader st.controller st.header
  | .completeHeader => complete env.processHeader st.controller st.header
  | .readingPayload =>
    if st.size = 0 then finish st.controller st.packet st.payload
    else (⟨st.controller, .payload st.header (st.payload.getD []) st.size⟩, [])
  | .completePayload => finish st.controller st.packet st.payload

theorem prepareReception_valid (env : Environment) (controller : Controller) :
    (prepareReception controller).Valid env := by
  constructor <;> simp [prepareReception]

variable {env : Environment} {st : Receiver}

/-- A receiver that is back in `Initialize` satisfies every conditional invariant. -/
theorem valid_of_initialise (h : st.rxState = .initialise) : st.Valid env := by
  constructor <;> simp [h]

theorem valid_of_completePayload (h : st.rxState = .completePayload) : st.Valid env := by
  constructor <;> simp [h]

/-! ## One turn -/

theorem badHeader_abstract (env : Environment) (st : Receiver) :
    (st.badHeader.1.abstract env).1 = (bad st.controller st.packet).1 ∧
      st.badHeader.2 ++ (st.badHeader.1.abstract env).2 = (bad st.controller st.packet).2 := by
  by_cases hcritical : st.packet.flags &&& Flags.nonCritical = 0
  · rw [badHeader, bad, if_pos hcritical, if_pos hcritical]
    exact ⟨rfl, rfl⟩
  · rw [badHeader, bad, if_neg hcritical, if_neg hcritical]
    exact ⟨rfl, rfl⟩

theorem completePayload_abstract (env : Environment) (st : Receiver) :
    (st.completePayload.1.abstract env).1 = (finish st.controller st.packet st.payload).1 ∧
      st.completePayload.2 ++ (st.completePayload.1.abstract env).2 =
        (finish st.controller st.packet st.payload).2 := by
  by_cases hverify : st.packet.verifyPayload st.payload = true
  · rw [completePayload, finish, if_pos hverify, if_pos hverify]
    exact ⟨rfl, rfl⟩
  · rw [completePayload, finish, if_neg hverify, if_neg hverify]
    exact ⟨rfl, rfl⟩

/-- The `CompleteHeader` case emits what the machine emits at the end of a header. -/
theorem completeHeader_abstract (env : Environment) (st : Receiver) (hpayload : st.payload = none) :
    ((st.completeHeader env).1.abstract env).1 =
        (complete env.processHeader st.controller st.header).1 ∧
      (st.completeHeader env).2 ++ ((st.completeHeader env).1.abstract env).2 =
        (complete env.processHeader st.controller st.header).2 := by
  have hbad := badHeader_abstract env st
  by_cases hverify : st.packet.verifyHeader = true
  · have hverify' : (Packet.ofImage st.header).verifyHeader = true := hverify
    simp only [completeHeader, complete, hverify, hverify', if_true]
    change _ ∧ _ = Event.processHeader st.packet :: _
    have hpacket : Packet.ofImage st.header = st.packet := rfl
    rw [hpacket]
    cases hverdict : env.processHeader st.packet with
    | refuse => simpa [accept, hpacket] using hbad
    | acceptNoBuffer =>
      by_cases hsize : st.packet.size = 0
      · simp only [accept, hpacket, hsize, bufferFor, hpayload, abstract]
        exact ⟨rfl, rfl⟩
      · simp [accept, hpacket, hsize, bufferFor, hpayload, abstract]
    | acceptWithBuffer =>
      by_cases hsize : st.packet.size = 0
      · simp only [accept, hpacket, hsize, bufferFor, abstract]
        exact ⟨rfl, rfl⟩
      · have hpos : st.packet.size.toNat ≠ 0 := fun h ↦
          hsize (UInt32.toNat_inj.mp (by simpa using h))
        simp [accept, hpacket, hsize, bufferFor, abstract, hpos]
  · have hverify' : ¬(Packet.ofImage st.header).verifyHeader = true := hverify
    simp only [completeHeader, complete, if_neg hverify, if_neg hverify']
    exact hbad

theorem completeHeader_valid (env : Environment) (st : Receiver) :
    (st.completeHeader env).1.Valid env := by
  unfold completeHeader
  split
  · dsimp only
    split
    · exact valid_of_initialise rfl
    · split
      · split
        · exact valid_of_initialise rfl
        · constructor <;> simp
      · exact valid_of_completePayload rfl
  · exact valid_of_initialise rfl

variable {left pending : Pending} {st' : Receiver}

/-- A turn that returns has consumed nothing and owes nothing. -/
theorem turn_ret (hvalid : st.Valid env) (h : st.turn env pending = .ret st' left) :
    pending.bytes = left.bytes ∧ left.length ≤ pending.length - 1 ∧
      st'.Valid env ∧ st'.abstract env = st.abstract env ∧ (st.abstract env).2 = [] := by
  unfold turn at h
  split at h
  case h_1 hstate => exact absurd hstate hvalid.active
  case h_3 hstate =>
    split at h
    · rename_i bytes rest hreceive
      simp only [Turn.ret.injEq] at h
      obtain ⟨rfl, rfl⟩ := h
      obtain ⟨hbytes, hlength⟩ := receiveBytes_false hreceive
      exact ⟨hbytes, hlength, hvalid, rfl, by simp [abstract, hstate]⟩
    · simp at h
  case h_4 hstate =>
    split at h
    · rename_i bytes rest hreceive
      simp only [Turn.ret.injEq] at h
      obtain ⟨rfl, rfl⟩ := h
      obtain ⟨hbytes, hlength⟩ := receiveBytes_false hreceive
      have hsize : st.size ≠ 0 := fun hzero ↦ by simp [receiveBytes, hzero] at hreceive
      have hshort : st.header.length < headerSize := by
        have := (hvalid.reading hstate).2.2.1
        omega
      exact ⟨hbytes, hlength, hvalid, rfl, by simp [abstract, hstate, proceed, hshort]⟩
    · simp at h
  case h_6 hstate =>
    dsimp only at h
    split at h
    · split at h
      · rename_i bytes rest hreceive
        simp only [Turn.ret.injEq] at h
        obtain ⟨rfl, rfl⟩ := h
        obtain ⟨hbytes, hlength⟩ := receiveBytes_false hreceive
        have hsize : st.size ≠ 0 := fun hzero ↦ by simp [receiveBytes, hzero] at hreceive
        refine ⟨hbytes, hlength, ?_, by simp [abstract, hstate, packet],
          by simp [abstract, hstate, hsize]⟩
        constructor <;> simp [hstate, (hvalid.payload hstate).1]
      · simp at h
    · simp at h
  all_goals simp at h

/-- A turn that goes round again is a move of the byte machine. -/
theorem turn_again {events : List Event} (htimely : env.Timely) (hvalid : st.Valid env)
    (h : st.turn env pending = .again st' left events) :
    st'.Valid env ∧ left.length ≤ pending.length ∧ ∃ bytes, pending.bytes = bytes ++ left.bytes ∧
      (byteMachine env.processHeader).Owes (st.abstract env) bytes events (st'.abstract env) := by
  unfold turn at h
  split at h
  case h_1 => simp at h
  case h_2 hstate =>
    simp only [Turn.again.injEq] at h
    obtain ⟨rfl, rfl, rfl⟩ := h
    refine ⟨?_, le_rfl, [], rfl, ?_⟩
    · constructor <;> simp [release]
    · simp [Transducer.Owes, abstract, hstate, release]
  case h_3 hstate =>
    obtain ⟨hshort, hsize, hpayload⟩ := hvalid.waiting hstate
    have hsizes : signatureSize < headerSize := by decide
    split at h
    · simp at h
    · rename_i bytes rest hreceive
      simp only [Turn.again.injEq] at h
      obtain ⟨rfl, rfl, rfl⟩ := h
      obtain ⟨hbytes, hcount, hnonempty, hlength⟩ := receiveBytes_true hreceive
      have htotal : st.header.length + bytes.length ≤ headerSize := by omega
      have hkept := synchronise_length_le (st.header ++ bytes)
      rw [List.length_append] at hkept
      refine ⟨?_, hlength, bytes, hbytes, ?_⟩
      · by_cases hlen : signatureSize ≤ (synchronise (st.header ++ bytes)).length
        · constructor <;> simp [hlen, hpayload, hkept.trans htotal]
        · constructor <;> simp [hlen, hpayload]
          exact Nat.lt_of_not_le hlen
      · have hfeed := feed_sync env.processHeader st.controller hshort htotal
          (hnonempty (by omega))
        have habstract : st.abstract env = (⟨st.controller, .sync st.header⟩, []) := by
          simp [abstract, hstate]
        rw [Transducer.Owes, habstract]
        dsimp only
        rw [hfeed]
        by_cases hlen : signatureSize ≤ (synchronise (st.header ++ bytes)).length
        · rw [settle, if_neg (Nat.not_lt.mpr hlen)]
          simp [abstract, hlen]
        · rw [settle, if_pos (Nat.lt_of_not_le hlen)]
          simp [abstract, hlen]
  case h_4 hstate =>
    obtain ⟨hlong, hshort, hsize, hpayload⟩ := hvalid.reading hstate
    split at h
    · simp at h
    · rename_i bytes rest hreceive
      simp only [Turn.again.injEq] at h
      obtain ⟨rfl, rfl, rfl⟩ := h
      obtain ⟨hbytes, hcount, hnonempty, hlength⟩ := receiveBytes_true hreceive
      have htotal : st.header.length + bytes.length ≤ headerSize := by omega
      refine ⟨?_, hlength, bytes, hbytes, ?_⟩
      · by_cases hdone : st.size - bytes.length = 0
        · constructor <;> simp [hdone, hpayload]
        · constructor <;> simp [hdone, hpayload]
          omega
      · have habstract : st.abstract env =
            proceed env.processHeader st.controller st.header := by
          simp [abstract, hstate]
        rw [Transducer.Owes, habstract]
        by_cases hzero : st.size = 0
        · have hnil : bytes = [] := List.eq_nil_of_length_eq_zero (by omega)
          have hfull : ¬st.header.length < headerSize := by omega
          subst hnil
          simp [abstract, hzero, proceed, hfull]
        · have hopen : st.header.length < headerSize := by omega
          rw [proceed, if_pos hopen]
          dsimp only
          rw [feed_header env.processHeader st.controller hopen htotal]
          have hdone : st.size - bytes.length = 0 ↔ ¬(st.header ++ bytes).length < headerSize := by
            rw [List.length_append]
            omega
          by_cases hfull : (st.header ++ bytes).length < headerSize
          · simp only [hdone, not_true_eq_false, hfull, if_false]
            simp [abstract, proceed]
          · simp only [hdone, hfull, not_false_eq_true, if_true, proceed, if_false]
            simp [abstract]
  case h_5 hstate =>
    simp only [Turn.again.injEq] at h
    obtain ⟨rfl, rfl, rfl⟩ := h
    have hcomplete := completeHeader_abstract env st (hvalid.complete hstate)
    refine ⟨completeHeader_valid env st, le_rfl, [], rfl, ?_⟩
    have habstract : st.abstract env = complete env.processHeader st.controller st.header := by
      simp [abstract, hstate]
    rw [Transducer.Owes, habstract]
    simp [hcomplete.1, hcomplete.2]
  case h_6 hstate =>
    obtain ⟨hbuffer, hreadings, hticks⟩ := hvalid.payload hstate
    obtain ⟨received, hreceived⟩ := Option.ne_none_iff_exists'.mp hbuffer
    have hintime : env.ticksToTime (env.currentTicks st.readings - st.payloadTicks) <
        payloadTimeout := by
      have := htimely (st.readings - 1)
      rwa [Nat.sub_add_cancel hreadings, ← hticks] at this
    dsimp only at h
    rw [if_pos hintime] at h
    split at h
    · simp at h
    · rename_i bytes rest hreceive
      simp only [Turn.again.injEq] at h
      obtain ⟨rfl, rfl, rfl⟩ := h
      obtain ⟨hbytes, hcount, hnonempty, hlength⟩ := receiveBytes_true hreceive
      refine ⟨?_, hlength, bytes, hbytes, ?_⟩
      · by_cases hdone : st.size - bytes.length = 0
        · exact valid_of_completePayload (by simp [hdone])
        · constructor <;> simp [hdone, hreceived]
      · by_cases hzero : st.size = 0
        · have hnil : bytes = [] := List.eq_nil_of_length_eq_zero (by omega)
          subst hnil
          simp [Transducer.Owes, abstract, hstate, hzero, hreceived, packet]
        · have habstract : st.abstract env =
              (⟨st.controller, .payload st.header received st.size⟩, []) := by
            simp [abstract, hstate, hzero, hreceived]
          rw [Transducer.Owes, habstract]
          dsimp only
          rw [feed_payload env.processHeader st.controller hcount (hnonempty hzero)]
          by_cases hdone : st.size - bytes.length = 0
          · simp [abstract, hdone, hreceived, packet]
          · simp [abstract, hdone, hreceived]
  case h_7 hstate =>
    simp only [Turn.again.injEq] at h
    obtain ⟨rfl, rfl, rfl⟩ := h
    have hcomplete := completePayload_abstract env st
    refine ⟨valid_of_initialise ?_, le_rfl, [], rfl, ?_⟩
    · unfold completePayload
      split <;> rfl
    · have habstract : st.abstract env =
          finish st.controller st.packet st.payload := by
        simp [abstract, hstate]
      rw [Transducer.Owes, habstract]
      simp [hcomplete.1, hcomplete.2]

end Receiver

end MicroFramework.WireProtocol
