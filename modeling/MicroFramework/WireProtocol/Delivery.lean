import MicroFramework.WireProtocol.Reception

/-!
# Runs of `Process` and the delivery of packets

The turn lemmas are lifted to whole calls of `Process` and to the sequence of calls that delivers
every chunk.  The events of such a run are those of the byte machine on the concatenation of the
chunks; what a packet makes the machine do is then computed once.
-/

namespace MicroFramework.WireProtocol

open Library Support ByteState List

/-! ## Runs -/

namespace Receiver

variable {env : Environment}

variable {left pending : Pending} {st st' : Receiver}

theorem process_of_ret
    (h : st.turn env pending = .ret st' left) : st.process env pending = (st', left, []) := by
  rw [process]
  split
  · rename_i hturn
    rw [h] at hturn
    cases hturn
    rfl
  · rename_i hturn
    rw [h] at hturn
    cases hturn

theorem process_of_again {events : List Event} (h : st.turn env pending = .again st' left events) :
    st.process env pending = ((st'.process env left).1, (st'.process env left).2.1,
      events ++ (st'.process env left).2.2) := by
  rw [process]
  split
  · rename_i hturn
    rw [h] at hturn
    cases hturn
  · rename_i hturn
    rw [h] at hturn
    cases hturn
    rfl

/-- A call of `Process` is a move of the byte machine that leaves no event owed. -/
theorem process_spec (htimely : env.Timely) (st : Receiver)
    (pending : Pending) (hvalid : st.Valid env) :
    ∃ bytes, pending.bytes = bytes ++ (st.process env pending).2.1.bytes ∧
      (st.process env pending).2.1.length ≤ pending.length - 1 ∧
      (st.process env pending).1.Valid env ∧
      ((st.process env pending).1.abstract env).2 = [] ∧
      (byteMachine env.processHeader).Owes (st.abstract env) bytes (st.process env pending).2.2
        ((st.process env pending).1.abstract env) := by
  induction st, pending using process.induct env with
  | case1 st pending st' left hturn =>
    obtain ⟨hbytes, hlength, hvalid', habstract, hnothing⟩ := turn_ret hvalid hturn
    rw [process_of_ret hturn]
    refine ⟨[], hbytes, hlength, hvalid', by rw [habstract, hnothing], ?_⟩
    dsimp only
    rw [habstract]
    exact Transducer.Owes.refl _ _
  | case2 st pending st' left events hturn ih =>
    obtain ⟨hvalid', hlength, bytes, hbytes, howes⟩ := turn_again htimely hvalid hturn
    obtain ⟨more, hmore, hshorter, hvalid'', hnothing, howes'⟩ := ih hvalid'
    rw [process_of_again hturn]
    refine ⟨bytes ++ more, ?_, by dsimp only; omega, hvalid'', hnothing, howes.trans howes'⟩
    rw [hbytes, hmore, append_assoc]

/-- Whatever the chunks, a run emits what the byte machine emits on their concatenation. -/
theorem receive_eq_feed (htimely : env.Timely) (st : Receiver)
    (pending : Pending) (hvalid : st.Valid env) :
    (st.receive env pending).2 = (st.abstract env).2 ++
      ((byteMachine env.processHeader).feed (st.abstract env).1 pending.bytes).2 := by
  induction st, pending using receive.induct env with
  | case1 st pending call hlt ih =>
    obtain ⟨bytes, hbytes, -, hvalid', hnothing, hstate, hevents⟩ :=
      process_spec htimely st pending hvalid
    have hlater := ih hvalid'
    rw [hnothing, nil_append] at hlater
    rw [hnothing, append_nil] at hevents
    rw [receive, if_pos hlt, hbytes, Transducer.feed_append, ← append_assoc, hevents, hstate]
    dsimp only
    rw [hlater]
  | case2 st pending call hge =>
    obtain ⟨bytes, hbytes, hlength, -, hnothing, hstate, hevents⟩ :=
      process_spec htimely st pending hvalid
    have hpending : pending = [] := by
      have hlong : ¬(st.process env pending).2.1.length < pending.length := hge
      exact eq_nil_of_length_eq_zero (by omega)
    have hempty : bytes = [] := by
      subst hpending
      exact (append_eq_nil_iff.mp hbytes.symm).1
    subst hpending hempty
    rw [hnothing, append_nil] at hevents
    rw [receive, if_neg hge]
    exact hevents.symm

end Receiver

/-! ## What a packet makes the byte machine do -/

/-- No position of the prefix starts a match of a marker, complete or cut off by its end. -/
def Unmarked (buf : List UInt8) : Prop :=
  ∀ n < buf.length, synchronised (buf.drop n) = false

instance (buf : List UInt8) : Decidable (Unmarked buf) :=
  inferInstanceAs (Decidable (∀ n < buf.length, synchronised (buf.drop n) = false))

variable {buf : List UInt8}

theorem unmarked_drop (h : Unmarked buf) (n : ℕ) : Unmarked (buf.drop n) := by
  intro m hm
  rw [length_drop] at hm
  rw [drop_drop]
  exact h (n + m) (by omega)

variable (verdict : Packet → Verdict) (controller : Controller)

/-- A prefix without a marker leaves the machine where it was. -/
theorem feed_unmarked {bytes : List UInt8} (hbuf : buf.length < signatureSize)
    (hstart : buf = [] ∨ synchronised buf = true) (hunmarked : Unmarked (buf ++ bytes)) :
    (byteMachine verdict).feed ⟨controller, .sync buf⟩ bytes = (⟨controller, .sync []⟩, []) := by
  induction bytes generalizing buf with
  | nil =>
    have hnil : buf = [] := by
      by_contra hne
      have hmatch := hstart.resolve_left hne
      have hno := hunmarked 0 (by simpa using length_pos_iff.mpr hne)
      simp [hmatch] at hno
    simp [hnil]
  | cons byte rest ih =>
    obtain ⟨n, hle, hdrop, hkept⟩ := synchronise_spec (buf ++ [byte])
    have hrest : Unmarked (synchronise (buf ++ [byte]) ++ rest) := by
      have := unmarked_drop hunmarked n
      rwa [← singleton_append, ← append_assoc, drop_append_of_le_length hle,
        ← hdrop] at this
    have hshort : (synchronise (buf ++ [byte])).length < signatureSize := by
      by_contra hlong
      have hlong := Nat.le_of_not_lt hlong
      have hmatch := hkept.resolve_left fun hnil ↦ by simp [hnil] at hlong
      have hno := hrest 0 (by
        rw [length_append]
        exact Nat.lt_of_lt_of_le (by decide) (Nat.le_add_right_of_le hlong))
      simp [synchronised_append rest hlong hmatch] at hno
    have hstep : (byteMachine verdict).step ⟨controller, .sync buf⟩ byte =
        (⟨controller, .sync (synchronise (buf ++ [byte]))⟩, []) := by
      simp only [byteMachine, step, if_neg (Nat.not_le.mpr hshort)]
    rw [Transducer.feed_cons, hstep, ih hshort hkept hrest]
    rfl

variable {marker payload : List UInt8}

theorem synchronised_marker
    (h : marker = markerDebuggerV1 ∨ marker = markerPacketV1) : synchronised marker = true := by
  rcases h with rfl | rfl <;> rfl

theorem marker_length (h : marker = markerDebuggerV1 ∨ marker = markerPacketV1) :
    marker.length = signatureSize := by
  rcases h with rfl | rfl <;> rfl

variable {packet : Packet}

/-- The header image of a marked packet makes the machine complete that header. -/
theorem feed_image (h : packet.signature = markerDebuggerV1 ∨ packet.signature = markerPacketV1) :
    (byteMachine verdict).feed ⟨controller, .sync []⟩ packet.image =
      complete verdict controller packet.image := by
  have hlength : packet.image.length = headerSize := Packet.image_length packet (marker_length h)
  have himage : synchronised packet.image = true :=
    synchronised_append _ (marker_length h).ge (synchronised_marker h)
  have hne : packet.image ≠ [] := fun hnil ↦ by simp [hnil] at hlength
  rw [feed_sync verdict controller (by decide) (by simp [hlength]) hne, nil_append,
    synchronise_eq_self himage, settle, if_neg (by rw [hlength]; decide),
    proceed, if_neg (by rw [hlength]; decide)]

section

variable (hmarker : marker = markerDebuggerV1 ∨ marker = markerPacketV1)

include hmarker

/-- A packet that describes its payload is handed over header first and payload second. -/
theorem feed_packet
    (hpacket : packet.Describes marker payload) (hverdict : verdict packet = .acceptWithBuffer) :
    (byteMachine verdict).feed ⟨controller, .sync []⟩ (packet.image ++ payload) =
      (⟨controller, .sync []⟩,
        [.processHeader packet, .processPayload packet (some payload)]) := by
  have hsignature : packet.signature = markerDebuggerV1 ∨ packet.signature = markerPacketV1 := by
    rwa [hpacket.signature]
  have hread := Packet.ofImage_image packet (marker_length hsignature)
  have hfinish : finish controller packet (some payload) =
      (⟨controller, .sync []⟩, [.processPayload packet (some payload)]) := by
    rw [finish, if_pos hpacket.data]
  rw [Transducer.feed_append, feed_image verdict controller hsignature]
  simp only [complete, hread, hpacket.header, if_true, hverdict, accept]
  by_cases hempty : payload = []
  · subst hempty
    have hsize : packet.size = 0 := UInt32.toNat_inj.mp (by simpa using hpacket.size)
    simp [hsize, hfinish]
  · have hpos : packet.size ≠ 0 := fun hzero ↦ by
      have := hpacket.size
      rw [hzero] at this
      exact hempty (eq_nil_of_length_eq_zero this.symm)
    have hfeed : (byteMachine verdict).feed
        ⟨controller, .payload packet.image [] packet.size.toNat⟩ payload = _ :=
      feed_payload verdict controller hpacket.size.ge hempty
    rw [if_pos (by rw [hpacket.size, Nat.sub_self]), hread, nil_append, hfinish] at hfeed
    simp [hpos, hfeed]

theorem feed_packet_head (hpacket : packet.Describes marker payload) (more : List UInt8) :
    ((byteMachine verdict).feed ⟨controller, .sync []⟩ (packet.image ++ more)).2.head? =
      some (.processHeader packet) := by
  have hsignature : packet.signature = markerDebuggerV1 ∨ packet.signature = markerPacketV1 := by
    rwa [hpacket.signature]
  have hread := Packet.ofImage_image packet (marker_length hsignature)
  rw [Transducer.feed_append, feed_image verdict controller hsignature]
  simp [complete, hread, hpacket.header]

/-- A packet without payload is handed over also when the application provides no buffer. -/
theorem feed_packet_noBuffer
    (hpacket : packet.Describes marker []) (hverdict : verdict packet = .acceptNoBuffer) :
    (byteMachine verdict).feed ⟨controller, .sync []⟩ packet.image =
      (⟨controller, .sync []⟩, [.processHeader packet, .processPayload packet none]) := by
  have hsignature : packet.signature = markerDebuggerV1 ∨ packet.signature = markerPacketV1 := by
    rwa [hpacket.signature]
  have hread := Packet.ofImage_image packet (marker_length hsignature)
  have hsize : packet.size = 0 := UInt32.toNat_inj.mp (by simpa using hpacket.size)
  have hdata : packet.verifyPayload none = true := by
    have := hpacket.data
    simp only [Packet.verifyPayload, hsize] at this ⊢
    simpa using this
  rw [feed_image verdict controller hsignature]
  simp [complete, hread, hpacket.header, hverdict, accept, hsize,
    finish, hdata]

end

/-! ## The delivery theorem -/

/-- A packet as a sender builds it with `PrepareRequest` or `PrepareReply`, and its payload. -/
inductive Built (sender : Controller) (payload : List UInt8) : Packet → Prop where
  | request (cmd flags : UInt32) : Built sender payload (prepareRequest sender cmd flags payload)
  | reply (req : Packet) (flags : UInt32) :
    Built sender payload (prepareReply sender req flags payload)

theorem Built.describes {sender : Controller}
    (h : Built sender payload packet) (hsize : payload.length < 2 ^ 32) :
    packet.Describes sender.marker payload := by
  cases h with
  | request cmd flags => exact prepareRequest_describes sender cmd flags payload hsize
  | reply req flags => exact prepareReply_describes sender req flags payload hsize

/-- An application that accepts every header, under a clock that stands still. -/
def alwaysAccept : Environment where
  processHeader _ := .acceptWithBuffer
  currentTicks _ := 0
  ticksToTime := id

theorem alwaysAccept_timely : alwaysAccept.Timely := by
  intro n
  change (0 : UInt64) - 0 < payloadTimeout
  decide

/-- Reception does not depend on chunking or on the clock, and a built packet behind an unmarked
prefix is delivered exactly. -/
theorem reception_independent_of_chunks (env other : Environment) (htimely : env.Timely)
    (hother : other.Timely) (hsame : other.processHeader = env.processHeader) :
    (∀ (chunks chunks' : Pending), chunks.bytes = chunks'.bytes →
      ((Receiver.prepareReception controller).receive env chunks).2 =
        ((Receiver.prepareReception controller).receive other chunks').2) ∧
    ∀ (lead payload : List UInt8) (sender : Controller) (packet : Packet) (chunks : Pending),
      Unmarked lead →
      (sender.marker = markerDebuggerV1 ∨ sender.marker = markerPacketV1) →
      payload.length < 2 ^ 32 → Built sender payload packet →
      chunks.bytes = lead ++ (packet.image ++ payload) →
      (((Receiver.prepareReception controller).receive env chunks).2.head? =
        some (.processHeader packet)) ∧
      (env.processHeader packet = .acceptWithBuffer →
        ((Receiver.prepareReception controller).receive env chunks).2 =
          [.processHeader packet, .processPayload packet (some payload)]) ∧
      (env.processHeader packet = .acceptNoBuffer → payload = [] →
        ((Receiver.prepareReception controller).receive env chunks).2 =
          [.processHeader packet, .processPayload packet none]) := by
  have hrun {env : Environment} (htimely : env.Timely) (chunks : Pending) :=
    Receiver.receive_eq_feed htimely _ chunks (Receiver.prepareReception_valid env controller)
  constructor
  · intro chunks chunks' hbytes
    rw [hrun htimely, hrun hother, hsame, hbytes]
    rfl
  · intro lead payload sender packet chunks hlead hmarker hsize hbuilt hbytes
    have hdescribes := hbuilt.describes hsize
    have habstract : (Receiver.prepareReception controller).abstract env =
        (⟨controller, .sync []⟩, []) := rfl
    have hskip : (byteMachine env.processHeader).feed ⟨controller, .sync []⟩ lead =
        (⟨controller, .sync []⟩, []) :=
      feed_unmarked env.processHeader controller (by decide) (.inl rfl) (by simpa using hlead)
    have hevents : ((Receiver.prepareReception controller).receive env chunks).2 =
        ((byteMachine env.processHeader).feed ⟨controller, .sync []⟩
          (packet.image ++ payload)).2 := by
      rw [hrun htimely, habstract, hbytes, Transducer.feed_append, hskip]
      rfl
    rw [hevents]
    refine ⟨feed_packet_head _ controller hmarker hdescribes payload, fun hverdict ↦ ?_,
      fun hverdict hempty ↦ ?_⟩
    · rw [feed_packet _ controller hmarker hdescribes hverdict]
    · subst hempty
      rw [append_nil, feed_packet_noBuffer _ controller hmarker hdescribes hverdict]

/-- A marker cut in two, and a one-byte request behind one byte of noise. -/
theorem reception_independent_of_chunks_request :
    ((Receiver.prepareReception ⟨none, 0⟩).receive alwaysAccept [[0x4D], [0x53, 0x00]]).2 =
      ((Receiver.prepareReception ⟨none, 0⟩).receive alwaysAccept [[0x4D, 0x53], [], [0x00]]).2 ∧
    ((Receiver.prepareReception ⟨none, 0⟩).receive alwaysAccept
        [0x20 :: (prepareRequest ⟨none, 7⟩ 1 0 [0xAB]).image, [0xAB]]).2 =
      [.processHeader (prepareRequest ⟨none, 7⟩ 1 0 [0xAB]),
        .processPayload (prepareRequest ⟨none, 7⟩ 1 0 [0xAB]) (some [0xAB])] := by
  have h := reception_independent_of_chunks ⟨none, 0⟩ alwaysAccept alwaysAccept
    alwaysAccept_timely alwaysAccept_timely rfl
  refine ⟨h.1 _ _ rfl, ?_⟩
  exact (h.2 [0x20] [0xAB] ⟨none, 7⟩ _ _ (by decide) (.inr rfl) (by decide) (.request 1 0)
    rfl).2.1 rfl

end MicroFramework.WireProtocol
