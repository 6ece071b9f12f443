import MicroFramework.Library.Simulation
import MicroFramework.WireProtocol.Process

/-!
# What a receiver is for: a machine over single bytes

The abstract receiver consumes one byte at a time and knows nothing of chunks, buffer positions
or clocks.  `Receiver.abstract` sends a receiver to the abstract state it stands for, together
with the events that its pending internal turns will still emit.
-/

namespace MicroFramework.WireProtocol

open Library Support List Packet

/-- What an abstract receiver is in the middle of. -/
inductive Phase where
  | sync (buf : List UInt8)
  | header (buf : List UInt8)
  | payload (header received : List UInt8) (remaining : ℕ)
  deriving DecidableEq, Repr

@[ext]
structure ByteState where
  controller : Controller
  phase : Phase

namespace ByteState

/-- The end of a packet whose payload, if any, is complete. -/
def finish (controller : Controller) (packet : Packet) (payload : Option (List UInt8)) :
    ByteState × List Event :=
  if packet.verifyPayload payload then
    (⟨controller, .sync []⟩, [.processPayload packet payload])
  else
    (⟨controller.bump, .sync []⟩,
      [.transmit (Receiver.badPacketReply controller Flags.badPayload)])

/-- The answer to a header that does not verify or is refused. -/
def bad (controller : Controller) (packet : Packet) : ByteState × List Event :=
  if packet.flags &&& Flags.nonCritical = 0 then
    (⟨controller.bump, .sync []⟩,
      [.transmit (Receiver.badPacketReply controller Flags.badHeader)])
  else (⟨controller, .sync []⟩, [])

/-- What follows a complete and verified header that the application has given a verdict on. -/
def accept (controller : Controller) (header : List UInt8) : Verdict → ByteState × List Event
  | .refuse => bad controller (ofImage header)
  | .acceptNoBuffer =>
    if (ofImage header).size ≠ 0 then (⟨controller, .sync []⟩, [])
    else finish controller (ofImage header) none
  | .acceptWithBuffer =>
    if (ofImage header).size ≠ 0 then
      (⟨controller, .payload header [] (ofImage header).size.toNat⟩, [])
    else finish controller (ofImage header) (some [])

def complete (verdict : Packet → Verdict) (controller : Controller) (header : List UInt8) :
    ByteState × List Event :=
  let packet := ofImage header
  if packet.verifyHeader then
    let next := accept controller header (verdict packet)
    (next.1, .processHeader packet :: next.2)
  else bad controller packet

/-- A header of at least eight bytes: complete, or still to be filled. -/
def proceed (verdict : Packet → Verdict) (controller : Controller) (buf : List UInt8) :
    ByteState × List Event :=
  if buf.length < headerSize then (⟨controller, .header buf⟩, [])
  else complete verdict controller buf

def step (verdict : Packet → Verdict) (state : ByteState) (byte : UInt8) :
    ByteState × List Event :=
  match state.phase with
  | .sync buf =>
    let kept := synchronise (buf ++ [byte])
    if signatureSize ≤ kept.length then (⟨state.controller, .header kept⟩, [])
    else (⟨state.controller, .sync kept⟩, [])
  | .header buf => proceed verdict state.controller (buf ++ [byte])
  | .payload header received remaining =>
    if remaining ≤ 1 then
      finish state.controller (ofImage header) (some (received ++ [byte]))
    else (⟨state.controller, .payload header (received ++ [byte]) (remaining - 1)⟩, [])

end ByteState

/-- The abstract receiver. -/
def byteMachine (verdict : Packet → Verdict) : Transducer ByteState UInt8 Event where
  step := ByteState.step verdict

/-! ## Synchronisation -/

theorem startsMarker_iff (marker buf : List UInt8) :
    startsMarker marker buf = true ↔ buf.take signatureSize <+: marker := by
  rw [startsMarker, beq_iff_eq, prefix_iff_eq_take, length_take, Nat.min_comm]

variable {buf bytes : List UInt8}

theorem synchronised_of_append {more : List UInt8} (h : synchronised (buf ++ more) = true) :
    synchronised buf = true := by
  have hprefix : buf.take signatureSize <+: (buf ++ more).take signatureSize :=
    List.IsPrefix.take (prefix_append buf more) signatureSize
  simp only [synchronised, Bool.or_eq_true, startsMarker_iff] at h ⊢
  exact h.imp hprefix.trans hprefix.trans

theorem synchronised_append (more : List UInt8)
    (hlen : signatureSize ≤ buf.length) (h : synchronised buf = true) :
    synchronised (buf ++ more) = true := by
  have htake : (buf ++ more).take signatureSize = buf.take signatureSize :=
    take_append_of_le_length hlen
  simp only [synchronised, Bool.or_eq_true, startsMarker_iff] at h ⊢
  rwa [htake]

/-- The loop ends at the start of the buffer's first suffix that can begin a marker. -/
theorem synchronise_spec (buf : List UInt8) :
    ∃ n ≤ buf.length, synchronise buf = buf.drop n ∧
      (synchronise buf = [] ∨ synchronised (synchronise buf) = true) := by
  induction buf with
  | nil => exact ⟨0, le_rfl, rfl, .inl rfl⟩
  | cons byte rest ih =>
    unfold synchronise
    split
    · rename_i hmatch
      exact ⟨0, Nat.zero_le _, rfl, .inr hmatch⟩
    · obtain ⟨n, hle, hdrop, hend⟩ := ih
      exact ⟨n + 1, Nat.succ_le_succ hle, hdrop, hend⟩

theorem synchronise_eq_self (h : synchronised buf = true) : synchronise buf = buf := by
  cases buf with
  | nil => rfl
  | cons byte rest => rw [synchronise, if_pos h]

/-- Synchronising early loses nothing. -/
theorem synchronise_synchronise_append (buf more : List UInt8) :
    synchronise (synchronise buf ++ more) = synchronise (buf ++ more) := by
  induction buf with
  | nil => rfl
  | cons byte rest ih =>
    by_cases hmatch : synchronised (byte :: rest) = true
    · rw [synchronise_eq_self hmatch]
    · have hlong : ¬synchronised (byte :: (rest ++ more)) = true := by
        intro h
        rw [← cons_append] at h
        exact hmatch (synchronised_of_append h)
      calc
        synchronise (synchronise (byte :: rest) ++ more) = synchronise (synchronise rest ++ more) := by
          rw [synchronise, if_neg hmatch]
        _ = synchronise (rest ++ more) := ih
        _ = synchronise (byte :: rest ++ more) := by rw [cons_append, synchronise, if_neg hlong]

/-! ## Feeding whole runs of bytes -/

variable (verdict : Packet → Verdict) (controller : Controller)

/-- A buffer as the concrete receiver leaves it after synchronising. -/
def ByteState.settle (buf : List UInt8) : ByteState × List Event :=
  if buf.length < signatureSize then (⟨controller, .sync buf⟩, [])
  else ByteState.proceed verdict controller buf

theorem feed_header (hbuf : buf.length < headerSize)
    (hlen : buf.length + bytes.length ≤ headerSize) :
    (byteMachine verdict).feed ⟨controller, .header buf⟩ bytes =
      ByteState.proceed verdict controller (buf ++ bytes) := by
  induction bytes generalizing buf with
  | nil => simp [ByteState.proceed, hbuf]
  | cons byte rest ih =>
    have hstep : (byteMachine verdict).step ⟨controller, .header buf⟩ byte =
        ByteState.proceed verdict controller (buf ++ [byte]) := rfl
    simp only [length_cons] at hlen
    rw [Transducer.feed_cons, hstep]
    by_cases hfull : (buf ++ [byte]).length < headerSize
    · have hnext : ByteState.proceed verdict controller (buf ++ [byte]) =
          (⟨controller, .header (buf ++ [byte])⟩, []) := by
        rw [ByteState.proceed, if_pos hfull]
      rw [hnext]
      simp only [nil_append]
      rw [ih hfull (by simp only [length_append, length_singleton]; omega),
        append_assoc, singleton_append]
    · have hrest : rest = [] := by
        apply eq_nil_of_length_eq_zero
        simp only [length_append, length_singleton] at hfull
        omega
      simp [hrest]

theorem feed_sync (hbuf : buf.length < signatureSize)
    (hlen : buf.length + bytes.length ≤ headerSize) (hne : bytes ≠ []) :
    (byteMachine verdict).feed ⟨controller, .sync buf⟩ bytes =
      ByteState.settle verdict controller (synchronise (buf ++ bytes)) := by
  induction bytes generalizing buf with
  | nil => exact absurd rfl hne
  | cons byte rest ih =>
    have hsizes : signatureSize < headerSize := by decide
    have hshort := synchronise_length_le (buf ++ [byte])
    simp only [length_append, length_singleton] at hshort
    simp only [length_cons] at hlen
    have hsplit : synchronise (buf ++ byte :: rest) =
        synchronise (synchronise (buf ++ [byte]) ++ rest) := by
      rw [synchronise_synchronise_append, append_assoc, singleton_append]
    rw [Transducer.feed_cons, hsplit]
    by_cases hfull : signatureSize ≤ (synchronise (buf ++ [byte])).length
    · have hstep : (byteMachine verdict).step ⟨controller, .sync buf⟩ byte =
          (⟨controller, .header (synchronise (buf ++ [byte]))⟩, []) := by
        simp only [byteMachine, ByteState.step, if_pos hfull]
      obtain ⟨-, -, -, hmatch⟩ := synchronise_spec (buf ++ [byte])
      have hsynchronised : synchronised (synchronise (buf ++ [byte])) = true :=
        hmatch.resolve_left fun hnil ↦ by simp [hnil] at hfull
      have hkeep := synchronise_eq_self (synchronised_append rest hfull hsynchronised)
      have hlong : ¬(synchronise (buf ++ [byte]) ++ rest).length < signatureSize := by
        rw [length_append]
        omega
      rw [hstep, feed_header verdict controller (by omega) (by omega), hkeep, ByteState.settle,
        if_neg hlong]
      simp
    · have hstep : (byteMachine verdict).step ⟨controller, .sync buf⟩ byte =
          (⟨controller, .sync (synchronise (buf ++ [byte]))⟩, []) := by
        simp only [byteMachine, ByteState.step, if_neg hfull]
      rw [hstep]
      by_cases hrest : rest = []
      · subst hrest
        have hself : synchronise (synchronise (buf ++ [byte]) ++ []) =
            synchronise (buf ++ [byte]) := by
          rw [synchronise_synchronise_append, append_nil]
        rw [hself, ByteState.settle, if_pos (by omega)]
        rfl
      · rw [ih (by omega) (by omega) hrest]
        simp

theorem feed_payload {header received : List UInt8} {remaining : ℕ}
    (hlen : bytes.length ≤ remaining) (hne : bytes ≠ []) :
    (byteMachine verdict).feed ⟨controller, .payload header received remaining⟩ bytes =
      if remaining - bytes.length = 0 then
        ByteState.finish controller (ofImage header) (some (received ++ bytes))
      else (⟨controller, .payload header (received ++ bytes) (remaining - bytes.length)⟩, []) := by
  induction bytes generalizing received remaining with
  | nil => exact absurd rfl hne
  | cons byte rest ih =>
    simp only [length_cons] at hlen ⊢
    rw [Transducer.feed_cons]
    by_cases hrest : rest = []
    · subst hrest
      have hlast : remaining - 1 = 0 ↔ remaining ≤ 1 := by omega
      simp [byteMachine, ByteState.step, hlast]
    · have hpos := length_pos_iff.mpr hrest
      have hstep : (byteMachine verdict).step ⟨controller, .payload header received remaining⟩ byte =
          (⟨controller, .payload header (received ++ [byte]) (remaining - 1)⟩, []) := by
        simp only [byteMachine, ByteState.step, if_neg (show ¬remaining ≤ 1 by omega)]
      rw [hstep, ih (by omega) hrest, append_assoc, singleton_append,
        show remaining - 1 - rest.length = remaining - (rest.length + 1) by omega]
      simp

end MicroFramework.WireProtocol
