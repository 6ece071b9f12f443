import MicroFramework.WireProtocol.Packet

/-!
# Calls of `Process`

`WP_Message::Process` loops until the physical layer has nothing to deliver.  A turn that goes
round again either consumes a byte or moves strictly down the ranks of the states that need no
input, which is what makes the loop end.  `receive` then calls `Process` again and again until
every chunk has been delivered.
-/

namespace MicroFramework.WireProtocol

open Support List

/-- How many turns a state can take without input. -/
def Receiver.rank (st : Receiver) : ℕ :=
  match st.rxState with
  | .idle => 0
  | .initialise => 1
  | .completePayload => 2
  | .readingPayload => 3
  | .completeHeader => 4
  | .readingHeader => 5
  | .waitingForHeader => if st.size = 0 then 6 else 0

abbrev Pending.bytes (pending : Pending) : List UInt8 := pending.flatten

variable {bytes : List UInt8} {left pending : Pending} {size : ℕ}

/-- What a successful `ReceiveBytes` has done. -/
theorem receiveBytes_true (h : receiveBytes size pending = (true, bytes, left)) :
    pending.bytes = bytes ++ left.bytes ∧ bytes.length ≤ size ∧
      (size ≠ 0 → bytes ≠ []) ∧ left.length ≤ pending.length := by
  unfold receiveBytes at h
  split at h
  · rename_i hsize
    simp only [Prod.mk.injEq, true_and] at h
    obtain ⟨rfl, rfl⟩ := h
    simp [hsize]
  · rename_i hsize
    split at h
    · simp at h
    · simp at h
    · rename_i chunk rest hchunk
      simp only [Prod.mk.injEq, true_and] at h
      obtain ⟨rfl, rfl⟩ := h
      have hne : chunk ≠ [] := hchunk
      refine ⟨?_, by simp, fun _ ↦ by simp [hsize, hne], ?_⟩
      · split
        · rename_i hle
          simp [take_of_length_le hle]
        · simp [← append_assoc]
      · split <;> simp

/-- A failing `ReceiveBytes` has met an empty chunk or the end of the input. -/
theorem receiveBytes_false (h : receiveBytes size pending = (false, bytes, left)) :
    pending.bytes = left.bytes ∧ left.length ≤ pending.length - 1 := by
  unfold receiveBytes at h
  split at h
  · simp at h
  · split at h
    · simp only [Prod.mk.injEq, true_and] at h
      simp [← h.2]
    · simp only [Prod.mk.injEq, true_and] at h
      simp [← h.2]
    · simp at h

theorem synchronise_length_le (buf : List UInt8) : (synchronise buf).length ≤ buf.length := by
  induction buf with
  | nil => simp [synchronise]
  | cons byte rest ih =>
    unfold synchronise
    split
    · simp
    · simp only [length_cons]
      omega

namespace Receiver

theorem completeHeader_rank (env : Environment) (st : Receiver) :
    (st.completeHeader env).1.rank < 4 := by
  unfold completeHeader
  split
  · dsimp only
    split
    · simp [badHeader, rank]
    · split
      · split <;> simp [rank]
      · simp [rank]
  · simp [badHeader, rank]

theorem completePayload_rank (st : Receiver) : st.completePayload.1.rank = 1 := by
  unfold completePayload
  split <;> rfl

def measure (st : Receiver) (pending : Pending) : ℕ ×ₗ ℕ :=
  toLex (pending.bytes.length, st.rank)

variable {left pending : Pending} {st st' : Receiver}

/-- A turn that receives bytes makes progress: it consumes one, or it was asked for none and
moves on to a lower rank. -/
theorem measure_lt_of_receive {size : ℕ}
    {bytes : List UInt8} (h : receiveBytes size pending = (true, bytes, left))
    (hrank : size = 0 → st'.rank < st.rank) : st'.measure left < st.measure pending := by
  obtain ⟨hbytes, -, hnonempty, -⟩ := receiveBytes_true h
  rw [measure, measure, Prod.Lex.toLex_lt_toLex]
  have hlength : pending.bytes.length = bytes.length + left.bytes.length := by
    rw [hbytes, length_append]
  by_cases hsize : size = 0
  · have hnil : bytes.length ≤ 0 := hsize ▸ (receiveBytes_true h).2.1
    exact .inr ⟨by dsimp only; omega, hrank hsize⟩
  · have hpos := length_pos_iff.mpr (hnonempty hsize)
    exact .inl (by dsimp only; omega)

/-- Every turn that goes round again decreases the measure. -/
theorem turn_measure {env : Environment}
    {events : List Event} (h : st.turn env pending = .again st' left events) :
    st'.measure left < st.measure pending := by
  have hsame {next : Receiver} (hrank : next.rank < st.rank) :
      next.measure pending < st.measure pending := by
    rw [measure, measure, Prod.Lex.toLex_lt_toLex]
    exact .inr ⟨rfl, hrank⟩
  unfold turn at h
  split at h
  case h_1 => simp at h
  case h_2 hstate =>
    simp only [Turn.again.injEq] at h
    obtain ⟨rfl, rfl, -⟩ := h
    exact hsame (by simp [rank, hstate])
  case h_3 hstate =>
    split at h
    · simp at h
    · rename_i bytes rest hreceive
      simp only [Turn.again.injEq] at h
      obtain ⟨rfl, rfl, -⟩ := h
      apply measure_lt_of_receive hreceive
      intro hsize
      have hst : st.rank = 6 := by simp [rank, hstate, hsize]
      rw [hst]
      by_cases hlen : signatureSize ≤ (synchronise (st.header ++ bytes)).length
      · simp [rank, hlen]
      · have hsizes : signatureSize ≤ headerSize := by decide
        have hpos : headerSize - (synchronise (st.header ++ bytes)).length ≠ 0 := by omega
        simp [rank, hlen, hpos]
  case h_4 hstate =>
    split at h
    · simp at h
    · rename_i bytes rest hreceive
      simp only [Turn.again.injEq] at h
      obtain ⟨rfl, rfl, -⟩ := h
      apply measure_lt_of_receive hreceive
      intro hsize
      simp [rank, hstate, hsize]
  case h_5 hstate =>
    simp only [Turn.again.injEq] at h
    obtain ⟨rfl, rfl, -⟩ := h
    have hst : st.rank = 4 := by simp [rank, hstate]
    exact hsame (hst ▸ completeHeader_rank env st)
  case h_6 hstate =>
    dsimp only at h
    split at h
    · split at h
      · simp at h
      · rename_i bytes rest hreceive
        simp only [Turn.again.injEq] at h
        obtain ⟨rfl, rfl, -⟩ := h
        apply measure_lt_of_receive hreceive
        intro hsize
        simp [rank, hstate, hsize]
    · simp only [Turn.again.injEq] at h
      obtain ⟨rfl, rfl, -⟩ := h
      exact hsame (by simp [rank, hstate])
  case h_7 hstate =>
    simp only [Turn.again.injEq] at h
    obtain ⟨rfl, rfl, -⟩ := h
    have hst : st.rank = 2 := by simp [rank, hstate]
    exact hsame (by rw [hst, completePayload_rank]; decide)

/-- `WP_Message::Process`: the state it returns in, what the physical layer has left, and the
events on the way. -/
def process (env : Environment) (st : Receiver) (pending : Pending) :
    Receiver × Pending × List Event :=
  match _h : st.turn env pending with
  | .ret st' left => (st', left, [])
  | .again st' left events =>
    let later := st'.process env left
    (later.1, later.2.1, events ++ later.2.2)
  termination_by st.measure pending
  decreasing_by exact turn_measure _h

/-- Successive calls of `Process`, until every chunk has been delivered. -/
def receive (env : Environment) (st : Receiver) (pending : Pending) : Receiver × List Event :=
  let call := st.process env pending
  if call.2.1.length < pending.length then
    let later := call.1.receive env call.2.1
    (later.1, call.2.2 ++ later.2)
  else (call.1, call.2.2)
  termination_by pending.length

end Receiver

end MicroFramework.WireProtocol
