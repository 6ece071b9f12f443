import MicroFramework.Http.InputStream
import MicroFramework.Unicode.ManagedString

/-!
# The calls on the bytes that were not taken yet

However the bytes are cut into segments and spread over the buffer and the connection, the calls
take them in their order.
-/

namespace MicroFramework.Http

open List

section Receive

variable {arrivals : List (List UInt8)} {count : ℕ}

/-- The segment that the next read takes from. -/
def arriving : List (List UInt8) → List UInt8
  | [] => []
  | segment :: arrivals => if segment = [] then arriving arrivals else segment

theorem arriving_eq_nil : arriving arrivals = [] ↔ arrivals.flatten = [] := by
  induction arrivals with
  | nil => simp [arriving]
  | cons segment arrivals ih =>
    by_cases hsegment : segment = []
    · rw [arriving, if_pos hsegment, ih, hsegment]
      simp
    · simp [arriving, hsegment]

theorem arriving_of_available (h : available arrivals > 0) :
    (arriving arrivals).length = available arrivals := by
  cases arrivals with
  | nil => simp [available] at h
  | cons segment arrivals =>
    have hsegment : segment ≠ [] := by
      rintro rfl
      simp [available] at h
    simp [arriving, hsegment, available]

theorem receive_fst : (receive arrivals count).1 = (arriving arrivals).take count := by
  induction arrivals with
  | nil => simp [receive, arriving]
  | cons segment arrivals ih =>
    by_cases hsegment : segment = []
    · simpa only [receive, arriving, if_pos hsegment] using ih
    · simp only [receive, arriving, if_neg hsegment]

theorem receive_append :
    (receive arrivals count).1 ++ (receive arrivals count).2.flatten = arrivals.flatten := by
  induction arrivals with
  | nil => simp [receive]
  | cons segment arrivals ih =>
    by_cases hsegment : segment = []
    · simpa [receive, hsegment] using ih
    · simp only [receive, if_neg hsegment, flatten_cons]
      split_ifs with hle
      · rw [take_of_length_le hle]
      · rw [flatten_cons, ← append_assoc, take_append_drop]

theorem readStream_fst : (readStream arrivals count).1 = (arriving arrivals).take count := by
  rw [readStream]
  split_ifs with hmore
  · rw [receive_fst, ← arriving_of_available hmore.2, take_length,
      take_of_length_le (by rw [arriving_of_available hmore.2]; omega)]
  · exact receive_fst

theorem readStream_append :
    (readStream arrivals count).1 ++ (readStream arrivals count).2.flatten = arrivals.flatten := by
  rw [readStream]
  split_ifs
  · exact receive_append
  · exact receive_append

end Receive

namespace InputNetworkStreamWrapper

variable {w : InputNetworkStreamWrapper} {size : ℕ}

/-- How much `RefillInternalBuffer` asks for. -/
def refillCount (w : InputNetworkStreamWrapper) : ℕ :=
  if available w.stream > readBufferSize then readBufferSize
  else if available w.stream = 0 then 1 else available w.stream

theorem refillCount_pos : 0 < w.refillCount := by
  rw [refillCount, readBufferSize]
  split_ifs <;> omega

theorem refill_buffered :
    w.refillInternalBuffer.buffered = (arriving w.stream).take w.refillCount := readStream_fst

theorem refill_unread : w.refillInternalBuffer.unread = w.stream.flatten := readStream_append

theorem refill_eq_nil : w.refillInternalBuffer.buffered = [] ↔ w.stream.flatten = [] := by
  rw [refill_buffered, take_eq_nil_iff, ← arriving_eq_nil]
  exact or_iff_right (Nat.ne_of_gt refillCount_pos)

/-- What a call changes besides the bytes: nothing. -/
structure SameMode (w w' : InputNetworkStreamWrapper) : Prop where
  enableChunkedDecoding : w'.enableChunkedDecoding = w.enableChunkedDecoding
  chunk : w'.chunk = w.chunk
  bytesLeftInResponse : w'.bytesLeftInResponse = w.bytesLeftInResponse

theorem SameMode.trans {w₁ w₂ w₃ : InputNetworkStreamWrapper} (h : SameMode w₁ w₂)
    (h' : SameMode w₂ w₃) : SameMode w₁ w₃ :=
  ⟨h'.1.trans h.1, h'.2.trans h.2, h'.3.trans h.3⟩

theorem refill_sameMode : SameMode w w.refillInternalBuffer := ⟨rfl, rfl, rfl⟩

theorem readByte_cons {byte : UInt8} {rest : List UInt8} (h : w.unread = byte :: rest) :
    ∃ w', w.readByte = (.ok byte, w') ∧ w'.unread = rest ∧ SameMode w w' := by
  by_cases hbuffered : w.buffered = []
  · have hflatten : w.stream.flatten = byte :: rest := by
      rw [unread, hbuffered] at h
      exact h
    have hunread := (@refill_unread w).trans hflatten
    cases hrefill : w.refillInternalBuffer.buffered with
    | nil =>
      rw [refill_eq_nil, hflatten] at hrefill
      cases hrefill
    | cons b buffered =>
      rw [unread, hrefill, cons_append, List.cons.injEq] at hunread
      refine ⟨{ w.refillInternalBuffer with buffered := buffered }, ?_, hunread.2, rfl, rfl, rfl⟩
      rw [readByte, if_pos hbuffered]
      simp only [hrefill, hunread.1]
  · obtain ⟨b, buffered, hcons⟩ := exists_cons_of_ne_nil hbuffered
    rw [unread, hcons, cons_append, List.cons.injEq] at h
    refine ⟨{ w with buffered := buffered }, ?_, h.2, rfl, rfl, rfl⟩
    rw [readByte, if_neg hbuffered]
    simp only [hcons, h.1]

/-- `ReadByte` throws when the connection has no more bytes. -/
theorem readByte_nil (h : w.unread = []) :
    ∃ w', w.readByte = (.error .connectionAborted, w') ∧ w'.unread = [] ∧ SameMode w w' := by
  obtain ⟨hbuffered, hflatten⟩ := append_eq_nil_iff.mp h
  have hrefill := refill_eq_nil.mpr hflatten
  refine ⟨w.refillInternalBuffer, ?_, refill_unread.trans hflatten, refill_sameMode⟩
  rw [readByte, if_pos hbuffered]
  simp only [hrefill]

/-- What `ReadInternal` asks the connection for, when the buffer has not enough. -/
def fetchCount (w : InputNetworkStreamWrapper) (size : ℕ) : ℕ :=
  if size < readBufferSize then min size w.refillCount else size

theorem updateBytesLeft_unread (n : ℕ) : (w.updateBytesLeft n).unread = w.unread := by
  rw [updateBytesLeft]
  split_ifs <;> rfl

/-- `ReadInternal` stops at the buffered bytes, when they are enough or the response has no more. -/
theorem readInternal_buffered
    (h : size ≤ w.buffered.length ∨
      w.bytesLeftInResponse ≠ -1 ∧ w.bytesLeftInResponse ≤ w.buffered.length) :
    w.readInternal size = (w.buffered.take size,
      { w with buffered := w.buffered.drop size }.updateBytesLeft
        (min size w.buffered.length)) := by
  rw [readInternal]
  simp only [length_take, readBufferSize]
  rw [if_neg]
  rintro ⟨hsize, hleft⟩
  omega

/-- `ReadInternal` goes on to the connection, which still has bytes. -/
theorem readInternal_fetch (hsize : w.buffered.length < size)
    (hleft : w.bytesLeftInResponse = -1 ∨ w.bytesLeftInResponse > w.buffered.length)
    (hmore : w.stream.flatten ≠ []) :
    ∃ more w', w.readInternal size = (w.buffered ++ more, w'.updateBytesLeft
        (w.buffered.length + more.length)) ∧
      more = (arriving w.stream).take (w.fetchCount (size - w.buffered.length)) ∧
      more ++ w'.unread = w.stream.flatten ∧ SameMode w w' := by
  have hcopied : w.buffered.take size = w.buffered := take_of_length_le (by omega)
  have hdrop : w.buffered.drop size = [] := drop_eq_nil_of_le (by omega)
  have hgoes : size - w.buffered.length > 0 ∧
      (w.bytesLeftInResponse = -1 ∨ w.bytesLeftInResponse > (w.buffered.length : ℤ)) :=
    ⟨by omega, hleft⟩
  let w₀ : InputNetworkStreamWrapper := { w with buffered := [] }
  by_cases hsmall : size - w.buffered.length < readBufferSize
  · have hrefill : w₀.refillInternalBuffer.buffered ≠ [] := fun hnil ↦ hmore (refill_eq_nil.mp hnil)
    refine ⟨w₀.refillInternalBuffer.buffered.take (size - w.buffered.length),
      { w₀.refillInternalBuffer with
        buffered := w₀.refillInternalBuffer.buffered.drop (size - w.buffered.length) },
      ?_, ?_, ?_, rfl, rfl, rfl⟩
    · rw [readInternal]
      simp only [hcopied, hdrop, hgoes, and_self, if_true, hsmall]
      exact if_neg hrefill
    · rw [refill_buffered, take_take, fetchCount, if_pos hsmall]
      rfl
    · have hunread : w₀.refillInternalBuffer.unread = w.stream.flatten := refill_unread
      rw [← hunread, unread, unread, ← append_assoc, take_append_drop]
  · refine ⟨(readStream w.stream (size - w.buffered.length)).1,
      { w₀ with stream := (readStream w.stream (size - w.buffered.length)).2 }, ?_, ?_, ?_,
      rfl, rfl, rfl⟩
    · rw [readInternal]
      simp only [hcopied, hdrop, hgoes, and_self, if_true, hsmall, if_false]
      rfl
    · rw [readStream_fst, fetchCount, if_neg hsmall]
    · exact readStream_append

/-- The call does not get at a byte behind a body of declared length: it asks for no more than the
rest of the body, or neither the buffered bytes nor the segment that it takes from go on behind the
body.  A call that finds nothing arrived fetches a single byte. -/
def WithinBody (w : InputNetworkStreamWrapper) (size : ℕ) : Prop :=
  (size : ℤ) ≤ w.bytesLeftInResponse ∨
    (w.buffered.length : ℤ) ≤ w.bytesLeftInResponse ∧
      ((w.buffered.length : ℤ) < w.bytesLeftInResponse →
        available w.stream = 0 ∧ size - w.buffered.length < readBufferSize ∨
          (w.buffered.length + (arriving w.stream).length : ℤ) ≤ w.bytesLeftInResponse)

theorem fetchCount_pos (hsize : 0 < size) : 0 < w.fetchCount size := by
  have hpos := @refillCount_pos w
  rw [fetchCount]
  split_ifs <;> omega

theorem fetchCount_le : w.fetchCount size ≤ size := by
  rw [fetchCount]
  split_ifs <;> omega

theorem arriving_length_pos (h : w.stream.flatten ≠ []) : 0 < (arriving w.stream).length :=
  length_pos_iff.mpr fun hnil ↦ h (arriving_eq_nil.mp hnil)

/-- Without a declared length `ReadInternal` takes some of the bytes that are to come. -/
theorem readInternal_chunked (hleft : w.bytesLeftInResponse = -1) (hsize : 0 < size)
    (hmore : size ≤ w.unread.length) :
    ∃ data w', w.readInternal size = (data, w') ∧ data ++ w'.unread = w.unread ∧
      data ≠ [] ∧ data.length ≤ size ∧ SameMode w w' := by
  have hupdate : ∀ (w' : InputNetworkStreamWrapper) n, w'.bytesLeftInResponse = -1 →
      w'.updateBytesLeft n = w' := by
    intro w' n hw'
    rw [updateBytesLeft, hw']
    rfl
  by_cases hbuffered : size ≤ w.buffered.length
  · refine ⟨_, _, readInternal_buffered (.inl hbuffered), ?_, ?_, ?_, ?_⟩
    · rw [updateBytesLeft_unread, unread, unread, ← append_assoc, take_append_drop]
    · rw [← length_pos_iff, length_take]
      omega
    · rw [length_take]
      omega
    · rw [hupdate { w with buffered := w.buffered.drop size } _ hleft]
      exact ⟨rfl, rfl, rfl⟩
  · have hflatten : w.stream.flatten ≠ [] := by
      intro hnil
      rw [unread, hnil, append_nil] at hmore
      exact hbuffered hmore
    obtain ⟨more, w', hread, hmore', hunread, hmode⟩ :=
      readInternal_fetch (Nat.lt_of_not_le hbuffered) (.inl hleft) hflatten
    have hlength : more.length =
        min (w.fetchCount (size - w.buffered.length)) (arriving w.stream).length := by
      rw [hmore', length_take]
    have hfetch := @fetchCount_pos w (size - w.buffered.length) (by omega)
    have hle := @fetchCount_le w (size - w.buffered.length)
    have harriving := arriving_length_pos hflatten
    rw [hupdate _ _ (hmode.bytesLeftInResponse.trans hleft)] at hread
    refine ⟨_, _, hread, ?_, ?_, ?_, hmode⟩
    · rw [append_assoc, hunread, unread]
    · rw [← length_pos_iff, length_append]
      omega
    · rw [length_append]
      omega

/-- With a declared length `ReadInternal` counts down what it takes, and it takes no more than is
left exactly when the call is within the body. -/
theorem readInternal_declared {left : ℕ} (hleft : w.bytesLeftInResponse = left) (hsize : 0 < size)
    (hmore : left ≤ w.unread.length) :
    ∃ data w', w.readInternal size = (data, w') ∧ data ++ w'.unread = w.unread ∧
      (data = [] → left = 0) ∧ (data.length ≤ left ↔ w.WithinBody size) ∧
      (data.length ≤ left → w'.bytesLeftInResponse = left - data.length) ∧
      w'.enableChunkedDecoding = w.enableChunkedDecoding ∧ w'.chunk = w.chunk := by
  have hupdate : ∀ (w' : InputNetworkStreamWrapper) (n : ℕ), w'.bytesLeftInResponse = left →
      (n ≤ left → (w'.updateBytesLeft n).bytesLeftInResponse = left - n) ∧
        (w'.updateBytesLeft n).enableChunkedDecoding = w'.enableChunkedDecoding ∧
        (w'.updateBytesLeft n).chunk = w'.chunk := by
    intro w' n hw'
    rw [updateBytesLeft, hw']
    split_ifs with hpos hover
    · exact ⟨fun hn ↦ by omega, rfl, rfl⟩
    · exact ⟨fun _ ↦ rfl, rfl, rfl⟩
    · exact ⟨fun hn ↦ hw'.trans (by omega), rfl, rfl⟩
  by_cases hbuffered : size ≤ w.buffered.length ∨ left ≤ w.buffered.length
  · have hstop : size ≤ w.buffered.length ∨
        w.bytesLeftInResponse ≠ -1 ∧ w.bytesLeftInResponse ≤ w.buffered.length := by
      rw [hleft]
      omega
    obtain ⟨hcount, hmode⟩ := hupdate { w with buffered := w.buffered.drop size }
      (min size w.buffered.length) hleft
    refine ⟨_, _, readInternal_buffered hstop, ?_, ?_, ?_, ?_, hmode⟩
    · rw [updateBytesLeft_unread, unread, unread, ← append_assoc, take_append_drop]
    · rw [take_eq_nil_iff]
      rintro (hzero | hnil)
      · omega
      · rw [hnil] at hbuffered
        simp only [length_nil] at hbuffered
        omega
    · rw [length_take, WithinBody, hleft]
      omega
    · rw [length_take]
      intro hle
      rw [hcount hle]
  · have hflatten : w.stream.flatten ≠ [] := by
      intro hnil
      rw [unread, hnil, append_nil] at hmore
      exact hbuffered (.inr hmore)
    obtain ⟨more, w', hread, hmore', hunread, hmode⟩ :=
      @readInternal_fetch w size (by omega) (.inr (by rw [hleft]; omega)) hflatten
    have hlength : more.length =
        min (w.fetchCount (size - w.buffered.length)) (arriving w.stream).length := by
      rw [hmore', length_take]
    have hfetch := @fetchCount_pos w (size - w.buffered.length) (by omega)
    have harriving := arriving_length_pos hflatten
    obtain ⟨hcount, hmode'⟩ := hupdate w' (w.buffered.length + more.length)
      (hmode.bytesLeftInResponse.trans hleft)
    refine ⟨_, _, hread, ?_, ?_, ?_, ?_, ?_, ?_⟩
    · rw [updateBytesLeft_unread, append_assoc, hunread, unread]
    · rw [append_eq_nil_iff]
      rintro ⟨-, rfl⟩
      simp only [length_nil] at hlength
      omega
    · have havailable : available w.stream > 0 →
          (arriving w.stream).length = available w.stream := arriving_of_available
      rw [length_append, hlength, WithinBody, hleft, fetchCount, refillCount, readBufferSize]
      split_ifs <;> omega
    · rw [length_append]
      exact fun hle ↦ (hcount hle).trans (by omega)
    · exact hmode'.1.trans hmode.enableChunkedDecoding
    · exact hmode'.2.trans hmode.chunk

theorem readChunk_eq {length : ℕ} {rest after : List UInt8} (hleft : w.bytesLeftInResponse = -1)
    (hsize : 0 < size) (hrest : rest ≠ []) (hlength : rest.length ≤ length)
    (hunread : w.unread = rest ++ after) :
    ∃ data rest' w', w.readChunk ⟨length, length - rest.length⟩ size = (data, w') ∧
      data ≠ [] ∧ rest = data ++ rest' ∧ w'.unread = rest' ++ after ∧
      w'.chunk = (if rest' = [] then none else some ⟨length, length - rest'.length⟩) ∧
      w'.enableChunkedDecoding = w.enableChunkedDecoding ∧ w'.bytesLeftInResponse = -1 := by
  have hpos := length_pos_iff.mpr hrest
  have htotal : w.unread.length = rest.length + after.length := by rw [hunread, length_append]
  obtain ⟨data, w', hread, hdata, hne, hle, hmode⟩ :=
    @readInternal_chunked w (min size rest.length) hleft (by omega) (by omega)
  have hprefix : data = rest.take data.length ∧ w'.unread = rest.drop data.length ++ after := by
    have heq := hdata.trans hunread
    have htake := congrArg (List.take data.length) heq
    have hdrop := congrArg (List.drop data.length) heq
    rw [take_left, take_append_of_le_length (by omega)] at htake
    rw [drop_left, drop_append_of_le_length (by omega)] at hdrop
    exact ⟨htake, hdrop⟩
  have hask : (if size > length - (length - rest.length) then length - (length - rest.length)
      else size) = min size rest.length := by
    split_ifs <;> omega
  have hdatapos := length_pos_iff.mpr hne
  refine ⟨data, rest.drop data.length,
    { w' with
      chunk :=
        if length - rest.length + data.length = length then none
        else some ⟨length, length - rest.length + data.length⟩ },
    ?_, hne, ?_, ?_, ?_, hmode.enableChunkedDecoding, hmode.bytesLeftInResponse.trans hleft⟩
  · rw [readChunk, if_neg (by simp only; omega)]
    simp only [hask, hread]
  · rw [← take_append_drop data.length rest, ← hprefix.1, drop_left]
  · exact hprefix.2
  · by_cases hend : rest.length = data.length
    · rw [if_pos (by omega), if_pos (drop_eq_nil_of_le (by omega))]
    · have hoffset : length - rest.length + data.length = length - (rest.length - data.length) := by
        omega
      rw [if_neg (by omega), if_neg (by rw [drop_eq_nil_iff]; omega), length_drop,
        hoffset]

end InputNetworkStreamWrapper

/-!
## Reading the lines of an HTTP header

`Read_HTTP_Line` and `Read_HTTP_Header`.  The line buffer belongs to the wrapper and only grows; of
its contents, only what the call at hand has stored matters.  A managed string ends at its first zero
character.
-/

open Unicode

/-- What the calls on lines throw: `WebException` with its message, or `SocketException`. -/
inductive LineException where
  | web (message : String)
  | socket
deriving DecidableEq

/-- `new string(charBuf)`, where `charBuf` was filled by `UTF8decoder.Convert` with the first
`byteCount` bytes. -/
def decodeString (lineBuf : List UInt8) (byteCount : ℕ) : List UInt16 :=
  match convertFromUTF8 lineBuf byteCount byteCount false byteCount with
  | none => []
  | some conversion =>
    (conversion.written (List.replicate byteCount 0)).takeWhile fun unit ↦ unit ≠ 0

structure LineReader extends InputNetworkStreamWrapper where
  lineBufLength : ℕ

namespace LineReader

variable (r : LineReader)

/-- The next byte: from the buffer, or from a refill; none where the refill brings nothing. -/
def nextByte : Option UInt8 × LineReader :=
  match r.toInputNetworkStreamWrapper.readByte with
  | (.ok byte, w) => (some byte, { r with toInputNetworkStreamWrapper := w })
  | (.error _, w) => (none, { r with toInputNetworkStreamWrapper := w })

def peekByte : Except LineException UInt8 × LineReader :=
  let w := if r.buffered = [] then r.refillInternalBuffer else r.toInputNetworkStreamWrapper
  match w.buffered with
  | [] => (.error .socket, { r with toInputNetworkStreamWrapper := w })
  | byte :: _ => (.ok byte, { r with toInputNetworkStreamWrapper := w })

def finishLine (maxLineLength : ℤ) (line : List UInt8) (r : LineReader) :
    Except LineException (List UInt16) × LineReader :=
  if (line.length : ℤ) = maxLineLength then (.error (.web "Line too long"), r)
  else (.ok (if 2 < line.length then decodeString line (line.length - 2) else []), r)

/-- The loops of `Read_HTTP_Line`: a turn reads a byte, or doubles the line buffer. -/
def readLineLoop (maxLineLength : ℤ) : ℕ → List UInt8 → LineReader →
    Except LineException (List UInt16) × LineReader
  | 0, _, r => (.error .socket, r)
  | turns + 1, line, r =>
    if (line.length : ℤ) < min ((r.lineBufLength : ℤ) - 1) maxLineLength then
      match r.nextByte with
      | (none, r) => finishLine maxLineLength line r
      | (some byte, r) =>
        if byte = 13 then
          match r.nextByte with
          | (none, r) => finishLine maxLineLength (line ++ [byte]) r
          | (some next, r) => finishLine maxLineLength (line ++ [byte, next]) r
        else if byte = 10 then finishLine maxLineLength (line ++ [byte]) r
        else readLineLoop maxLineLength turns (line ++ [byte]) r
    else if (line.length : ℤ) = maxLineLength then (.error (.web "Line too long"), r)
    else readLineLoop maxLineLength turns line { r with lineBufLength := r.lineBufLength * 2 }

/-- `Read_HTTP_Line`: two turns for every byte, and for the end of the connection, are enough. -/
def readHttpLine (maxLineLength : ℤ) : Except LineException (List UInt16) × LineReader :=
  readLineLoop maxLineLength (2 * (r.unread.length + 2)) [] r

def readHttpLines (maxLineLength : ℤ) :
    ℕ → LineReader → List (Except LineException (List UInt16)) × LineReader
  | 0, r => ([], r)
  | count + 1, r =>
    let result := r.readHttpLine maxLineLength
    let results := readHttpLines maxLineLength count result.2
    (result.1 :: results.1, results.2)

def readHeaderLoop : ℕ → ℤ → List UInt16 → LineReader →
    Except LineException (List UInt16) × LineReader
  | 0, _, _, r => (.error .socket, r)
  | turns + 1, maxLineLength, strHeader, r =>
    if maxLineLength > 0 then
      match r.peekByte with
      | (.error e, r) => (.error e, r)
      | (.ok nextByte, r) =>
        if ¬ (nextByte = 32 ∨ nextByte = 9) then (.ok strHeader, r)
        else
          match r.readHttpLine maxLineLength with
          | (.error e, r) => (.error e, r)
          | (.ok strLine, r) =>
            readHeaderLoop turns (maxLineLength - strLine.length) (strHeader ++ strLine) r
    else (.error (.web "HTTP header too long"), r)

def readHttpHeader (maxLineLength : ℤ) : Except LineException (List UInt16) × LineReader :=
  match r.readHttpLine maxLineLength with
  | (.error e, r) => (.error e, r)
  | (.ok strHeader, r) =>
    if strHeader = [] then (.ok strHeader, r)
    else readHeaderLoop (r.unread.length + 1) (maxLineLength - strHeader.length) strHeader r

end LineReader

end MicroFramework.Http
