import MicroFramework.Library.Runs
import MicroFramework.Http.ChunkedMessage

/-!
# What the calls of Read return

A response whose body has a declared length or comes in chunks is read by calls of any sizes from a
connection that delivers it in any segments, with the bytes of the next response behind it.
-/

namespace MicroFramework.Http

open Library List InputNetworkStreamWrapper MessageChunk

/-- What a call returned; a call that throws returns nothing. -/
def bytesOf : Except Exception (List UInt8) → List UInt8
  | .ok data => data
  | .error _ => []

/-- A response being read: the stream, the body that was sent, the chunks whose header is still to
be read, and what the calls returned so far, the first call first. -/
structure Reading where
  stream : InputNetworkStreamWrapper
  body : List UInt8
  chunks : List MessageChunk
  results : List (Except Exception (List UInt8))

namespace Reading

def returned (s : Reading) : List UInt8 := s.results.flatMap bytesOf

/-- A call of `Read` for some bytes. -/
def step (s : Reading) (size : ℕ) : Option Reading :=
  if 0 < size then
    some { s with
      stream := (s.stream.read size).2
      chunks :=
        if s.stream.enableChunkedDecoding = true ∧ s.stream.chunk = none then s.chunks.tail
        else s.chunks
      results := s.results ++ [(s.stream.read size).1] }
  else none

/-- The header of a response was read: its body is next, with other bytes behind it. -/
structure Started (s : Reading) : Prop where
  results : s.results = []
  chunk : s.stream.chunk = none
  body :
    (s.stream.enableChunkedDecoding = false ∧
      s.stream.bytesLeftInResponse = s.body.length ∧
      ∃ following, s.stream.unread = s.body ++ following) ∨
    (s.stream.enableChunkedDecoding = true ∧ s.stream.bytesLeftInResponse = -1 ∧
      ∃ chunks last following, (∀ c ∈ chunks, c.data ≠ []) ∧ last.data = [] ∧
        s.chunks = chunks ++ [last] ∧ s.body = chunks.flatMap data ∧
        s.stream.unread = encodeChunks chunks last following)

/-- What is asked of the calls: none throws, together they return a beginning of the body, and one
returns nothing only when the calls before it returned all of the body. -/
structure Correct (s : Reading) : Prop where
  delivered : ∀ result ∈ s.results, ∃ data, result = .ok data
  exact : s.returned <+: s.body
  complete : ∀ earlier later, s.results = earlier ++ .ok [] :: later →
    earlier.flatMap bytesOf = s.body

/-- The call stays within a body of declared length, or the header of the chunk that it starts with
is one that `GetChunk` takes. -/
def Expected (s : Reading) (size : ℕ) : Prop :=
  if s.stream.enableChunkedDecoding = true then
    s.stream.chunk = none → ∀ c ∈ s.chunks.head?, c.Taken
  else s.stream.WithinBody size

/-- Where in the response the calls are. -/
inductive Position (s : Reading) : Prop
  | declared {rest following : List UInt8} :
      s.stream.enableChunkedDecoding = false →
      s.stream.bytesLeftInResponse = rest.length →
      s.stream.unread = rest ++ following →
      s.returned ++ rest = s.body → Position s
  | header {lead after : List UInt8} {chunks : List MessageChunk} {last : MessageChunk} :
      s.stream.enableChunkedDecoding = true → s.stream.bytesLeftInResponse = -1 →
      s.stream.chunk = none → (lead = [] ∨ lead = crlf) →
      (∀ c ∈ chunks, c.data ≠ []) → last.data = [] → s.chunks = chunks ++ [last] →
      s.stream.unread = lead ++ encodeChunks chunks last after →
      s.returned ++ chunks.flatMap data = s.body → Position s
  | chunk {length : ℕ} {rest after : List UInt8} {chunks : List MessageChunk}
      {last : MessageChunk} :
      s.stream.enableChunkedDecoding = true → s.stream.bytesLeftInResponse = -1 →
      s.stream.chunk = some ⟨length, length - rest.length⟩ → rest ≠ [] → rest.length ≤ length →
      (∀ c ∈ chunks, c.data ≠ []) → last.data = [] → s.chunks = chunks ++ [last] →
      s.stream.unread = rest ++ (crlf ++ encodeChunks chunks last after) →
      s.returned ++ rest ++ chunks.flatMap data = s.body → Position s
  | finished {offset : ℕ} :
      s.stream.enableChunkedDecoding = true → s.stream.chunk = some ⟨0, offset⟩ →
      s.returned = s.body → Position s

structure Invariant (s : Reading) : Prop where
  delivered : ∀ result ∈ s.results, ∃ data, result = .ok data
  complete : ∀ earlier later, s.results = earlier ++ .ok [] :: later →
    earlier.flatMap bytesOf = s.body
  position : Position s

variable {s s' : Reading} {size : ℕ}

theorem Position.exact (h : Position s) : s.returned <+: s.body := by
  cases h with
  | declared _ _ _ hbody | header _ _ _ _ _ _ _ _ hbody => exact ⟨_, hbody⟩
  | chunk _ _ _ _ _ _ _ _ _ hbody => exact ⟨_, (append_assoc _ _ _).symm.trans hbody⟩
  | finished _ _ hbody => exact ⟨[], (append_nil _).trans hbody⟩

theorem Invariant.correct (h : Invariant s) : s.Correct :=
  ⟨h.delivered, h.position.exact, h.complete⟩

theorem Invariant.of_started (h : Started s) : Invariant s := by
  have hresults := h.results
  have hreturned : s.returned = [] := by rw [returned, hresults, flatMap_nil]
  refine ⟨by simp [hresults], fun earlier later heq ↦ ?_, ?_⟩
  · rw [hresults] at heq
    simp at heq
  · rcases h.body with ⟨henable, hleft, following, hunread⟩ |
      ⟨henable, hleft, chunks, last, following, hchunks, hlast, heq, hbody, hunread⟩
    · exact .declared henable hleft hunread (by rw [hreturned, nil_append])
    · exact .header henable hleft h.chunk (.inl rfl) hchunks hlast heq hunread
        (by rw [hreturned, nil_append, hbody])

theorem returned_append {data : List UInt8} {stream : InputNetworkStreamWrapper}
    {chunks : List MessageChunk} :
    returned ⟨stream, s.body, chunks, s.results ++ [.ok data]⟩ = s.returned ++ data := by
  simp [returned, bytesOf]

/-- A call that reads in a chunk leaves the rest of it, or goes on to the next header. -/
theorem Position.readChunk {w : InputNetworkStreamWrapper} {length : ℕ}
    {rest after : List UInt8} {chunks : List MessageChunk} {last : MessageChunk} (hsize : 0 < size)
    (henable : w.enableChunkedDecoding = true) (hleft : w.bytesLeftInResponse = -1)
    (hrest : rest ≠ []) (hlength : rest.length ≤ length) (hchunks : ∀ c ∈ chunks, c.data ≠ [])
    (hlast : last.data = []) (hunread : w.unread = rest ++ (crlf ++ encodeChunks chunks last after))
    (hbody : s.returned ++ rest ++ chunks.flatMap data = s.body) :
    ∃ data w', w.readChunk ⟨length, length - rest.length⟩ size = (data, w') ∧ data ≠ [] ∧
      Position ⟨w', s.body, chunks ++ [last], s.results ++ [.ok data]⟩ := by
  obtain ⟨data, rest', w', hread, hne, heq, hunread', hchunk, henable', hleft'⟩ :=
    readChunk_eq hleft hsize hrest hlength hunread
  have hreturned := @returned_append s data w' (chunks ++ [last])
  refine ⟨data, w', hread, hne, ?_⟩
  by_cases hend : rest' = []
  · rw [hend, append_nil] at heq
    rw [if_pos hend] at hchunk
    rw [hend, nil_append] at hunread'
    refine .header (henable'.trans henable) hleft' hchunk (.inr rfl) hchunks hlast rfl hunread' ?_
    rw [hreturned, ← heq, hbody]
  · rw [if_neg hend] at hchunk
    refine .chunk (henable'.trans henable) hleft' hchunk hend ?_ hchunks hlast rfl hunread' ?_
    · rw [heq, length_append] at hlength
      omega
    · rw [hreturned, append_assoc s.returned, ← heq, hbody]

theorem getChunk_header {w : InputNetworkStreamWrapper} {lead rest : List UInt8} {c : MessageChunk}
    (hlead : lead = [] ∨ lead = crlf) (hunread : w.unread = lead ++ (c.header ++ rest)) :
    (c.Taken → ∃ w', w.getChunk = (.ok ⟨c.data.length, 0⟩, w') ∧ w'.unread = rest ∧
      InputNetworkStreamWrapper.SameMode w w') ∧
      (¬ c.Taken → ∃ e, w.getChunk.1 = .error e) := by
  have hinitial : parse .initial w.unread = parse ⟨0, true, .size, []⟩ (c.header ++ rest) := by
    rcases hlead with rfl | rfl
    · rw [hunread, nil_append, parse_initial]
    · rw [hunread, parse_initial_crlf]
  obtain ⟨w', hget, hrest, hmode⟩ :=
    @getChunkLoop_eq (w.unread.length + 1) .initial w (Nat.lt_succ_self _)
  rw [hinitial] at hget hrest
  constructor
  · intro htaken
    rw [parse_header htaken] at hget hrest
    exact ⟨w', hget, hrest, hmode⟩
  · intro htaken
    obtain ⟨e, he⟩ := @throws_header c rest htaken
    exact ⟨e, (congrArg Prod.fst hget).trans he⟩

/-- The first header that is still to be read is the next of the message. -/
theorem encodeChunks_head {chunks : List MessageChunk} {last c : MessageChunk} {after : List UInt8}
    (hc : c ∈ (chunks ++ [last]).head?) :
    ∃ rest, encodeChunks chunks last after = c.header ++ rest := by
  cases chunks with
  | nil =>
    obtain rfl : last = c := Option.some.inj hc
    exact ⟨after, rfl⟩
  | cons d chunks =>
    obtain rfl : d = c := Option.some.inj hc
    exact ⟨d.data ++ (crlf ++ encodeChunks chunks last after), by simp [encodeChunks]⟩

theorem Position.declared_read {rest following : List UInt8} (hsize : 0 < size)
    (henable : s.stream.enableChunkedDecoding = false)
    (hleft : s.stream.bytesLeftInResponse = rest.length)
    (hunread : s.stream.unread = rest ++ following) (hbody : s.returned ++ rest = s.body)
    (hwithin : s.stream.WithinBody size) :
    ∃ data w', s.stream.read size = (.ok data, w') ∧ (data = [] → s.returned = s.body) ∧
      Position ⟨w', s.body, s.chunks, s.results ++ [.ok data]⟩ := by
  obtain ⟨data, w', hread, hdata, hempty, hiff, hcount, henable', -⟩ :=
    readInternal_declared hleft hsize (by rw [hunread, length_append]; omega)
  have hle := hiff.mpr hwithin
  have heq := hdata.trans hunread
  have hprefix := congrArg (List.take data.length) heq
  have hsuffix := congrArg (List.drop data.length) heq
  rw [take_left, take_append_of_le_length hle] at hprefix
  rw [drop_left, drop_append_of_le_length hle] at hsuffix
  refine ⟨data, w', ?_, fun hnil ↦ ?_, .declared (henable'.trans henable) ?_ hsuffix ?_⟩
  · simp only [InputNetworkStreamWrapper.read, henable, Bool.false_eq_true, if_false, hread]
  · rw [← hbody, length_eq_zero_iff.mp (hempty hnil), append_nil]
  · rw [hcount hle, length_drop]
    omega
  · rw [returned_append, append_assoc, ← hbody]
    congr 1
    conv_rhs => rw [← take_append_drop data.length rest, ← hprefix]

theorem Position.header_read {lead after : List UInt8} {chunks : List MessageChunk}
    {last : MessageChunk} (hsize : 0 < size) (henable : s.stream.enableChunkedDecoding = true)
    (hleft : s.stream.bytesLeftInResponse = -1) (hchunk : s.stream.chunk = none)
    (hlead : lead = [] ∨ lead = crlf) (hchunks : ∀ c ∈ chunks, c.data ≠ [])
    (hlast : last.data = []) (heq : s.chunks = chunks ++ [last])
    (hunread : s.stream.unread = lead ++ encodeChunks chunks last after)
    (hbody : s.returned ++ chunks.flatMap data = s.body) (htaken : ∀ c ∈ s.chunks.head?, c.Taken) :
    ∃ data w', s.stream.read size = (.ok data, w') ∧ (data = [] → s.returned = s.body) ∧
      Position ⟨w', s.body, s.chunks.tail, s.results ++ [.ok data]⟩ := by
  have hread : ∀ {chunk w₁}, s.stream.getChunk = (.ok chunk, w₁) →
      s.stream.read size = (.ok (w₁.readChunk chunk size).1, (w₁.readChunk chunk size).2) := by
    intro chunk w₁ hget
    simp only [InputNetworkStreamWrapper.read, henable, hchunk, hget, if_true]
  cases chunks with
  | nil =>
    have hnext : s.stream.unread = lead ++ (last.header ++ after) := by
      rw [hunread, encodeChunks, flatMap_nil, nil_append]
    obtain ⟨w₁, hget, -, hmode⟩ := (getChunk_header hlead hnext).1 (htaken last (by rw [heq]; rfl))
    rw [hlast] at hget
    rw [flatMap_nil, append_nil] at hbody
    refine ⟨[], { w₁ with chunk := some ⟨0, 0⟩ }, hread hget, fun _ ↦ hbody, ?_⟩
    refine .finished (hmode.enableChunkedDecoding.trans henable) rfl ?_
    rw [returned_append, append_nil, hbody]
  | cons c chunks =>
    have hnext : s.stream.unread =
        lead ++ (c.header ++ (c.data ++ (crlf ++ encodeChunks chunks last after))) := by
      rw [hunread, encodeChunks, encodeChunks]
      simp
    obtain ⟨w₁, hget, hunread₁, hmode⟩ :=
      (getChunk_header hlead hnext).1 (htaken c (by rw [heq]; rfl))
    rw [flatMap_cons, ← append_assoc] at hbody
    obtain ⟨data, w', hchunk', hne, hposition⟩ := @Position.readChunk s size w₁ c.data.length c.data
      after chunks last hsize (hmode.enableChunkedDecoding.trans henable)
      (hmode.bytesLeftInResponse.trans hleft) (hchunks c mem_cons_self) (Nat.le_refl _)
      (fun d hd ↦ hchunks d (mem_cons_of_mem c hd)) hlast hunread₁ hbody
    rw [Nat.sub_self] at hchunk'
    refine ⟨data, w', ?_, fun hnil ↦ absurd hnil hne, ?_⟩
    · rw [hread hget, hchunk']
    · rw [heq]
      exact hposition

/-- One call. -/
theorem Position.read (h : Position s) (hsize : 0 < size) (hexpected : s.Expected size) :
    ∃ data w', s.stream.read size = (.ok data, w') ∧ (data = [] → s.returned = s.body) ∧
      Position ⟨w', s.body,
        if s.stream.enableChunkedDecoding = true ∧ s.stream.chunk = none then s.chunks.tail
        else s.chunks, s.results ++ [.ok data]⟩ := by
  cases h with
  | declared henable hleft hunread hbody =>
    rw [Expected, henable, if_neg Bool.false_ne_true] at hexpected
    rw [henable, if_neg (by simp)]
    exact declared_read hsize henable hleft hunread hbody hexpected
  | header henable hleft hchunk hlead hchunks hlast heq hunread hbody =>
    rw [Expected, if_pos henable] at hexpected
    rw [if_pos ⟨henable, hchunk⟩]
    exact header_read hsize henable hleft hchunk hlead hchunks hlast heq hunread hbody
      (hexpected hchunk)
  | chunk henable hleft hchunk hrest hlength hchunks hlast heq hunread hbody =>
    obtain ⟨data, w', hread, hne, hposition⟩ :=
      readChunk hsize henable hleft hrest hlength hchunks hlast hunread hbody
    rw [if_neg (by simp [hchunk]), heq]
    refine ⟨data, w', ?_, fun hnil ↦ absurd hnil hne, hposition⟩
    simp only [InputNetworkStreamWrapper.read, henable, hchunk, hread, if_true]
  | finished henable hchunk hbody =>
    rw [if_neg (by simp [hchunk])]
    refine ⟨[], { s.stream with chunk := s.stream.chunk }, ?_, fun _ ↦ hbody, ?_⟩
    · simp only [InputNetworkStreamWrapper.read, henable, hchunk, if_true,
        InputNetworkStreamWrapper.readChunk]
    · refine .finished henable hchunk ?_
      rw [returned_append, append_nil, hbody]

theorem step_eq (hsize : 0 < size) {data : List UInt8} {w' : InputNetworkStreamWrapper}
    (hread : s.stream.read size = (.ok data, w')) :
    s.step size = some ⟨w', s.body,
      if s.stream.enableChunkedDecoding = true ∧ s.stream.chunk = none then s.chunks.tail
      else s.chunks, s.results ++ [.ok data]⟩ := by
  rw [step, if_pos hsize, hread]

theorem Invariant.step (h : Invariant s) (hexpected : s.Expected size)
    (hstep : s.step size = some s') : Invariant s' := by
  have hsize : 0 < size := by
    by_contra hzero
    rw [Reading.step, if_neg hzero] at hstep
    cases hstep
  obtain ⟨data, w', hread, hempty, hposition⟩ := h.position.read hsize hexpected
  rw [step_eq hsize hread] at hstep
  obtain rfl := Option.some.inj hstep
  refine ⟨fun result hresult ↦ ?_, fun earlier later heq ↦ ?_, hposition⟩
  · rcases mem_append.mp hresult with hresult | hresult
    · exact h.delivered result hresult
    · exact ⟨data, mem_singleton.mp hresult⟩
  · -- the call that returned nothing is one of those before, or the latest
    rcases eq_nil_or_concat later with rfl | ⟨later, result, rfl⟩
    · obtain ⟨hearlier, hlatest⟩ := append_inj' heq rfl
      rw [← hearlier]
      exact hempty (by simpa using hlatest)
    · rw [concat_eq_append, ← cons_append, ← append_assoc] at heq
      exact h.complete earlier later (append_inj' heq rfl).1

theorem invariant_of_reachable (h : Reachable step Expected Started s) : Invariant s :=
  h.invariant (fun _ ↦ Invariant.of_started) fun _ _ _ hs hexpected hstep ↦ hs.step hexpected hstep

/-- The body of a response is delivered exactly in every run of expected calls. -/
theorem body_delivered (h : Reachable step Expected Started s) : s.Correct :=
  (invariant_of_reachable h).correct

/-- A response with a body of one byte, and the first byte of the next response behind it. -/
def oneByte : Reading := ⟨⟨[], [7, 8], false, none, 1⟩, [7], [], []⟩

theorem oneByte_started : Started oneByte := ⟨rfl, rfl, .inl ⟨rfl, rfl, [8], rfl⟩⟩

/-- A body of three bytes in two segments, with a byte of the next response behind it. -/
def threeBytes : Reading := ⟨⟨[[6, 7, 8]], [5], false, none, 3⟩, [5, 6, 7], [], []⟩

def twoBytes : MessageChunk :=
  ⟨[50], [⟨[97], some [98], forall_mem_singleton.mpr (by decide), by simp⟩], [5, 6],
    cons_ne_nil _ _, forall_mem_singleton.mpr rfl, rfl⟩

def lastChunk : MessageChunk := ⟨[48], [], [], cons_ne_nil _ _, forall_mem_singleton.mpr rfl, rfl⟩

def chunked : Reading :=
  ⟨⟨[encodeChunks [twoBytes] lastChunk (crlf ++ [8])], [], true, none, -1⟩, [5, 6],
    [twoBytes, lastChunk], []⟩

/-- Calls that return what is buffered, what is left, and the end of the body. -/
theorem body_delivered_threeBytes :
    (∃ s, [1, 2].foldlM step threeBytes = some s ∧ s.returned = [5, 6, 7] ∧ s.Correct) ∧
      ∃ s, [1, 4, 1].foldlM step chunked = some s ∧ s.returned = [5, 6] ∧ s.Correct := by
  have hdeclared : Reachable step Expected Started threeBytes :=
    .start ⟨rfl, rfl, .inl ⟨rfl, rfl, [8], rfl⟩⟩
  have hchunked : Reachable step Expected Started chunked :=
    .start ⟨rfl, rfl, .inr ⟨rfl, rfl, [twoBytes], lastChunk, crlf ++ [8],
      forall_mem_singleton.mpr (cons_ne_nil _ _), rfl, rfl, rfl, rfl⟩⟩
  constructor
  · refine ⟨_, rfl, by decide +kernel, body_delivered ((hdeclared.step 1 ?_ rfl).step 2 ?_ rfl)⟩
    · rw [Expected, if_neg (by decide)]
      exact .inl (by decide)
    · rw [Expected, if_neg (by decide)]
      exact .inl (by decide)
  · refine ⟨_, rfl, by decide +kernel,
      body_delivered (((hchunked.step 1 ?_ rfl).step 4 ?_ rfl).step 1 ?_ rfl)⟩
    · rw [Expected, if_pos (by decide)]
      rintro - c ⟨⟩
      exact ⟨by decide, .inr ⟨_, _, rfl, rfl, by decide, by decide,
        forall_mem_singleton.mpr (by decide)⟩⟩
    · rw [Expected, if_pos (by decide)]
      intro hnone
      exact absurd hnone (by decide)
    · rw [Expected, if_pos (by decide)]
      rintro - c ⟨⟩
      exact ⟨by decide, .inl rfl⟩

/-- Asked for two bytes, the stream returns a byte of the next response as body. -/
theorem body_not_delivered : ¬ ∀ s, Reachable step (fun _ _ ↦ True) Started s → s.Correct := by
  intro hall
  have hstarted : Reachable step (fun _ _ ↦ True) Started oneByte := .start oneByte_started
  have hrun : ∃ s, oneByte.step 2 = some s ∧ s.returned = [7, 8] ∧ s.body = [7] :=
    ⟨_, rfl, rfl, rfl⟩
  obtain ⟨s, hstep, hreturned, hbody⟩ := hrun
  have hexact := (hall s (hstarted.step 2 trivial hstep)).exact
  rw [hreturned, hbody] at hexact
  exact absurd hexact.length_le (by decide)

/-- Each call that is not expected returns bytes from behind the body, or throws. -/
theorem Invariant.not_correct (h : Invariant s) (hstep : s.step size = some s')
    (hexpected : ¬ s.Expected size) : ¬ s'.Correct := by
  intro hcorrect
  have hsize : 0 < size := by
    by_contra hzero
    rw [Reading.step, if_neg hzero] at hstep
    cases hstep
  rw [Reading.step, if_pos hsize] at hstep
  obtain rfl := Option.some.inj hstep
  refine hexpected ?_
  cases h.position with
  | declared henable hleft hunread hbody =>
    rw [Expected, henable, if_neg Bool.false_ne_true]
    obtain ⟨data, w', hread, hdata, -, hiff, -⟩ :=
      readInternal_declared hleft hsize (by rw [hunread, length_append]; omega)
    have hreturned : s.stream.read size = (.ok data, w') := by
      simp only [InputNetworkStreamWrapper.read, henable, Bool.false_eq_true, if_false, hread]
    have hle := hcorrect.exact.length_le
    simp only [hreturned, returned_append] at hle
    rw [← hbody, length_append, length_append] at hle
    exact hiff.mp (by omega)
  | header henable hleft hchunk hlead hchunks hlast heq hunread hbody =>
    rw [Expected, if_pos henable]
    intro _ c hc
    by_contra htaken
    rw [heq] at hc
    obtain ⟨rest, hnext⟩ := encodeChunks_head hc
    obtain ⟨e, he⟩ := (getChunk_header hlead (hunread.trans (congrArg _ hnext))).2 htaken
    have hthrows : (s.stream.read size).1 = .error e := by
      cases hget : s.stream.getChunk with
      | mk result w' =>
        obtain rfl : result = .error e := by simpa only [hget] using he
        simp only [InputNetworkStreamWrapper.read, henable, hchunk, hget, if_true]
    obtain ⟨data, hdata⟩ := hcorrect.delivered _ (mem_append_right _ mem_cons_self)
    rw [hthrows] at hdata
    cases hdata
  | chunk henable hleft hchunk | finished henable hchunk =>
    rw [Expected, if_pos henable]
    intro hnone
    rw [hchunk] at hnone
    cases hnone

end Reading

end MicroFramework.Http
