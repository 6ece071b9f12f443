import MicroFramework.Library.Bits
import MicroFramework.Streams.MemoryStream
import Mathlib.Tactic.IntervalCases

/-!
# Writing a memory stream

A stream that is written to holds whole buffers and a last one.  Its bytes are the bits written so
far and zeros for the bits of the last byte that are still to come.
-/

namespace MicroFramework.Streams

open Bits List Nat Buffer

def Buffer.written (b : Buffer) : List UInt8 := b.payload.toList.take b.length

namespace MemoryStream

/-- `sofar` has been written to the stream, whose buffers are `full` and then `last`. -/
structure Written (s : MemoryStream) (full : List Buffer) (last : Buffer) (sofar : List Bool) :
    Prop where
  buffers : s.buffers = full ++ [last]
  own : ∀ b ∈ s.buffers, b.data = none
  current : s.current = full.length
  whole : ∀ b ∈ full, b.length = payloadSize
  within : last.length ≤ payloadSize
  pos : s.pos + 1 = last.length
  avail : s.avail ≤ 8
  started : 0 < s.avail → 0 < last.length
  contents : sofar ++ replicate s.avail false = bitsOfBytes (s.buffers.flatMap written)

/-- `sofar` has been written to the stream, and the last byte holds a bit of it. -/
def Holds (s : MemoryStream) (sofar : List Bool) : Prop :=
  s.avail < 8 ∧ ∃ full last, s.Written full last sofar

end MemoryStream

/-- The event cache has a first buffer, and each further one that so many bits need. -/
def EventCache.Serves (cache : EventCache) (bits : ℕ) : Prop :=
  ∀ k, k = 0 ∨ k * (8 * payloadSize) < bits → (cache k).isSome

/-! ## Words -/

theorem toNat_mask {insert : ℕ} (h : insert ≤ 8) :
    (MemoryStream.mask insert).toNat = 2 ^ insert - 1 := by
  interval_cases insert <;> rfl

theorem toNat_ofNat_of_lt {n : ℕ} (h : n < 32) : (UInt32.ofNat n).toNat % 32 = n := by
  rw [UInt32.toNat_ofNat']
  omega

theorem toNat_chunk {val : UInt32} {k insert : ℕ} (hk : k < 32) (hinsert : insert ≤ 8) :
    ((val >>> UInt32.ofNat k) &&& MemoryStream.mask insert).toNat =
      val.toNat / 2 ^ k % 2 ^ insert := by
  rw [UInt32.toNat_and, UInt32.toNat_shiftRight, toNat_ofNat_of_lt hk, toNat_mask hinsert,
    and_two_pow_sub_one_eq_mod, shiftRight_eq_div_pow]

/-- A chunk moved up to the bits of the byte that are still to come. -/
theorem toNat_shifted {chunk : UInt32} {insert avail : ℕ} (hinsert : insert ≤ avail)
    (havail : avail ≤ 8) (hchunk : chunk.toNat < 2 ^ insert) :
    (chunk <<< UInt32.ofNat (avail - insert)).toUInt8.toNat = chunk.toNat <<< (avail - insert) := by
  have hlt : chunk.toNat <<< (avail - insert) < 2 ^ 8 := by
    calc
      chunk.toNat <<< (avail - insert) = chunk.toNat * 2 ^ (avail - insert) := shiftLeft_eq _ _
      _ < 2 ^ insert * 2 ^ (avail - insert) :=
        Nat.mul_lt_mul_of_pos_right hchunk (Nat.two_pow_pos _)
      _ = 2 ^ avail := by rw [← Nat.pow_add, Nat.add_sub_cancel' hinsert]
      _ ≤ 2 ^ 8 := Nat.pow_le_pow_right (by decide) havail
  rw [UInt32.toNat_toUInt8, UInt32.toNat_shiftLeft, toNat_ofNat_of_lt (by omega),
    mod_eq_of_lt (hlt.trans (by decide)), mod_eq_of_lt hlt]

/-! ## The steps of a write -/

namespace MemoryStream

variable {cache : EventCache} {s : MemoryStream} {full : List Buffer} {last : Buffer}
  {sofar : List Bool}

section

variable (h : s.Written full last sofar)

include h

theorem Written.getElem? : s.buffers[s.current]? = some last := by
  rw [h.buffers, h.current]
  simp

theorem Written.set (b : Buffer) : s.buffers.set s.current b = full ++ [b] := by
  rw [h.buffers, h.current]
  simp

/-- The number of bits in the buffers. -/
theorem Written.length :
    sofar.length + s.avail = 8 * (full.length * payloadSize + last.length) := by
  have hwritten (b : Buffer) (hb : b.length ≤ payloadSize) : b.written.length = b.length := by
    simp [written, hb]
  have hfull : (full.flatMap written).length = full.length * payloadSize := by
    rw [length_flatMap, map_congr_left (g := fun _ ↦ payloadSize)]
    · simp
    · intro b hb
      rw [hwritten b (h.whole b hb).le, h.whole b hb]
  have hlength := congrArg List.length h.contents
  rw [length_append, length_replicate, length_bitsOfBytes, h.buffers,
    flatMap_append, length_append, hfull] at hlength
  simpa [hwritten last h.within] using hlength

theorem newBuffer_written (hlast : last.length = payloadSize)
    (havail : s.avail = 0) (hcache : (cache s.buffers.length).isSome) :
    ∃ s' full' last', s.newBuffer cache = .ok s' ∧ s'.1.Written full' last' sofar ∧
      s'.1.avail = 0 ∧ last'.length = 0 := by
  obtain ⟨payload, hpayload⟩ := Option.isSome_iff_exists.mp hcache
  refine ⟨_, s.buffers, ⟨none, 0, payload⟩, by rw [newBuffer, hpayload], ?_, rfl, rfl⟩
  constructor
  case buffers => rfl
  case own =>
    intro b hb
    rcases mem_append.mp hb with hb | hb
    · exact h.own b hb
    · rw [mem_singleton.mp hb]
  case current => rfl
  case whole =>
    rw [h.buffers]
    intro b hb
    rcases mem_append.mp hb with hb | hb
    · exact h.whole b hb
    · rw [mem_singleton.mp hb, hlast]
  case within => exact zero_le _
  case pos => rfl
  case avail => exact zero_le _
  case started => exact fun h ↦ absurd h (lt_irrefl 0)
  case contents =>
    have hcontents := h.contents
    rw [havail] at hcontents
    dsimp only
    rw [hcontents, flatMap_append]
    simp [written]

theorem startByte_written (havail : s.avail = 0)
    (hroom : last.length < payloadSize) (hpos : (s.pos + 1).toNat < payloadSize) :
    ∃ s' last', s.startByte (s.pos + 1).toNat hpos = .ok s' ∧
      s'.1.Written full last' sofar ∧ s'.1.avail = 8 := by
  have hi : (s.pos + 1).toNat = last.length := by rw [h.pos, Int.toNat_natCast]
  have hwritten : written
      { last with
        length := last.length + 1, payload := last.payload.set (s.pos + 1).toNat 0 hpos } =
      last.written ++ [0] := by
    simp only [written, hi, Vector.toList_set]
    rw [List.take_add_one, getElem?_set_self (by simpa using hroom), take_set_of_le le_rfl]
    rfl
  refine ⟨_, { last with
    length := last.length + 1, payload := last.payload.set (s.pos + 1).toNat 0 hpos },
    by rw [startByte, h.getElem?], ?_, rfl⟩
  constructor
  case buffers => exact h.set _
  case own =>
    intro b hb
    rcases mem_or_eq_of_mem_set hb with hb | rfl
    · exact h.own b hb
    · exact h.own last (h.buffers ▸ mem_append_right _ (mem_singleton_self _))
  case current => exact h.current
  case whole => exact h.whole
  case within => exact hroom
  case pos =>
    dsimp only
    rw [hi]
    push_cast
    rfl
  case avail => exact le_rfl
  case started => exact fun _ ↦ succ_pos _
  case contents =>
    have hcontents := h.contents
    rw [havail, h.buffers, replicate_zero, append_nil] at hcontents
    dsimp only
    rw [h.set, hcontents]
    simp only [flatMap_append, flatMap_singleton, bitsOfBytes_append, hwritten,
      append_assoc]
    rfl

/-- There is room for a bit, in a new buffer where the last one is full, or the event cache does not
have that buffer. -/
theorem roomToWrite_written (cache : EventCache) :
    (∃ s' full' last', s.roomToWrite cache = .ok s' ∧ s'.1.Written full' last' sofar) ∨
      s.roomToWrite cache = .error .outOfMemory ∧
        ∀ total, sofar.length < total → ¬ cache.Serves total := by
  unfold roomToWrite
  split_ifs with havail hpos
  · exact .inl ⟨_, full, last, rfl, h⟩
  · have hroom : last.length < payloadSize := by
      rwa [h.pos, Int.toNat_natCast] at hpos
    obtain ⟨s', last', hstart, hs', -⟩ :=
      startByte_written h (Nat.eq_zero_of_not_pos havail) hroom hpos
    exact .inl ⟨s', full, last', hstart, hs'⟩
  · have hzero : s.avail = 0 := Nat.eq_zero_of_not_pos havail
    have hlast : last.length = payloadSize := by
      rw [h.pos, Int.toNat_natCast] at hpos
      exact le_antisymm h.within (not_lt.mp hpos)
    have hbuffers : s.buffers.length = full.length + 1 := by rw [h.buffers]; simp
    by_cases hserved : (cache s.buffers.length).isSome
    swap
    · refine .inr ⟨by rw [newBuffer, Option.not_isSome_iff_eq_none.mp hserved]; rfl, ?_⟩
      intro total htotal hcache
      apply hserved
      apply hcache
      right
      calc
        s.buffers.length * (8 * payloadSize) = 8 * (full.length * payloadSize + last.length) := by
          rw [hbuffers, hlast]
          ring
        _ = sofar.length := by rw [← h.length, hzero, Nat.add_zero]
        _ < total := htotal
    obtain ⟨s₁, full', last', hnew, hs₁, havail₁, hlast'⟩ := newBuffer_written h hlast hzero hserved
    have hpos₁ : (s₁.1.pos + 1).toNat < payloadSize := by
      rw [s₁.2]
      decide
    obtain ⟨s₂, last₂, hstart, hs₂, -⟩ :=
      startByte_written hs₁ havail₁ (by rw [hlast']; decide) hpos₁
    rw [hnew]
    exact .inl ⟨s₂, full', last₂, hstart, hs₂⟩

/-- The bits of a chunk follow those written before. -/
theorem putChunk_written {chunk : UInt32} {insert : ℕ}
    (havail : 0 < s.avail) (hinsert : insert ≤ s.avail) (hchunk : chunk.toNat < 2 ^ insert) :
    ∃ s' last', s.putChunk chunk insert = .ok s' ∧
      s'.Written full last' (sofar ++ bitsOf insert chunk.toNat) ∧
      s'.avail = s.avail - insert := by
  obtain ⟨n, hn⟩ : ∃ n, last.length = n + 1 := exists_eq_succ_of_ne_zero (h.started havail).ne'
  have hpos : s.pos.toNat = n := by
    have := h.pos
    omega
  have hsize : s.pos.toNat < payloadSize := by
    have := h.within
    omega
  have hsplit (b : Buffer) :
      b.payload.toList.take last.length = b.payload.toList.take n ++ [b.payload[s.pos.toNat]] := by
    rw [hn, List.take_add_one, getElem?_eq_getElem (by simpa [hpos] using hsize)]
    simp [hpos]
  have hcontents := h.contents
  rw [h.buffers, flatMap_append, flatMap_singleton, written, hsplit,
    ← append_assoc, bitsOfBytes_append, bitsOfBytes_cons, bitsOfBytes_nil, append_nil,
    show 8 = 8 - s.avail + s.avail from (Nat.sub_add_cancel h.avail).symm, bitsOf_add,
    ← append_assoc] at hcontents
  obtain ⟨hsofar, hclear⟩ := append_inj' hcontents (by simp)
  refine ⟨_, { last with
    payload := last.payload.set s.pos.toNat (last.payload[s.pos.toNat] |||
      (chunk <<< UInt32.ofNat (s.avail - insert)).toUInt8) },
    by rw [putChunk, h.getElem?]; exact dif_pos hsize, ?_, rfl⟩
  constructor
  case buffers => exact h.set _
  case own =>
    intro b hb
    rcases mem_or_eq_of_mem_set hb with hb | rfl
    · exact h.own b hb
    · exact h.own last (h.buffers ▸ mem_append_right _ (mem_singleton_self _))
  case current => exact h.current
  case whole => exact h.whole
  case within => exact h.within
  case pos => exact h.pos
  case avail => exact (sub_le _ _).trans h.avail
  case started => exact fun _ ↦ h.started havail
  case contents =>
    dsimp only
    rw [h.set, flatMap_append, flatMap_singleton, written, hsplit,
      Vector.getElem_set_self, Vector.toList_set, take_set_of_le hpos.ge,
      ← append_assoc, bitsOfBytes_append, bitsOfBytes_cons, bitsOfBytes_nil, append_nil,
      UInt8.toNat_or, toNat_shifted hinsert h.avail hchunk,
      bitsOf_or_shift hinsert h.avail hclear.symm hchunk, hsofar]
    simp only [append_assoc]

end

/-! ## Whole writes -/

/-- The stream holds the bits, or the event cache does not have the buffers for them. -/
def Wrote (cache : EventCache) (sofar : List Bool) (r : Except Failure MemoryStream) : Prop :=
  (∃ s, r = .ok s ∧ s.Holds sofar) ∨ r = .error .outOfMemory ∧ ¬ cache.Serves sofar.length

theorem Wrote.ok {r : Except Failure MemoryStream} (h : Wrote cache sofar r)
    (hcache : cache.Serves sofar.length) : ∃ s, r = .ok s ∧ s.Holds sofar :=
  h.resolve_right fun hfailed ↦ hfailed.2 hcache

theorem Wrote.holds (h : Wrote cache sofar (.ok s)) : s.Holds sofar := by
  rcases h with ⟨s', hs', hholds⟩ | ⟨hfailed, -⟩
  · cases hs'
    exact hholds
  · cases hfailed

/-- A write that goes on behind another one. -/
theorem Wrote.bind {r : Except Failure MemoryStream} {more : List Bool}
    {f : MemoryStream → Except Failure MemoryStream} (h : Wrote cache sofar r)
    (hf : ∀ s, s.Holds sofar → Wrote cache (sofar ++ more) (f s)) :
    Wrote cache (sofar ++ more) (r >>= f) := by
  rcases h with ⟨s, rfl, hs⟩ | ⟨rfl, hcache⟩
  · exact hf s hs
  · refine .inr ⟨rfl, fun hserves ↦ hcache fun k hk ↦ hserves k (hk.imp_right fun hlt ↦ ?_)⟩
    exact hlt.trans_le (length_append ▸ Nat.le_add_right _ _)

theorem writeBits32_written (cache : EventCache) (val : UInt32) {bits : ℕ} (hbits : bits ≤ 32)
    (h : s.Holds sofar) :
    Wrote cache (sofar ++ bitsOf bits val.toNat) (s.writeBits32 cache val bits) := by
  induction bits using Nat.strong_induction_on generalizing s sofar with
  | _ bits ih =>
    rw [writeBits32]
    split_ifs with hzero
    · subst hzero
      exact .inl ⟨s, rfl, by simpa using h⟩
    · obtain ⟨havail, full, last, hs⟩ := h
      rcases roomToWrite_written hs cache with
        ⟨⟨s₁, hs₁⟩, full₁, last₁, hroom, hwritten₁⟩ | ⟨hroom, hcache⟩
      swap
      · simp only [hroom]
        exact .inr ⟨rfl, hcache _ (by rw [length_append, length_bitsOf]; omega)⟩
      have hwritten₁ : s₁.Written full₁ last₁ sofar := hwritten₁
      have hle : s₁.avail ≤ 8 := hwritten₁.avail
      generalize hinsert : min bits s₁.avail = insert
      have hchunk : ((val >>> UInt32.ofNat (bits - insert)) &&& mask insert).toNat =
          val.toNat / 2 ^ (bits - insert) % 2 ^ insert :=
        toNat_chunk (by omega) (by omega)
      obtain ⟨s₂, last₂, hput, hwritten₂, havail₂⟩ :=
        putChunk_written hwritten₁ hs₁ (by omega)
          (hchunk.trans_lt (mod_lt _ (Nat.two_pow_pos insert)))
      have hholds : s₂.Holds (sofar ++ bitsOf insert (val.toNat / 2 ^ (bits - insert))) := by
        rw [hchunk, bitsOf_mod le_rfl] at hwritten₂
        exact ⟨by omega, full₁, last₂, hwritten₂⟩
      have hrest := ih (bits - insert) (by omega) (by omega) hholds
      rw [append_assoc, ← bitsOf_add, Nat.add_sub_cancel' (by omega)] at hrest
      simp only [hroom, hinsert, hput]
      exact hrest

theorem writeBits_written (cache : EventCache) (res : UInt64) {bits : ℕ} (hbits : bits ≤ 64)
    (h : s.Holds sofar) :
    Wrote cache (sofar ++ bitsOf bits res.toNat) (s.writeBits cache res bits) := by
  have hlow (k : ℕ) (hk : k ≤ 32) : bitsOf k res.toUInt32.toNat = bitsOf k res.toNat := by
    rw [UInt64.toNat_toUInt32, bitsOf_mod hk]
  unfold writeBits
  split_ifs with hwide
  · have hhigh : bitsOf (bits - 32) (res >>> 32).toUInt32.toNat =
        bitsOf (bits - 32) (res.toNat / 2 ^ 32) := by
      rw [UInt64.toNat_toUInt32, UInt64.toNat_shiftRight, bitsOf_mod (by omega),
        shiftRight_eq_div_pow]
      rfl
    have hboth := (writeBits32_written cache (res >>> 32).toUInt32
      (show bits - 32 ≤ 32 by omega) h).bind fun s hs ↦ writeBits32_written cache res.toUInt32 le_rfl hs
    rw [hhigh, hlow 32 le_rfl, append_assoc, ← bitsOf_add, Nat.sub_add_cancel hwide.le] at hboth
    exact hboth
  · have hall := writeBits32_written cache res.toUInt32 (not_lt.mp hwide) h
    rw [hlow bits (by omega)] at hall
    exact hall

theorem createInstance_holds (cache : EventCache) : Wrote cache [] (createInstance cache none) := by
  cases hpayload : cache 0 with
  | none =>
    refine .inr ⟨?_, fun hcache ↦ ?_⟩
    · unfold createInstance newBuffer
      simp only [length_nil, hpayload]
      rfl
    · have hserved := hcache 0 (.inl rfl)
      rw [hpayload] at hserved
      cases hserved
  | some payload =>
    refine .inl ⟨⟨[⟨none, 0, payload⟩], 0, -1, 0⟩, ?_, succ_pos 7, [], ⟨none, 0, payload⟩, ?_⟩
    · unfold createInstance newBuffer
      simp only [length_nil, hpayload]
      rfl
    · constructor
      case own => exact fun b hb ↦ by rw [mem_singleton.mp hb]
      case whole => exact fun b hb ↦ absurd hb not_mem_nil
      case started => exact fun h ↦ absurd h (lt_irrefl 0)
      case contents => simp [written]
      all_goals first | rfl | exact zero_le _

/-! ## Counting what was written -/

def bytes (s : MemoryStream) : List UInt8 := s.buffers.flatMap written

theorem Holds.bits (h : s.Holds sofar) :
    sofar ++ replicate s.avail false = bitsOfBytes s.bytes := by
  obtain ⟨-, full, last, h⟩ := h
  exact h.contents

theorem Holds.length_bytes (h : s.Holds sofar) : s.bytes.length = (sofar.length + 7) / 8 := by
  have hbits := congrArg List.length h.bits
  rw [length_append, length_replicate, length_bitsOfBytes] at hbits
  have := h.1
  omega

/-- `BitsWritten` counts the bits, as long as an `int` holds their number. -/
theorem Holds.bitsWritten (h : s.Holds sofar) (hsmall : sofar.length < 2 ^ 31) :
    s.bitsWritten = sofar.length := by
  obtain ⟨-, full, last, h⟩ := h
  have hfull : ((s.buffers.take s.current).map Buffer.length).sum = full.length * payloadSize := by
    rw [h.buffers, h.current, take_left, map_congr_left h.whole]
    simp
  have hlength := h.length
  have hpos := h.pos
  have hval : s.pos * 8 - s.avail + 8 + 8 * ((full.length * payloadSize : ℕ) : ℤ) =
      sofar.length := by
    generalize full.length * payloadSize = before at hlength ⊢
    omega
  rw [MemoryStream.bitsWritten, hfull, hval]
  exact Int.bmod_eq_of_le (by omega) (by omega)

/-- The lengths add up to the number of bytes, and no copy runs over a payload. -/
theorem Holds.copies (h : s.Holds sofar) :
    (s.buffers.map Buffer.length).sum = s.bytes.length ∧
      ∃ copies, s.buffers.mapM copyPayload = some copies ∧ copies.flatten = s.bytes := by
  obtain ⟨-, full, last, h⟩ := h
  have hsize : ∀ b ∈ s.buffers, b.length ≤ payloadSize := by
    rw [h.buffers]
    intro b hb
    rcases mem_append.mp hb with hb | hb
    · exact (h.whole b hb).le
    · rw [mem_singleton.mp hb]
      exact h.within
  constructor
  · rw [bytes, length_flatMap]
    congr 1
    apply map_congr_left
    intro b hb
    simp [written, hsize b hb]
  · refine ⟨s.buffers.map written, ?_, rfl⟩
    generalize s.buffers = buffers at hsize
    induction buffers with
    | nil => rfl
    | cons b buffers ih =>
      have hb : b.copyPayload = some b.written := if_pos (hsize b mem_cons_self)
      rw [mapM_cons, hb, ih fun b hb ↦ hsize b (mem_cons_of_mem _ hb)]
      rfl

end MemoryStream

end MicroFramework.Streams
