import MicroFramework.Streams.Writing

/-!
# Reading a memory stream

The bits still to be read are those left of the byte in use and those of the bytes after it.  A read
takes the first of them, or fails where there are too few.
-/

namespace MicroFramework.Streams

open Bits List Buffer

def Buffer.contents (b : Buffer) : List UInt8 := b.bytes.take b.length

namespace MemoryStream

/-- `unread` is still to be read from the stream: `b` is its current buffer, `rest` are those after
it and `data` is the byte in use. -/
structure Unread (s : MemoryStream) (data : UInt8) (b : Buffer) (rest : List Buffer)
    (unread : List Bool) : Prop where
  buffers : s.buffers.drop s.current = b :: rest
  whole : ∀ b ∈ s.buffers, b.length ≤ b.bytes.length
  pos : 0 ≤ s.pos + 1
  within : s.pos + 1 ≤ b.length
  avail : s.avail ≤ 8
  current : 0 < s.avail → s.currentData = .ok data
  bits : unread = bitsOf s.avail data.toNat ++
    bitsOfBytes (b.contents.drop (s.pos + 1).toNat ++ rest.flatMap contents)

def Leaves (s : MemoryStream) (unread : List Bool) : Prop :=
  ∃ data b rest, s.Unread data b rest unread

/-! ## The steps of a read -/

section Steps

variable {s : MemoryStream} {data : UInt8} {b : Buffer} {rest : List Buffer} {unread : List Bool}

section

variable (h : s.buffers.drop s.current = b :: rest)

include h

theorem getElem?_of_drop : s.buffers[s.current]? = some b := by
  rw [← head?_drop, h, head?_cons]

theorem drop_succ : s.buffers.drop (s.current + 1) = rest := by
  rw [← drop_drop, h, drop_one, tail_cons]

theorem length_buffers : s.buffers.length = s.current + 1 + rest.length := by
  have hlength := congrArg List.length h
  rw [length_drop, length_cons] at hlength
  omega

end

theorem length_contents (hwhole : b.length ≤ b.bytes.length) : b.contents.length = b.length := by
  rw [contents, length_take, Nat.min_eq_left hwhole]

theorem seekData_eq (hbuffers : s.buffers.drop s.current = b :: rest) :
    seekData s =
      if s.pos ≥ b.length then
        if s.current + 1 = s.buffers.length then .error .outOfRange
        else seekData { s with current := s.current + 1, pos := 0 }
      else .ok s := by
  rw [seekData]
  split
  · next hnone =>
    rw [getElem?_of_drop hbuffers] at hnone
    cases hnone
  · next hsome =>
    rw [getElem?_of_drop hbuffers] at hsome
    cases hsome
    rfl

/-- `seekData` stops at the next byte, in the current buffer or in a later one. -/
theorem seekData_spec {bytes : List UInt8} (hwhole : ∀ b ∈ s.buffers, b.length ≤ b.bytes.length)
    (hbuffers : s.buffers.drop s.current = b :: rest) (hpos : 0 ≤ s.pos)
    (hbytes : b.contents.drop s.pos.toNat ++ rest.flatMap contents = bytes) :
    (bytes = [] → seekData s = .error .outOfRange) ∧
      (bytes ≠ [] → ∃ s' b' rest', seekData s = .ok s' ∧ s'.buffers = s.buffers ∧
        s'.buffers.drop s'.current = b' :: rest' ∧ 0 ≤ s'.pos ∧ s'.pos + 1 ≤ b'.length ∧
        b'.contents.drop s'.pos.toNat ++ rest'.flatMap contents = bytes) := by
  have hb : b.length ≤ b.bytes.length := hwhole b (mem_of_getElem? (getElem?_of_drop hbuffers))
  have hlength := length_buffers hbuffers
  rw [seekData_eq hbuffers]
  -- Past the end of the buffer the search goes on in the next one.
  by_cases hend : s.pos ≥ b.length
  · rw [if_pos hend]
    rw [drop_eq_nil_of_le (by rw [length_contents hb]; omega), nil_append] at hbytes
    induction rest generalizing s b with
    | nil =>
      rw [if_pos (by rw [hlength]; rfl)]
      exact ⟨fun _ ↦ rfl, fun hne ↦ absurd hbytes.symm hne⟩
    | cons next rest ih =>
      rw [if_neg (by rw [hlength, length_cons]; omega)]
      have hnext : next.length ≤ next.bytes.length :=
        hwhole next (mem_of_mem_drop (drop_succ hbuffers ▸ mem_cons_self))
      have hdrop : List.drop (s.current + 1) s.buffers = next :: rest := drop_succ hbuffers
      rw [@seekData_eq { s with current := s.current + 1, pos := 0 } next rest hdrop]
      rw [flatMap_cons] at hbytes
      by_cases hempty : (0 : ℤ) ≥ next.length
      · have hcontents : next.contents = [] :=
          eq_nil_of_length_eq_zero (by rw [length_contents hnext]; omega)
        rw [hcontents, nil_append] at hbytes
        rw [if_pos hempty]
        exact @ih { s with current := s.current + 1, pos := 0 } next hwhole hdrop le_rfl hbytes
          hnext (@length_buffers { s with current := s.current + 1, pos := 0 } next rest hdrop)
          hempty
      · rw [if_neg hempty]
        constructor
        · intro hnil
          have hcontents := (append_eq_nil_iff.mp (hbytes.trans hnil)).1
          have := length_contents hnext
          rw [hcontents, length_nil] at this
          omega
        · intro _
          exact ⟨_, next, rest, rfl, rfl, hdrop, le_rfl, by dsimp only; omega, hbytes⟩
  · rw [if_neg hend]
    constructor
    · intro hnil
      have hdrop := (append_eq_nil_iff.mp (hbytes.trans hnil)).1
      have := congrArg List.length hdrop
      rw [length_drop, length_contents hb, length_nil] at this
      omega
    · intro _
      exact ⟨s, b, rest, rfl, rfl, hbuffers, hpos, by omega, hbytes⟩

theorem currentData_eq {bytes : List UInt8} (hwhole : ∀ b ∈ s.buffers, b.length ≤ b.bytes.length)
    (hbuffers : s.buffers.drop s.current = b :: rest) (hpos : 0 ≤ s.pos)
    (hwithin : s.pos + 1 ≤ b.length)
    (hbytes : b.contents.drop s.pos.toNat ++ rest.flatMap contents = data :: bytes) :
    s.currentData = .ok data ∧
      bytes = b.contents.drop (s.pos + 1).toNat ++ rest.flatMap contents := by
  have hb : b.length ≤ b.bytes.length := hwhole b (mem_of_getElem? (getElem?_of_drop hbuffers))
  have hlt : s.pos.toNat < b.contents.length := by
    rw [length_contents hb]
    omega
  rw [drop_eq_getElem_cons hlt, cons_append, List.cons.injEq] at hbytes
  obtain ⟨hdata, hrest⟩ := hbytes
  have hget : b.bytes[s.pos.toNat]? = some data := by
    rw [← hdata, ← getElem?_eq_getElem hlt, contents,
      getElem?_take_of_lt (by omega)]
  constructor
  · unfold currentData
    simp only [getElem?_of_drop hbuffers, hget]
  · rw [← hrest, show (s.pos + 1).toNat = s.pos.toNat + 1 by omega]

/-- There is a byte to read from, unless nothing is left. -/
theorem dataToRead_spec (h : s.Leaves unread) :
    (unread = [] → s.dataToRead = .error .outOfRange) ∧
      (unread ≠ [] → ∃ s', s.dataToRead = .ok s' ∧ s'.1.Leaves unread) := by
  obtain ⟨data, b, rest, h⟩ := h
  unfold dataToRead
  split_ifs with havail
  · constructor
    · intro hnil
      have hlength := congrArg List.length (h.bits.symm.trans hnil)
      rw [length_append, length_bitsOf, length_nil] at hlength
      omega
    · exact fun _ ↦ ⟨_, rfl, data, b, rest, h⟩
  · have hbits := h.bits
    rw [Nat.eq_zero_of_not_pos havail, bitsOf_zero, nil_append] at hbits
    generalize hbytes : b.contents.drop (s.pos + 1).toNat ++ rest.flatMap contents = bytes at hbits
    have hseek := @seekData_spec { s with pos := s.pos + 1 } b rest bytes h.whole h.buffers h.pos
      hbytes
    cases bytes with
    | nil =>
      rw [hseek.1 rfl]
      exact ⟨fun _ ↦ rfl, fun hne ↦ absurd hbits hne⟩
    | cons data' bytes =>
      obtain ⟨s', b', rest', hseek, hsame, hbuffers', hpos', hwithin', hbytes'⟩ :=
        hseek.2 (cons_ne_nil _ _)
      have hwhole' : ∀ b ∈ s'.buffers, b.length ≤ b.bytes.length := by
        rw [hsame]
        exact h.whole
      obtain ⟨hcurrent, htail⟩ := currentData_eq hwhole' hbuffers' hpos' hwithin' hbytes'
      rw [bitsOfBytes_cons] at hbits
      constructor
      · intro hnil
        have hlength := congrArg List.length (hbits.symm.trans hnil)
        rw [length_append, length_bitsOf, length_nil] at hlength
        omega
      · intro _
        rw [hseek]
        refine ⟨_, rfl, data', b', rest', ?_⟩
        constructor
        case buffers => exact hbuffers'
        case whole => exact hwhole'
        case pos => exact hpos'.trans (Int.le_add_of_nonneg_right Int.one_nonneg)
        case within => exact hwithin'
        case avail => exact le_rfl
        case current => exact fun _ ↦ hcurrent
        case bits => rw [hbits, htail]

/-- Taking `insert` bits of the byte in use. -/
theorem Unread.take {insert : ℕ} (h : s.Unread data b rest unread) (hinsert : insert ≤ s.avail) :
    { s with avail := s.avail - insert }.Unread data b rest (unread.drop insert) ∧
      unread.take insert = bitsOf insert (data.toNat / 2 ^ (s.avail - insert)) := by
  have hsplit : bitsOf s.avail data.toNat =
      bitsOf insert (data.toNat / 2 ^ (s.avail - insert)) ++
        bitsOf (s.avail - insert) data.toNat := by
    rw [← bitsOf_add, Nat.add_sub_cancel' hinsert]
  have hbits := h.bits
  rw [hsplit, append_assoc] at hbits
  constructor
  · constructor
    case buffers => exact h.buffers
    case whole => exact h.whole
    case pos => exact h.pos
    case within => exact h.within
    case avail => exact (Nat.sub_le _ _).trans h.avail
    case current => exact fun hpos ↦ h.current (hpos.trans_le (Nat.sub_le _ _))
    case bits => rw [hbits, drop_left' (length_bitsOf _ _)]
  · rw [hbits, take_left' (length_bitsOf _ _)]

theorem Unread.avail_le (h : s.Unread data b rest unread) : s.avail ≤ unread.length := by
  rw [h.bits, length_append, length_bitsOf]
  exact Nat.le_add_right _ _

end Steps

/-! ## Whole reads -/

section Reads

variable {s : MemoryStream} {unread : List Bool} {bits : ℕ}

/-- A chunk goes below the bits read so far. -/
theorem toNat_or_chunk {val chunk : UInt32} {k insert : ℕ} (hk : k < 32) (hbits : insert + k ≤ 32)
    (hval : 2 ^ (insert + k) ∣ val.toNat) (hchunk : chunk.toNat < 2 ^ insert) :
    (val ||| chunk <<< UInt32.ofNat k).toNat = val.toNat + chunk.toNat * 2 ^ k := by
  have hlt : chunk.toNat * 2 ^ k < 2 ^ (insert + k) := by
    rw [Nat.pow_add]
    exact Nat.mul_lt_mul_of_pos_right hchunk (Nat.two_pow_pos k)
  have hword : 2 ^ (insert + k) ≤ 2 ^ 32 := Nat.pow_le_pow_right (by decide) hbits
  obtain ⟨a, ha⟩ := hval
  rw [UInt32.toNat_or, UInt32.toNat_shiftLeft, toNat_ofNat_of_lt hk, Nat.shiftLeft_eq,
    Nat.mod_eq_of_lt (hlt.trans_le hword), ha, Nat.two_pow_add_eq_or_of_lt hlt]

/-- The loop of a read appends the next bits to the value, or fails where there are too few. -/
theorem readLoop_spec {val : UInt32} (hbits : bits ≤ 32) (hval : 2 ^ bits ∣ val.toNat)
    (h : s.Leaves unread) :
    (unread.length < bits → readLoop val bits s = .error .outOfRange) ∧
      (bits ≤ unread.length → ∃ val' s', readLoop val bits s = .ok (val', s') ∧
        val'.toNat = val.toNat + ofBits (unread.take bits) ∧ s'.Leaves (unread.drop bits)) := by
  induction bits using Nat.strong_induction_on generalizing val s unread with
  | _ bits ih =>
    rw [readLoop]
    by_cases hzero : bits = 0
    · subst hzero
      rw [if_pos rfl]
      exact ⟨fun hlt ↦ absurd hlt (Nat.not_lt_zero _),
        fun _ ↦ ⟨val, s, rfl, by simp [ofBits], by simpa using h⟩⟩
    rw [if_neg hzero]
    have hopen := dataToRead_spec h
    by_cases hnil : unread = []
    · rw [hopen.1 hnil, hnil]
      exact ⟨fun _ ↦ rfl, fun hle ↦ absurd (Nat.le_zero.mp hle) hzero⟩
    obtain ⟨⟨s₁, hs₁⟩, hdata, data, b, rest, h₁⟩ := hopen.2 hnil
    have h₁ : s₁.Unread data b rest unread := h₁
    have havail : s₁.avail ≤ 8 := h₁.avail
    have hcurrent : s₁.currentData = .ok data := h₁.current hs₁
    simp only [hdata, hcurrent]
    generalize hinsert : min bits s₁.avail = insert
    have hchunk : ((data.toUInt32 >>> UInt32.ofNat (s₁.avail - insert)) &&& mask insert).toNat =
        ofBits (unread.take insert) := by
      rw [(h₁.take (by omega)).2, ofBits_bitsOf, toNat_chunk (by omega) (by omega),
        UInt8.toNat_toUInt32]
    generalize (data.toUInt32 >>> UInt32.ofNat (s₁.avail - insert)) &&& mask insert = chunk
      at hchunk
    have htake : (unread.take insert).length = insert := by
      have := h₁.avail_le
      rw [length_take]
      omega
    have hsum : insert + (bits - insert) = bits := by omega
    have hlt := ofBits_lt (unread.take insert)
    rw [htake] at hlt
    have hor : (val ||| chunk <<< UInt32.ofNat (bits - insert)).toNat =
        val.toNat + ofBits (unread.take insert) * 2 ^ (bits - insert) := by
      rw [← hchunk]
      exact @toNat_or_chunk val chunk (bits - insert) insert (by omega) (by omega)
        (by rwa [hsum]) (by rwa [hchunk])
    have hdvd : 2 ^ (bits - insert) ∣ (val ||| chunk <<< UInt32.ofNat (bits - insert)).toNat := by
      rw [hor]
      exact Nat.dvd_add ((Nat.pow_dvd_pow 2 (Nat.sub_le _ _)).trans hval) (dvd_mul_left _ _)
    obtain ⟨hshort, hlong⟩ := @ih (bits - insert) (by omega)
      { s₁ with avail := s₁.avail - insert } (unread.drop insert) _ (by omega) hdvd
      ⟨data, b, rest, (h₁.take (by omega)).1⟩
    have havail_le := h₁.avail_le
    constructor
    · intro hlt
      apply hshort
      rw [length_drop]
      omega
    · intro hle
      obtain ⟨val', s', hread, hval', hs'⟩ := hlong (by rw [length_drop]; omega)
      refine ⟨val', s', hread, ?_, ?_⟩
      · have hrest : ((unread.drop insert).take (bits - insert)).length = bits - insert := by
          rw [length_take, length_drop]
          omega
        calc
          val'.toNat = val.toNat + ofBits (unread.take insert) * 2 ^ (bits - insert) +
              ofBits ((unread.drop insert).take (bits - insert)) := by rw [hval', hor]
          _ = val.toNat + ofBits (unread.take insert ++
              (unread.drop insert).take (bits - insert)) := by
            rw [ofBits_append, hrest, Nat.add_assoc]
          _ = val.toNat + ofBits (unread.take bits) := by rw [← take_add, hsum]
      · rwa [drop_drop, hsum] at hs'

theorem readBits32_spec (hbits : bits ≤ 32) (h : s.Leaves unread) :
    (unread.length < bits → s.readBits32 bits = .error .outOfRange) ∧
      (bits ≤ unread.length → ∃ val s', s.readBits32 bits = .ok (val, s') ∧
        val.toNat = ofBits (unread.take bits) ∧ s'.Leaves (unread.drop bits)) := by
  have hloop := @readLoop_spec s unread bits 0 hbits (dvd_zero _) h
  simp only [UInt32.toNat_zero, Nat.zero_add] at hloop
  exact hloop

theorem toNat_joined (high low : UInt32) :
    (high.toUInt64 <<< 32 ||| low.toUInt64).toNat = high.toNat * 2 ^ 32 + low.toNat := by
  have hhigh := high.toNat_lt
  have hshift : (high.toUInt64 <<< 32).toNat = 2 ^ 32 * high.toNat := by
    rw [UInt64.toNat_shiftLeft, UInt32.toNat_toUInt64]
    change high.toNat <<< 32 % 2 ^ 64 = _
    rw [Nat.shiftLeft_eq]
    omega
  rw [UInt64.toNat_or, UInt32.toNat_toUInt64, hshift, ← Nat.two_pow_add_eq_or_of_lt low.toNat_lt,
    Nat.mul_comm]

/-- A read of up to 64 bits takes the first bits left, or fails where there are too few. -/
theorem readBits_spec (hbits : bits ≤ 64) (h : s.Leaves unread) :
    (unread.length < bits → s.readBits bits = .error .outOfRange) ∧
      (bits ≤ unread.length → ∃ val s', s.readBits bits = .ok (val, s') ∧
        val.toNat = ofBits (unread.take bits) ∧ s'.Leaves (unread.drop bits)) := by
  unfold readBits
  split_ifs with hwide
  · obtain ⟨hshort, hlong⟩ := @readBits32_spec s unread (bits - 32) (by omega) h
    by_cases hle : bits - 32 ≤ unread.length
    · obtain ⟨high, s₁, hread₁, hhigh, hs₁⟩ := hlong hle
      obtain ⟨hshort, hlong⟩ := @readBits32_spec s₁ _ 32 le_rfl hs₁
      rw [hread₁]
      constructor
      · intro hlt
        change (s₁.readBits32 32 >>= _) = _
        rw [hshort (by rw [length_drop]; omega)]
        rfl
      · intro hfits
        obtain ⟨low, s₂, hread₂, hlow, hs₂⟩ := hlong (by rw [length_drop]; omega)
        refine ⟨high.toUInt64 <<< 32 ||| low.toUInt64, s₂, ?_, ?_, ?_⟩
        · change (s₁.readBits32 32 >>= _) = _
          rw [hread₂]
          rfl
        · have hrest : ((unread.drop (bits - 32)).take 32).length = 32 := by
            rw [length_take, length_drop]
            omega
          calc
            (high.toUInt64 <<< 32 ||| low.toUInt64).toNat = high.toNat * 2 ^ 32 + low.toNat :=
              toNat_joined high low
            _ = ofBits (unread.take (bits - 32) ++ (unread.drop (bits - 32)).take 32) := by
              rw [ofBits_append, hrest, hhigh, hlow]
            _ = ofBits (unread.take bits) := by rw [← take_add, Nat.sub_add_cancel hwide.le]
        · rwa [drop_drop, Nat.sub_add_cancel hwide.le] at hs₂
    · rw [hshort (not_le.mp hle)]
      exact ⟨fun _ ↦ rfl, fun hfits ↦ absurd ((Nat.sub_le _ _).trans hfits) hle⟩
  · obtain ⟨hshort, hlong⟩ := @readBits32_spec s unread bits (by omega) h
    constructor
    · intro hlt
      rw [hshort hlt]
      rfl
    · intro hle
      obtain ⟨low, s', hread, hlow, hs'⟩ := hlong hle
      rw [hread]
      exact ⟨low.toUInt64, s', rfl, by rw [UInt32.toNat_toUInt64, hlow], hs'⟩

/-- `BitsAvailable` counts the bits left, as long as an `int` holds their number. -/
theorem Leaves.bitsAvailable (h : s.Leaves unread) (hsmall : unread.length < 2 ^ 31) :
    s.bitsAvailable = unread.length := by
  obtain ⟨data, b, rest, h⟩ := h
  have hcurrent : ∀ b' ∈ b :: rest, b'.contents.length = b'.length := by
    rw [← h.buffers]
    intro b' hb'
    exact length_contents (h.whole b' (mem_of_mem_drop hb'))
  have hlater : (rest.flatMap Buffer.contents).length = (rest.map Buffer.length).sum := by
    rw [length_flatMap]
    congr 1
    exact map_congr_left fun b' hb' ↦ hcurrent b' (mem_cons_of_mem _ hb')
  have hlength := congrArg List.length h.bits
  rw [length_append, length_bitsOf, length_bitsOfBytes, length_append, length_drop,
    hcurrent b mem_cons_self, hlater] at hlength
  have hpos := h.pos
  have hwithin := h.within
  have hval : (s.avail : ℤ) - 8 * s.pos - 8 + 8 * ((b.length + (rest.map Buffer.length).sum : ℕ) : ℤ) =
      unread.length := by
    omega
  rw [MemoryStream.bitsAvailable, h.buffers, map_cons, sum_cons, hval]
  exact Int.bmod_eq_of_le (by omega) (by omega)

/-- A stream made for a string of bytes has all their bits to read. -/
theorem createInstance_leaves {cache : EventCache} {buf : List UInt8}
    (hs : createInstance cache (some buf) = .ok s) : s.Leaves (bitsOfBytes buf) := by
  unfold createInstance newBuffer at hs
  dsimp only [length_nil] at hs
  cases hpayload : cache 0 with
  | none =>
    rw [hpayload] at hs
    cases hs
  | some payload =>
    rw [hpayload] at hs
    cases hs
    refine ⟨0, ⟨some buf, buf.length, payload⟩, [], ?_⟩
    constructor
    case buffers => rfl
    case whole => exact fun b hb ↦ by rw [mem_singleton.mp hb]; exact le_rfl
    case pos => exact le_rfl
    case within => exact Int.natCast_nonneg _
    case avail => exact Nat.zero_le _
    case current => exact fun h ↦ absurd h (lt_irrefl 0)
    case bits => simp [Buffer.contents, Buffer.bytes]

end Reads

end MemoryStream

end MicroFramework.Streams
