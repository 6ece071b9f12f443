import MicroFramework.ManagedStreams.MemoryStream

/-!
# Memory streams refine bytes with a cursor

Each call, and then every run of calls that are clean.  A write makes room first: what it needs of the
array then is the same whether a new array was taken or not.
-/

namespace MicroFramework.ManagedStreams

open Arrays Library MemoryStream List Int ByteCursor

/-! ## Lists -/

section Lists

variable {buffer bytes chunk : List UInt8} {cursor n : ℕ}

theorem length_padTo (n : ℕ) (bytes : List UInt8) : (padTo n bytes).length = max bytes.length n := by
  rw [padTo, length_append, length_replicate]
  omega

theorem padTo_of_le (h : n ≤ bytes.length) : padTo n bytes = bytes := by
  rw [padTo, Nat.sub_eq_zero_of_le h, replicate_zero, append_nil]

theorem getElem?_padTo (n : ℕ) (bytes : List UInt8) (j : ℕ) :
    (padTo n bytes)[j]? =
      if j < bytes.length then bytes[j]? else if j < n then some 0 else none := by
  rw [padTo]
  by_cases hj : j < bytes.length
  · rw [if_pos hj, getElem?_append_left hj]
  · rw [if_neg hj, getElem?_append_right (not_lt.mp hj), getElem?_replicate]
    congr 1
    rw [eq_iff_iff]
    omega

/-- What is written into an array with zeros between the bytes and the cursor. -/
theorem take_replaceRange (hbytes : buffer.take bytes.length = bytes)
    (hroom : cursor + chunk.length ≤ buffer.length)
    (hgap : ∀ j, bytes.length ≤ j → j < cursor → buffer[j]? = some 0) :
    (replaceRange buffer cursor chunk).take (max bytes.length (cursor + chunk.length)) =
      replaceRange (padTo (cursor + chunk.length) bytes) cursor chunk := by
  have hpadded : cursor + chunk.length ≤ (padTo (cursor + chunk.length) bytes).length := by
    rw [length_padTo]
    exact le_max_right _ _
  apply ext_getElem?
  intro j
  rw [getElem?_take, getElem?_replaceRange hroom, getElem?_replaceRange hpadded,
    getElem?_padTo]
  by_cases hin : cursor ≤ j ∧ j < cursor + chunk.length
  · rw [if_pos (by omega), if_pos hin, if_pos hin]
  · rw [if_neg hin, if_neg hin]
    by_cases hold : j < bytes.length
    · have hsame := congrArg (·[j]?) hbytes
      simp only [getElem?_take_of_lt hold] at hsame
      rw [if_pos (by omega), if_pos hold, hsame]
    · rw [if_neg hold]
      by_cases hbetween : j < cursor + chunk.length
      · rw [if_pos (by omega), if_pos hbetween, hgap j (by omega) (by omega)]
      · rw [if_neg (by omega), if_neg hbetween]

theorem set_eq_replaceRange (h : cursor < buffer.length) (value : UInt8) :
    buffer.set cursor value = replaceRange buffer cursor [value] := by
  rw [set_eq_take_append_cons_drop, if_pos h, replaceRange]
  simp

theorem readRange_take (l : List UInt8) {i k m : ℕ} (h : i + k ≤ m) :
    readRange (l.take m) i k = readRange l i k := by
  rw [readRange, readRange, drop_take, take_take, Nat.min_eq_left (by omega)]

end Lists

namespace MemoryStream

variable {s : MemoryStream} {a : ByteCursor}

/-! ## Making room -/

/-- The array has room up to `newEnd`, and zeros between the bytes and the cursor. -/
structure Roomy (s : MemoryStream) (a : ByteCursor) (newEnd : ℕ) : Prop where
  bytes_eq : s.buffer.take a.bytes.length = a.bytes
  length_le : a.bytes.length ≤ s.buffer.length
  room : newEnd ≤ s.buffer.length
  gap : ∀ j, a.bytes.length ≤ j → j < a.cursor → s.buffer[j]? = some 0
  capacity_eq : s.capacity = s.buffer.length
  buffer_lt : s.buffer.length < 2 ^ 31
  position_eq : s.position = a.cursor
  limit_eq : a.limit = if s.expandable then none else some s.buffer.length

theorem int32_lt (z : ℤ) : int32 z < 2 ^ 31 := (int32_isInt32 z).2

variable {value offset : ℤ}

/-- Within the capacity nothing is allocated. -/
theorem ensureCapacity_of_le (h : value ≤ s.capacity) :
    s.ensureCapacity value = .ok (s, false) := by
  rw [ensureCapacity, if_neg (not_lt.mpr h)]

/-- The array of the user does not grow. -/
theorem ensureCapacity_fixed (hfixed : s.expandable = false) (h : s.capacity < value) :
    s.ensureCapacity value = .error .notSupported := by
  rw [ensureCapacity, if_pos h]
  simp only
  rw [if_pos ⟨hfixed, by split <;> split <;> omega⟩]

/-- A new array holds the bytes, and then zeros. -/
theorem ensureCapacity_grows (hs : s.Holds a) (hexpandable : s.expandable = true) (value : ℤ)
    (h : s.capacity < value) (hlt : value < 2 ^ 31) :
    ∃ k : ℕ, s.ensureCapacity value =
        .ok ({ s with
          buffer := a.bytes ++ replicate k 0
          capacity := (a.bytes ++ replicate k 0).length }, true) ∧
      value ≤ (a.bytes ++ replicate k 0).length ∧
      (a.bytes ++ replicate k 0).length < 2 ^ 31 := by
  have hdouble := int32_lt (s.capacity * 2)
  have hcapacity := hs.capacity_eq
  have hlength := hs.length_le
  have hbytes : s.buffer.take s.length.toNat = a.bytes := by
    rw [hs.length_eq, toNat_natCast, hs.bytes_eq]
  rw [ensureCapacity, if_pos h]
  simp only [hexpandable, Bool.true_eq_false, false_and, if_false, hbytes]
  rw [hs.length_eq, toNat_natCast]
  set newCapacity := if (if value < 256 then 256 else value) < int32 (s.capacity * 2) then
    int32 (s.capacity * 2) else if value < 256 then 256 else value with hnew
  have hge : value ≤ newCapacity := by
    rw [hnew]
    split <;> split <;> omega
  have hlt' : newCapacity < 2 ^ 31 := by
    rw [hnew]
    split <;> split <;> omega
  have hnewLength : (a.bytes ++ replicate (newCapacity.toNat - a.bytes.length) 0).length =
      newCapacity.toNat := by
    rw [length_append, length_replicate]
    omega
  refine ⟨newCapacity.toNat - a.bytes.length, ?_, by omega, by omega⟩
  rw [hnewLength, toNat_of_nonneg (by omega)]

variable {k newEnd : ℕ}

/-- The bytes and zeros are an array with room. -/
theorem roomy_grown (hs : s.Holds a) (hexpandable : s.expandable = true)
    (hroom : newEnd ≤ (a.bytes ++ replicate k (0 : UInt8)).length) (hcursor : a.cursor ≤ newEnd)
    (hlt : (a.bytes ++ replicate k (0 : UInt8)).length < 2 ^ 31) (length : ℤ) :
    Roomy { s with
      buffer := a.bytes ++ replicate k 0
      length := length
      capacity := (a.bytes ++ replicate k (0 : UInt8)).length } a newEnd where
  bytes_eq := take_left
  length_le := by simp
  room := hroom
  gap := by
    intro j hge hj
    rw [length_append, length_replicate] at hroom
    rw [getElem?_append_right hge, getElem?_replicate, if_pos (by omega)]
  capacity_eq := rfl
  buffer_lt := hlt
  position_eq := hs.position_eq
  limit_eq := by rw [hs.limit_eq, hexpandable, if_pos rfl, if_pos rfl]

/-- An array that is kept has room, if what is between the bytes and the cursor is zero. -/
theorem roomy_kept (hs : s.Holds a) (hroom : newEnd ≤ s.buffer.length)
    (hgap : ∀ j : ℕ, s.length ≤ j → (j : ℤ) < s.position → s.buffer[j]? = some 0) (length : ℤ) :
    Roomy { s with length := length } a newEnd where
  bytes_eq := hs.bytes_eq
  length_le := hs.length_le
  room := hroom
  gap := by
    intro j hge hj
    apply hgap j
    · rw [hs.length_eq]
      exact_mod_cast hge
    · rw [hs.position_eq]
      exact_mod_cast hj
  capacity_eq := hs.capacity_eq
  buffer_lt := hs.buffer_lt
  position_eq := hs.position_eq
  limit_eq := hs.limit_eq

/-- What has room holds, when the chunk is written and the length and the position are set, the bytes
with the chunk put in. -/
theorem Roomy.holds (chunk : List UInt8) (h : Roomy s a (a.cursor + chunk.length)) :
    Holds { s with
      buffer := replaceRange s.buffer a.cursor chunk
      position := (a.cursor + chunk.length : ℕ)
      length := (max a.bytes.length (a.cursor + chunk.length) : ℕ) }
      { a with
        bytes := replaceRange (padTo (a.cursor + chunk.length) a.bytes) a.cursor chunk
        cursor := a.cursor + chunk.length } := by
  have hpadded : a.cursor + chunk.length ≤ (padTo (a.cursor + chunk.length) a.bytes).length := by
    rw [length_padTo]
    exact le_max_right _ _
  have hlength : (replaceRange (padTo (a.cursor + chunk.length) a.bytes) a.cursor chunk).length =
      max a.bytes.length (a.cursor + chunk.length) := by
    rw [length_replaceRange hpadded, length_padTo]
  have hbuffer := length_replaceRange h.room
  have hle := h.length_le
  have hroom := h.room
  have hlt := h.buffer_lt
  constructor
  · exact congrArg Nat.cast hlength.symm
  · simp only [hlength]
    exact take_replaceRange h.bytes_eq h.room h.gap
  · simp only [hlength, hbuffer]
    omega
  · simp only [hbuffer]
    exact h.capacity_eq
  · simp only [hbuffer]
    exact hlt
  · rfl
  · show a.cursor + chunk.length < 2 ^ 31
    omega
  · simp only [hbuffer]
    exact h.limit_eq

theorem fits_of_expandable (hs : s.Holds a) (h : s.expandable = true) (n : ℕ) : a.Fits n := by
  rw [ByteCursor.Fits, hs.limit_eq, h]
  trivial

theorem fits_iff_of_fixed (hs : s.Holds a) (h : s.expandable = false) (n : ℕ) :
    a.Fits n ↔ n ≤ s.buffer.length := by
  rw [ByteCursor.Fits, hs.limit_eq, h]
  rfl

/-- Making room for what `Write` writes. -/
theorem lengthen_spec (hs : s.Holds a) (newEnd : ℕ) (hcursor : a.cursor ≤ newEnd)
    (hlt : newEnd < 2 ^ 31)
    (hclean : s.capacity < newEnd ∨
      ∀ j : ℕ, s.length ≤ j → (j : ℤ) < s.position → s.buffer[j]? = some 0) :
    (a.Fits newEnd → ∃ s', s.lengthen newEnd = .ok s' ∧ Roomy s' a newEnd ∧
        s'.length = (max a.bytes.length newEnd : ℕ)) ∧
      (¬ a.Fits newEnd → s.lengthen newEnd = .error .notSupported) := by
  have hlength := hs.length_eq
  have hcapacity := hs.capacity_eq
  have hle := hs.length_le
  unfold lengthen
  by_cases hroom : newEnd ≤ s.buffer.length
  · have hgap : ∀ j : ℕ, s.length ≤ j → (j : ℤ) < s.position → s.buffer[j]? = some 0 :=
      hclean.resolve_left (by omega)
    have hfits : a.Fits newEnd := by
      cases hexpandable : s.expandable with
      | true => exact fits_of_expandable hs hexpandable newEnd
      | false => exact (fits_iff_of_fixed hs hexpandable newEnd).mpr hroom
    refine ⟨fun _ ↦ ?_, fun h ↦ absurd hfits h⟩
    by_cases hlonger : s.length < newEnd
    · refine ⟨{ s with length := newEnd }, ?_, roomy_kept hs hroom hgap _, ?_⟩
      · rw [if_pos hlonger, if_neg (by omega)]
      · show (newEnd : ℤ) = _
        omega
    · refine ⟨s, if_neg hlonger, roomy_kept hs hroom hgap s.length, ?_⟩
      omega
  · rw [if_pos (by omega), if_pos (by omega)]
    cases hexpandable : s.expandable with
    | true =>
      refine ⟨fun _ ↦ ?_, fun h ↦ absurd (fits_of_expandable hs hexpandable newEnd) h⟩
      obtain ⟨k, hgrow, hge, hk⟩ := ensureCapacity_grows hs hexpandable newEnd (by omega) (by omega)
      refine ⟨_, by rw [hgrow, Except.map], roomy_grown hs hexpandable (by omega) hcursor hk _, ?_⟩
      show (newEnd : ℤ) = _
      omega
    | false =>
      constructor
      · intro hfits
        exact absurd ((fits_iff_of_fixed hs hexpandable newEnd).mp hfits) hroom
      · intro _
        rw [ensureCapacity_fixed hexpandable (by omega), Except.map]

/-- Making room for what `WriteByte` writes. -/
theorem reach_spec (hs : s.Holds a) (hclean : s.CleanWrite 1) :
    (a.Fits (a.cursor + 1) → ∃ s', s.reach = .ok s' ∧ Roomy s' a (a.cursor + 1) ∧
        s'.length = s.length) ∧
      (¬ a.Fits (a.cursor + 1) → s.reach = .error .notSupported) := by
  obtain ⟨hlt, hclean⟩ := hclean
  have hcapacity := hs.capacity_eq
  have hposition := hs.position_eq
  have hnext : int32 (s.position + 1) = s.position + 1 := int32_eq ⟨by omega, by omega⟩
  unfold reach
  rw [hnext]
  by_cases hroom : a.cursor + 1 ≤ s.buffer.length
  · have hfits : a.Fits (a.cursor + 1) := by
      cases hexpandable : s.expandable with
      | true => exact fits_of_expandable hs hexpandable _
      | false => exact (fits_iff_of_fixed hs hexpandable _).mpr hroom
    refine ⟨fun _ ↦ ⟨s, if_neg (by omega), ?_, rfl⟩, fun h ↦ absurd hfits h⟩
    exact roomy_kept hs hroom (hclean.resolve_left (by omega)) s.length
  · rw [if_pos (by omega)]
    cases hexpandable : s.expandable with
    | true =>
      refine ⟨fun _ ↦ ?_, fun h ↦ absurd (fits_of_expandable hs hexpandable _) h⟩
      obtain ⟨k, hgrow, hge, hk⟩ :=
        ensureCapacity_grows hs hexpandable (s.position + 1) (by omega) (by omega)
      exact ⟨_, by rw [hgrow, Except.map], roomy_grown hs hexpandable (by omega) (by omega) hk _, rfl⟩
    | false =>
      constructor
      · intro hfits
        exact absurd ((fits_iff_of_fixed hs hexpandable _).mp hfits) hroom
      · intro _
        rw [ensureCapacity_fixed hexpandable (by omega), Except.map]

/-! ## The calls -/

/-- The call answers what the specification answers, and leads to a stream that holds what the
specification leads to. -/
def Matches (x : MemoryStream × Except Thrown Answer) (y : ByteCursor × Except Thrown Answer) :
    Prop :=
  x.2 = y.2 ∧ x.1.Holds y.1

theorem checkBuffer_ok {buffer : Option (List UInt8)} {count : ℤ} {b : List UInt8}
    (h : checkBuffer buffer offset count = .ok b) :
    0 ≤ offset ∧ 0 ≤ count ∧ offset + count ≤ b.length := by
  unfold checkBuffer at h
  split at h
  · cases h
  · split at h
    · cases h
    · split at h
      · cases h
      · cases h
        omega

theorem checkBuffer_lt {buffer : Option (List UInt8)} {count : ℤ} {b : List UInt8}
    (hlength : ∀ b, buffer = some b → b.length < 2 ^ 31)
    (h : checkBuffer buffer offset count = .ok b) : b.length < 2 ^ 31 := by
  unfold checkBuffer at h
  split at h
  · cases h
  · split at h
    · cases h
    · split at h
      · cases h
      · cases h
        exact hlength _ rfl

theorem arrayCopy_ok {source destination : List UInt8} {i j : ℕ} (hsource : i + k ≤ source.length)
    (hdestination : j + k ≤ destination.length) (hsize : source.length < 2 ^ 31)
    (hsize' : destination.length < 2 ^ 31) :
    arrayCopy source i destination j k = .ok (replaceRange destination j (readRange source i k)) := by
  have hinside : InRange i k source.length := ⟨by omega, by omega, by omega⟩
  have hinside' : InRange j k destination.length := ⟨by omega, by omega, by omega⟩
  rw [arrayCopy, copy_inside hinside hinside' hsize hsize']
  simp

section

variable (hs : s.Holds a)

include hs

theorem write_matches (buffer : Option (List UInt8)) (offset count : ℤ)
    (hbuffer : ∀ b, buffer = some b → b.length < 2 ^ 31)
    (hclean : 0 ≤ count → s.CleanWrite count) :
    Matches (s.write buffer offset count) (a.write buffer offset count) := by
  unfold write ByteCursor.write
  cases hcheck : checkBuffer buffer offset count with
  | error e => exact ⟨rfl, hs⟩
  | ok b =>
    obtain ⟨hoffset, hcount, hrange⟩ := checkBuffer_ok hcheck
    obtain ⟨i, rfl⟩ := eq_ofNat_of_zero_le hoffset
    obtain ⟨k, rfl⟩ := eq_ofNat_of_zero_le hcount
    obtain ⟨hlt, hclean⟩ := hclean hcount
    have hposition := hs.position_eq
    have hchunk : (readRange b i k).length = k := length_readRange (by omega)
    have hend : int32 (s.position + k) = (a.cursor + k : ℕ) := by
      rw [hposition, int32_eq ⟨by omega, by omega⟩]
      omega
    have hcleanEnd : s.capacity < (a.cursor + k : ℕ) ∨
        ∀ j : ℕ, s.length ≤ j → (j : ℤ) < s.position → s.buffer[j]? = some 0 :=
      hclean.imp_left fun h ↦ by omega
    obtain ⟨hfit, hunfit⟩ := lengthen_spec hs (a.cursor + k) (by omega) (by omega) hcleanEnd
    simp only [hend, toNat_natCast, put, hchunk]
    by_cases hfits : a.Fits (a.cursor + k)
    · obtain ⟨s', hlengthen, hroomy, hlength⟩ := hfit hfits
      have hcopy : arrayCopy b i s'.buffer a.cursor k =
          .ok (replaceRange s'.buffer a.cursor (readRange b i k)) :=
        arrayCopy_ok (by omega) hroomy.room (checkBuffer_lt hbuffer hcheck) hroomy.buffer_lt
      rw [if_pos hfits]
      simp only [hlengthen, hroomy.position_eq, hcopy]
      have hholds := Roomy.holds (readRange b i k) (hchunk.symm ▸ hroomy)
      rw [hchunk, ← hlength] at hholds
      exact ⟨rfl, hholds⟩
    · rw [if_neg hfits, hunfit hfits]
      exact ⟨rfl, hs⟩

theorem writeByte_matches (value : UInt8) (hclean : s.CleanWrite 1) :
    Matches (s.writeByte value) (a.put [value]) := by
  obtain ⟨hfit, hunfit⟩ := reach_spec hs hclean
  have hlt := hclean.1
  have hposition := hs.position_eq
  have hend : int32 ((a.cursor : ℤ) + 1) = (a.cursor + 1 : ℕ) := by
    rw [int32_eq ⟨by omega, by omega⟩]
    omega
  unfold writeByte put
  simp only [length_singleton]
  by_cases hfits : a.Fits (a.cursor + 1)
  · obtain ⟨s', hreach, hroomy, hlength⟩ := hfit hfits
    have hroom := hroomy.room
    have hnew : (if s'.length < (a.cursor + 1 : ℕ) then ((a.cursor + 1 : ℕ) : ℤ) else s'.length) =
        (max a.bytes.length (a.cursor + 1) : ℕ) := by
      rw [hlength, hs.length_eq]
      split <;> omega
    rw [if_pos hfits, hreach]
    simp only [hroomy.position_eq, hend, toNat_natCast, hnew]
    rw [if_pos (by omega), set_eq_replaceRange (by omega)]
    exact ⟨rfl, Roomy.holds [value] hroomy⟩
  · rw [if_neg hfits, hunfit hfits]
    exact ⟨rfl, hs⟩

theorem read_matches (buffer : Option (List UInt8)) (offset count : ℤ)
    (hbuffer : ∀ b, buffer = some b → b.length < 2 ^ 31) :
    Matches (s.read buffer offset count) (a.read buffer offset count) := by
  unfold read ByteCursor.read
  cases hcheck : checkBuffer buffer offset count with
  | error e => exact ⟨rfl, hs⟩
  | ok b =>
    obtain ⟨hoffset, hcount, hrange⟩ := checkBuffer_ok hcheck
    obtain ⟨i, rfl⟩ := eq_ofNat_of_zero_le hoffset
    obtain ⟨k, rfl⟩ := eq_ofNat_of_zero_le hcount
    have hlength := hs.length_eq
    have hposition := hs.position_eq
    have hlt := hs.buffer_lt
    have hle := hs.length_le
    have hcursor := hs.position_lt
    have hleft : int32 (s.length - s.position) = a.bytes.length - a.cursor := by
      rw [hlength, hposition, int32_eq ⟨by omega, by omega⟩]
    simp only [hleft, toNat_natCast]
    by_cases hnone : min k (a.bytes.length - a.cursor) = 0
    · rw [hnone, if_pos (by split <;> omega)]
      have hnothing : replaceRange b i (readRange a.bytes a.cursor 0) = b := replaceRange_nil b i
      rw [hnothing]
      exact ⟨rfl, hs⟩
    · have hn : (if (k : ℤ) < a.bytes.length - a.cursor then (k : ℤ) else
          a.bytes.length - a.cursor) = (min k (a.bytes.length - a.cursor) : ℕ) := by
        split <;> omega
      simp only [hn]
      have hk : min k (a.bytes.length - a.cursor) ≤ k := Nat.min_le_left _ _
      have hinside : min k (a.bytes.length - a.cursor) ≤ a.bytes.length - a.cursor :=
        Nat.min_le_right _ _
      generalize min k (a.bytes.length - a.cursor) = n at hnone hk hinside ⊢
      clear hn hleft
      have hsome : ¬ (n : ℤ) ≤ 0 := by
        intro h
        exact hnone (Nat.le_zero.mp (ofNat_le.mp h))
      have hsum : a.cursor + n ≤ a.bytes.length := by omega
      have hnext : a.cursor + n < 2 ^ 31 := (hsum.trans hle).trans_lt hlt
      have hcopy : arrayCopy s.buffer a.cursor b i n =
          .ok (replaceRange b i (readRange s.buffer a.cursor n)) :=
        arrayCopy_ok (by omega) (by omega) hlt (checkBuffer_lt hbuffer hcheck)
      have hread : readRange s.buffer a.cursor n = readRange a.bytes a.cursor n := by
        have htake := readRange_take s.buffer hsum
        rw [hs.bytes_eq] at htake
        exact htake.symm
      have hmoved : int32 (a.cursor + n) = (a.cursor + n : ℕ) := by
        rw [int32_eq ⟨by omega, by omega⟩]
        omega
      rw [if_neg hsome, hposition, hcopy, hread]
      simp only [hmoved]
      exact ⟨rfl, hs.length_eq, hs.bytes_eq, hs.length_le, hs.capacity_eq, hs.buffer_lt, rfl, hnext,
        hs.limit_eq⟩

theorem readByte_matches : Matches s.readByte a.readByte := by
  have hlength := hs.length_eq
  have hposition := hs.position_eq
  have hlt := hs.buffer_lt
  have hle := hs.length_le
  unfold readByte ByteCursor.readByte
  by_cases hend : a.bytes.length ≤ a.cursor
  · rw [if_pos (by omega), getElem?_eq_none hend]
    exact ⟨rfl, hs⟩
  · have hvalue : s.buffer.getD a.cursor 0 = a.bytes[a.cursor] := by
      have htake := congrArg (·[a.cursor]?) hs.bytes_eq
      simp only [getElem?_take_of_lt (not_le.mp hend),
        getElem?_eq_getElem (not_le.mp hend)] at htake
      rw [getD_eq_getElem?_getD, htake, Option.getD_some]
    have hmoved : int32 ((a.cursor : ℤ) + 1) = (a.cursor + 1 : ℕ) := by
      rw [int32_eq ⟨by omega, by omega⟩]
      omega
    rw [if_neg (by omega), getElem?_eq_getElem (not_le.mp hend)]
    simp only [hposition, hmoved, toNat_natCast, hvalue]
    have hnext : a.cursor + 1 < 2 ^ 31 := by omega
    rw [if_pos (by omega)]
    exact ⟨rfl, hs.length_eq, hs.bytes_eq, hs.length_le, hs.capacity_eq, hs.buffer_lt, rfl, hnext,
      hs.limit_eq⟩

/-- The position is set to one that is counted from `base`. -/
theorem moveTo_matches {base offset : ℤ} (hbase : 0 ≤ base)
    (hoffset : offset ≤ 0xFFFF) (hsum : 0 ≤ base + offset) (hlt : base + offset < 2 ^ 31)
    (hbase' : base < 2 ^ 31) :
    Matches (s.moveTo (int32 (base + int32 offset))) (a.moveFrom base offset) := by
  have hint : int32 offset = offset := int32_eq ⟨by omega, by omega⟩
  have hmoved : int32 (base + offset) = base + offset := int32_eq ⟨by omega, hlt⟩
  rw [moveFrom, if_neg (not_lt.mpr hsum), hint, hmoved]
  exact ⟨rfl, hs.length_eq, hs.bytes_eq, hs.length_le, hs.capacity_eq, hs.buffer_lt,
    (toNat_of_nonneg hsum).symm, (by omega : (base + offset).toNat < 2 ^ 31), hs.limit_eq⟩

end

/-- A `long` is a sum of two numbers that are not negative, or a position before the beginning. -/
theorem sum_lt_zero_iff {base : ℤ} (hbase : 0 ≤ base) (hbase' : base < 2 ^ 31)
    (hlow : -2 ^ 63 ≤ offset) (hhigh : offset ≤ 0xFFFF) :
    (base + offset).bmod (2 ^ 64) < 0 ↔ base + offset < 0 := by
  rw [bmod_eq_of_le (by omega) (by omega)]

theorem seek_matches (hs : s.Holds a) {origin : SeekOrigin} (hlow : -2 ^ 63 ≤ offset)
    (hclean : s.Clean (.seek offset origin)) :
    Matches (s.seek offset origin) (a.seek offset origin) := by
  have hlength := hs.length_eq
  have hposition := hs.position_eq
  have hlt := hs.buffer_lt
  have hle := hs.length_le
  have hcursor := hs.position_lt
  unfold seek ByteCursor.seek
  by_cases hlarge : memStreamMaxLength < offset
  · rw [if_pos hlarge, if_pos hlarge]
    exact ⟨rfl, hs⟩
  · have hhigh : offset ≤ 0xFFFF := not_lt.mp hlarge
    rw [if_neg hlarge, if_neg hlarge]
    cases origin with
    | atBegin =>
      show Matches (if offset < 0 then _ else _) (if 0 + offset < 0 then _ else _)
      rw [Int.zero_add]
      split
      · exact ⟨rfl, hs⟩
      · have hmoved := moveTo_matches hs (le_refl 0) hhigh (by omega) (by omega) (by omega)
        rwa [Int.zero_add, int32_eq (z := int32 offset) (int32_isInt32 offset),
          moveFrom, Int.zero_add, if_neg (by assumption)] at hmoved
    | atCurrent =>
      have hsum := sum_lt_zero_iff (natCast_nonneg a.cursor) (by omega) hlow hhigh
      show Matches (if (offset + s.position).bmod (2 ^ 64) < 0 then _ else _) _
      rw [hposition, Int.add_comm offset]
      by_cases hbefore : (a.cursor : ℤ) + offset < 0
      · simp only [moveFrom, if_pos hbefore, if_pos (hsum.mpr hbefore)]
        exact ⟨rfl, hs⟩
      · rw [if_neg (mt hsum.mp hbefore)]
        exact moveTo_matches hs (natCast_nonneg _) hhigh (not_lt.mp hbefore)
          (hposition ▸ hclean) (by omega)
    | atEnd =>
      have hsum := sum_lt_zero_iff (natCast_nonneg a.bytes.length) (by omega) hlow hhigh
      show Matches (if (s.length + offset).bmod (2 ^ 64) < 0 then _ else _) _
      rw [hlength]
      by_cases hbefore : (a.bytes.length : ℤ) + offset < 0
      · simp only [moveFrom, if_pos hbefore, if_pos (hsum.mpr hbefore)]
        exact ⟨rfl, hs⟩
      · rw [if_neg (mt hsum.mp hbefore)]
        exact moveTo_matches hs (natCast_nonneg _) hhigh (not_lt.mp hbefore)
          (hlength ▸ hclean) (by omega)
    | other => exact ⟨rfl, hs⟩

theorem setPosition_matches (hs : s.Holds a) (value : ℤ) :
    Matches (s.setPosition value) (a.setPosition value) := by
  unfold setPosition ByteCursor.setPosition
  by_cases hbad : value < 0 ∨ memStreamMaxLength < value
  · rw [if_pos hbad, if_pos hbad]
    exact ⟨rfl, hs⟩
  · rw [if_neg hbad, if_neg hbad]
    rw [not_or, not_lt, not_lt] at hbad
    have hlt : value.toNat < 2 ^ 31 := by
      have hmax : value ≤ 0xFFFF := hbad.2
      omega
    exact ⟨rfl, hs.length_eq, hs.bytes_eq, hs.length_le, hs.capacity_eq, hs.buffer_lt,
      (toNat_of_nonneg hbad.1).symm, hlt, hs.limit_eq⟩

/-- A stream whose array holds the cut bytes, filled up with zeros. -/
theorem holds_resized {buffer : List UInt8} {capacity : ℤ} (hs : s.Holds a) {n : ℕ}
    (hn : n ≤ 0xFFFF) (hroom : n ≤ buffer.length) (hlt : buffer.length < 2 ^ 31)
    (hbytes : buffer.take n = padTo n (a.bytes.take n)) (hcapacity : capacity = buffer.length)
    (hlimit : a.limit = if s.expandable then none else some buffer.length) :
    Holds ⟨buffer, if (n : ℤ) < s.position then n else s.position, n, capacity, s.expandable⟩
      { a with bytes := padTo n (a.bytes.take n), cursor := min a.cursor n } := by
  have hposition := hs.position_eq
  have hlength : (padTo n (a.bytes.take n)).length = n := by
    rw [length_padTo, length_take]
    omega
  constructor
  · exact congrArg Nat.cast hlength.symm
  · show buffer.take (padTo n (a.bytes.take n)).length = _
    rw [hlength, hbytes]
  · show (padTo n (a.bytes.take n)).length ≤ buffer.length
    omega
  · exact hcapacity
  · exact hlt
  · show (if (n : ℤ) < s.position then (n : ℤ) else s.position) = (min a.cursor n : ℕ)
    split <;> omega
  · show min a.cursor n < 2 ^ 31
    omega
  · exact hlimit

theorem setLength_matches (hs : s.Holds a) (value : ℤ) :
    Matches (s.setLength value) (a.setLength value) := by
  have hlength := hs.length_eq
  have hcapacity := hs.capacity_eq
  have hlt := hs.buffer_lt
  have hle := hs.length_le
  unfold setLength ByteCursor.setLength
  by_cases hbad : memStreamMaxLength < value ∨ value < 0
  · rw [if_pos hbad, if_pos hbad]
    exact ⟨rfl, hs⟩
  · rw [if_neg hbad, if_neg hbad]
    rw [not_or, not_lt, not_lt] at hbad
    obtain ⟨n, rfl⟩ := eq_ofNat_of_zero_le hbad.2
    have hn : n ≤ 0xFFFF := by
      have hmax : (n : ℤ) ≤ 0xFFFF := hbad.1
      omega
    rw [toNat_natCast]
    by_cases hroom : n ≤ s.buffer.length
    · have hfits : a.Fits n := by
        cases hexpandable : s.expandable with
        | true => exact fits_of_expandable hs hexpandable n
        | false => exact (fits_iff_of_fixed hs hexpandable n).mpr hroom
      rw [if_pos hfits, ensureCapacity_of_le (by omega)]
      simp only [true_and]
      by_cases hlonger : s.length < n
      · have hzeros : (replicate ((n : ℤ) - s.length).toNat (0 : UInt8)).length =
            n - a.bytes.length := by
          rw [length_replicate]
          omega
        have hstart : s.length.toNat = a.bytes.length := by omega
        rw [if_pos hlonger, hstart]
        refine ⟨rfl, holds_resized hs hn ?_ ?_ ?_ ?_ ?_⟩
        · rw [length_replaceRange (by omega)]
          exact hroom
        · rw [length_replaceRange (by omega)]
          exact hlt
        · rw [replaceRange, hs.bytes_eq, take_of_length_le (by omega : a.bytes.length ≤ n), padTo,
            take_left' (by rw [length_append]; omega)]
          congr 2
          omega
        · rw [length_replaceRange (by omega)]
          exact hcapacity
        · rw [length_replaceRange (by omega)]
          exact hs.limit_eq
      · have hshort : n ≤ a.bytes.length := by omega
        rw [if_neg hlonger]
        refine ⟨rfl, holds_resized hs hn hroom hlt ?_ hcapacity hs.limit_eq⟩
        rw [padTo_of_le (by rw [length_take]; omega), ← hs.bytes_eq, take_take,
          Nat.min_eq_left hshort]
    · cases hexpandable : s.expandable with
      | true =>
        obtain ⟨k, hgrow, hge, hk⟩ := ensureCapacity_grows hs hexpandable n (by omega) (by omega)
        rw [if_pos (fits_of_expandable hs hexpandable n), hgrow]
        simp only [Bool.true_eq_false, false_and, if_false]
        refine ⟨rfl, hexpandable ▸ holds_resized hs hn (by omega) hk ?_ rfl ?_⟩
        · rw [take_of_length_le (by omega : a.bytes.length ≤ n), padTo, take_append,
            take_of_length_le (by omega : a.bytes.length ≤ n), take_replicate]
          congr 2
          rw [length_append, length_replicate] at hge
          omega
        · rw [hs.limit_eq, hexpandable, if_pos rfl, if_pos rfl]
      | false =>
        rw [if_neg (mt (fits_iff_of_fixed hs hexpandable n).mp hroom),
          ensureCapacity_fixed hexpandable (by omega)]
        exact ⟨rfl, hs⟩

/-! ## Runs -/

def step (s : MemoryStream) (op : Op) : Option (MemoryStream × Except Thrown Answer) :=
  some (s.perform op)

theorem perform_matches (hs : s.Holds a) {op : Op} (hvalid : op.Valid) (hclean : s.Clean op) :
    Matches (s.perform op) (a.perform op) := by
  cases op with
  | read buffer offset count =>
    apply read_matches hs buffer offset count
    rintro b rfl
    exact hvalid
  | readByte => exact readByte_matches hs
  | write buffer offset count =>
    apply write_matches hs buffer offset count _ hclean
    rintro b rfl
    exact hvalid
  | writeByte value => exact writeByte_matches hs value hclean
  | seek offset origin => exact seek_matches hs hvalid hclean
  | getPosition =>
    refine ⟨?_, hs⟩
    show Except.ok (Answer.number s.position) = .ok (.number a.cursor)
    rw [hs.position_eq]
  | setPosition value => exact setPosition_matches hs value
  | getLength =>
    refine ⟨?_, hs⟩
    show Except.ok (Answer.number s.length) = .ok (.number a.bytes.length)
    rw [hs.length_eq]
  | setLength value => exact setLength_matches hs value
  | toArray =>
    refine ⟨?_, hs⟩
    show Except.ok (Answer.bytes s.toArray) = .ok (.bytes a.bytes)
    rw [toArray, hs.length_eq, toNat_natCast, hs.bytes_eq]

theorem simulates : Simulates step (fun s op ↦ op.Valid ∧ s.Clean op) ByteCursor.Allows Holds := by
  intro s a op hs hclean
  obtain ⟨hanswer, hholds⟩ := perform_matches hs hclean.1 hclean.2
  exact ⟨_, _, (a.perform op).1, rfl, Prod.ext rfl hanswer.symm, hholds⟩

theorem expanding_holds : expanding.Holds ⟨[], 0, none⟩ where
  length_eq := rfl
  bytes_eq := rfl
  length_le := Nat.zero_le _
  capacity_eq := by rw [expanding, length_replicate]; rfl
  buffer_lt := by rw [expanding, length_replicate]; decide
  position_eq := rfl
  position_lt := Nat.two_pow_pos 31
  limit_eq := rfl

theorem overBuffer_holds {buffer : List UInt8} (h : buffer.length < 2 ^ 31) :
    (overBuffer buffer).Holds ⟨buffer, 0, some buffer.length⟩ where
  length_eq := rfl
  bytes_eq := take_length
  length_le := le_refl _
  capacity_eq := rfl
  buffer_lt := h
  position_eq := rfl
  position_lt := Nat.two_pow_pos 31
  limit_eq := rfl

end MemoryStream

abbrev UserArray := { buffer : List UInt8 // buffer.length < 2 ^ 31 }

/-- From both constructors on, in every run of calls that are clean, the stream answers as the bytes
with their cursor do, and holds them; and a call that throws leaves them as they were. -/
theorem memoryStream_refines (buffer : UserArray) (a : ByteCursor) (op : Op) :
    expanding.Holds ⟨[], 0, none⟩ ∧
      (overBuffer buffer.val).Holds ⟨buffer.val, 0, some buffer.val.length⟩ ∧
      Refines step (fun s op ↦ op.Valid ∧ s.Clean op) ByteCursor.Allows MemoryStream.Holds ∧
      a.KeepsOnError (a.perform op) :=
  ⟨expanding_holds, overBuffer_holds buffer.property,
    simulates.refines, a.perform_keeps op⟩

def threeBytes : List Op := [.write (some [1, 2, 3]) 0 3, .setPosition 1, .readByte]

theorem memoryStream_refines_threeBytes :
    ∃ s answers a, runOps step expanding threeBytes = some (s, answers) ∧
      Follows ByteCursor.Allows ⟨[], 0, none⟩ threeBytes answers a ∧ s.Holds a := by
  obtain ⟨hstart, -, hrefines, -⟩ := memoryStream_refines ⟨[], by decide⟩ ⟨[], 0, none⟩ .readByte
  have hlength : ([1, 2, 3] : List UInt8).length < 2 ^ 31 := by decide
  refine hrefines _ _ hstart threeBytes ⟨⟨hlength, fun _ ↦ ⟨by decide, .inr ?_⟩⟩, fun _ _ _ ↦
    ⟨⟨trivial, trivial⟩, fun _ _ _ ↦ ⟨⟨trivial, trivial⟩, fun _ _ _ ↦ trivial⟩⟩⟩
  intro j _ hbefore
  exact absurd hbefore (not_lt.mpr (natCast_nonneg j))

/-- Of two bytes, the length is set to 0, and a byte written at position 1: the first one is back. -/
theorem stale_byte_returns :
    ¬ ∀ (buffer : UserArray) (ops : List Op), (∀ op ∈ ops, op.Valid) →
      ∃ s answers a, runOps step (overBuffer buffer.val) ops = some (s, answers) ∧
        Follows ByteCursor.Allows ⟨buffer.val, 0, some buffer.val.length⟩ ops answers a := by
  intro hclaim
  obtain ⟨s, answers, a, hrun, hfollows⟩ := hclaim ⟨[7, 8], by decide⟩
    [.setLength 0, .setPosition 1, .writeByte 9, .toArray] (by simp [Op.Valid])
  have hanswers : (runOps step (overBuffer [7, 8])
      [.setLength 0, .setPosition 1, .writeByte 9, .toArray]).map Prod.snd =
        some [.ok .nothing, .ok .nothing, .ok .nothing, .ok (.bytes [7, 9])] := by
    decide
  rw [hrun, Option.map_some] at hanswers
  obtain rfl := Option.some.inj hanswers
  cases hfollows with
  | cons hlength hfollows =>
  cases hlength
  cases hfollows with
  | cons hposition hfollows =>
  cases hposition
  cases hfollows with
  | cons hwrite hfollows =>
  cases hwrite
  cases hfollows with
  | cons hcopy _ =>
  cases hcopy

end MicroFramework.ManagedStreams
