import MicroFramework.Unicode.ManagedString
import MicroFramework.Unicode.RoundTrip

/-!
# Creating a string from units

The size pass counts characters where the encoding pass counts units, and both read the unit that
ends them.  On a text that a null ends they agree; without one the size pass reads behind the
buffer, and a lone surrogate makes its answer `-1`, with which the size of the block wraps around.
-/

namespace MicroFramework.Unicode

open Utf Arrays List Nat Option

/-! ## The size pass -/

variable {text : List Char}

/-- The size pass goes over a text, one character for each that it may still count. -/
theorem countNumberOfBytes_text (hne : ∀ c ∈ text, c.toNat ≠ 0)
    (tail : List UInt16) : ∀ (max num : ℤ), max < 0 ∨ (text.length : ℤ) ≤ max →
      countNumberOfBytes.loop (utf16 text ++ tail) max num =
        countNumberOfBytes.loop tail (max - text.length) (num + (utf8 text).length) := by
  induction text with
  | nil => simp
  | cons c text ih =>
    intro max num hmax
    have htail : ∀ d ∈ text, d.toNat ≠ 0 := fun d hd ↦ hne d (mem_cons_of_mem c hd)
    rw [length_cons] at hmax
    push_cast at hmax
    rw [utf16_cons, append_assoc,
      countNumberOfBytes_char (hne c mem_cons_self) _ (by omega), ih htail _ _ (by omega)]
    simp only [utf8_cons, length_append, length_cons]
    push_cast
    congr 1 <;> ring

/-- The count never goes down, but for the answer `-1`. -/
theorem countNumberOfBytes_ge (src : List UInt16) (max num : ℤ) :
    ∀ r, countNumberOfBytes.loop src max num = some r → r = -1 ∨ num ≤ r := by
  fun_induction countNumberOfBytes.loop src max num with
  | case1 => nofun
  | case2 => simp
  | case3 => simp
  | case4 _ _ _ _ _ _ _ ih =>
    intro r h
    have := ih r h
    omega
  | case5 _ _ _ _ _ _ _ _ ih =>
    intro r h
    have := ih r h
    omega
  | case6 => simp
  | case7 => nofun
  | case8 _ _ _ _ _ _ _ _ _ _ _ _ ih =>
    intro r h
    have := ih r h
    omega
  | case9 => simp
  | case10 _ _ _ _ _ _ _ _ _ _ ih =>
    intro r h
    have := ih r h
    omega

/-- A null ends a well-formed text in the buffer. -/
def NullTerminated (src : List UInt16) : Prop :=
  ∃ pre rest, src = pre ++ 0 :: rest ∧ WellFormed pre ∧ 0 ∉ pre

theorem nullTerminated_null (src : List UInt16) : NullTerminated (0 :: src) :=
  ⟨[], src, rfl, .nil, not_mem_nil⟩

variable {src szText : List UInt16}

theorem NullTerminated.unit {u : UInt16} (h : NullTerminated src)
    (hne : u ≠ 0) (hu : ¬ IsSurrogate u) : NullTerminated (u :: src) := by
  obtain ⟨pre, rest, rfl, hwell, hnull⟩ := h
  exact ⟨u :: pre, rest, rfl, .unit hu hwell, not_mem_cons_of_ne_of_not_mem hne.symm hnull⟩

theorem NullTerminated.pair {high low : UInt16} (h : NullTerminated src)
    (hhigh : IsHighSurrogate high) (hlow : IsLowSurrogate low) :
    NullTerminated (high :: low :: src) := by
  obtain ⟨pre, rest, rfl, hwell, hnull⟩ := h
  refine ⟨high :: low :: pre, rest, rfl, .pair hhigh hlow hwell, ?_⟩
  apply not_mem_cons_of_ne_of_not_mem
  · rintro rfl
    exact absurd hhigh (by decide)
  apply not_mem_cons_of_ne_of_not_mem
  · rintro rfl
    exact absurd hlow (by decide)
  · exact hnull

/-- The size pass goes behind the buffer or meets an ill-formed unit, unless a null ends a
well-formed text. -/
theorem countNumberOfBytes_cases (src : List UInt16) (max num : ℤ) :
    max < 0 ∨ (src.length : ℤ) ≤ max →
      countNumberOfBytes.loop src max num = none ∨
      countNumberOfBytes.loop src max num = some (-1) ∨ NullTerminated src := by
  fun_induction countNumberOfBytes.loop src max num with
  | case1 => exact fun _ ↦ Or.inl rfl
  | case2 u src max num hnull =>
    obtain rfl : u = 0 := UInt16.toNat_inj.mp hnull
    exact fun _ ↦ Or.inr (Or.inr (nullTerminated_null src))
  | case3 u src num =>
    intro hmax
    rw [length_cons] at hmax
    omega
  | case4 u src max num hne hmax hone ih =>
    intro hlength
    rw [length_cons] at hlength
    have hunit : ¬ IsSurrogate u := fun h ↦ absurd h.1 (by omega)
    exact (ih (by omega)).imp_right <| Or.imp_right fun h ↦ h.unit (fun h ↦ hne (h ▸ rfl)) hunit
  | case5 u src max num hne hmax hone htwo ih =>
    intro hlength
    rw [length_cons] at hlength
    have hunit : ¬ IsSurrogate u := fun h ↦ absurd h.1 (by omega)
    exact (ih (by omega)).imp_right <| Or.imp_right fun h ↦ h.unit (fun h ↦ hne (h ▸ rfl)) hunit
  | case6 => exact fun _ ↦ Or.inr (Or.inl rfl)
  | case7 => exact fun _ ↦ Or.inl rfl
  | case8 high max num hne hmax hone htwo hnotLow hhigh low src hlow ih =>
    intro hlength
    simp only [length_cons] at hlength
    exact (ih (by omega)).imp_right <| Or.imp_right fun h ↦ h.pair hhigh hlow
  | case9 => exact fun _ ↦ Or.inr (Or.inl rfl)
  | case10 u src max num hne hmax hone htwo hnotLow hnotHigh ih =>
    intro hlength
    rw [length_cons] at hlength
    have hunit : ¬ IsSurrogate u := by
      unfold IsSurrogate
      unfold lowSurrogateStart lowSurrogateEnd at hnotLow
      unfold highSurrogateStart highSurrogateEnd at hnotHigh
      omega
    exact (ih (by omega)).imp_right <| Or.imp_right fun h ↦ h.unit (fun h ↦ hne (h ▸ rfl)) hunit

/-! ## The encoding pass -/

/-- The characters that the encoding pass counts: a pair does not lower its `iMaxChars`. -/
def plainCount (text : List Char) : ℕ := text.countP fun c ↦ c.toNat < 0x10000

theorem length_utf16_eq (text : List Char) :
    (utf16 text).length + plainCount text = 2 * text.length := by
  induction text with
  | nil => rfl
  | cons c text ih =>
    have hlength := length_utf16EncodeChar c
    have hcount : plainCount (c :: text) = plainCount text +
        if c.toNat < 0x10000 then 1 else 0 := by
      simp [plainCount, countP_cons]
    rw [utf16_cons, length_append, length_cons, hcount]
    split_ifs at hlength ⊢ <;> omega

theorem plainCount_le (text : List Char) : plainCount text ≤ text.length := countP_le_length

/-- The encoding pass goes over a text that there is room for. -/
theorem convertToUTF8_text (hne : ∀ c ∈ text, c.toNat ≠ 0)
    (tail : List UInt16) : ∀ (output : List UInt8) (size max : ℤ),
      ((utf8 text).length : ℤ) ≤ size → ((utf16 text).length : ℤ) ≤ max →
      convertToUTF8.loop false (utf16 text ++ tail) output size max =
        convertToUTF8.loop false tail (output ++ utf8 text) (size - (utf8 text).length)
          (max - plainCount text) := by
  induction text with
  | nil =>
    intro output size max _ _
    simp [plainCount]
  | cons c text ih =>
    intro output size max hroom hchars
    have htail : ∀ d ∈ text, d.toNat ≠ 0 := fun d hd ↦ hne d (mem_cons_of_mem c hd)
    have hlength := length_utf16EncodeChar c
    simp only [utf8_cons, utf16_cons, length_append] at hroom hchars
    push_cast at hroom hchars
    have hpos : 0 < max := by split at hlength <;> omega
    have hstore : store false output size (String.utf8EncodeChar c) =
        some (output ++ String.utf8EncodeChar c,
          size - (String.utf8EncodeChar c).length) := by
      have hsize : ¬ size < (String.utf8EncodeChar c).length := by omega
      rw [store, if_neg (by decide), if_neg hsize]
    have hleft : ((utf16 text).length : ℤ) ≤
        if c.toNat < 0x10000 then max - 1 else max := by
      split <;> split at hlength <;> omega
    have hcount : plainCount (c :: text) = plainCount text +
        if c.toNat < 0x10000 then 1 else 0 := by
      simp [plainCount, countP_cons]
    rw [utf16_cons, append_assoc, convertToUTF8_char (hne c mem_cons_self) _ _ _ _ hpos,
      hstore, elim_some, ih htail _ _ _ (by omega) hleft, hcount]
    simp only [utf8_cons, append_assoc, length_append]
    push_cast
    congr 1
    · ring
    · split_ifs <;> ring

/-- What a conversion stored behind `output`: no zero but the terminator, and no more than there was
room for. -/
structure Stored (output : List UInt8) (size : ℤ) (conversion : Conversion UInt16 UInt8) :
    Prop where
  isPrefix : output <+: conversion.output
  nonzero : 0 ∈ conversion.output → 0 ∈ output
  room : (conversion.output.length : ℤ) + (if conversion.terminated then 1 else 0) ≤
    output.length + max size 0

theorem lowPart_ne_zero (ch : ℕ) : lowPart ch ≠ 0 := by
  have hall : ∀ r < 64, UInt8.ofNat (0x80 ||| r) ≠ 0 := by decide
  have hmask : ch &&& 0x3F = ch % 64 := and_two_pow_sub_one_eq_mod ch 6
  rw [lowPart, hmask]
  exact hall _ (mod_lt _ (by decide))

theorem not_mem_twoBytes (ch : ℕ) : 0 ∉ twoBytes ch := by
  have hall : ∀ r < 32, UInt8.ofNat (0xC0 ||| r) ≠ 0 := by decide
  have hmask : ch >>> 6 &&& 0x1F = (ch >>> 6) % 32 := and_two_pow_sub_one_eq_mod _ 5
  have hfirst := hall _ (mod_lt (ch >>> 6) (by decide))
  simp only [twoBytes, hmask, mem_cons, not_mem_nil, or_false, not_or]
  exact ⟨hfirst.symm, (lowPart_ne_zero _).symm⟩

theorem not_mem_threeBytes (ch : ℕ) : 0 ∉ threeBytes ch := by
  have hall : ∀ r < 16, UInt8.ofNat (0xE0 ||| r) ≠ 0 := by decide
  have hmask : ch >>> 6 >>> 6 &&& 0x0F = (ch >>> 6 >>> 6) % 16 := and_two_pow_sub_one_eq_mod _ 4
  have hfirst := hall _ (mod_lt (ch >>> 6 >>> 6) (by decide))
  simp only [threeBytes, hmask, mem_cons, not_mem_nil, or_false, not_or]
  exact ⟨hfirst.symm, (lowPart_ne_zero _).symm, (lowPart_ne_zero _).symm⟩

theorem not_mem_fourBytes (ch : ℕ) : 0 ∉ fourBytes ch := by
  have hall : ∀ r < 8, UInt8.ofNat (0xF0 ||| r) ≠ 0 := by decide
  have hmask : ch >>> 6 >>> 6 >>> 6 &&& 0x07 = (ch >>> 6 >>> 6 >>> 6) % 8 :=
    and_two_pow_sub_one_eq_mod _ 3
  have hfirst := hall _ (mod_lt (ch >>> 6 >>> 6 >>> 6) (by decide))
  simp only [fourBytes, hmask, mem_cons, not_mem_nil, or_false, not_or]
  exact ⟨hfirst.symm, (lowPart_ne_zero _).symm, (lowPart_ne_zero _).symm,
    (lowPart_ne_zero _).symm⟩

theorem not_mem_single {ch : ℕ} (hsmall : ch < 0x80) (hne : ch ≠ 0) :
    (0 : UInt8) ∉ [UInt8.ofNat ch] := by
  intro hmem
  have hzero := congrArg UInt8.toNat (mem_singleton.mp hmem)
  rw [byte_toNat (by omega)] at hzero
  exact hne hzero.symm

theorem stored_conclude (src : List UInt16) (output : List UInt8) (size : ℤ) :
    Stored output size (conclude false src output size) := by
  unfold conclude
  rw [if_neg (by decide)]
  split_ifs with hsize
  · exact ⟨prefix_rfl, id, by simp⟩
  · refine ⟨prefix_rfl, id, ?_⟩
    simp only [if_true]
    omega

theorem stored_stopped (src : List UInt16) (output : List UInt8) (size : ℤ) :
    Stored output size ⟨false, src, output, size, false⟩ :=
  ⟨prefix_rfl, id, by simp⟩

variable {conversion : Conversion UInt16 UInt8}

theorem Stored.of_store {output output' bytes : List UInt8} {size size' : ℤ}
    (h : Stored output' size' conversion)
    (hstore : store false output size bytes = some (output', size')) (hbytes : 0 ∉ bytes) :
    Stored output size conversion := by
  unfold store at hstore
  rw [if_neg (by decide)] at hstore
  split_ifs at hstore with hsize
  cases hstore
  have hroom := h.room
  rw [length_append] at hroom
  push_cast at hroom
  refine ⟨(prefix_append _ _).trans h.isPrefix, ?_, by omega⟩
  intro hzero
  exact (mem_append.mp (h.nonzero hzero)).resolve_right hbytes

/-- What the encoding pass stores follows what was stored before, within the room. -/
theorem convertToUTF8_stored (src : List UInt16) (output : List UInt8) (size max : ℤ) :
    ∀ conversion, convertToUTF8.loop false src output size max = some conversion →
      Stored output size conversion := by
  fun_induction convertToUTF8.loop false src output size max with
  | case1 => nofun
  | case2 output size max _ =>
    rintro _ ⟨⟩
    exact stored_conclude _ _ _
  | case3 u src output size max _ ch hone hzero =>
    rintro _ ⟨⟩
    exact stored_conclude _ _ _
  | case4 u src output size max _ ch hone hne _ =>
    rintro _ ⟨⟩
    exact stored_stopped _ _ _
  | case5 u src output size max _ ch hone hne output' size' hstore ih =>
    exact fun conversion h ↦ (ih conversion h).of_store hstore (not_mem_single hone hne)
  | case6 u src output size max _ ch hone htwo _ =>
    rintro _ ⟨⟩
    exact stored_stopped _ _ _
  | case7 u src output size max _ ch hone htwo output' size' hstore ih =>
    exact fun conversion h ↦ (ih conversion h).of_store hstore (not_mem_twoBytes _)
  | case8 => nofun
  | case9 u output size max _ ch hone htwo hhigh v src _ =>
    rintro _ ⟨⟩
    exact stored_stopped _ _ _
  | case10 u output size max _ ch hone htwo hhigh v src output' size' hstore ih =>
    exact fun conversion h ↦ (ih conversion h).of_store hstore (not_mem_fourBytes _)
  | case11 u src output size max _ ch hone htwo hhigh _ =>
    rintro _ ⟨⟩
    exact stored_stopped _ _ _
  | case12 u src output size max _ ch hone htwo hhigh output' size' hstore ih =>
    exact fun conversion h ↦ (ih conversion h).of_store hstore (not_mem_threeBytes _)
  | case13 u src output size max _ =>
    rintro _ ⟨⟩
    exact stored_conclude _ _ _

/-- The encoding pass reads no unit behind a null that ends a text. -/
theorem convertToUTF8_isSome_of_null (hne : ∀ c ∈ text, c.toNat ≠ 0)
    (rest : List UInt16) : ∀ (output : List UInt8) (size max : ℤ),
      (convertToUTF8.loop false (utf16 text ++ 0 :: rest) output size max).isSome := by
  induction text with
  | nil =>
    intro output size max
    by_cases hpos : 0 < max
    · simp [convertToUTF8.loop, hpos]
    · simp [convertToUTF8.loop, hpos]
  | cons c text ih =>
    intro output size max
    have htail : ∀ d ∈ text, d.toNat ≠ 0 := fun d hd ↦ hne d (mem_cons_of_mem c hd)
    by_cases hpos : 0 < max
    · rw [utf16_cons, append_assoc, convertToUTF8_char (hne c mem_cons_self) _ _ _ _ hpos]
      cases store false output size (String.utf8EncodeChar c) with
      | none => rfl
      | some stored => exact ih htail _ _ _
    · cases hsrc : utf16 (c :: text) ++ 0 :: rest with
      | nil | cons u src => simp [convertToUTF8.loop, hpos]

/-! ## The block -/

/-- The bytes behind the header of the block for a text of so many bytes. -/
def roomFor (lengthInBytes : ℕ) : ℕ :=
  heapBlocks ((sizeofString + lengthInBytes + 1) % 2 ^ 32) * 12 - sizeofString

variable {n length : ℕ}

/-- The sizes wrap around near the end of the 32 bits, and leave a block of a header alone. -/
theorem roomFor_pos_iff (h : n < 2 ^ 32) : 1 ≤ roomFor n ↔ n + 24 < 2 ^ 32 := by
  unfold roomFor heapBlocks sizeofString
  omega

theorem lt_roomFor (h : n + 24 < 2 ^ 32) : n < roomFor n := by
  unfold roomFor heapBlocks sizeofString
  omega

/-- The size that the creation of a string takes from the size pass. -/
def sizeInBytes (numberOfBytes : ℤ) : ℕ := (numberOfBytes % 2 ^ 32).toNat

theorem sizeInBytes_lt (n : ℤ) : sizeInBytes n < 2 ^ 32 := by
  unfold sizeInBytes
  omega

variable {numberOfBytes : ℤ}

/-- The string is what the encoding pass stored, where the heap gives the block. -/
theorem createInstance_eq (heap : Heap)
    (hcount : countNumberOfBytes szText (int32 length) = some numberOfBytes) :
    createInstance heap szText length =
      if heap.givesBlocks
          (heapBlocks ((sizeofString + sizeInBytes numberOfBytes + 1) % 2 ^ 32)) = false then
        some (.error .outOfMemory)
      else
        (convertToUTF8 szText (int32 (sizeInBytes numberOfBytes + 1)) (int32 length) false).map
          fun conversion ↦ Except.ok ⟨roomFor (sizeInBytes numberOfBytes), conversion.output,
            conversion.terminated⟩ := by
  unfold createInstance
  rw [hcount]
  dsimp only
  rw [← sizeInBytes]
  split_ifs
  · rfl
  · cases convertToUTF8 szText (int32 (sizeInBytes numberOfBytes + 1)) (int32 length) false <;> rfl

theorem createInstance_given {heap : Heap} (hgives : ∀ n, heap.givesBlocks n = true)
    (hcount : countNumberOfBytes szText (int32 length) = some numberOfBytes) :
    createInstance heap szText length =
      (convertToUTF8 szText (int32 (sizeInBytes numberOfBytes + 1)) (int32 length) false).map
        fun conversion ↦ Except.ok ⟨roomFor (sizeInBytes numberOfBytes), conversion.output,
          conversion.terminated⟩ := by
  rw [createInstance_eq heap hcount, hgives, if_neg (by decide)]

theorem int32_succ_le (n : ℕ) : int32 (n + 1) ≤ n + 1 := by
  unfold int32
  rw [Int.bmod_def]
  omega

/-- What the encoding pass stores within the counted size lies inside the block. -/
theorem inBounds_of_stored (hfits : n + 24 < 2 ^ 32) (h : Stored [] (int32 (n + 1)) conversion) :
    NewString.InBounds ⟨roomFor n, conversion.output, conversion.terminated⟩ := by
  have hroom := lt_roomFor hfits
  have hle := int32_succ_le n
  have hstored := h.room
  rw [length_nil] at hstored
  generalize roomFor n = room at hroom ⊢
  generalize int32 (n + 1) = size at hle hstored
  constructor
  · exact one_le_of_lt hroom
  · dsimp only
    split_ifs at hstored ⊢ <;> omega

/-! ## Safe creation -/

/-- A buffer of units in the address space. -/
structure CharBuffer where
  units : List UInt16
  addressable : units.length < 2 ^ 31

namespace CharBuffer

/-- The creation of a string reads no more than the units of the buffer, and stores no more bytes
than it has got, whatever the heap answers. -/
def ConstructsSafely (b : CharBuffer) : Prop :=
  ∀ heap, ∃ result, createInstance heap b.units b.units.length = some result ∧
    ∀ s, result = .ok s → s.InBounds

/-- A null ends a well-formed text in the buffer, whose size in bytes is far from the end of the 32
bits. -/
def HoldsText (b : CharBuffer) : Prop :=
  ∃ pre rest, b.units = pre ++ 0 :: rest ∧ WellFormed pre ∧ 0 ∉ pre ∧
    (standardEncoding pre).length % 2 ^ 32 + 24 < 2 ^ 32

theorem int32_length (b : CharBuffer) : int32 b.units.length = b.units.length :=
  int32_eq ⟨by omega, by have := b.addressable; omega⟩

/-- The size pass over a buffer with a null. -/
theorem countNumberOfBytes_null {text : List Char} (hne : ∀ c ∈ text, c.toNat ≠ 0)
    (rest : List UInt16) {max : ℤ} (hmax : ((utf16 text).length : ℤ) ≤ max) :
    countNumberOfBytes (utf16 text ++ 0 :: rest) max = some ((utf8 text).length : ℤ) := by
  have hunits := length_utf16_eq text
  have hplain := plainCount_le text
  unfold countNumberOfBytes
  rw [countNumberOfBytes_text hne _ _ _ (Or.inr (by omega)), countNumberOfBytes.loop.eq_def]
  simp

/-- A string is created safely exactly from a buffer in which a null ends a well-formed text. -/
theorem constructsSafely_iff (b : CharBuffer) : b.ConstructsSafely ↔ b.HoldsText := by
  constructor
  · intro hsafe
    obtain ⟨result, hresult, hbounds⟩ := hsafe ⟨fun _ ↦ true, fun _ ↦ true⟩
    have hcases := countNumberOfBytes_cases b.units b.units.length 0 (Or.inr le_rfl)
    cases hcount : countNumberOfBytes b.units (int32 b.units.length) with
    | none =>
      unfold createInstance at hresult
      rw [hcount] at hresult
      cases hresult
    | some numberOfBytes =>
      rw [createInstance_given (fun _ ↦ rfl) hcount, map_eq_some_iff] at hresult
      obtain ⟨conversion, -, rfl⟩ := hresult
      have hroom := (roomFor_pos_iff (sizeInBytes_lt _)).mp (hbounds _ rfl).1
      rw [int32_length] at hcount
      rw [countNumberOfBytes] at hcount
      rw [hcount] at hcases
      rcases hcases with hnone | hill | hnull
      · cases hnone
      · obtain rfl := some.inj hill
        exact absurd hroom (by decide)
      · obtain ⟨pre, rest, hunits, hwell, hnot⟩ := hnull
        refine ⟨pre, rest, hunits, hwell, hnot, ?_⟩
        have htext := utf16_scalars hwell
        have hne : ∀ c ∈ scalars pre, c.toNat ≠ 0 := by
          intro c hc
          apply toNat_ne_zero _ hc
          rwa [htext]
        have hlength : ((utf16 (scalars pre)).length : ℤ) ≤ b.units.length := by
          rw [htext, hunits, length_append]
          omega
        have hbytes := countNumberOfBytes_null hne rest hlength
        rw [htext, ← hunits, countNumberOfBytes, hcount] at hbytes
        rw [some.inj hbytes] at hroom
        unfold sizeInBytes at hroom
        rw [standardEncoding]
        omega
  · rintro ⟨pre, rest, hunits, hwell, hnot, hsize⟩ heap
    have htext := utf16_scalars hwell
    have hne : ∀ c ∈ scalars pre, c.toNat ≠ 0 := by
      intro c hc
      apply toNat_ne_zero _ hc
      rwa [htext]
    have hlength : ((utf16 (scalars pre)).length : ℤ) ≤ b.units.length := by
      rw [htext, hunits, length_append]
      omega
    have hcount := countNumberOfBytes_null hne rest hlength
    have hsome := convertToUTF8_isSome_of_null hne rest []
      (int32 (sizeInBytes (utf8 (scalars pre)).length + 1)) (int32 b.units.length)
    rw [htext, ← hunits] at hcount hsome
    rw [← int32_length] at hcount
    rw [createInstance_eq heap hcount]
    split_ifs
    · exact ⟨_, rfl, by simp⟩
    obtain ⟨conversion, hconversion⟩ := isSome_iff_exists.mp hsome
    have hstored := convertToUTF8_stored _ _ _ _ _ hconversion
    have hconvert : convertToUTF8 b.units (int32 (sizeInBytes (utf8 (scalars pre)).length + 1))
        (int32 b.units.length) false = some conversion := hconversion
    rw [hconvert]
    refine ⟨_, rfl, ?_⟩
    rintro s ⟨⟩
    have hfits : sizeInBytes (utf8 (scalars pre)).length + 24 < 2 ^ 32 := by
      rw [standardEncoding] at hsize
      unfold sizeInBytes
      omega
    exact inBounds_of_stored hfits hstored

end CharBuffer

end MicroFramework.Unicode
