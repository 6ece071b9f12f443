import Mathlib.Tactic.IntervalCases
import MicroFramework.Library.Utf16

/-!
# The UTF-16 and UTF-8 conversions of the runtime

`CLR_RT_UnicodeHelper` converts between zero-terminated strings of 16-bit units and of bytes.  An
input pointer is the list of what stands in memory from it on, up to and with the terminator; a
read past the end of that list is `none`.  An output buffer is what was stored into it so far and
the room that is left, in elements.  `int` is an integer: the only place where one can overflow
within the address space is the product that bounds the bytes in `ConvertFromUTF8`.
-/

namespace MicroFramework.Unicode

/-! ## The constants -/

def highSurrogateStart : ℕ := 0xD800
def highSurrogateEnd : ℕ := 0xDBFF
def lowSurrogateStart : ℕ := 0xDC00
def lowSurrogateEnd : ℕ := 0xDFFF
def surrogateHalfShift : ℕ := 10
def surrogateHalfBase : ℕ := 0x10000
def surrogateHalfMask : ℕ := 0x3FF

/-- The cases of `switch(ch & 0xF0)` over the first byte of a character. -/
inductive Lead
  | single
  | illegal
  | two
  | three
  | four
  deriving DecidableEq

def lead (ch : ℕ) : Lead :=
  match ch &&& 0xF0 with
  | 0x80 | 0x90 | 0xA0 | 0xB0 => .illegal
  | 0xC0 | 0xD0 => .two
  | 0xE0 => .three
  | 0xF0 => .four
  | _ => .single

/-! ## Counting -/

def badLowPart (ch : ℕ) : Bool := ch < 0x80 || 0xBF < ch

def countNumberOfCharacters.loop : List UInt8 → (max num : ℤ) → Option ℤ
  | [], _, _ => none
  | b :: src, max, num =>
    if b.toNat = 0 then some num
    else if max = 0 then some num
    else
      match lead b.toNat with
      | .single => loop src (max - 1) (num + 1)
      | .illegal => some (-1)
      | .two =>
        match src with
        | [] => none
        | c₁ :: src =>
          if badLowPart c₁.toNat then some (-1) else loop src (max - 1) (num + 1)
      | .three =>
        match src with
        | [] => none
        | c₁ :: src =>
          if badLowPart c₁.toNat then some (-1)
          else
            match src with
            | [] => none
            | c₂ :: src =>
              if badLowPart c₂.toNat then some (-1) else loop src (max - 1) (num + 1)
      | .four =>
        match src with
        | [] => none
        | c₁ :: src =>
          if badLowPart c₁.toNat then some (-1)
          else
            match src with
            | [] => none
            | c₂ :: src =>
              if badLowPart c₂.toNat then some (-1)
              else
                match src with
                | [] => none
                | c₃ :: src =>
                  if badLowPart c₃.toNat then some (-1) else loop src (max - 1) (num + 2)

/-- The number of UTF-16 units of the string at `inputUTF8`, `-1` when it is illegal.  A `max` of
`-1` walks through the whole string. -/
def countNumberOfCharacters (inputUTF8 : List UInt8) (max : ℤ) : Option ℤ :=
  countNumberOfCharacters.loop inputUTF8 max 0

def countNumberOfBytes.loop : List UInt16 → (max num : ℤ) → Option ℤ
  | [], _, _ => none
  | u :: src, max, num =>
    if u.toNat = 0 then some num
    else if max = 0 then some num
    else if u.toNat < 0x80 then loop src (max - 1) (num + 1)
    else if u.toNat < 0x800 then loop src (max - 1) (num + 2)
    else if lowSurrogateStart ≤ u.toNat ∧ u.toNat ≤ lowSurrogateEnd then some (-1)
    else if highSurrogateStart ≤ u.toNat ∧ u.toNat ≤ highSurrogateEnd then
      match src with
      | [] => none
      | v :: src =>
        if lowSurrogateStart ≤ v.toNat ∧ v.toNat ≤ lowSurrogateEnd then
          loop src (max - 1) (num + 4)
        else some (-1)
    else loop src (max - 1) (num + 3)

/-- The number of bytes of the string at `inputUTF16` in UTF-8, `-1` when it is invalid. -/
def countNumberOfBytes (inputUTF16 : List UInt16) (max : ℤ) : Option ℤ :=
  countNumberOfBytes.loop inputUTF16 max 0

/-! ## The outcome of a conversion -/

/-- What a conversion leaves: its result, the input pointer, what it stored into the output buffer,
the room left there, and whether it stored the terminator behind that. -/
structure Conversion (α β : Type) where
  res : Bool
  input : List α
  output : List β
  outputSize : ℤ
  terminated : Bool
  deriving DecidableEq

/-- The end of both conversions, after their loops: the terminator is stored, without moving the
output pointer, unless the conversion only moves over the input. -/
def conclude {α β : Type} (fJustMove : Bool) (input : List α) (output : List β)
    (outputSize : ℤ) : Conversion α β :=
  if fJustMove then ⟨true, input, output, outputSize, false⟩
  else if outputSize < 1 then ⟨false, input, output, outputSize, false⟩
  else ⟨true, input, output, outputSize, true⟩

/-! ## From UTF-8 -/

/-- The locals of `ConvertFromUTF8`. -/
structure FromUTF8 where
  inputUTF8 : List UInt8
  outputUTF16 : List UInt16
  outputUTF16_size : ℤ
  iMaxChars : ℤ
  iMaxBytes : ℤ
  deriving DecidableEq

/-- `UTF8_LOAD_LOWPART`, `n` times: the character so far and the input behind. -/
def loadLowPart : ℕ → ℕ → List UInt8 → Option (ℕ × List UInt8)
  | 0, ch2, src => some (ch2, src)
  | _ + 1, _, [] => none
  | n + 1, ch2, b :: src => loadLowPart n ((ch2 <<< 6) ||| (b.toNat &&& 0x3F)) src

/-- A character of more than one byte: `bytes` of them, of which the first has given `ch2`, stored
as `units` units.  The flag is false when the code goes to `ExitFalse`; the first byte is un-read
before that. -/
def FromUTF8.multiByte (st : FromUTF8) (fJustMove : Bool) (src : List UInt8) (bytes units ch2 : ℕ)
    (stored : ℕ → List UInt16) : Option (Bool × FromUTF8) :=
  if st.iMaxBytes ≥ bytes then
    if fJustMove then
      some (true, { st with
        inputUTF8 := src.drop (bytes - 1)
        iMaxChars := st.iMaxChars - units
        iMaxBytes := st.iMaxBytes - bytes })
    else if st.outputUTF16_size < units then some (false, st)
    else
      match loadLowPart (bytes - 1) ch2 src with
      | none => none
      | some (ch2, src) =>
        some (true, {
          inputUTF8 := src
          outputUTF16 := st.outputUTF16 ++ stored ch2
          outputUTF16_size := st.outputUTF16_size - units
          iMaxChars := st.iMaxChars - units
          iMaxBytes := st.iMaxBytes - bytes })
  else some (false, st)

def FromUTF8.body (st : FromUTF8) (fJustMove : Bool) : Option (Bool × FromUTF8) :=
  match st.inputUTF8 with
  | [] => none
  | b :: src =>
    let ch := b.toNat
    match lead ch with
    | .single =>
      if ch = 0 then some (false, st)
      else if fJustMove then
        some (true, { st with
          inputUTF8 := src, iMaxChars := st.iMaxChars - 1, iMaxBytes := st.iMaxBytes - 1 })
      else if st.outputUTF16_size < 1 then some (false, st)
      else
        some (true, {
          inputUTF8 := src
          outputUTF16 := st.outputUTF16 ++ [UInt16.ofNat ch]
          outputUTF16_size := st.outputUTF16_size - 1
          iMaxChars := st.iMaxChars - 1
          iMaxBytes := st.iMaxBytes - 1 })
    | .illegal => some (false, { st with inputUTF8 := src })
    | .two =>
      -- illegal: overlong encoding
      if (ch &&& 0xFF) < 0xC2 then some (false, st)
      else st.multiByte fJustMove src 2 1 (ch &&& 0x1F) fun ch2 ↦ [UInt16.ofNat ch2]
    | .three => st.multiByte fJustMove src 3 1 (ch &&& 0x0F) fun ch2 ↦ [UInt16.ofNat ch2]
    | .four =>
      -- restricted by RFC 3629
      if (ch &&& 0xFF) ≥ 0xF5 then some (false, st)
      else
        st.multiByte fJustMove src 4 2 (ch &&& 0x07) fun ch2 ↦
          [UInt16.ofNat ((ch2 >>> surrogateHalfShift) + highSurrogateStart),
            UInt16.ofNat ((ch2 &&& surrogateHalfMask) + lowSurrogateStart)]

/-- The loop of `ConvertFromUTF8`.  Each turn lowers `iMaxChars`, so that as many turns as it counts
are enough. -/
def FromUTF8.loop (fJustMove : Bool) : ℕ → FromUTF8 → Option (Bool × FromUTF8)
  | 0, st => some (true, st)
  | n + 1, st =>
    if st.iMaxChars > 0 ∧ st.iMaxBytes > 0 then
      match st.body fJustMove with
      | none => none
      | some (false, st') => some (false, st')
      | some (true, st') => loop fJustMove n st'
    else some (true, st)

/-- `iMaxBytes` as the loop starts with it: `-1` stands for three bytes a character, an `int`
product. -/
def maxBytes (iMaxChars iMaxBytes : ℤ) : ℤ :=
  if iMaxBytes = -1 then (iMaxChars * 3).bmod (2 ^ 32) else iMaxBytes

def convertFromUTF8 (inputUTF8 : List UInt8) (outputUTF16_size iMaxChars : ℤ) (fJustMove : Bool)
    (iMaxBytes : ℤ) : Option (Conversion UInt8 UInt16) :=
  match FromUTF8.loop fJustMove iMaxChars.toNat
      ⟨inputUTF8, [], outputUTF16_size, iMaxChars, maxBytes iMaxChars iMaxBytes⟩ with
  | none => none
  | some (false, st) => some ⟨false, st.inputUTF8, st.outputUTF16, st.outputUTF16_size, false⟩
  | some (true, st) => some (conclude fJustMove st.inputUTF8 st.outputUTF16 st.outputUTF16_size)

/-! ## To UTF-8 -/

def lowPart (ch : ℕ) : UInt8 := UInt8.ofNat (0x80 ||| (ch &&& 0x3F))

/-- What `ConvertToUTF8` stores of a character, by the branch it takes. -/
def twoBytes (ch : ℕ) : List UInt8 :=
  [UInt8.ofNat (0xC0 ||| ((ch >>> 6) &&& 0x1F)), lowPart ch]

def threeBytes (ch : ℕ) : List UInt8 :=
  [UInt8.ofNat (0xE0 ||| ((ch >>> 6 >>> 6) &&& 0x0F)), lowPart (ch >>> 6), lowPart ch]

def fourBytes (ch : ℕ) : List UInt8 :=
  [UInt8.ofNat (0xF0 ||| ((ch >>> 6 >>> 6 >>> 6) &&& 0x07)), lowPart (ch >>> 6 >>> 6),
    lowPart (ch >>> 6), lowPart ch]

/-- `SURROGATE_HALFBASE + ((ch - HIGH_SURROGATE_START) << SURROGATE_HALFSHIFT) + (low -
LOW_SURROGATE_START)`, in 32 bits. -/
def surrogatePair (ch low : ℕ) : ℕ :=
  (surrogateHalfBase + ((ch - highSurrogateStart) <<< surrogateHalfShift) +
    (low + 2 ^ 32 - lowSurrogateStart)) % 2 ^ 32

/-- The output buffer with `bytes` stored, `none` when the room does not hold them. -/
def store (fJustMove : Bool) (output : List UInt8) (outputSize : ℤ) (bytes : List UInt8) :
    Option (List UInt8 × ℤ) :=
  if fJustMove then some (output, outputSize)
  else if outputSize < bytes.length then none
  else some (output ++ bytes, outputSize - bytes.length)

/-- The loop of `ConvertToUTF8`.  A surrogate pair does not lower `iMaxChars`. -/
def convertToUTF8.loop (fJustMove : Bool) :
    List UInt16 → List UInt8 → (outputSize iMaxChars : ℤ) → Option (Conversion UInt16 UInt8)
  | [], output, outputSize, iMaxChars =>
    if iMaxChars > 0 then none else some (conclude fJustMove [] output outputSize)
  | u :: src, output, outputSize, iMaxChars =>
    if iMaxChars > 0 then
      let ch := u.toNat
      if ch < 0x80 then
        if ch = 0 then some (conclude fJustMove src output outputSize)
        else
          match store fJustMove output outputSize [UInt8.ofNat ch] with
          | none => some ⟨false, src, output, outputSize, false⟩
          | some (output, outputSize) => loop fJustMove src output outputSize (iMaxChars - 1)
      else if ch < 0x800 then
        match store fJustMove output outputSize (twoBytes ch) with
        | none => some ⟨false, src, output, outputSize, false⟩
        | some (output, outputSize) => loop fJustMove src output outputSize (iMaxChars - 1)
      else if highSurrogateStart ≤ ch ∧ ch ≤ highSurrogateEnd then
        match src with
        | [] => none
        | v :: src =>
          match store fJustMove output outputSize (fourBytes (surrogatePair ch v.toNat)) with
          | none => some ⟨false, src, output, outputSize, false⟩
          | some (output, outputSize) => loop fJustMove src output outputSize iMaxChars
      else
        match store fJustMove output outputSize (threeBytes ch) with
        | none => some ⟨false, src, output, outputSize, false⟩
        | some (output, outputSize) => loop fJustMove src output outputSize (iMaxChars - 1)
    else some (conclude fJustMove (u :: src) output outputSize)

def convertToUTF8 (inputUTF16 : List UInt16) (outputUTF8_size iMaxChars : ℤ) (fJustMove : Bool) :
    Option (Conversion UInt16 UInt8) :=
  convertToUTF8.loop fJustMove inputUTF16 [] outputUTF8_size iMaxChars

/-!
## What the conversion to UTF-8 produces

The shifts and masks of `ConvertToUTF8` are the divisions and remainders of the UTF-8 encoding, in
each of its four lengths, and both counting functions agree with it.  Over a whole string the
conversion produces the UTF-8 encoding when the output buffer holds it, and it never reads behind
the terminator, whatever the output buffer: the branch that does not lower the character count is
the branch that reads two units.
-/

open Utf

/-! ## Masks and shifts -/

theorem two_pow_or {i b : ℕ} (a : ℕ) (h : b < 2 ^ i) : 2 ^ i * a ||| b = 2 ^ i * a + b :=
  (Nat.two_pow_add_eq_or_of_lt h a).symm

theorem lowPart_eq (ch : ℕ) : lowPart ch = UInt8.ofNat (ch % 64 + 0x80) := by
  have hmask : ch &&& 0x3F = ch % 64 := Nat.and_two_pow_sub_one_eq_mod ch 6
  have hor : 0x80 ||| ch % 64 = 0x80 + ch % 64 := two_pow_or (i := 6) 2 (Nat.mod_lt _ (by decide))
  rw [lowPart, hmask, hor, Nat.add_comm]

theorem shiftRight_six (ch : ℕ) : ch >>> 6 = ch / 64 := Nat.shiftRight_eq_div_pow ch 6

theorem twoBytes_eq (ch : ℕ) :
    twoBytes ch = [UInt8.ofNat (ch / 64 % 32 + 0xC0), UInt8.ofNat (ch % 64 + 0x80)] := by
  have hmask : ch / 64 &&& 0x1F = ch / 64 % 32 := Nat.and_two_pow_sub_one_eq_mod _ 5
  have hor : 0xC0 ||| ch / 64 % 32 = 0xC0 + ch / 64 % 32 :=
    two_pow_or (i := 5) 6 (Nat.mod_lt _ (by decide))
  rw [twoBytes, shiftRight_six, hmask, hor, lowPart_eq, Nat.add_comm]

theorem threeBytes_eq (ch : ℕ) :
    threeBytes ch =
      [UInt8.ofNat (ch / 4096 % 16 + 0xE0), UInt8.ofNat (ch / 64 % 64 + 0x80),
        UInt8.ofNat (ch % 64 + 0x80)] := by
  have hdiv : ch / 64 / 64 = ch / 4096 := Nat.div_div_eq_div_mul ch 64 64
  have hmask : ch / 4096 &&& 0x0F = ch / 4096 % 16 := Nat.and_two_pow_sub_one_eq_mod _ 4
  have hor : 0xE0 ||| ch / 4096 % 16 = 0xE0 + ch / 4096 % 16 :=
    two_pow_or (i := 4) 14 (Nat.mod_lt _ (by decide))
  calc threeBytes ch
      = [UInt8.ofNat (0xE0 ||| (ch / 4096 &&& 0x0F)), lowPart (ch / 64), lowPart ch] := by
        rw [threeBytes, shiftRight_six, shiftRight_six, hdiv]
    _ = _ := by rw [hmask, hor, lowPart_eq, lowPart_eq, Nat.add_comm]

theorem fourBytes_eq (ch : ℕ) :
    fourBytes ch =
      [UInt8.ofNat (ch / 262144 % 8 + 0xF0), UInt8.ofNat (ch / 4096 % 64 + 0x80),
        UInt8.ofNat (ch / 64 % 64 + 0x80), UInt8.ofNat (ch % 64 + 0x80)] := by
  have hdiv : ch / 64 / 64 = ch / 4096 := Nat.div_div_eq_div_mul ch 64 64
  have hdiv' : ch / 4096 / 64 = ch / 262144 := Nat.div_div_eq_div_mul ch 4096 64
  have hmask : ch / 262144 &&& 0x07 = ch / 262144 % 8 := Nat.and_two_pow_sub_one_eq_mod _ 3
  have hor : 0xF0 ||| ch / 262144 % 8 = 0xF0 + ch / 262144 % 8 :=
    two_pow_or (i := 3) 30 (Nat.mod_lt _ (by decide))
  calc fourBytes ch
      = [UInt8.ofNat (0xF0 ||| (ch / 262144 &&& 0x07)), lowPart (ch / 4096), lowPart (ch / 64),
          lowPart ch] := by
        rw [fourBytes, shiftRight_six, shiftRight_six, shiftRight_six, hdiv, hdiv']
    _ = _ := by rw [hmask, hor, lowPart_eq, lowPart_eq, lowPart_eq, Nat.add_comm]

theorem surrogatePair_eq {v : ℕ} (hlow : 0x10000 ≤ v) (hhigh : v < 0x110000) :
    surrogatePair (0xD800 + (v - 0x10000) / 0x400) (0xDC00 + (v - 0x10000) % 0x400) = v := by
  have hshift : (0xD800 + (v - 0x10000) / 0x400 - highSurrogateStart) <<< surrogateHalfShift =
      (v - 0x10000) / 0x400 * 2 ^ 10 := by
    rw [highSurrogateStart, surrogateHalfShift, Nat.shiftLeft_eq, Nat.add_sub_cancel_left]
  rw [surrogatePair, hshift, surrogateHalfBase, lowSurrogateStart]
  omega

/-! ## One character -/

/-- The loop of `ConvertToUTF8` turns the units of one character into its UTF-8 encoding, when the
room holds it. -/
theorem convertToUTF8_char {c : Char} (hne : c.toNat ≠ 0) (fJustMove : Bool) (src : List UInt16)
    (output : List UInt8) (outputSize : ℤ) {iMaxChars : ℤ} (hpos : 0 < iMaxChars) :
    convertToUTF8.loop fJustMove (utf16EncodeChar c ++ src) output outputSize iMaxChars =
      (store fJustMove output outputSize (String.utf8EncodeChar c)).elim
        (some ⟨false, src, output, outputSize, false⟩) fun stored ↦
          convertToUTF8.loop fJustMove src stored.1 stored.2
            (if c.toNat < 0x10000 then iMaxChars - 1 else iMaxChars) := by
  have hvalid := toNat_valid c
  rcases width_cases c with h | h | h | h
  · rw [utf16EncodeChar_unit (by omega), utf8EncodeChar_one h, List.singleton_append,
      convertToUTF8.loop, if_pos hpos, unit_toNat (by omega)]
    simp only [h, hne, if_true, if_false, if_pos (show c.toNat < 0x10000 by omega)]
    cases store fJustMove output outputSize _ <;> rfl
  · rw [utf16EncodeChar_unit (by omega), utf8EncodeChar_two h.1 h.2, List.singleton_append,
      convertToUTF8.loop, if_pos hpos, unit_toNat (by omega)]
    simp only [Nat.not_lt.mpr h.1, h.2, if_true, if_false, twoBytes_eq,
      if_pos (show c.toNat < 0x10000 by omega)]
    cases store fJustMove output outputSize _ <;> rfl
  · have hhigh : ¬ (highSurrogateStart ≤ c.toNat ∧ c.toNat ≤ highSurrogateEnd) := by
      rw [highSurrogateStart, highSurrogateEnd]
      omega
    rw [utf16EncodeChar_unit h.2, utf8EncodeChar_three h.1 h.2, List.singleton_append,
      convertToUTF8.loop, if_pos hpos, unit_toNat h.2]
    simp only [Nat.not_lt.mpr h.1, Nat.not_lt.mpr (Nat.le_trans (by decide : 0x80 ≤ 0x800) h.1),
      hhigh, if_false, threeBytes_eq, if_pos h.2]
    cases store fJustMove output outputSize _ <;> rfl
  · have hhigh := high_isHighSurrogate h
    have hlarge : ¬ c.toNat < 0x10000 := Nat.not_lt.mpr h
    rw [IsHighSurrogate, high_toNat h] at hhigh
    rw [utf16EncodeChar_pair h, utf8EncodeChar_four h, List.cons_append, List.singleton_append,
      convertToUTF8.loop, if_pos hpos, high_toNat h]
    have h1 : ¬ 0xD800 + (c.toNat - 0x10000) / 0x400 < 0x80 := by omega
    have h2 : ¬ 0xD800 + (c.toNat - 0x10000) / 0x400 < 0x800 := by omega
    have h3 : highSurrogateStart ≤ 0xD800 + (c.toNat - 0x10000) / 0x400 ∧
        0xD800 + (c.toNat - 0x10000) / 0x400 ≤ highSurrogateEnd := hhigh
    simp only [h1, h2, h3, and_self, if_true, if_false, low_toNat, fourBytes_eq, hlarge,
      surrogatePair_eq h (by omega)]
    cases store fJustMove output outputSize _ <;> rfl

/-- `CountNumberOfBytes` counts a character by the length of its UTF-8 encoding. -/
theorem countNumberOfBytes_char {c : Char} (hne : c.toNat ≠ 0) (src : List UInt16) {max : ℤ}
    (hmax : max ≠ 0) (num : ℤ) :
    countNumberOfBytes.loop (utf16EncodeChar c ++ src) max num =
      countNumberOfBytes.loop src (max - 1) (num + (String.utf8EncodeChar c).length) := by
  have hvalid := toNat_valid c
  rcases width_cases c with h | h | h | h
  · rw [utf16EncodeChar_unit (by omega), utf8EncodeChar_one h, List.singleton_append,
      countNumberOfBytes.loop.eq_def]
    simp only [unit_toNat (show c.toNat < 0x10000 by omega), h, hne, hmax, if_true, if_false]
    rfl
  · rw [utf16EncodeChar_unit (by omega), utf8EncodeChar_two h.1 h.2, List.singleton_append,
      countNumberOfBytes.loop.eq_def]
    simp only [unit_toNat (show c.toNat < 0x10000 by omega), Nat.not_lt.mpr h.1, h.2, hne, hmax,
      if_true, if_false]
    rfl
  · have hhigh : ¬ (highSurrogateStart ≤ c.toNat ∧ c.toNat ≤ highSurrogateEnd) := by
      rw [highSurrogateStart, highSurrogateEnd]
      omega
    have hlow : ¬ (lowSurrogateStart ≤ c.toNat ∧ c.toNat ≤ lowSurrogateEnd) := by
      rw [lowSurrogateStart, lowSurrogateEnd]
      omega
    rw [utf16EncodeChar_unit h.2, utf8EncodeChar_three h.1 h.2, List.singleton_append,
      countNumberOfBytes.loop.eq_def]
    simp only [unit_toNat h.2, hne, hmax, Nat.not_lt.mpr h.1, hhigh, hlow, if_false,
      Nat.not_lt.mpr (Nat.le_trans (by decide : 0x80 ≤ 0x800) h.1)]
    rfl
  · have hhigh := high_isHighSurrogate h
    have hlow := low_isLowSurrogate c
    rw [IsHighSurrogate, high_toNat h] at hhigh
    rw [utf16EncodeChar_pair h, utf8EncodeChar_four h, List.cons_append, List.singleton_append,
      countNumberOfBytes.loop.eq_def]
    have h0 : ¬ 0xD800 + (c.toNat - 0x10000) / 0x400 = 0 := by omega
    have h1 : ¬ 0xD800 + (c.toNat - 0x10000) / 0x400 < 0x80 := by omega
    have h2 : ¬ 0xD800 + (c.toNat - 0x10000) / 0x400 < 0x800 := by omega
    have h3 : ¬ (lowSurrogateStart ≤ 0xD800 + (c.toNat - 0x10000) / 0x400 ∧
        0xD800 + (c.toNat - 0x10000) / 0x400 ≤ lowSurrogateEnd) := by
      rw [lowSurrogateStart]
      omega
    have h4 : highSurrogateStart ≤ 0xD800 + (c.toNat - 0x10000) / 0x400 ∧
        0xD800 + (c.toNat - 0x10000) / 0x400 ≤ highSurrogateEnd := hhigh
    have h5 : lowSurrogateStart ≤
        (UInt16.ofNat (0xDC00 + (c.toNat - 0x10000) % 0x400)).toNat ∧
          (UInt16.ofNat (0xDC00 + (c.toNat - 0x10000) % 0x400)).toNat ≤ lowSurrogateEnd := hlow
    simp only [high_toNat h, h0, hmax, h1, h2, h3, h4, h5, and_self, if_true, if_false]
    rfl

/-! ## Whole strings -/

theorem countNumberOfBytes_utf16 (text : List Char) (hne : ∀ c ∈ text, c.toNat ≠ 0) :
    ∀ max < 0, ∀ num, countNumberOfBytes.loop (utf16 text ++ [0]) max num =
      some (num + (utf8 text).length) := by
  induction text with
  | nil =>
    intro max _ num
    simp [countNumberOfBytes.loop]
  | cons c text ih =>
    intro max hmax num
    have htail : ∀ d ∈ text, d.toNat ≠ 0 := fun d hd ↦ hne d (List.mem_cons_of_mem c hd)
    rw [utf16_cons, List.append_assoc,
      countNumberOfBytes_char (hne c List.mem_cons_self) _ (by omega), ih htail _ (by omega)]
    simp only [utf8_cons, List.length_append]
    push_cast
    rw [Int.add_assoc]

theorem length_utf16EncodeChar (c : Char) :
    (utf16EncodeChar c).length = if c.toNat < 0x10000 then 1 else 2 := by
  by_cases h : c.toNat < 0x10000
  · simp [utf16EncodeChar_unit h, h]
  · simp [utf16EncodeChar_pair (Nat.le_of_not_lt h), h]

/-- `ConvertToUTF8` reads no unit behind the terminator, whatever the output buffer: at each turn
there are at most as many units left as `iMaxChars` counts, and once it counts more the terminator
ends the loop. -/
theorem convertToUTF8_isSome (fJustMove : Bool) (text : List Char) (hne : ∀ c ∈ text, c.toNat ≠ 0) :
    ∀ output outputSize iMaxChars,
      (convertToUTF8.loop fJustMove (utf16 text ++ [0]) output outputSize iMaxChars).isSome := by
  induction text with
  | nil =>
    intro output outputSize iMaxChars
    by_cases hpos : 0 < iMaxChars
    · simp [convertToUTF8.loop, hpos]
    · simp [convertToUTF8.loop, hpos]
  | cons c text ih =>
    intro output outputSize iMaxChars
    have htail : ∀ d ∈ text, d.toNat ≠ 0 := fun d hd ↦ hne d (List.mem_cons_of_mem c hd)
    by_cases hpos : 0 < iMaxChars
    · rw [utf16_cons, List.append_assoc, convertToUTF8_char (hne c List.mem_cons_self) _ _ _ _ hpos]
      cases store fJustMove output outputSize (String.utf8EncodeChar c) with
      | none => rfl
      | some stored => exact ih htail _ _ _
    · cases hsrc : utf16 (c :: text) ++ [0] with
      | nil | cons u src => simp [convertToUTF8.loop, hpos]

/-- With room for the UTF-8 encoding and its terminator, `ConvertToUTF8` stores it. -/
theorem convertToUTF8_utf16 (text : List Char) (hne : ∀ c ∈ text, c.toNat ≠ 0) :
    ∀ output (outputSize iMaxChars : ℤ), ((utf8 text).length : ℤ) < outputSize →
      ((utf16 text).length : ℤ) ≤ iMaxChars →
      ∃ rest, convertToUTF8.loop false (utf16 text ++ [0]) output outputSize iMaxChars =
        some ⟨true, rest, output ++ utf8 text, outputSize - (utf8 text).length, true⟩ := by
  induction text with
  | nil =>
    intro output outputSize iMaxChars hroom _
    have hsize : ¬ outputSize < 1 := by
      simp only [utf8_nil, List.length_nil] at hroom
      omega
    by_cases hpos : 0 < iMaxChars
    · exact ⟨[], by simp [convertToUTF8.loop, hpos, conclude, hsize]⟩
    · exact ⟨[0], by simp [convertToUTF8.loop, hpos, conclude, hsize]⟩
  | cons c text ih =>
    intro output outputSize iMaxChars hroom hchars
    have htail : ∀ d ∈ text, d.toNat ≠ 0 := fun d hd ↦ hne d (List.mem_cons_of_mem c hd)
    have hlength := length_utf16EncodeChar c
    simp only [utf8_cons, utf16_cons, List.length_append] at hroom hchars
    push_cast at hroom hchars
    have hpos : 0 < iMaxChars := by split at hlength <;> omega
    have hstore : store false output outputSize (String.utf8EncodeChar c) =
        some (output ++ String.utf8EncodeChar c,
          outputSize - (String.utf8EncodeChar c).length) := by
      have hsize : ¬ outputSize < (String.utf8EncodeChar c).length := by omega
      rw [store, if_neg (by decide), if_neg hsize]
    have hleft : ((utf16 text).length : ℤ) ≤
        if c.toNat < 0x10000 then iMaxChars - 1 else iMaxChars := by
      split <;> split at hlength <;> omega
    obtain ⟨rest, hrest⟩ := ih htail (output ++ String.utf8EncodeChar c)
      (outputSize - (String.utf8EncodeChar c).length) _ (by omega) hleft
    refine ⟨rest, ?_⟩
    rw [utf16_cons, List.append_assoc, convertToUTF8_char (hne c List.mem_cons_self) _ _ _ _ hpos,
      hstore, Option.elim_some, hrest]
    simp only [utf8_cons, List.append_assoc, List.length_append]
    push_cast
    rw [Int.sub_sub]

end MicroFramework.Unicode
