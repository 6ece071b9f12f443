import MicroFramework.Unicode.Helper

/-!
# What the conversion from UTF-8 produces

`ConvertFromUTF8` finds the length of a character from its first byte and collects six bits of each
byte behind it.  The value it collects is the character's, in all four lengths; what it stores for
a value of more than sixteen bits is not the character's surrogate pair, because it shifts the
value as it stands, without taking `SURROGATE_HALFBASE` off first.
-/

namespace MicroFramework.Unicode

open Utf FromUTF8 List Nat

/-! ## First bytes and low parts -/

theorem lead_single {n : ℕ} (h : n < 0x80) : lead n = .single := by
  have hall : ∀ n < 0x80, lead n = .single := by decide
  exact hall n h

theorem lead_two (r : ℕ) : lead (r % 32 + 0xC0) = .two := by
  have hall : ∀ r < 32, lead (r + 0xC0) = .two := by decide
  exact hall (r % 32) (mod_lt _ (by decide))

theorem lead_three (r : ℕ) : lead (r % 16 + 0xE0) = .three := by
  have hall : ∀ r < 16, lead (r + 0xE0) = .three := by decide
  exact hall (r % 16) (mod_lt _ (by decide))

theorem lead_four (r : ℕ) : lead (r % 8 + 0xF0) = .four := by
  have hall : ∀ r < 8, lead (r + 0xF0) = .four := by decide
  exact hall (r % 8) (mod_lt _ (by decide))

/-- The bytes behind the first of a character pass `UTF8_CHECK_LOWPART`. -/
theorem badLowPart_low (r : ℕ) : badLowPart (UInt8.ofNat (r % 64 + 0x80)).toNat = false := by
  have hall : ∀ r < 64, badLowPart (UInt8.ofNat (r + 0x80)).toNat = false := by decide
  exact hall (r % 64) (mod_lt _ (by decide))

/-- `UTF8_LOAD_LOWPART` shifts six bits in. -/
theorem loadLowPart_low (n ch2 r : ℕ) (src : List UInt8) :
    loadLowPart (n + 1) ch2 (UInt8.ofNat (r % 64 + 0x80) :: src) =
      loadLowPart n (ch2 * 64 + r % 64) src := by
  have hall : ∀ r < 64, (UInt8.ofNat (r + 0x80)).toNat &&& 0x3F = r := by decide
  have hmask := hall (r % 64) (mod_lt _ (by decide))
  have hor : ch2 <<< 6 ||| r % 64 = ch2 * 64 + r % 64 := by
    rw [shiftLeft_eq, Nat.mul_comm]
    exact two_pow_or ch2 (mod_lt r (by decide))
  rw [loadLowPart, hmask, hor]

/-! ## One character -/

variable {c : Char}

/-- `CountNumberOfCharacters` counts a character by the length of its UTF-16 encoding. -/
theorem countNumberOfCharacters_char (hne : c.toNat ≠ 0) (src : List UInt8) {max : ℤ}
    (hmax : max ≠ 0) (num : ℤ) :
    countNumberOfCharacters.loop (String.utf8EncodeChar c ++ src) max num =
      countNumberOfCharacters.loop src (max - 1) (num + (utf16EncodeChar c).length) := by
  rcases width_cases c with h | h | h | h
  · rw [utf16EncodeChar_unit (by omega), utf8EncodeChar_one h, singleton_append,
      countNumberOfCharacters.loop.eq_def]
    simp only [byte_toNat (show c.toNat < 0x100 by omega), lead_single h, hne, hmax, if_false]
    rfl
  · have hbyte : (UInt8.ofNat (c.toNat / 64 % 32 + 0xC0)).toNat = c.toNat / 64 % 32 + 0xC0 :=
      byte_toNat (by omega)
    have hne' : ¬ c.toNat / 64 % 32 + 0xC0 = 0 := by omega
    rw [utf16EncodeChar_unit (by omega), utf8EncodeChar_two h.1 h.2, cons_append,
      singleton_append, countNumberOfCharacters.loop.eq_def]
    simp only [hbyte, hne', lead_two, badLowPart_low, hmax, if_false, Bool.false_eq_true]
    rfl
  · have hbyte : (UInt8.ofNat (c.toNat / 4096 % 16 + 0xE0)).toNat = c.toNat / 4096 % 16 + 0xE0 :=
      byte_toNat (by omega)
    have hne' : ¬ c.toNat / 4096 % 16 + 0xE0 = 0 := by omega
    rw [utf16EncodeChar_unit h.2, utf8EncodeChar_three h.1 h.2, cons_append,
      cons_append, singleton_append, countNumberOfCharacters.loop.eq_def]
    simp only [hbyte, hne', lead_three, badLowPart_low, hmax, if_false, Bool.false_eq_true]
    rfl
  · have hbyte : (UInt8.ofNat (c.toNat / 262144 % 8 + 0xF0)).toNat =
        c.toNat / 262144 % 8 + 0xF0 :=
      byte_toNat (by omega)
    have hne' : ¬ c.toNat / 262144 % 8 + 0xF0 = 0 := by omega
    rw [utf16EncodeChar_pair h, utf8EncodeChar_four h, cons_append, cons_append,
      cons_append, singleton_append, countNumberOfCharacters.loop.eq_def]
    simp only [hbyte, hne', lead_four, badLowPart_low, hmax, if_false, Bool.false_eq_true]
    rfl

def storedUnits (c : Char) : List UInt16 :=
  if c.toNat < 0x10000 then [UInt16.ofNat c.toNat]
  else
    [UInt16.ofNat ((c.toNat >>> surrogateHalfShift) + highSurrogateStart),
      UInt16.ofNat ((c.toNat &&& surrogateHalfMask) + lowSurrogateStart)]

theorem storedUnits_unit (h : c.toNat < 0x10000) :
    storedUnits c = utf16EncodeChar c := by
  rw [storedUnits, if_pos h, utf16EncodeChar_unit h]

theorem length_storedUnits (c : Char) : (storedUnits c).length = (utf16EncodeChar c).length := by
  rw [length_utf16EncodeChar, storedUnits]
  split <;> rfl

/-- The high unit stored for a character from `0x10000` on is `0x40` above its high surrogate. -/
theorem storedUnits_ne (h : 0x10000 ≤ c.toNat) : storedUnits c ≠ utf16EncodeChar c := by
  have hvalid := toNat_valid c
  intro heq
  rw [storedUnits, if_neg (Nat.not_lt.mpr h), utf16EncodeChar_pair h] at heq
  have hhigh := congrArg UInt16.toNat (List.cons.inj heq).1
  rw [high_toNat h, surrogateHalfShift, highSurrogateStart, shiftRight_eq_div_pow,
    unit_toNat (by omega)] at hhigh
  omega

variable {rest : List UInt8} {st : FromUTF8}

/-- A character in several bytes is collected and stored when the bounds allow it. -/
theorem multiByte_stored {src : List UInt8} {bytes units ch2 value : ℕ}
    {stored : ℕ → List UInt16} (hbytes : (bytes : ℤ) ≤ st.iMaxBytes)
    (hunits : (units : ℤ) ≤ st.outputUTF16_size)
    (hload : loadLowPart (bytes - 1) ch2 src = some (value, rest)) :
    st.multiByte false src bytes units ch2 stored =
      some (true, {
        inputUTF8 := rest
        outputUTF16 := st.outputUTF16 ++ stored value
        outputUTF16_size := st.outputUTF16_size - units
        iMaxChars := st.iMaxChars - units
        iMaxBytes := st.iMaxBytes - bytes }) := by
  have hsize : ¬ st.outputUTF16_size < units := Int.not_lt.mpr hunits
  rw [multiByte, if_pos hbytes, if_neg (by decide), if_neg hsize, hload]

/-- The state behind a character of the input: its units stored, its bytes and units counted off. -/
def FromUTF8.past (st : FromUTF8) (c : Char) (rest : List UInt8) : FromUTF8 where
  inputUTF8 := rest
  outputUTF16 := st.outputUTF16 ++ storedUnits c
  outputUTF16_size := st.outputUTF16_size - (utf16EncodeChar c).length
  iMaxChars := st.iMaxChars - (utf16EncodeChar c).length
  iMaxBytes := st.iMaxBytes - (String.utf8EncodeChar c).length

/-- One turn of the loop converts one character. -/
theorem body_char (hne : c.toNat ≠ 0) (hinput : st.inputUTF8 = String.utf8EncodeChar c ++ rest)
    (hbytes : ((String.utf8EncodeChar c).length : ℤ) ≤ st.iMaxBytes)
    (hunits : ((utf16EncodeChar c).length : ℤ) ≤ st.outputUTF16_size) :
    st.body false = some (true, st.past c rest) := by
  have hvalid := toNat_valid c
  rcases width_cases c with h | h | h | h
  · have hsmall : c.toNat < 0x10000 := by omega
    have hbyte : (UInt8.ofNat c.toNat).toNat = c.toNat := byte_toNat (by omega)
    rw [utf16EncodeChar_unit hsmall] at hunits
    have hsize : ¬ st.outputUTF16_size < 1 := by
      simp only [length_singleton] at hunits
      omega
    rw [utf8EncodeChar_one h, singleton_append] at hinput
    rw [body, hinput, past, storedUnits_unit hsmall, utf16EncodeChar_unit hsmall,
      utf8EncodeChar_one h]
    simp only [hbyte, lead_single h, hne, hsize, if_false, Bool.false_eq_true]
    rfl
  · have hsmall : c.toNat < 0x10000 := by omega
    have hbyte : (UInt8.ofNat (c.toNat / 64 % 32 + 0xC0)).toNat = c.toNat / 64 % 32 + 0xC0 :=
      byte_toNat (by omega)
    have hmask : (c.toNat / 64 % 32 + 0xC0) &&& 0x1F = c.toNat / 64 := by
      rw [and_two_pow_sub_one_eq_mod _ 5]
      omega
    have hlong : ¬ (c.toNat / 64 % 32 + 0xC0) &&& 0xFF < 0xC2 := by
      rw [and_two_pow_sub_one_eq_mod _ 8]
      omega
    have hload : loadLowPart (2 - 1) (c.toNat / 64)
        (UInt8.ofNat (c.toNat % 64 + 0x80) :: rest) = some (c.toNat, rest) := by
      rw [loadLowPart_low, loadLowPart, show c.toNat / 64 * 64 + c.toNat % 64 = c.toNat by omega]
    rw [utf8EncodeChar_two h.1 h.2] at hinput hbytes
    rw [utf16EncodeChar_unit hsmall] at hunits
    rw [body, hinput, past, storedUnits_unit hsmall, utf16EncodeChar_unit hsmall,
      utf8EncodeChar_two h.1 h.2]
    simp only [cons_append, nil_append, hbyte, lead_two, hlong, if_false, hmask]
    exact multiByte_stored hbytes hunits hload
  · have hbyte : (UInt8.ofNat (c.toNat / 4096 % 16 + 0xE0)).toNat = c.toNat / 4096 % 16 + 0xE0 :=
      byte_toNat (by omega)
    have hmask : (c.toNat / 4096 % 16 + 0xE0) &&& 0x0F = c.toNat / 4096 := by
      rw [and_two_pow_sub_one_eq_mod _ 4]
      omega
    have hload : loadLowPart (3 - 1) (c.toNat / 4096)
        (UInt8.ofNat (c.toNat / 64 % 64 + 0x80) :: UInt8.ofNat (c.toNat % 64 + 0x80) :: rest) =
          some (c.toNat, rest) := by
      rw [loadLowPart_low, loadLowPart_low, loadLowPart,
        show (c.toNat / 4096 * 64 + c.toNat / 64 % 64) * 64 + c.toNat % 64 = c.toNat by omega]
    rw [utf8EncodeChar_three h.1 h.2] at hinput hbytes
    rw [utf16EncodeChar_unit h.2] at hunits
    rw [body, hinput, past, storedUnits_unit h.2, utf16EncodeChar_unit h.2,
      utf8EncodeChar_three h.1 h.2]
    simp only [cons_append, nil_append, hbyte, lead_three, hmask]
    exact multiByte_stored hbytes hunits hload
  · have hbyte : (UInt8.ofNat (c.toNat / 262144 % 8 + 0xF0)).toNat =
        c.toNat / 262144 % 8 + 0xF0 :=
      byte_toNat (by omega)
    have hmask : (c.toNat / 262144 % 8 + 0xF0) &&& 0x07 = c.toNat / 262144 := by
      rw [and_two_pow_sub_one_eq_mod _ 3]
      omega
    have hshort : ¬ (c.toNat / 262144 % 8 + 0xF0) &&& 0xFF ≥ 0xF5 := by
      rw [and_two_pow_sub_one_eq_mod _ 8]
      omega
    have hload : loadLowPart (4 - 1) (c.toNat / 262144)
        (UInt8.ofNat (c.toNat / 4096 % 64 + 0x80) :: UInt8.ofNat (c.toNat / 64 % 64 + 0x80) ::
          UInt8.ofNat (c.toNat % 64 + 0x80) :: rest) = some (c.toNat, rest) := by
      rw [loadLowPart_low, loadLowPart_low, loadLowPart_low, loadLowPart,
        show ((c.toNat / 262144 * 64 + c.toNat / 4096 % 64) * 64 + c.toNat / 64 % 64) * 64 +
          c.toNat % 64 = c.toNat by omega]
    rw [utf8EncodeChar_four h] at hinput hbytes
    rw [utf16EncodeChar_pair h] at hunits
    rw [body, hinput, past, storedUnits, if_neg (Nat.not_lt.mpr h),
      utf16EncodeChar_pair h, utf8EncodeChar_four h]
    simp only [cons_append, nil_append, hbyte, lead_four, hshort, if_false, hmask]
    exact multiByte_stored hbytes hunits hload

/-! ## Whole strings -/

theorem countNumberOfCharacters_utf8 (text : List Char) (hne : ∀ c ∈ text, c.toNat ≠ 0) :
    ∀ max < 0, ∀ num, countNumberOfCharacters.loop (utf8 text ++ [0]) max num =
      some (num + (utf16 text).length) := by
  induction text with
  | nil =>
    intro max _ num
    simp [countNumberOfCharacters.loop]
  | cons c text ih =>
    intro max hmax num
    have htail : ∀ d ∈ text, d.toNat ≠ 0 := fun d hd ↦ hne d (mem_cons_of_mem c hd)
    rw [utf8_cons, append_assoc,
      countNumberOfCharacters_char (hne c mem_cons_self) _ (by omega), ih htail _ (by omega)]
    simp only [utf16_cons, length_append]
    push_cast
    rw [Int.add_assoc]

def storedText (text : List Char) : List UInt16 :=
  text.flatMap storedUnits

/-- The state behind a text of the input. -/
def FromUTF8.pastText (st : FromUTF8) (text : List Char) (rest : List UInt8) : FromUTF8 where
  inputUTF8 := rest
  outputUTF16 := st.outputUTF16 ++ storedText text
  outputUTF16_size := st.outputUTF16_size - (utf16 text).length
  iMaxChars := st.iMaxChars - (utf16 text).length
  iMaxBytes := st.iMaxBytes - (utf8 text).length

/-- The loop converts the characters one by one and stops behind the last, when `iMaxChars` is the
number of their units. -/
theorem loop_text (text : List Char) (hne : ∀ c ∈ text, c.toNat ≠ 0) (rest : List UInt8) :
    ∀ (n : ℕ) (st : FromUTF8), st.inputUTF8 = utf8 text ++ rest →
      st.iMaxChars = (utf16 text).length → (utf16 text).length ≤ n →
      ((utf8 text).length : ℤ) ≤ st.iMaxBytes →
      ((utf16 text).length : ℤ) ≤ st.outputUTF16_size →
      loop false n st = some (true, st.pastText text rest) := by
  induction text with
  | nil =>
    intro n st hinput hchars _ _ _
    have hstop : ¬ (st.iMaxChars > 0 ∧ st.iMaxBytes > 0) := by
      rw [hchars]
      simp
    have hpast : st.pastText [] rest = st := by
      cases st
      simp_all [pastText, storedText]
    rw [hpast]
    cases n with
    | zero => rfl
    | succ n => rw [loop, if_neg hstop]
  | cons c text ih =>
    intro n st hinput hchars hturns hbytes hunits
    have htail : ∀ d ∈ text, d.toNat ≠ 0 := fun d hd ↦ hne d (mem_cons_of_mem c hd)
    have hwidth : 0 < (String.utf8EncodeChar c).length :=
      length_pos_iff.mpr String.utf8EncodeChar_ne_nil
    have hunit : 0 < (utf16EncodeChar c).length := by
      rw [length_utf16EncodeChar]
      split <;> decide
    simp only [utf8_cons, utf16_cons, length_append, append_assoc] at *
    push_cast at hchars hbytes hunits
    cases n with
    | zero => omega
    | succ n =>
      have hgo : st.iMaxChars > 0 ∧ st.iMaxBytes > 0 := by omega
      have hturn := body_char (hne c mem_cons_self) hinput (by omega) (by omega)
      rw [loop, if_pos hgo, hturn]
      calc
        loop false n (st.past c (utf8 text ++ rest)) =
            some (true, (st.past c (utf8 text ++ rest)).pastText text rest) := by
          apply ih htail n (st.past c (utf8 text ++ rest)) rfl
          · simp only [past]
            omega
          · omega
          · simp only [past]
            omega
          · simp only [past]
            omega
        _ = some (true, st.pastText (c :: text) rest) := by
          simp [pastText, past, storedText, Int.sub_sub]

end MicroFramework.Unicode
