import MicroFramework.Unicode.ManagedString
import MicroFramework.Unicode.RoundTrip

/-!
# The characters of a string, one by one and all at once

`get_Chars` moves over the bytes to a character and reads it with a bound of three bytes, so that a
character of four bytes is never read and the result is what the stack held.  For every other
string it agrees with `ToCharArray`.
-/

namespace MicroFramework.Unicode

open Utf Arrays FromUTF8 List Option

/-! ## Moving -/

theorem multiByte_moved {st : FromUTF8} {src : List UInt8} {bytes units ch2 : ℕ}
    {stored : ℕ → List UInt16} (hbytes : (bytes : ℤ) ≤ st.iMaxBytes) :
    st.multiByte true src bytes units ch2 stored =
      some (true, { st with
        inputUTF8 := src.drop (bytes - 1)
        iMaxChars := st.iMaxChars - units
        iMaxBytes := st.iMaxBytes - bytes }) := by
  rw [multiByte, if_pos hbytes, if_pos rfl]

def FromUTF8.movedPast (st : FromUTF8) (text : List Char) (rest : List UInt8) : FromUTF8 :=
  { st with
    inputUTF8 := rest
    iMaxChars := st.iMaxChars - (utf16 text).length
    iMaxBytes := st.iMaxBytes - (utf8 text).length }

theorem body_char_moved {c : Char} (hne : c.toNat ≠ 0) {st : FromUTF8} {rest : List UInt8}
    (hinput : st.inputUTF8 = String.utf8EncodeChar c ++ rest)
    (hbytes : ((String.utf8EncodeChar c).length : ℤ) ≤ st.iMaxBytes) :
    st.body true = some (true, st.movedPast [c] rest) := by
  have hvalid := toNat_valid c
  rcases width_cases c with h | h | h | h
  · have hsmall : c.toNat < 0x10000 := by omega
    have hbyte : (UInt8.ofNat c.toNat).toNat = c.toNat := byte_toNat (by omega)
    rw [utf8EncodeChar_one h, singleton_append] at hinput
    rw [body, hinput, movedPast, utf16_cons, utf8_cons,
      utf16EncodeChar_unit hsmall, utf8EncodeChar_one h]
    simp only [hbyte, lead_single h, hne, if_false, if_true]
    rfl
  · have hsmall : c.toNat < 0x10000 := by omega
    have hbyte : (UInt8.ofNat (c.toNat / 64 % 32 + 0xC0)).toNat = c.toNat / 64 % 32 + 0xC0 :=
      byte_toNat (by omega)
    have hlong : ¬ (c.toNat / 64 % 32 + 0xC0) &&& 0xFF < 0xC2 := by
      rw [Nat.and_two_pow_sub_one_eq_mod _ 8]
      omega
    rw [utf8EncodeChar_two h.1 h.2] at hinput hbytes
    rw [body, hinput, movedPast, utf16_cons, utf8_cons,
      utf16EncodeChar_unit hsmall, utf8EncodeChar_two h.1 h.2]
    simp only [cons_append, nil_append, hbyte, lead_two, hlong, if_false]
    exact multiByte_moved hbytes
  · have hbyte : (UInt8.ofNat (c.toNat / 4096 % 16 + 0xE0)).toNat = c.toNat / 4096 % 16 + 0xE0 :=
      byte_toNat (by omega)
    rw [utf8EncodeChar_three h.1 h.2] at hinput hbytes
    rw [body, hinput, movedPast, utf16_cons, utf8_cons,
      utf16EncodeChar_unit h.2, utf8EncodeChar_three h.1 h.2]
    simp only [cons_append, nil_append, hbyte, lead_three]
    exact multiByte_moved hbytes
  · have hbyte : (UInt8.ofNat (c.toNat / 262144 % 8 + 0xF0)).toNat =
        c.toNat / 262144 % 8 + 0xF0 :=
      byte_toNat (by omega)
    have hshort : ¬ (c.toNat / 262144 % 8 + 0xF0) &&& 0xFF ≥ 0xF5 := by
      rw [Nat.and_two_pow_sub_one_eq_mod _ 8]
      omega
    rw [utf8EncodeChar_four h] at hinput hbytes
    rw [body, hinput, movedPast, utf16_cons, utf8_cons,
      utf16EncodeChar_pair h, utf8EncodeChar_four h]
    simp only [cons_append, nil_append, hbyte, lead_four, hshort, if_false]
    exact multiByte_moved hbytes

/-- A move stops behind the text whose units it was asked for. -/
theorem loop_moved (text : List Char) (hne : ∀ c ∈ text, c.toNat ≠ 0) (rest : List UInt8) :
    ∀ (n : ℕ) (st : FromUTF8), st.inputUTF8 = utf8 text ++ rest →
      st.iMaxChars = (utf16 text).length → (utf16 text).length ≤ n →
      ((utf8 text).length : ℤ) ≤ st.iMaxBytes →
      loop true n st = some (true, st.movedPast text rest) := by
  induction text with
  | nil =>
    intro n st hinput hchars _ _
    have hstop : ¬ (st.iMaxChars > 0 ∧ st.iMaxBytes > 0) := by
      rw [hchars]
      simp
    have hpast : st.movedPast [] rest = st := by
      cases st
      simp_all [movedPast]
    rw [hpast]
    cases n with
    | zero => rfl
    | succ n => rw [loop, if_neg hstop]
  | cons c text ih =>
    intro n st hinput hchars hturns hbytes
    have htail : ∀ d ∈ text, d.toNat ≠ 0 := fun d hd ↦ hne d (mem_cons_of_mem c hd)
    have hwidth : 0 < (String.utf8EncodeChar c).length :=
      length_pos_iff.mpr String.utf8EncodeChar_ne_nil
    have hunit : 0 < (utf16EncodeChar c).length := by
      rw [length_utf16EncodeChar]
      split <;> decide
    simp only [utf8_cons, utf16_cons, length_append, append_assoc] at *
    push_cast at hchars hbytes
    cases n with
    | zero => omega
    | succ n =>
      have hgo : st.iMaxChars > 0 ∧ st.iMaxBytes > 0 := by omega
      have hturn := body_char_moved (hne c mem_cons_self) hinput (by omega)
      rw [loop, if_pos hgo, hturn]
      calc
        loop true n (st.movedPast [c] (utf8 text ++ rest)) =
            some (true, (st.movedPast [c] (utf8 text ++ rest)).movedPast text rest) := by
          apply ih htail n (st.movedPast [c] (utf8 text ++ rest)) rfl
          · simp only [movedPast, utf16_cons, utf16_nil, append_nil]
            omega
          · omega
          · simp only [movedPast, utf8_cons, utf8_nil, append_nil]
            omega
        _ = some (true, st.movedPast (c :: text) rest) := by simp [movedPast, Int.sub_sub]

/-- `ConvertFromUTF8`, only moving, over a text whose bytes are within the bound. -/
theorem convertFromUTF8_moved {text : List Char} (hne : ∀ c ∈ text, c.toNat ≠ 0)
    (hfits : 3 * (utf16 text).length < 2 ^ 31) (rest : List UInt8) (size : ℤ) :
    convertFromUTF8 (utf8 text ++ rest) size (utf16 text).length true (-1) =
      some ⟨true, rest, [], size, false⟩ := by
  have hbytes := length_utf8_le_maxBytes hfits
  have hloop := loop_moved text hne rest (utf16 text).length
    ⟨utf8 text ++ rest, [], size, (utf16 text).length, maxBytes (utf16 text).length (-1)⟩
    rfl rfl (Nat.le_refl _) (by dsimp only; exact hbytes)
  have hturns : ((utf16 text).length : ℤ).toNat = (utf16 text).length := Int.toNat_natCast _
  unfold convertFromUTF8
  rw [hturns, hloop]
  rfl

/-! ## Reading one character -/

/-- A character of up to three bytes is read. -/
theorem convertFromUTF8_one {c : Char} (hne : c.toNat ≠ 0) (hplain : c.toNat < 0x10000)
    (rest : List UInt8) :
    convertFromUTF8 (String.utf8EncodeChar c ++ rest) 2 1 false (-1) =
      some ⟨true, rest, [UInt16.ofNat c.toNat], 1, true⟩ := by
  have hunit := utf16EncodeChar_unit hplain
  have hbytes : (String.utf8EncodeChar c).length ≤ 3 := by
    have hlength := (length_utf8_bounds [c]).2
    rw [utf8_cons, utf16_cons, hunit] at hlength
    simpa using hlength
  have hmax : maxBytes 1 (-1) = 3 := by decide
  have hone : ((utf16EncodeChar c).length : ℤ) ≤ 2 := by
    rw [hunit, length_singleton]
    decide
  have hturn := @body_char c rest ⟨String.utf8EncodeChar c ++ rest, [], 2, 1, 3⟩ hne rfl
    (by dsimp only; omega) hone
  have hturns : (1 : ℤ).toNat = 0 + 1 := rfl
  have hgo : (1 : ℤ) > 0 ∧ (3 : ℤ) > 0 := by decide
  unfold convertFromUTF8
  rw [hmax, hturns, loop]
  dsimp only
  rw [if_pos hgo, hturn]
  simp [loop, past, conclude, hunit, storedUnits_unit hplain]

/-- A character of four bytes is not read: three bytes are allowed for it. -/
theorem convertFromUTF8_four {c : Char} (hlarge : 0x10000 ≤ c.toNat) (rest : List UInt8) :
    convertFromUTF8 (String.utf8EncodeChar c ++ rest) 2 1 false (-1) =
      some ⟨false, String.utf8EncodeChar c ++ rest, [], 2, false⟩ := by
  have hvalid := toNat_valid c
  have hbyte : (UInt8.ofNat (c.toNat / 262144 % 8 + 0xF0)).toNat = c.toNat / 262144 % 8 + 0xF0 :=
    byte_toNat (by omega)
  have hshort : ¬ (c.toNat / 262144 % 8 + 0xF0) &&& 0xFF ≥ 0xF5 := by
    rw [Nat.and_two_pow_sub_one_eq_mod _ 8]
    omega
  have hmax : maxBytes 1 (-1) = 3 := by decide
  have hturns : (1 : ℤ).toNat = 0 + 1 := rfl
  have hgo : (1 : ℤ) > 0 ∧ (3 : ℤ) > 0 := by decide
  unfold convertFromUTF8
  rw [hmax, hturns, loop]
  dsimp only
  rw [if_pos hgo, body, utf8EncodeChar_four hlarge]
  simp only [cons_append, hbyte, lead_four, hshort, if_false, multiByte]
  rfl

theorem countNumberOfCharacters_text {text : List Char} (hne : ∀ c ∈ text, c.toNat ≠ 0) :
    countNumberOfCharacters (utf8 text ++ [0]) (-1) = some ((utf16 text).length : ℤ) := by
  have hloop := countNumberOfCharacters_utf8 text hne (-1) (by decide) 0
  rwa [Int.zero_add] at hloop

theorem utf8_append (text more : List Char) : utf8 (text ++ more) = utf8 text ++ utf8 more :=
  flatMap_append

theorem utf16_append (text more : List Char) : utf16 (text ++ more) = utf16 text ++ utf16 more :=
  flatMap_append

theorem getChars_at {pre post : List Char} {c : Char} (hne : ∀ d ∈ pre ++ c :: post, d.toNat ≠ 0)
    (hfits : 3 * (utf16 (pre ++ c :: post)).length < 2 ^ 31) (buf : List UInt16) :
    getChars buf (utf8 (pre ++ c :: post) ++ [0]) (utf16 pre).length =
      some (.ok (if c.toNat < 0x10000 then UInt16.ofNat c.toNat else buf.headD 0)) := by
  have hnePre : ∀ d ∈ pre, d.toNat ≠ 0 := fun d hd ↦ hne d (mem_append_left _ hd)
  have hneChar : c.toNat ≠ 0 := hne c (mem_append_right _ mem_cons_self)
  have hunit : 0 < (utf16EncodeChar c).length := by
    rw [length_utf16EncodeChar]
    split <;> decide
  have hlength : (utf16 (pre ++ c :: post)).length =
      (utf16 pre).length + (utf16EncodeChar c).length + (utf16 post).length := by
    rw [utf16_append, utf16_cons, length_append, length_append, Nat.add_assoc]
  have hmove := convertFromUTF8_moved hnePre (by omega) (utf8 (c :: post) ++ [0]) 2
  unfold getChars
  rw [countNumberOfCharacters_text hne]
  dsimp only
  rw [if_neg (by omega), if_neg (by omega), utf8_append, append_assoc, hmove]
  dsimp only
  rw [utf8_cons, append_assoc]
  by_cases hplain : c.toNat < 0x10000
  · rw [convertFromUTF8_one hneChar hplain, if_pos hplain]
    rfl
  · rw [convertFromUTF8_four (Nat.le_of_not_lt hplain), if_neg hplain]
    rfl

/-! ## Reading all characters -/

theorem length_storedText (text : List Char) : (storedText text).length = (utf16 text).length := by
  induction text with
  | nil => simp [storedText]
  | cons c text ih =>
    rw [utf16_cons, length_append, ← ih, ← length_storedUnits, storedText, flatMap_cons,
      length_append, storedText]

/-- The whole text is stored into a buffer of its units, without a terminator. -/
theorem convertFromUTF8_all {text : List Char} (hne : ∀ c ∈ text, c.toNat ≠ 0)
    (hfits : 3 * (utf16 text).length < 2 ^ 31) :
    convertFromUTF8 (utf8 text ++ [0]) (utf16 text).length (utf16 text).length false (-1) =
      some ⟨false, [0], storedText text, 0, false⟩ := by
  have hbytes := length_utf8_le_maxBytes hfits
  have hloop := loop_text text hne [0] (utf16 text).length
    ⟨utf8 text ++ [0], [], (utf16 text).length, (utf16 text).length,
      maxBytes (utf16 text).length (-1)⟩
    rfl rfl (Nat.le_refl _) (by dsimp only; exact hbytes) (by dsimp only; exact le_rfl)
  have hturns : ((utf16 text).length : ℤ).toNat = (utf16 text).length := Int.toNat_natCast _
  unfold convertFromUTF8
  rw [hturns, hloop]
  simp [pastText, conclude]

/-- `ToCharArray` stores what `ConvertFromUTF8` stores of the whole text. -/
theorem convertToCharArray_text {text : List Char} (hne : ∀ c ∈ text, c.toNat ≠ 0)
    (hfits : 3 * (utf16 text).length < 2 ^ 31) (heap : Heap) :
    convertToCharArray heap (utf8 text ++ [0]) 0 (-1) =
      if heap.givesArray (utf16 text).length = false then some (.error .outOfMemory)
      else some (.ok (storedText text)) := by
  have hint : IsInt32 (utf16 text).length := by
    unfold IsInt32
    omega
  have hrange : checkRange 0 (utf16 text).length (utf16 text).length = true := by
    rw [checkRange_iff ⟨by decide, by decide⟩ hint hint]
    unfold InRange
    omega
  have hmove : convertFromUTF8 (utf8 text ++ [0]) (utf16 text).length 0 true (-1) =
      some ⟨true, utf8 text ++ [0], [], (utf16 text).length, false⟩ :=
    @convertFromUTF8_moved [] nofun (by decide) (utf8 text ++ [0]) (utf16 text).length
  unfold convertToCharArray
  rw [countNumberOfCharacters_text hne]
  dsimp only
  rw [if_neg (by omega), if_pos rfl, hrange, if_neg (by decide), Int.toNat_natCast, hmove]
  dsimp only
  rw [convertFromUTF8_all hne hfits]
  simp [Conversion.written, length_storedText]

/-! ## Both agree -/

/-- A string object: its text, without null characters, and its length.  The heap gives no object of
more than 65535 blocks, so that three bytes for each unit are far from the end of `int`. -/
structure ManagedString where
  text : List Char
  noNull : ∀ c ∈ text, c.toNat ≠ 0
  fits : 3 * (utf16 text).length < 2 ^ 31

namespace ManagedString

def bytes (s : ManagedString) : List UInt8 := utf8 s.text ++ [0]

/-- For every index below `Length`, `get_Chars` gives the unit of the standard encoding, whatever
the stack held; and `ToCharArray`, where the heap gives the array, gives all of them. -/
def IndexingAgrees (s : ManagedString) : Prop :=
  ∃ length : ℕ, getLength s.bytes = some (length : ℤ) ∧
    (∀ (i : ℕ) (buf : List UInt16), i < length → buf.length = 3 →
      ∃ u, (utf16 s.text)[i]? = some u ∧ getChars buf s.bytes i = some (.ok u)) ∧
    ∀ heap, heap.givesArray length = false ∧
        convertToCharArray heap s.bytes 0 (-1) = some (.error .outOfMemory) ∨
      ∃ array, convertToCharArray heap s.bytes 0 (-1) = some (.ok array) ∧
        array.length = length ∧ ∀ i < length, array[i]? = (utf16 s.text)[i]?

theorem utf16_plain {text : List Char} (hplain : ∀ c ∈ text, c.toNat < 0x10000) :
    utf16 text = text.map fun c ↦ UInt16.ofNat c.toNat := by
  induction text with
  | nil => rfl
  | cons c text ih =>
    rw [utf16_cons, utf16EncodeChar_unit (hplain c mem_cons_self), map_cons,
      ih fun d hd ↦ hplain d (mem_cons_of_mem c hd), singleton_append]

/-- Indexing agrees with the array and the standard encoding exactly for the strings whose
characters have at most three bytes. -/
theorem indexingAgrees_iff (s : ManagedString) :
    s.IndexingAgrees ↔ ∀ c ∈ s.text, c.toNat < 0x10000 := by
  constructor
  · rintro ⟨length, hlength, hchars, -⟩ c hc
    by_contra hlarge
    obtain ⟨pre, post, htext⟩ := append_of_mem hc
    have hne := s.noNull
    have hfits := s.fits
    unfold getLength bytes at hlength
    unfold bytes at hchars
    rw [countNumberOfCharacters_text hne] at hlength
    rw [htext] at hchars hlength hne hfits
    have hlt : (utf16 pre).length < length := by
      have hcast := some.inj hlength
      rw [utf16_append, utf16_cons, utf16EncodeChar_pair (Nat.le_of_not_lt hlarge)] at hcast
      simp only [length_append, length_cons] at hcast
      omega
    -- The stack shows through: with two contents of the buffer there are two results.
    have hstack (x : UInt16) : (utf16 (pre ++ c :: post))[(utf16 pre).length]? = some x := by
      obtain ⟨u, hu, hget⟩ := hchars (utf16 pre).length [x, 0, 0] hlt rfl
      rw [getChars_at hne hfits, if_neg hlarge] at hget
      rw [hu, ← Except.ok.inj (some.inj hget)]
      rfl
    have hsame := some.inj ((hstack 0).symm.trans (hstack 1))
    exact absurd hsame (by decide)
  · intro hplain
    refine ⟨(utf16 s.text).length, countNumberOfCharacters_text s.noNull, ?_, ?_⟩
    · intro i buf hi _
      have hmap := utf16_plain hplain
      have hilt : i < s.text.length := by rwa [hmap, length_map] at hi
      have htext : s.text = s.text.take i ++ s.text[i] :: s.text.drop (i + 1) := by
        rw [getElem_cons_drop, take_append_drop]
      have hpre : (utf16 (s.text.take i)).length = i := by
        rw [utf16_plain fun c hc ↦ hplain c (mem_of_mem_take hc), length_map,
          length_take, Nat.min_eq_left hilt.le]
      have hget := @getChars_at (s.text.take i) (s.text.drop (i + 1)) s.text[i]
        (by rw [← htext]; exact s.noNull) (by rw [← htext]; exact s.fits) buf
      rw [← htext, hpre, if_pos (hplain _ (getElem_mem hilt))] at hget
      refine ⟨UInt16.ofNat s.text[i].toNat, ?_, hget⟩
      rw [hmap, getElem?_map, getElem?_eq_getElem hilt]
      rfl
    · intro heap
      rw [bytes, convertToCharArray_text s.noNull s.fits, (storedText_eq_iff s.text).mpr hplain]
      cases heap.givesArray (utf16 s.text).length with
      | false => exact Or.inl ⟨rfl, rfl⟩
      | true => exact Or.inr ⟨utf16 s.text, rfl, rfl, fun _ _ ↦ rfl⟩

/-- The string of the first character of four bytes: `get_Chars( 0 )` gives what the stack held, and
`ToCharArray` another high surrogate. -/
theorem not_indexingAgrees :
    ∃ s : ManagedString, s.bytes = [0xF0, 0x90, 0x80, 0x80, 0] ∧
      getChars [7, 0, 0] s.bytes 0 = some (.ok 7) ∧
      convertToCharArray ⟨fun _ ↦ true, fun _ ↦ true⟩ s.bytes 0 (-1) = some (.ok [0xD840, 0xDC00]) ∧
      utf16 s.text = [0xD800, 0xDC00] ∧ ¬ s.IndexingAgrees := by
  refine ⟨⟨[Char.ofNat 0x10000], forall_mem_singleton.mpr (by decide), by decide⟩, by decide,
    by decide, by decide, by decide, ?_⟩
  rintro ⟨length, hlength, hchars, -⟩
  have hlen : length = 2 := by
    have htwo : getLength [0xF0, 0x90, 0x80, 0x80, 0] = some 2 := by decide
    have hcast : some ((2 : ℕ) : ℤ) = some (length : ℤ) := htwo.symm.trans hlength
    exact (Int.ofNat_inj.mp (some.inj hcast)).symm
  obtain ⟨u, hu, hget⟩ := hchars 0 [7, 0, 0] (by omega) rfl
  have hseven : getChars [7, 0, 0] [0xF0, 0x90, 0x80, 0x80, 0] 0 = some (.ok 7) := by decide
  have hhigh : (utf16 [Char.ofNat 0x10000])[0]? = some 0xD800 := by decide
  have heq : (0xD800 : UInt16) = 7 :=
    (some.inj (hhigh.symm.trans hu)).trans (Except.ok.inj (some.inj (hget.symm.trans hseven)))
  exact absurd heq (by decide)

end ManagedString

end MicroFramework.Unicode
