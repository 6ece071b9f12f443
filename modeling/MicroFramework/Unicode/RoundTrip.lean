import MicroFramework.Unicode.Decoding

/-!
# The round trip between UTF-16 and UTF-8

A well-formed string comes back unchanged from UTF-8 exactly when it has no surrogate pair and
three bytes for each of its units are a 32-bit `int`: a pair is stored with a wrong high surrogate,
and where the product `iMaxChars * 3` leaves the `int` range it bounds the bytes by less than the
units there are.
-/

namespace MicroFramework.Unicode

open Utf List FromUTF8

/-! ## The bound on the bytes -/

variable {n : ℕ}

theorem maxBytes_default (h : 3 * n < 2 ^ 31) : maxBytes n (-1) = 3 * n := by
  rw [maxBytes, if_pos rfl, Int.bmod_def]
  omega

theorem maxBytes_overflow (hfits : n < 2 ^ 31) (h : 2 ^ 31 ≤ 3 * n) :
    maxBytes n (-1) < n := by
  have hturns : (n : ℤ) * 3 / 2 ^ 32 = 0 ∨ (n : ℤ) * 3 / 2 ^ 32 = 1 := by omega
  rw [maxBytes, if_pos rfl, Int.bmod_def]
  rcases hturns with hturns | hturns <;> omega

/-- A unit takes one to three bytes. -/
theorem length_utf8_bounds (text : List Char) :
    (utf16 text).length ≤ (utf8 text).length ∧
      (utf8 text).length ≤ 3 * (utf16 text).length := by
  induction text with
  | nil => simp
  | cons c text ih =>
    have hchar : (utf16EncodeChar c).length ≤ (String.utf8EncodeChar c).length ∧
        (String.utf8EncodeChar c).length ≤ 3 * (utf16EncodeChar c).length := by
      rcases width_cases c with h | h | h | h
      · simp [utf16EncodeChar_unit (show c.toNat < 0x10000 by omega), utf8EncodeChar_one h]
      · simp [utf16EncodeChar_unit (show c.toNat < 0x10000 by omega), utf8EncodeChar_two h.1 h.2]
      · simp [utf16EncodeChar_unit h.2, utf8EncodeChar_three h.1 h.2]
      · simp [utf16EncodeChar_pair h, utf8EncodeChar_four h]
    simp only [utf8_cons, utf16_cons, length_append]
    omega

/-- Where three bytes a unit are an `int`, the bound is never reached. -/
theorem length_utf8_le_maxBytes {text : List Char} (hfits : 3 * (utf16 text).length < 2 ^ 31) :
    ((utf8 text).length : ℤ) ≤ maxBytes (utf16 text).length (-1) := by
  have hlength := (length_utf8_bounds text).2
  rw [maxBytes_default hfits]
  omega

/-! ## The bound on the output -/

/-- The units stored and the bytes still allowed, together: no turn raises them. -/
def FromUTF8.budget (st : FromUTF8) : ℤ := st.outputUTF16.length + st.iMaxBytes

variable {goOn : Bool} {st st' : FromUTF8}

theorem multiByte_budget {src : List UInt8} {bytes units ch2 : ℕ}
    {stored : ℕ → List UInt16} (hstored : ∀ v, (stored v).length ≤ bytes) (hpos : 0 < st.iMaxBytes)
    (h : st.multiByte false src bytes units ch2 stored = some (goOn, st')) :
    st'.budget ≤ st.budget ∧ 0 ≤ st'.iMaxBytes := by
  unfold multiByte at h
  split at h
  · next hbytes =>
    rw [if_neg (by decide)] at h
    split at h
    · cases h
      exact ⟨Int.le_refl _, Int.le_of_lt hpos⟩
    · split at h
      · cases h
      · next value rest _ =>
        cases h
        have hle := hstored value
        simp only [budget, length_append]
        push_cast
        omega
  · cases h
    exact ⟨Int.le_refl _, Int.le_of_lt hpos⟩

theorem body_budget (hpos : 0 < st.iMaxBytes)
    (h : st.body false = some (goOn, st')) : st'.budget ≤ st.budget ∧ 0 ≤ st'.iMaxBytes := by
  have hsame : st.budget ≤ st.budget ∧ 0 ≤ st.iMaxBytes := ⟨Int.le_refl _, Int.le_of_lt hpos⟩
  unfold body at h
  split at h
  · cases h
  · next b src _ =>
    dsimp only at h
    split at h
    · split at h
      · cases h
        exact hsame
      · rw [if_neg (by decide)] at h
        split at h
        · cases h
          exact hsame
        · cases h
          simp only [budget, length_append, length_singleton]
          push_cast
          omega
    · cases h
      exact hsame
    · split at h
      · cases h
        exact hsame
      · exact multiByte_budget (fun _ ↦ by simp) hpos h
    · exact multiByte_budget (fun _ ↦ by simp) hpos h
    · split at h
      · cases h
        exact hsame
      · exact multiByte_budget (fun _ ↦ by simp) hpos h

/-- The loop stores at most one unit for each byte it may read. -/
theorem loop_output_le (n : ℕ) : ∀ (st st' : FromUTF8) (goOn : Bool),
    loop false n st = some (goOn, st') →
      (st'.outputUTF16.length : ℤ) ≤ st.outputUTF16.length + max st.iMaxBytes 0 := by
  induction n with
  | zero =>
    intro st st' goOn h
    cases h
    omega
  | succ n ih =>
    intro st st' goOn h
    rw [loop] at h
    split at h
    · next hgo =>
      split at h
      · cases h
      · next turned hturn =>
        cases h
        have hbudget := body_budget hgo.2 hturn
        simp only [budget] at hbudget
        omega
      · next turned hturn =>
        have hbudget := body_budget hgo.2 hturn
        have hrest := ih _ _ _ h
        simp only [budget] at hbudget
        omega
    · cases h
      omega

/-! ## The round trip -/

/-- The UTF-8 encoding of a UTF-16 string. -/
def standardEncoding (s : List UInt16) : List UInt8 :=
  utf8 (scalars s)

/-- The zero-terminated string `s` makes the round trip: in an output buffer of `size` bytes it
becomes its UTF-8 encoding, of the length `CountNumberOfBytes` says; from these bytes, with
`iMaxChars` as `CountNumberOfCharacters` says, `s` comes back into every output buffer that holds
it; and the conversion to UTF-8 never reads behind the terminator of `s`. -/
structure RoundTrips (s : List UInt16) (size : ℤ) : Prop where
  encodes : ∃ rest, convertToUTF8 (s ++ [0]) size s.length false =
    some ⟨true, rest, standardEncoding s, size - (standardEncoding s).length, true⟩
  counts : countNumberOfBytes (s ++ [0]) (-1) = some (standardEncoding s).length
  decodes : ∀ room : ℤ, s.length < room → ∃ iMaxChars rest,
    countNumberOfCharacters (standardEncoding s ++ [0]) (-1) = some iMaxChars ∧
      convertFromUTF8 (standardEncoding s ++ [0]) room iMaxChars false (-1) =
        some ⟨true, rest, s, room - s.length, true⟩
  reads_within : ∀ room fJustMove, (convertToUTF8 (s ++ [0]) room s.length fJustMove).isSome

/-- `ConvertFromUTF8` of a text whose bytes are within the bound. -/
theorem convertFromUTF8_utf8 {text : List Char} (hne : ∀ c ∈ text, c.toNat ≠ 0)
    (hfits : 3 * (utf16 text).length < 2 ^ 31) {room : ℤ}
    (hroom : ((utf16 text).length : ℤ) < room) :
    convertFromUTF8 (utf8 text ++ [0]) room (utf16 text).length false (-1) =
      some ⟨true, [0], storedText text, room - (utf16 text).length, true⟩ := by
  have hbytes := length_utf8_le_maxBytes hfits
  have hloop := loop_text text hne [0] (utf16 text).length
    ⟨utf8 text ++ [0], [], room, (utf16 text).length, maxBytes (utf16 text).length (-1)⟩
    rfl rfl (Nat.le_refl _) (by dsimp only; exact hbytes) (by dsimp only; omega)
  have hsize : ¬ room - (utf16 text).length < 1 := by omega
  have hturns : ((utf16 text).length : ℤ).toNat = (utf16 text).length := Int.toNat_natCast _
  unfold convertFromUTF8
  rw [hturns, hloop]
  simp [pastText, conclude, hsize]

/-- What comes back is the text exactly when none of its characters needs a surrogate pair. -/
theorem storedText_eq_iff (text : List Char) :
    storedText text = utf16 text ↔ ∀ c ∈ text, c.toNat < 0x10000 := by
  induction text with
  | nil => simp [storedText]
  | cons c text ih =>
    have hcons : storedText (c :: text) = storedUnits c ++ storedText text := by simp [storedText]
    rw [hcons, utf16_cons, forall_mem_cons, ← ih]
    constructor
    · intro heq
      have hparts := append_inj heq (length_storedUnits c)
      refine ⟨?_, hparts.2⟩
      by_contra hlarge
      exact storedUnits_ne (Nat.le_of_not_lt hlarge) hparts.1
    · intro h
      rw [storedUnits_unit h.1, h.2]

/-- The UTF-16 encoding has a surrogate exactly for a character from `0x10000` on. -/
theorem no_surrogate_iff (text : List Char) :
    (∀ u ∈ utf16 text, ¬ IsSurrogate u) ↔ ∀ c ∈ text, c.toNat < 0x10000 := by
  constructor
  · intro h c hc
    by_contra hlarge
    have hge := Nat.le_of_not_lt hlarge
    have hmem : UInt16.ofNat (0xDC00 + (c.toNat - 0x10000) % 0x400) ∈ utf16 text := by
      apply mem_flatMap.mpr
      refine ⟨c, hc, ?_⟩
      rw [utf16EncodeChar_pair hge]
      simp
    have hlow := low_isLowSurrogate c
    exact h _ hmem ⟨Nat.le_trans (by decide) hlow.1, hlow.2⟩
  · intro h u hu
    obtain ⟨c, hc, hunit⟩ := mem_flatMap.mp hu
    rw [utf16EncodeChar_unit (h c hc), mem_singleton] at hunit
    rw [hunit]
    exact unit_not_isSurrogate (h c hc)

/-- A well-formed string without a null unit, whose encoding fits an output buffer with an `int`
size, makes the round trip exactly when it has no surrogate and three bytes a unit are an `int`. -/
theorem roundTrips_iff {s : List UInt16} {size : ℤ} (hs : WellFormed s) (hnull : 0 ∉ s)
    (hroom : ((standardEncoding s).length : ℤ) < size) (hint : size < 2 ^ 31) :
    RoundTrips s size ↔ (∀ u ∈ s, ¬ IsSurrogate u) ∧ 3 * s.length < 2 ^ 31 := by
  have htext : utf16 (scalars s) = s := utf16_scalars hs
  have hne : ∀ c ∈ scalars s, c.toNat ≠ 0 := by
    intro c hc
    apply toNat_ne_zero _ hc
    rwa [htext]
  have hshort := (length_utf8_bounds (scalars s)).1
  have hcount : countNumberOfCharacters (standardEncoding s ++ [0]) (-1) = some (s.length : ℤ) := by
    have hloop := countNumberOfCharacters_utf8 (scalars s) hne (-1) (by decide) 0
    rw [htext, Int.zero_add] at hloop
    exact hloop
  rw [htext] at hshort
  constructor
  · intro h
    obtain ⟨iMaxChars, rest, hchars, hback⟩ := h.decodes (s.length + 1) (by omega)
    have hmax : iMaxChars = s.length := by
      rw [hcount] at hchars
      exact (Option.some.inj hchars).symm
    rw [hmax] at hback
    have hfits : 3 * s.length < 2 ^ 31 := by
      by_contra hover
      rw [standardEncoding] at hroom
      have hbound := maxBytes_overflow (n := s.length) (by omega) (Nat.le_of_not_lt hover)
      rw [convertFromUTF8] at hback
      split at hback
      · cases hback
      · cases hback
      · next st hloop =>
        have hle := loop_output_le _ _ _ _ hloop
        have hstored : st.outputUTF16 = s := by
          unfold conclude at hback
          rw [if_neg (by decide)] at hback
          split at hback
          · cases hback
          · exact congrArg Conversion.output (Option.some.inj hback)
        rw [hstored] at hle
        simp only [length_nil] at hle
        omega
    refine ⟨?_, hfits⟩
    have hconverted := @convertFromUTF8_utf8 _ hne (by rwa [htext]) (s.length + 1)
      (by rw [htext]; omega)
    rw [htext] at hconverted
    rw [standardEncoding, hconverted] at hback
    have hstored : storedText (scalars s) = utf16 (scalars s) := by
      rw [htext]
      exact congrArg Conversion.output (Option.some.inj hback)
    rw [← htext]
    exact (no_surrogate_iff (scalars s)).mpr ((storedText_eq_iff (scalars s)).mp hstored)
  · rintro ⟨hplain, hfits⟩
    have hstored : storedText (scalars s) = s := by
      rw [← htext] at hplain
      calc
        storedText (scalars s) = utf16 (scalars s) :=
          (storedText_eq_iff (scalars s)).mpr ((no_surrogate_iff (scalars s)).mp hplain)
        _ = s := htext
    refine ⟨?_, ?_, ?_, ?_⟩
    · have hloop := convertToUTF8_utf16 (scalars s) hne [] size s.length hroom (by rw [htext])
      rw [htext, nil_append] at hloop
      exact hloop
    · have hloop := countNumberOfBytes_utf16 (scalars s) hne (-1) (by decide) 0
      rw [htext, Int.zero_add] at hloop
      exact hloop
    · intro room hholds
      have hconverted := @convertFromUTF8_utf8 _ hne (by rwa [htext]) room (by rwa [htext])
      rw [htext, hstored] at hconverted
      exact ⟨s.length, [0], hcount, hconverted⟩
    · intro room fJustMove
      have hsome := convertToUTF8_isSome fJustMove (scalars s) hne [] room s.length
      rw [htext] at hsome
      exact hsome

/-- The two units `A` and the euro sign make the round trip. -/
theorem roundTrips_plain :
    RoundTrips [0x41, 0x20AC] 5 ↔
      (∀ u ∈ [0x41, 0x20AC], ¬ IsSurrogate u) ∧ 3 * [0x41, 0x20AC].length < 2 ^ 31 :=
  roundTrips_iff (.unit (by decide) (.unit (by decide) .nil)) (by decide) (by decide) (by decide)

/-- The first character with a surrogate pair comes back with another high surrogate. -/
theorem not_roundTrips_pair :
    WellFormed [0xD800, 0xDC00] ∧ 0 ∉ ([0xD800, 0xDC00] : List UInt16) ∧
      standardEncoding [0xD800, 0xDC00] = [0xF0, 0x90, 0x80, 0x80] ∧
      countNumberOfCharacters [0xF0, 0x90, 0x80, 0x80, 0] (-1) = some 2 ∧
      convertFromUTF8 [0xF0, 0x90, 0x80, 0x80, 0] 3 2 false (-1) =
        some ⟨true, [0], [0xD840, 0xDC00], 1, true⟩ ∧
      ¬ RoundTrips [0xD800, 0xDC00] 5 := by
  have hencoding : standardEncoding [0xD800, 0xDC00] = [0xF0, 0x90, 0x80, 0x80] := by decide
  have hcount : countNumberOfCharacters [0xF0, 0x90, 0x80, 0x80, 0] (-1) = some 2 := by decide
  have hback : convertFromUTF8 [0xF0, 0x90, 0x80, 0x80, 0] 3 2 false (-1) =
      some ⟨true, [0], [0xD840, 0xDC00], 1, true⟩ := by decide
  refine ⟨.pair (by decide) (by decide) .nil, by decide, hencoding, hcount, hback, ?_⟩
  intro h
  obtain ⟨iMaxChars, rest, hchars, hdecoded⟩ := h.decodes 3 (by decide)
  rw [hencoding] at hchars hdecoded
  cases hcount.symm.trans hchars
  have houtput := congrArg Conversion.output (Option.some.inj (hback.symm.trans hdecoded))
  have hhigh : (0xD840 : UInt16) = 0xD800 := (List.cons.inj houtput).1
  exact absurd hhigh (by decide)

end MicroFramework.Unicode
