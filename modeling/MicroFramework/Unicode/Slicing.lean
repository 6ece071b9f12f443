import MicroFramework.Unicode.Construction
import MicroFramework.Unicode.Indexing

/-!
# Slices of strings and of arrays of characters

A slice is created from the units of an array.  Where it has no surrogates, and also where the null
behind it ends it, the new string is exactly the slice; otherwise the two passes run into what stands
behind it, or the surrogates of the array are not those of the text.
-/

namespace MicroFramework.Unicode

open Utf Arrays List Option

/-! ## Exact slices -/

variable {text : List Char}

theorem length_utf16_of_plain (hplain : ∀ c ∈ text, c.toNat < 0x10000) :
    (utf16 text).length = text.length ∧ plainCount text = text.length := by
  have hcount : plainCount text = text.length :=
    countP_eq_length.mpr fun c hc ↦ decide_eq_true (hplain c hc)
  have hlength := length_utf16_eq text
  exact ⟨by omega, hcount⟩

/-- The tail lets the passes end behind the text: one more unit behind plain characters, or a null. -/
def Ends (text : List Char) (tail : List UInt16) : Prop :=
  (∀ c ∈ text, c.toNat < 0x10000) ∧ tail ≠ [] ∨ ∃ rest, tail = 0 :: rest

variable {tail : List UInt16}

theorem countNumberOfBytes_ends (hne : ∀ c ∈ text, c.toNat ≠ 0) (hends : Ends text tail) :
    countNumberOfBytes (utf16 text ++ tail) (utf16 text).length = some ((utf8 text).length : ℤ) := by
  rcases hends with ⟨hplain, htail⟩ | ⟨rest, rfl⟩
  · obtain ⟨u, tail, rfl⟩ := exists_cons_of_ne_nil htail
    have hlength := (length_utf16_of_plain hplain).1
    unfold countNumberOfBytes
    rw [countNumberOfBytes_text hne _ _ _ (Or.inr (by omega)), hlength, Int.sub_self,
      countNumberOfBytes.loop.eq_def]
    simp
  · exact CharBuffer.countNumberOfBytes_null hne rest le_rfl

theorem convertToUTF8_null (rest : List UInt16) (output : List UInt8) (max : ℤ) :
    ∃ rest', convertToUTF8.loop false (0 :: rest) output 1 max =
      some ⟨true, rest', output, 1, true⟩ := by
  by_cases hpos : max > 0
  · exact ⟨rest, by simp [convertToUTF8.loop, hpos, conclude]⟩
  · exact ⟨0 :: rest, by simp [convertToUTF8.loop, hpos, conclude]⟩

theorem convertToUTF8_ends (hne : ∀ c ∈ text, c.toNat ≠ 0) (hends : Ends text tail) :
    ∃ rest, convertToUTF8 (utf16 text ++ tail) ((utf8 text).length + 1) (utf16 text).length false =
      some ⟨true, rest, utf8 text, 1, true⟩ := by
  have hroom : ((utf8 text).length : ℤ) + 1 - (utf8 text).length = 1 := by ring
  unfold convertToUTF8
  rw [convertToUTF8_text hne tail _ _ _ (by omega) le_rfl, hroom, nil_append]
  rcases hends with ⟨hplain, htail⟩ | ⟨rest, rfl⟩
  · obtain ⟨u, tail, rfl⟩ := exists_cons_of_ne_nil htail
    obtain ⟨hlength, hcount⟩ := length_utf16_of_plain hplain
    rw [hlength, hcount, Int.sub_self]
    exact ⟨u :: tail, by simp [convertToUTF8.loop, conclude]⟩
  · exact convertToUTF8_null rest _ _

def Heap.generous : Heap := ⟨fun _ ↦ true, fun _ ↦ true⟩

/-- A successful result is the string of the units, inside its block. -/
def IsString (result : NewString) (units : List UInt16) : Prop :=
  result.InBounds ∧ ∃ chars, utf16 chars = units ∧ result.text = some (utf8 chars)

/-- The result is the string of the units, unless the heap does not give its blocks. -/
def Creates (heap : Heap) (units : List UInt16) (result : Option (Except Failure NewString)) :
    Prop :=
  ∃ chars, utf16 chars = units ∧
    if heap.givesBlocks (heapBlocks (sizeofString + (utf8 chars).length + 1)) = false then
      result = some (.error .outOfMemory)
    else ∃ s : NewString, result = some (.ok s) ∧ s.InBounds ∧ s.text = some (utf8 chars)

theorem Creates.isString {units : List UInt16} {result : Option (Except Failure NewString)}
    (h : Creates .generous units result) : ∃ s, result = some (.ok s) ∧ IsString s units := by
  obtain ⟨chars, hchars, hresult⟩ := h
  rw [if_neg (show ¬ Heap.generous.givesBlocks _ = false from Bool.true_eq_false_eq_False)]
    at hresult
  obtain ⟨s, hok, hin, htext⟩ := hresult
  exact ⟨s, hok, hin, chars, hchars, htext⟩

theorem createInstance_ends (hne : ∀ c ∈ text, c.toNat ≠ 0) (hends : Ends text tail)
    (hfits : 3 * (utf16 text).length < 2 ^ 31) (heap : Heap) :
    Creates heap (utf16 text) (createInstance heap (utf16 text ++ tail) (utf16 text).length) := by
  have hbytes := (length_utf8_bounds text).2
  have hsize : sizeInBytes (utf8 text).length = (utf8 text).length := by
    unfold sizeInBytes
    omega
  have hint : int32 ((utf8 text).length + 1) = (utf8 text).length + 1 :=
    int32_eq ⟨by omega, by omega⟩
  have hintLength : int32 (utf16 text).length = (utf16 text).length := int32_eq ⟨by omega, by omega⟩
  have hcount := countNumberOfBytes_ends hne hends
  rw [← hintLength] at hcount
  have htotal : (sizeofString + (utf8 text).length + 1) % 2 ^ 32 =
      sizeofString + (utf8 text).length + 1 := by
    unfold sizeofString
    omega
  refine ⟨text, rfl, ?_⟩
  rw [createInstance_eq heap hcount, hsize, hint, hintLength, htotal]
  split_ifs
  · rfl
  · obtain ⟨rest, hconvert⟩ := convertToUTF8_ends hne hends
    rw [hconvert]
    refine ⟨_, rfl, ?_, by simp [NewString.text]⟩
    apply inBounds_of_stored (by omega)
    rw [hint]
    exact ⟨List.nil_prefix, fun h ↦ (convertToUTF8_stored _ _ _ _ _ hconvert).nonzero h,
      (convertToUTF8_stored _ _ _ _ _ hconvert).room⟩

/-! ## Going on behind a text -/

theorem countNumberOfBytes_le (src : List UInt16) (max num : ℤ) :
    ∀ r, countNumberOfBytes.loop src max num = some r →
      r = -1 ∨ r ≤ num + 3 * src.length := by
  fun_induction countNumberOfBytes.loop src max num with
  | case1 => simp
  | case2 =>
    rintro _ ⟨⟩
    omega
  | case3 =>
    rintro _ ⟨⟩
    omega
  | case4 u src max num _ _ _ ih =>
    intro r h
    have := ih r h
    rw [length_cons]
    omega
  | case5 u src max num _ _ _ _ ih =>
    intro r h
    have := ih r h
    rw [length_cons]
    omega
  | case6 => simp
  | case7 => simp
  | case8 high max num _ _ _ _ _ _ low src _ ih =>
    intro r h
    have := ih r h
    simp only [length_cons]
    omega
  | case9 => simp
  | case10 u src max num _ _ _ _ _ _ ih =>
    intro r h
    have := ih r h
    rw [length_cons]
    omega

variable {n size : ℤ}

theorem size_cases (h : n = -1 ∨ 0 ≤ n ∧ n < 2 ^ 32) :
    int32 (sizeInBytes n + 1) ≤ 0 ∨ n ≠ -1 ∧ int32 (sizeInBytes n + 1) = n + 1 := by
  unfold sizeInBytes int32
  rw [Int.bmod_def]
  omega

theorem text_of_no_room {conversion : Conversion UInt16 UInt8}
    (h : Stored [] size conversion) (hsize : size ≤ 0) : conversion.output = [] := by
  have hroom := h.room
  rw [length_nil, max_eq_right hsize] at hroom
  apply length_eq_zero_iff.mp
  split_ifs at hroom <;> omega

theorem store_of_room {output bytes : List UInt8} (h : (bytes.length : ℤ) ≤ size) :
    store false output size bytes = some (output ++ bytes, size - bytes.length) := by
  rw [store, if_neg (by decide), if_neg (not_lt.mpr h)]

variable {u : UInt16}

/-- The bytes of the unit at the head, as long as both passes go on. -/
theorem next_unit {left num : ℤ} (hne : u ≠ 0)
    (hleft : left ≠ 0) (hcount : countNumberOfBytes.loop (u :: tail) left num = some n)
    (hn : n ≠ -1) :
    ¬ IsLowSurrogate u ∧ ∃ bytes : List UInt8, bytes ≠ [] ∧ num + bytes.length ≤ n ∧
      (∀ low rest, IsHighSurrogate u → tail = low :: rest →
        bytes = fourBytes (surrogatePair u.toNat low.toNat)) ∧
      ∀ output (size max : ℤ) conversion, 0 < max → (bytes.length : ℤ) ≤ size →
        convertToUTF8.loop false (u :: tail) output size max = some conversion →
        output ++ bytes <+: conversion.output := by
  have hzero : ¬ u.toNat = 0 := fun h ↦ hne (UInt16.toNat_inj.mp h)
  have hlimit (src : List UInt16) (m k : ℤ)
      (h : countNumberOfBytes.loop src m k = some n) : k ≤ n :=
    (countNumberOfBytes_ge src m k n h).resolve_left hn
  rw [countNumberOfBytes.loop.eq_def] at hcount
  simp only [hzero, hleft, if_false] at hcount
  by_cases hone : u.toNat < 0x80
  · rw [if_pos hone] at hcount
    refine ⟨fun h ↦ absurd h.1 (by omega), [UInt8.ofNat u.toNat], cons_ne_nil _ _,
      hlimit _ _ _ hcount, fun low rest h ↦ absurd h.1 (by omega), ?_⟩
    intro output size max conversion hmax hsize hconvert
    rw [convertToUTF8.loop, if_pos hmax] at hconvert
    simp only [hone, hzero, if_true, if_false, store_of_room hsize] at hconvert
    exact (convertToUTF8_stored _ _ _ _ _ hconvert).isPrefix
  rw [if_neg hone] at hcount
  by_cases htwo : u.toNat < 0x800
  · rw [if_pos htwo] at hcount
    refine ⟨fun h ↦ absurd h.1 (by omega), twoBytes u.toNat, cons_ne_nil _ _,
      hlimit _ _ _ hcount, fun low rest h ↦ absurd h.1 (by omega), ?_⟩
    intro output size max conversion hmax hsize hconvert
    rw [convertToUTF8.loop, if_pos hmax] at hconvert
    simp only [hone, htwo, if_true, if_false, store_of_room hsize] at hconvert
    exact (convertToUTF8_stored _ _ _ _ _ hconvert).isPrefix
  rw [if_neg htwo] at hcount
  by_cases hlow : lowSurrogateStart ≤ u.toNat ∧ u.toNat ≤ lowSurrogateEnd
  · rw [if_pos hlow] at hcount
    exact absurd (some.inj hcount).symm hn
  rw [if_neg hlow] at hcount
  refine ⟨hlow, ?_⟩
  by_cases hhigh : highSurrogateStart ≤ u.toNat ∧ u.toNat ≤ highSurrogateEnd
  · rw [if_pos hhigh] at hcount
    cases tail with
    | nil => cases hcount
    | cons low tail =>
      dsimp only at hcount
      split_ifs at hcount with hpair
      · refine ⟨fourBytes (surrogatePair u.toNat low.toNat), cons_ne_nil _ _,
          hlimit _ _ _ hcount, ?_, ?_⟩
        · rintro _ _ _ ⟨⟩
          rfl
        · intro output size max conversion hmax hsize hconvert
          rw [convertToUTF8.loop, if_pos hmax] at hconvert
          simp only [hone, htwo, hhigh, and_self, if_true, if_false, store_of_room hsize]
            at hconvert
          exact (convertToUTF8_stored _ _ _ _ _ hconvert).isPrefix
      · exact absurd (some.inj hcount).symm hn
  · rw [if_neg hhigh] at hcount
    refine ⟨threeBytes u.toNat, cons_ne_nil _ _, hlimit _ _ _ hcount,
      fun low rest h ↦ absurd h hhigh, ?_⟩
    intro output size max conversion hmax hsize hconvert
    rw [convertToUTF8.loop, if_pos hmax] at hconvert
    simp only [hone, htwo, hhigh, if_false, store_of_room hsize] at hconvert
    exact (convertToUTF8_stored _ _ _ _ _ hconvert).isPrefix

/-- A string created from a text with another unit behind it, as long as both passes go on there:
nothing was stored, or the bytes of that unit behind those of the text. -/
theorem createInstance_next {length : ℕ}
    {s : NewString} (hne : ∀ c ∈ text, c.toNat ≠ 0) (hu : u ≠ 0)
    (hint : int32 length = length) (hlength : (utf16 text).length ≤ length)
    (hcounted : text.length < length) (hplain : plainCount text < length)
    (hfits : 3 * (utf16 text ++ u :: tail).length < 2 ^ 32)
    (hcreated : createInstance .generous (utf16 text ++ u :: tail) length = some (.ok s)) :
    0 ∉ s.output ∧ (s.output = [] ∨ ¬ IsLowSurrogate u ∧ ∃ bytes : List UInt8, bytes ≠ [] ∧
      (∀ low rest, IsHighSurrogate u → tail = low :: rest →
        bytes = fourBytes (surrogatePair u.toNat low.toNat)) ∧
      utf8 text ++ bytes <+: s.output) := by
  cases hcount : countNumberOfBytes (utf16 text ++ u :: tail) (int32 length) with
  | none =>
    unfold createInstance at hcreated
    rw [hcount] at hcreated
    cases hcreated
  | some n =>
    rw [createInstance_given (fun _ ↦ rfl) hcount, map_eq_some_iff] at hcreated
    obtain ⟨conversion, hconvert, hs⟩ := hcreated
    obtain rfl := Except.ok.inj hs
    have hstored := convertToUTF8_stored _ _ _ _ _ hconvert
    refine ⟨fun h ↦ not_mem_nil (hstored.nonzero h), ?_⟩
    have hupper := countNumberOfBytes_le _ _ _ _ hcount
    have hlower := countNumberOfBytes_ge _ _ _ _ hcount
    rcases size_cases (n := n) (by omega) with hsize | ⟨hn, hsize⟩
    · exact Or.inl (text_of_no_room hstored hsize)
    · rw [hint, countNumberOfBytes, countNumberOfBytes_text hne _ _ _ (Or.inr (by omega)),
        Int.zero_add] at hcount
      obtain ⟨hlow, bytes, hbytes, hle, hpair, hgo⟩ := next_unit hu (by omega) hcount hn
      rw [hsize, hint, convertToUTF8, convertToUTF8_text hne _ _ _ _ (by omega) (by omega),
        nil_append] at hconvert
      exact Or.inr ⟨hlow, bytes, hbytes, hpair,
        hgo _ _ _ _ (by omega) (by omega) hconvert⟩

/-- The heap that gives every block leaves only the error of the range. -/
theorem createInstance_generous (szText : List UInt16) (length : ℕ) (failure : Failure) :
    createInstance .generous szText length ≠ some (.error failure) := by
  intro h
  cases hcount : countNumberOfBytes szText (int32 length) with
  | none =>
    unfold createInstance at h
    rw [hcount] at h
    cases h
  | some n =>
    rw [createInstance_given (fun _ ↦ rfl) hcount, map_eq_some_iff] at h
    obtain ⟨conversion, -, hresult⟩ := h
    cases hresult

/-! ## Slices of a text -/

/-- A text is not the encoding of a string that begins with a low surrogate. -/
theorem utf16_head (h : utf16 text = u :: tail) : ¬ IsLowSurrogate u := by
  have hwell := wellFormed_utf16 text
  rw [h] at hwell
  cases hwell with
  | unit hu _ => exact fun hlow ↦ hu ⟨Nat.le_trans (by decide) hlow.1, hlow.2⟩
  | pair hhigh _ _ =>
    intro hlow
    have hle := hhigh.2
    have hge := hlow.1
    omega

variable {c : Char}

variable {d : Char}

theorem char_eq_of_toNat (h : c.toNat = d.toNat) : c = d :=
  Char.ext (UInt32.toNat_inj.mp h)

/-- A character is known from its units, whatever follows. -/
theorem utf16EncodeChar_append_inj {rest rest' : List UInt16}
    (h : utf16EncodeChar c ++ rest = utf16EncodeChar d ++ rest') : c = d ∧ rest = rest' := by
  have hsurrogate {e f : Char} (he : e.toNat < 0x10000) (hf : 0x10000 ≤ f.toNat) :
      UInt16.ofNat e.toNat ≠ UInt16.ofNat (0xD800 + (f.toNat - 0x10000) / 0x400) := by
    intro heq
    have hhigh := high_isHighSurrogate hf
    rw [← heq] at hhigh
    exact unit_not_isSurrogate he ⟨hhigh.1, Nat.le_trans hhigh.2 (by decide)⟩
  by_cases hc : c.toNat < 0x10000
  · by_cases hd : d.toNat < 0x10000
    · rw [utf16EncodeChar_unit hc, utf16EncodeChar_unit hd] at h
      obtain ⟨hunit, hrest⟩ := List.cons.inj h
      have hvalue := congrArg UInt16.toNat hunit
      rw [unit_toNat hc, unit_toNat hd] at hvalue
      exact ⟨char_eq_of_toNat hvalue, hrest⟩
    · rw [utf16EncodeChar_unit hc, utf16EncodeChar_pair (Nat.le_of_not_lt hd)] at h
      exact absurd (List.cons.inj h).1 (hsurrogate hc (Nat.le_of_not_lt hd))
  · by_cases hd : d.toNat < 0x10000
    · rw [utf16EncodeChar_pair (Nat.le_of_not_lt hc), utf16EncodeChar_unit hd] at h
      exact absurd (List.cons.inj h).1.symm (hsurrogate hd (Nat.le_of_not_lt hc))
    · rw [utf16EncodeChar_pair (Nat.le_of_not_lt hc),
        utf16EncodeChar_pair (Nat.le_of_not_lt hd)] at h
      obtain ⟨hhigh, htail⟩ := List.cons.inj h
      obtain ⟨hlow, hrest⟩ := List.cons.inj htail
      have hhighValue := congrArg UInt16.toNat hhigh
      have hlowValue := congrArg UInt16.toNat hlow
      rw [high_toNat (Nat.le_of_not_lt hc), high_toNat (Nat.le_of_not_lt hd)] at hhighValue
      rw [low_toNat, low_toNat] at hlowValue
      exact ⟨char_eq_of_toNat (by omega), hrest⟩

theorem utf16EncodeChar_ne_nil (c : Char) : utf16EncodeChar c ≠ [] := by
  apply ne_nil_of_length_pos
  rw [length_utf16EncodeChar]
  split <;> decide

theorem utf16_ne_nil {chars : List Char} (h : chars ≠ []) : utf16 chars ≠ [] := by
  obtain ⟨c, chars, rfl⟩ := exists_cons_of_ne_nil h
  rw [utf16_cons]
  exact append_ne_nil_of_left_ne_nil (utf16EncodeChar_ne_nil c) _

/-- The characters at the front of a text are known from their units. -/
theorem utf16_prefix : ∀ {chars : List Char} {rest : List UInt16},
    utf16 text = utf16 chars ++ rest → ∃ post, text = chars ++ post := by
  induction text with
  | nil =>
    intro chars rest h
    cases chars with
    | nil => exact ⟨[], rfl⟩
    | cons c chars =>
      have hnil := (append_eq_nil_iff.mp h.symm).1
      exact absurd hnil (utf16_ne_nil (cons_ne_nil c chars))
  | cons d text ih =>
    intro chars rest h
    cases chars with
    | nil => exact ⟨d :: text, rfl⟩
    | cons c chars =>
      rw [utf16_cons, utf16_cons, append_assoc] at h
      obtain ⟨rfl, hrest⟩ := utf16EncodeChar_append_inj h
      obtain ⟨post, rfl⟩ := ih hrest
      exact ⟨post, rfl⟩

/-- Characters whose units stand in the units of a text stand in the text. -/
theorem utf16_split : ∀ {chars : List Char} {front rest : List UInt16},
    chars ≠ [] → utf16 text = front ++ (utf16 chars ++ rest) →
      ∃ pre post, text = pre ++ (chars ++ post) ∧ utf16 pre = front := by
  induction text with
  | nil =>
    intro chars front rest hchars h
    have hnil := (append_eq_nil_iff.mp (append_eq_nil_iff.mp h.symm).2).1
    exact absurd hnil (utf16_ne_nil hchars)
  | cons d text ih =>
    intro chars front rest hchars h
    cases front with
    | nil =>
      obtain ⟨post, hpost⟩ := utf16_prefix h
      exact ⟨[], post, hpost, rfl⟩
    | cons u front =>
      rw [utf16_cons] at h
      by_cases hd : d.toNat < 0x10000
      · rw [utf16EncodeChar_unit hd] at h
        obtain ⟨rfl, hrest⟩ := List.cons.inj h
        obtain ⟨pre, post, rfl, rfl⟩ := ih hchars hrest
        exact ⟨d :: pre, post, rfl, by rw [utf16_cons, utf16EncodeChar_unit hd]; rfl⟩
      · rw [utf16EncodeChar_pair (Nat.le_of_not_lt hd)] at h
        obtain ⟨rfl, htail⟩ := List.cons.inj h
        cases front with
        | nil =>
          -- The slice would begin with the low half of the pair.
          obtain ⟨v, units, hunits⟩ := exists_cons_of_ne_nil (utf16_ne_nil hchars)
          rw [hunits] at htail
          have hlow := low_isLowSurrogate d
          rw [(List.cons.inj htail).1] at hlow
          exact absurd hlow (utf16_head hunits)
        | cons v front =>
          obtain ⟨rfl, hrest⟩ := List.cons.inj htail
          obtain ⟨pre, post, rfl, rfl⟩ := ih hchars hrest
          exact ⟨d :: pre, post, rfl,
            by rw [utf16_cons, utf16EncodeChar_pair (Nat.le_of_not_lt hd)]; rfl⟩

/-- The first character of more than one unit. -/
theorem exists_first_pair (h : ¬ ∀ c ∈ text, c.toNat < 0x10000) :
    ∃ pre c post, text = pre ++ c :: post ∧ (∀ d ∈ pre, d.toNat < 0x10000) ∧
      0x10000 ≤ c.toNat := by
  induction text with
  | nil => exact absurd nofun h
  | cons c text ih =>
    by_cases hc : c.toNat < 0x10000
    · obtain ⟨pre, d, post, rfl, hpre, hd⟩ := ih fun hall ↦ h (forall_mem_cons.mpr ⟨hc, hall⟩)
      exact ⟨c :: pre, d, post, rfl, forall_mem_cons.mpr ⟨hc, hpre⟩, hd⟩
    · exact ⟨[], c, text, rfl, nofun, Nat.le_of_not_lt hc⟩

theorem zero_not_mem_utf16 (hne : ∀ c ∈ text, c.toNat ≠ 0) : 0 ∉ utf16 text := by
  intro hmem
  obtain ⟨c, hc, hunit⟩ := mem_flatMap.mp hmem
  have hvalid := toNat_valid c
  by_cases hplain : c.toNat < 0x10000
  · rw [utf16EncodeChar_unit hplain, mem_singleton] at hunit
    have hzero := congrArg UInt16.toNat hunit
    rw [unit_toNat hplain] at hzero
    exact hne c hc hzero.symm
  · rw [utf16EncodeChar_pair (Nat.le_of_not_lt hplain)] at hunit
    simp only [mem_cons, not_mem_nil, or_false] at hunit
    rcases hunit with hhigh | hlow
    · have hzero := congrArg UInt16.toNat hhigh
      rw [high_toNat (Nat.le_of_not_lt hplain), UInt16.toNat_zero] at hzero
      omega
    · have hzero := congrArg UInt16.toNat hlow
      rw [low_toNat, UInt16.toNat_zero] at hzero
      omega

/-! ## The surrogates stored for a character -/

/-- The high unit stored for a character of four bytes is no high surrogate, or stands with the low
unit for another character. -/
theorem storedUnits_pair (hlarge : 0x10000 ≤ c.toNat) :
    ∃ high low : UInt16, storedUnits c = [high, low] ∧ high ≠ 0 ∧
      (¬ IsLowSurrogate high → IsHighSurrogate high ∧
        fourBytes (surrogatePair high.toNat low.toNat) ≠ String.utf8EncodeChar c) := by
  have hvalid := toNat_valid c
  have hhigh : (UInt16.ofNat ((c.toNat >>> surrogateHalfShift) + highSurrogateStart)).toNat =
      0xD800 + (c.toNat + 0x10000 - 0x10000) / 0x400 := by
    rw [surrogateHalfShift, highSurrogateStart, Nat.shiftRight_eq_div_pow, unit_toNat (by omega)]
    omega
  have hlow : (UInt16.ofNat ((c.toNat &&& surrogateHalfMask) + lowSurrogateStart)).toNat =
      0xDC00 + (c.toNat + 0x10000 - 0x10000) % 0x400 := by
    have hmask : c.toNat &&& surrogateHalfMask = c.toNat % 0x400 :=
      Nat.and_two_pow_sub_one_eq_mod _ 10
    rw [hmask, lowSurrogateStart, unit_toNat (by omega)]
    omega
  refine ⟨_, _, by rw [storedUnits, if_neg (Nat.not_lt.mpr hlarge)], ?_, ?_⟩
  · intro hzero
    rw [hzero, UInt16.toNat_zero] at hhigh
    omega
  · intro hnotLow
    unfold IsLowSurrogate at hnotLow
    rw [hhigh] at hnotLow
    refine ⟨by unfold IsHighSurrogate; rw [hhigh]; omega, ?_⟩
    rw [hhigh, hlow, surrogatePair_eq (by omega) (by omega), fourBytes_eq,
      utf8EncodeChar_four hlarge]
    intro heq
    have hsecond := congrArg UInt8.toNat (List.cons.inj (List.cons.inj heq).2).1
    rw [byte_toNat (by omega), byte_toNat (by omega)] at hsecond
    omega

/-! ## Exact slices of strings -/

def slice (units : List UInt16) (start count : ℤ) : List UInt16 :=
  (units.drop start.toNat).take count.toNat

theorem slice_spec {units : List UInt16} {start count : ℤ} (h : InRange start count units.length) :
    ∃ front rest, units = front ++ (slice units start count ++ rest) ∧
      front.length = start.toNat ∧ ((slice units start count).length : ℤ) = count ∧
      units.drop start.toNat = slice units start count ++ rest ∧
      rest = units.drop (start.toNat + count.toNat) := by
  unfold InRange at h
  unfold slice
  refine ⟨units.take start.toNat, (units.drop start.toNat).drop count.toNat, ?_, ?_, ?_, ?_, ?_⟩
  · rw [take_append_drop, take_append_drop]
  · rw [length_take]
    omega
  · rw [length_take, length_drop]
    omega
  · rw [take_append_drop]
  · rw [drop_drop]

namespace ManagedString

def length (s : ManagedString) : ℤ := (utf16 s.text).length

/-- Unless the heap gives no array for the characters of the string, `Substring` succeeds exactly
for a range inside the string, with the characters of the range. -/
def SubstringExact (s : ManagedString) (start count : ℤ) : Prop :=
  ∀ heap behind, behind ≠ [] →
    heap.givesArray (utf16 s.text).length = false ∧
      substringRange heap s.bytes behind start count = some (.error .outOfMemory) ∨
    if InRange start count s.length then
      Creates heap (slice (utf16 s.text) start count)
        (substringRange heap s.bytes behind start count)
    else substringRange heap s.bytes behind start count = some (.error .outOfRange)

/-- A range without surrogates, or one that the check of the sum refuses. -/
def Sliceable (s : ManagedString) (start count : ℤ) : Prop :=
  if InRange start count s.length then
    ∀ u ∈ slice (utf16 s.text) start count, ¬ IsSurrogate u
  else ¬ (0 ≤ start ∧ start ≤ s.length ∧ 2 ^ 31 ≤ start + count)

variable {count start : ℤ}

section

variable (s : ManagedString)

include s

/-- `Substring` of a length that is no negative number. -/
theorem substringRange_eq (heap : Heap) (behind : List UInt16) (hcount : 0 ≤ count) :
    substringRange heap s.bytes behind start count =
      if heap.givesArray (utf16 s.text).length = false then some (.error .outOfMemory)
      else if start < 0 ∨ start > s.length then some (.error .outOfRange)
      else if int32 (start + count) > s.length then some (.error .outOfRange)
      else
        createInstance heap ((storedText s.text).drop start.toNat ++ behind) count.toNat := by
  unfold substringRange substring bytes length
  have hneg : ¬ count < 0 := not_lt.mpr hcount
  have hsentinel : ¬ count = -1 := by omega
  rw [if_neg hneg, convertToCharArray_text s.noNull s.fits]
  by_cases harray : heap.givesArray (utf16 s.text).length = false
  · rw [if_pos harray, if_pos harray]
  · rw [if_neg harray, if_neg harray]
    dsimp only
    rw [length_storedText]
    simp only [hsentinel, hneg, if_false, false_or]

/-- A range without surrogates is copied. -/
theorem substringRange_plain (hrange : InRange start count s.length)
    (hplain : ∀ u ∈ slice (utf16 s.text) start count, ¬ IsSurrogate u) (heap : Heap)
    {behind : List UInt16} (hbehind : behind ≠ []) :
    heap.givesArray (utf16 s.text).length = false ∧
      substringRange heap s.bytes behind start count = some (.error .outOfMemory) ∨
    Creates heap (slice (utf16 s.text) start count)
      (substringRange heap s.bytes behind start count) := by
  have hfits := s.fits
  obtain ⟨front, rest, hunits, hfront, hlength, -, -⟩ := slice_spec hrange
  have hbounds := hrange
  unfold InRange length at hbounds
  rw [substringRange_eq s heap behind hbounds.2.1]
  split_ifs with harray hstart hsum
  · exact Or.inl ⟨harray, rfl⟩
  · unfold length at hstart
    omega
  · rw [int32_eq ⟨by omega, by omega⟩] at hsum
    unfold length at hsum
    omega
  generalize hslice : slice (utf16 s.text) start count = units at *
  have hwell : WellFormed units := by
    clear hunits hslice hlength
    induction units with
    | nil => exact .nil
    | cons u units ih =>
      exact .unit (hplain u mem_cons_self) (ih fun v hv ↦ hplain v (mem_cons_of_mem u hv))
  have hchars : utf16 (scalars units) = units := utf16_scalars hwell
  have hplainChars : ∀ c ∈ scalars units, c.toNat < 0x10000 := by
    apply (no_surrogate_iff _).mp
    rwa [hchars]
  by_cases hempty : scalars units = []
  · have hnil : units = [] := by rw [← hchars, hempty, utf16_nil]
    have hzero : count.toNat = 0 := by
      rw [hnil, length_nil] at hlength
      omega
    have hcreate := @createInstance_ends [] ((storedText s.text).drop start.toNat ++ behind) (by simp)
      (Or.inl ⟨by simp, append_ne_nil_of_right_ne_nil _ hbehind⟩) (by decide) heap
    rw [utf16_nil, nil_append, length_nil] at hcreate
    rw [hzero, hnil]
    exact Or.inr hcreate
  · rw [← hchars] at hunits
    obtain ⟨pre, post, htext, hpre⟩ := utf16_split hempty hunits
    have hne : ∀ c ∈ scalars units, c.toNat ≠ 0 := fun c hc ↦ s.noNull c <| by
      rw [htext]
      exact mem_append_right _ (mem_append_left _ hc)
    have hstored : (storedText s.text).drop start.toNat =
        utf16 (scalars units) ++ storedText post := by
      have hparts : storedText s.text =
          storedText pre ++ (storedText (scalars units) ++ storedText post) := by
        rw [htext]
        simp only [storedText, flatMap_append]
      rw [hparts, (storedText_eq_iff _).mpr hplainChars, drop_left']
      rw [length_storedText, hpre, hfront]
    have hcount : count.toNat = (utf16 (scalars units)).length := by
      rw [hchars]
      omega
    have hcreate := @createInstance_ends (scalars units) (storedText post ++ behind) hne
      (Or.inl ⟨hplainChars, append_ne_nil_of_right_ne_nil _ hbehind⟩)
      (by rw [← hcount]; omega) heap
    rw [hchars] at hcreate
    rw [hstored, append_assoc, hcount, hchars]
    exact Or.inr hcreate

theorem substringRange_generous (behind : List UInt16)
    (hpos : 0 ≤ start) (hle : start ≤ s.length) (hcount : 0 ≤ count)
    (hsum : int32 (start + count) ≤ s.length) :
    substringRange .generous s.bytes behind start count =
      createInstance .generous ((storedText s.text).drop start.toNat ++ behind) count.toNat := by
  have hgives : ¬ Heap.generous.givesArray (utf16 s.text).length = false :=
    Bool.true_eq_false_eq_False
  have hinside : ¬ (start < 0 ∨ start > s.length) := by omega
  rw [substringRange_eq s _ _ hcount, if_neg hgives, if_neg hinside, if_neg (not_lt.mpr hsum)]

/-- A range with a surrogate is not copied: the array has another character there. -/
theorem substringRange_pair (hrange : InRange start count s.length) {result : NewString}
    (hresult : substringRange .generous s.bytes [0, 0] start count = some (.ok result))
    (hstring : IsString result (slice (utf16 s.text) start count)) :
    ∀ u ∈ slice (utf16 s.text) start count, ¬ IsSurrogate u := by
  have hfits := s.fits
  obtain ⟨front, rest, hunits, hfront, hlength, -, -⟩ := slice_spec hrange
  obtain ⟨-, chars, hchars, htext⟩ := hstring
  rw [← hchars] at hunits hlength ⊢
  rw [no_surrogate_iff]
  by_contra hpairs
  obtain ⟨text, c, more, rfl, hplain, hlarge⟩ := exists_first_pair hpairs
  obtain ⟨pre, post, hs, hpre⟩ := utf16_split
    (append_ne_nil_of_right_ne_nil text (cons_ne_nil c more)) hunits
  obtain ⟨high, low, hpair, hhigh, hother⟩ := storedUnits_pair hlarge
  have hne : ∀ d ∈ text, d.toNat ≠ 0 := fun d hd ↦ s.noNull d <| by
    rw [hs]
    exact mem_append_right _ (mem_append_left _ (mem_append_left _ hd))
  have hstored : (storedText s.text).drop start.toNat ++ [0, 0] =
      utf16 text ++ high :: (low :: (storedText (more ++ post) ++ [0, 0])) := by
    have hparts : storedText s.text =
        storedText pre ++ (storedText text ++ (storedUnits c ++ storedText (more ++ post))) := by
      rw [hs]
      simp [storedText]
    rw [hparts, (storedText_eq_iff text).mpr hplain, drop_left', hpair]
    · simp
    · rw [length_storedText, hpre, hfront]
  have hbounds := hrange
  unfold InRange length at hbounds
  have hsum : int32 (start + count) ≤ s.length := by
    rw [int32_eq ⟨by omega, by omega⟩]
    exact hbounds.2.2
  rw [substringRange_generous s _ hbounds.1 (by unfold length; omega) hbounds.2.1 hsum, hstored]
    at hresult
  have hshort := length_utf16_of_plain hplain
  have hlong : (utf16 (text ++ c :: more)).length =
      (utf16 text).length + 2 + (utf16 more).length := by
    rw [utf16_append, utf16_cons, utf16EncodeChar_pair hlarge, length_append,
      length_append, length_cons, length_singleton]
    omega
  have hmemory := congrArg List.length hstored
  rw [length_append, length_drop, length_storedText] at hmemory
  have hnext := createInstance_next hne hhigh (int32_eq ⟨by omega, by omega⟩) (by omega) (by omega)
    (by omega) (by rw [← hmemory, length_cons, length_singleton]; omega) hresult
  -- The text of the result is that of the whole slice, so that it begins with the character.
  have houtput : result.output = utf8 (text ++ c :: more) := by
    unfold NewString.text at htext
    split_ifs at htext
    exact some.inj htext
  have hutf8 : utf8 (text ++ c :: more) = utf8 text ++ (String.utf8EncodeChar c ++ utf8 more) := by
    rw [utf8_append, utf8_cons]
  rw [houtput, hutf8] at hnext
  rcases hnext.2 with hnil | ⟨hnotLow, bytes, -, hbytes, hprefix⟩
  · have hempty := (append_eq_nil_iff.mp (append_eq_nil_iff.mp hnil).2).1
    exact absurd hempty String.utf8EncodeChar_ne_nil
  · obtain ⟨hisHigh, hdiffers⟩ := hother hnotLow
    rw [hbytes low _ hisHigh rfl, prefix_append_right_inj] at hprefix
    apply hdiffers
    have hfour : (fourBytes (surrogatePair high.toNat low.toNat)).length =
        (String.utf8EncodeChar c).length := by
      rw [utf8EncodeChar_four hlarge, fourBytes_eq]
      simp only [length_cons, length_nil]
    exact (prefix_of_prefix_length_le hprefix (prefix_append _ _) hfour.le).eq_of_length hfour

/-- `Substring` is exact exactly for the ranges without surrogates and the refused ones. -/
theorem substringExact_iff (start count : Int32) :
    s.SubstringExact start.toInt count.toInt ↔ s.Sliceable start.toInt count.toInt := by
  have hstart := start.toInt_lt
  have hcount := count.toInt_lt
  have hfits := s.fits
  generalize start.toInt = start at hstart ⊢
  generalize count.toInt = count at hcount ⊢
  unfold SubstringExact Sliceable
  by_cases hrange : InRange start count s.length
  · simp only [if_pos hrange]
    constructor
    · intro hexact
      have hgenerous := (hexact .generous [0, 0] (cons_ne_nil _ _)).resolve_left
        fun hnone ↦ Bool.true_eq_false_eq_False hnone.1
      obtain ⟨result, hresult, hstring⟩ := hgenerous.isString
      exact substringRange_pair s hrange hresult hstring
    · intro hplain heap behind hbehind
      exact substringRange_plain s hrange hplain heap hbehind
  · simp only [if_neg hrange]
    unfold InRange length at hrange
    unfold length
    constructor
    · rintro hexact ⟨hpos, hle, hover⟩
      have hgenerous := hexact .generous [0, 0] (cons_ne_nil _ _)
      have hsum : int32 (start + count) ≤ s.length := by
        rw [int32_overflow hover (by omega), length]
        omega
      rw [substringRange_generous s _ hpos hle (by omega) hsum] at hgenerous
      rcases hgenerous with ⟨-, hnone⟩ | hfails
      · exact createInstance_generous _ _ _ hnone
      · exact createInstance_generous _ _ _ hfails
    · intro hrefused heap behind hbehind
      by_cases hneg : count < 0
      · refine Or.inr ?_
        rw [substringRange, if_pos hneg]
      rw [substringRange_eq s heap behind (not_lt.mp hneg)]
      unfold length
      split_ifs with harray hout hsum
      · exact Or.inl ⟨harray, rfl⟩
      · exact Or.inr rfl
      · exact Or.inr rfl
      · rw [int32_eq ⟨by omega, by omega⟩] at hsum
        omega

end

end ManagedString

/-! ## Exact slices of arrays -/

/-- An array of characters and its length.  The heap gives no array of more than 65535 blocks, so
that three bytes for each unit are far from the end of `int`. -/
structure CharArray where
  elements : List UInt16
  fits : 3 * elements.length < 2 ^ 31

namespace CharArray

def length (a : CharArray) : ℤ := a.elements.length

/-- The constructor succeeds exactly for a range inside the array, with the characters of the
range. -/
def RangeExact (a : CharArray) (start count : ℤ) : Prop :=
  ∀ heap behind, behind ≠ [] →
    if InRange start count a.length then
      ∃ created, Creates heap (slice a.elements start count) created ∧
        fromCharArray heap a.elements behind start count = created.map (Except.map some)
    else fromCharArray heap a.elements behind start count = some (.error .outOfRange)

/-- The array is not empty; the range is well formed, without nulls, and without surrogates or with
a null of the array behind it; a length of `-1`, which stands for the rest, comes with a start
outside. -/
def Sliceable (a : CharArray) (start count : ℤ) : Prop :=
  a.elements ≠ [] ∧
    if InRange start count a.length then
      WellFormed (slice a.elements start count) ∧ 0 ∉ slice a.elements start count ∧
        ((∀ u ∈ slice a.elements start count, ¬ IsSurrogate u) ∨
          a.elements[start.toNat + count.toNat]? = some 0)
    else ¬ (count = -1 ∧ 0 ≤ start ∧ start ≤ a.length)

variable {count start : ℤ}

theorem fromCharArray_inRange (a : CharArray) (heap : Heap) (behind : List UInt16)
    (hne : a.elements ≠ []) (hrange : InRange start count a.length) :
    fromCharArray heap a.elements behind start count =
      (createInstance heap (a.elements.drop start.toNat ++ behind) count.toNat).map
        (Except.map some) := by
  have hfits := a.fits
  have hbounds := hrange
  unfold InRange length at hbounds
  have hempty : ¬ a.elements.length = 0 := fun h ↦ hne (length_eq_zero_iff.mp h)
  have hsentinel : ¬ count = -1 := by omega
  have hcheck : checkRange start count a.elements.length = true :=
    (checkRange_iff ⟨by omega, by omega⟩ ⟨by omega, by omega⟩ ⟨by omega, by omega⟩).mpr hrange
  unfold fromCharArray
  simp only [hempty, hsentinel, hcheck, if_false, Bool.true_eq_false]

/-- A range that ends is copied. -/
theorem fromCharArray_ends (a : CharArray) (hne : a.elements ≠ [])
    (hrange : InRange start count a.length) (hwell : WellFormed (slice a.elements start count))
    (hnull : 0 ∉ slice a.elements start count)
    (hend : (∀ u ∈ slice a.elements start count, ¬ IsSurrogate u) ∨
      a.elements[start.toNat + count.toNat]? = some 0)
    (heap : Heap) {behind : List UInt16} (hbehind : behind ≠ []) :
    ∃ created, Creates heap (slice a.elements start count) created ∧
      fromCharArray heap a.elements behind start count = created.map (Except.map some) := by
  have hfits := a.fits
  obtain ⟨front, rest, hunits, hfront, hlength, hdrop, hrest⟩ := slice_spec hrange
  have hchars := utf16_scalars hwell
  generalize hchars' : scalars (slice a.elements start count) = chars at hchars
  have hneChars : ∀ c ∈ chars, c.toNat ≠ 0 := fun c hc ↦ toNat_ne_zero (by rwa [hchars]) hc
  have hends : Ends chars (rest ++ behind) := by
    rcases hend with hplain | hnext
    · rw [← hchars, no_surrogate_iff] at hplain
      exact Or.inl ⟨hplain, append_ne_nil_of_right_ne_nil _ hbehind⟩
    · cases hcons : rest with
      | nil =>
        rw [hrest, drop_eq_nil_iff] at hcons
        rw [getElem?_eq_none hcons] at hnext
        cases hnext
      | cons u rest' =>
        have hhead : rest[0]? = some 0 := by
          rw [hrest, getElem?_drop]
          exact hnext
        rw [hcons] at hhead
        obtain rfl : u = 0 := some.inj hhead
        exact Or.inr ⟨rest' ++ behind, rfl⟩
  have hcount : count.toNat = (utf16 chars).length := by
    rw [hchars]
    omega
  have hshort : (utf16 chars).length ≤ a.elements.length := by
    have htotal := congrArg List.length hunits
    simp only [length_append] at htotal
    rw [hchars]
    omega
  have hcreate := createInstance_ends hneChars hends (by omega) heap
  rw [fromCharArray_inRange a heap behind hne hrange, hdrop, ← hchars, hcount, append_assoc]
  exact ⟨_, hcreate, rfl⟩

theorem plainCount_lt {text : List Char} (h : ¬ ∀ c ∈ text, c.toNat < 0x10000) :
    plainCount text < text.length := by
  apply lt_of_le_of_ne (plainCount_le text)
  intro heq
  exact h fun c hc ↦ of_decide_eq_true (countP_eq_length.mp heq c hc)

variable {result : NewString}

theorem createInstance_nonzero {szText : List UInt16} {length : ℕ}
    (h : createInstance .generous szText length = some (.ok result)) : 0 ∉ result.output := by
  cases hcount : countNumberOfBytes szText (int32 length) with
  | none =>
    unfold createInstance at h
    rw [hcount] at h
    cases h
  | some n =>
    rw [createInstance_given (fun _ ↦ rfl) hcount, map_eq_some_iff] at h
    obtain ⟨conversion, hconvert, hresult⟩ := h
    obtain rfl := Except.ok.inj hresult
    exact fun hzero ↦ not_mem_nil ((convertToUTF8_stored _ _ _ _ _ hconvert).nonzero hzero)

variable {chars : List Char}

/-- Nothing but a null may stand behind a copied range with surrogates. -/
theorem fromCharArray_next {u : UInt16} {tail : List UInt16} (hne : ∀ c ∈ chars, c.toNat ≠ 0)
    (hu : u ≠ 0)
    (hpairs : ¬ ∀ c ∈ chars, c.toNat < 0x10000)
    (hfits : 3 * (utf16 chars ++ u :: tail).length < 2 ^ 32)
    (hshort : (utf16 chars).length < 2 ^ 31)
    (hcreated : createInstance .generous (utf16 chars ++ u :: tail) (utf16 chars).length =
      some (.ok result)) : result.text ≠ some (utf8 chars) := by
  intro htext
  have hlength := length_utf16_eq chars
  have hplain := plainCount_lt hpairs
  have hnext := (createInstance_next hne hu (int32_eq ⟨by omega, by omega⟩) le_rfl (by omega)
    (by omega) hfits hcreated).2
  have houtput : result.output = utf8 chars := by
    unfold NewString.text at htext
    split_ifs at htext
    exact some.inj htext
  rw [houtput] at hnext
  rcases hnext with hnil | ⟨-, bytes, hbytes, -, hprefix⟩
  · have hunits := (length_utf8_bounds chars).1
    rw [hnil, length_nil] at hunits
    omega
  · have hle := hprefix.length_le
    have hpos := length_pos_iff.mpr hbytes
    rw [length_append] at hle
    omega

theorem utf8_zero (h : 0 ∉ utf8 chars) : ∀ c ∈ chars, c.toNat ≠ 0 := by
  intro c hc hzero
  apply h
  apply mem_flatMap.mpr
  refine ⟨c, hc, ?_⟩
  rw [utf8EncodeChar_one (by omega), hzero]
  exact mem_singleton.mpr rfl

/-- What a copied range is like. -/
theorem sliceable_of_copied (a : CharArray) (hne : a.elements ≠ [])
    (hrange : InRange start count a.length)
    (hcopied : ∀ behind, behind ≠ [] → ∃ result,
      fromCharArray .generous a.elements behind start count = some (.ok (some result)) ∧
        IsString result (slice a.elements start count)) :
    WellFormed (slice a.elements start count) ∧ 0 ∉ slice a.elements start count ∧
      ((∀ u ∈ slice a.elements start count, ¬ IsSurrogate u) ∨
        a.elements[start.toNat + count.toNat]? = some 0) := by
  have hfits := a.fits
  obtain ⟨front, rest, hunits, hfront, hlength, hdrop, hrest⟩ := slice_spec hrange
  have hcreated (behind : List UInt16) (hbehind : behind ≠ []) : ∃ result chars,
      createInstance .generous (slice a.elements start count ++ (rest ++ behind)) count.toNat =
        some (.ok result) ∧ utf16 chars = slice a.elements start count ∧
      result.text = some (utf8 chars) := by
    obtain ⟨result, hresult, -, chars, hchars, htext⟩ := hcopied behind hbehind
    rw [fromCharArray_inRange a _ _ hne hrange, hdrop, append_assoc] at hresult
    cases hcreate : createInstance .generous
        (slice a.elements start count ++ (rest ++ behind)) count.toNat with
    | none =>
      rw [hcreate] at hresult
      cases hresult
    | some created =>
      cases created with
      | error failure => exact absurd hcreate (createInstance_generous _ _ _)
      | ok s =>
        rw [hcreate] at hresult
        obtain rfl : s = result := some.inj (Except.ok.inj (some.inj hresult))
        exact ⟨s, chars, rfl, hchars, htext⟩
  have hnonnull {behind : List UInt16} {result : NewString} {chars : List Char}
      (hcreate : createInstance .generous (slice a.elements start count ++ (rest ++ behind))
        count.toNat = some (.ok result)) (htext : result.text = some (utf8 chars)) :
      ∀ c ∈ chars, c.toNat ≠ 0 := by
    apply utf8_zero
    have hzero := createInstance_nonzero hcreate
    unfold NewString.text at htext
    split_ifs at htext
    rwa [← some.inj htext]
  obtain ⟨result, chars, hcreate, hchars, htext⟩ := hcreated [0] (cons_ne_nil _ _)
  have hneChars := hnonnull hcreate htext
  refine ⟨hchars ▸ wellFormed_utf16 chars, hchars ▸ zero_not_mem_utf16 hneChars, ?_⟩
  by_contra hneither
  obtain ⟨hpairs, hnext⟩ := not_or.mp hneither
  -- Behind the range stands a unit that is no null, in the array or, for some memory, behind it.
  obtain ⟨behind, u, tail, hbehind, htail, hu, hshort⟩ : ∃ behind u tail, behind ≠ [] ∧
      rest ++ behind = u :: tail ∧ u ≠ (0 : UInt16) ∧ behind.length = 1 := by
    cases hcons : rest with
    | nil => exact ⟨[0x61], 0x61, [], cons_ne_nil _ _, rfl, by decide, rfl⟩
    | cons u tail =>
      refine ⟨[0], u, tail ++ [0], cons_ne_nil _ _, rfl, ?_, rfl⟩
      rintro rfl
      have hhead : rest[0]? = a.elements[start.toNat + count.toNat]? := by
        rw [hrest, getElem?_drop]
        rfl
      apply hnext
      rw [← hhead, hcons]
      rfl
  obtain ⟨result', chars', hcreate', hchars', htext'⟩ := hcreated behind hbehind
  have hneChars' := hnonnull hcreate' htext'
  have hlarge : ¬ ∀ c ∈ chars', c.toNat < 0x10000 := by rwa [← no_surrogate_iff, hchars']
  have hcount : count.toNat = (utf16 chars').length := by
    rw [hchars']
    omega
  have hmemory : (utf16 chars' ++ u :: tail).length ≤ a.elements.length + 1 := by
    have htotal := congrArg List.length hunits
    rw [← htail, hchars']
    simp only [length_append] at htotal ⊢
    omega
  rw [← hchars', htail, hcount] at hcreate'
  rw [length_append] at hmemory
  exact fromCharArray_next hneChars' hu hlarge (by rw [length_append]; omega) (by omega)
    hcreate' htext'

/-- The constructor over a range of an array is exact exactly for the ranges that end. -/
theorem rangeExact_iff (a : CharArray) (start count : Int32) :
    a.RangeExact start.toInt count.toInt ↔ a.Sliceable start.toInt count.toInt := by
  have hstart := start.toInt_lt
  have hcount := count.toInt_lt
  have hstart' := start.le_toInt
  have hcount' := count.le_toInt
  have hfits := a.fits
  generalize start.toInt = start at hstart hstart' ⊢
  generalize count.toInt = count at hcount hcount' ⊢
  unfold RangeExact Sliceable
  by_cases hne : a.elements = []
  · -- The null reference is neither the empty string nor a failure.
    constructor
    · intro hexact
      have hnull : fromCharArray .generous a.elements [0] start count = some (.ok none) := by
        unfold fromCharArray
        rw [if_pos (length_eq_zero_iff.mpr hne)]
      have hgenerous := hexact .generous [0] (cons_ne_nil _ _)
      rw [hnull] at hgenerous
      split_ifs at hgenerous
      · obtain ⟨created, hcreates, hresult⟩ := hgenerous
        obtain ⟨result, rfl, -⟩ := hcreates.isString
        cases hresult
      · cases hgenerous
    · exact fun hsliceable ↦ absurd hne hsliceable.1
  by_cases hrange : InRange start count a.length
  · simp only [if_pos hrange]
    constructor
    · intro hexact
      refine ⟨hne, sliceable_of_copied a hne hrange fun behind hbehind ↦ ?_⟩
      obtain ⟨created, hcreates, hresult⟩ := hexact .generous behind hbehind
      obtain ⟨result, rfl, hstring⟩ := hcreates.isString
      exact ⟨result, hresult, hstring⟩
    · rintro ⟨-, hwell, hnull, hend⟩ heap behind hbehind
      exact fromCharArray_ends a hne hrange hwell hnull hend heap hbehind
  · have hempty : ¬ a.elements.length = 0 := fun h ↦ hne (length_eq_zero_iff.mp h)
    have hrefused (length : ℤ) (hlength : IsInt32 length)
        (hout : ¬ InRange start length a.length) :
        checkRange start length a.elements.length = false := by
      rw [← Bool.not_eq_true, checkRange_iff ⟨hstart', hstart⟩ hlength ⟨by omega, by omega⟩]
      exact hout
    simp only [if_neg hrange]
    constructor
    · intro hexact
      refine ⟨hne, ?_⟩
      rintro ⟨rfl, hpos, hle⟩
      unfold length at hle
      have hrest : InRange start (a.elements.length - start) a.elements.length := by
        unfold InRange
        omega
      have hcheck : checkRange start (a.elements.length - start) a.elements.length = true :=
        (checkRange_iff ⟨hstart', hstart⟩ ⟨by omega, by omega⟩ ⟨by omega, by omega⟩).mpr hrest
      have hresult (failure : Failure) :
          fromCharArray .generous a.elements [0] start (-1) ≠ some (.error failure) := by
        unfold fromCharArray
        rw [if_neg hempty, if_pos rfl, int32_eq ⟨by omega, by omega⟩]
        dsimp only
        rw [hcheck, if_neg Bool.true_eq_false_eq_False]
        intro hfails
        rw [map_eq_some_iff] at hfails
        obtain ⟨created, hcreate, hmap⟩ := hfails
        cases created with
        | error failure => exact createInstance_generous _ _ _ hcreate
        | ok s => cases hmap
      exact hresult _ (hexact .generous [0] (cons_ne_nil _ _))
    · rintro ⟨-, hsentinel⟩ heap behind hbehind
      unfold fromCharArray
      rw [if_neg hempty]
      dsimp only
      by_cases hminus : count = -1
      · have hout : ¬ InRange start (int32 (a.elements.length - start)) a.length := by
          unfold InRange length
          rintro ⟨hpos, hlength, hsum⟩
          rw [int32_eq ⟨by omega, by omega⟩] at hlength
          exact hsentinel ⟨hminus, hpos, by unfold length; omega⟩
        rw [if_pos hminus, if_pos (hrefused _ (int32_isInt32 _) hout)]
      · rw [if_neg hminus, if_pos (hrefused _ ⟨hcount', hcount⟩ hrange)]

end CharArray

/-! ## Creation and slices -/

/-- When a string is created safely from a buffer, and when `Substring` and the constructor over a
range of an array are exact. -/
theorem construction_and_slices (b : CharBuffer) (s : ManagedString) (a : CharArray)
    (start count : Int32) :
    (b.ConstructsSafely ↔ b.HoldsText) ∧
      (s.SubstringExact start.toInt count.toInt ↔ s.Sliceable start.toInt count.toInt) ∧
      (a.RangeExact start.toInt count.toInt ↔ a.Sliceable start.toInt count.toInt) :=
  ⟨b.constructsSafely_iff, s.substringExact_iff start count, a.rangeExact_iff start count⟩

/-- A lone surrogate leaves a block without room for the terminator that is stored; a buffer of one
plain unit is read to a second; and `Substring( 1, 2147483647 )` of two characters does not fail. -/
theorem construction_and_slices_fail :
    createInstance .generous [0xD800, 0x41] 2 = some (.ok ⟨0, [], false⟩) ∧
    ¬ CharBuffer.ConstructsSafely ⟨[0xD800, 0x41], by decide⟩ ∧
    createInstance .generous [0x41] 1 = none ∧
    ¬ CharBuffer.ConstructsSafely ⟨[0x41], by decide⟩ ∧
    substringRange .generous [0x41, 0x42, 0] [0x43, 0] 1 (2 ^ 31 - 1) =
      some (.ok ⟨12, [0x42, 0x43], true⟩) ∧
    ¬ ManagedString.SubstringExact ⟨['A', 'B'], forall_mem_of_all (by decide), by decide⟩
      1 (2 ^ 31 - 1) := by
  have hlone : createInstance .generous [0xD800, 0x41] 2 = some (.ok ⟨0, [], false⟩) := by decide
  have hplain : createInstance .generous [0x41] 1 = none := by decide
  have hover : substringRange .generous [0x41, 0x42, 0] [0x43, 0] 1 (2 ^ 31 - 1) =
      some (.ok ⟨12, [0x42, 0x43], true⟩) := by decide
  refine ⟨hlone, ?_, hplain, ?_, hover, ?_⟩
  · intro hsafe
    obtain ⟨result, hresult, hbounds⟩ := hsafe .generous
    obtain rfl := some.inj (hlone.symm.trans hresult)
    exact absurd (hbounds _ rfl).1 (by decide)
  · intro hsafe
    obtain ⟨result, hresult, -⟩ := hsafe .generous
    cases hplain.symm.trans hresult
  · intro hexact
    have hout : ¬ InRange 1 (2 ^ 31 - 1)
        (ManagedString.length ⟨['A', 'B'], forall_mem_of_all (by decide), by decide⟩) := by
      decide
    have hgenerous := hexact .generous [0x43, 0] (cons_ne_nil _ _)
    rw [if_neg hout] at hgenerous
    rcases hgenerous with ⟨-, hnone⟩ | hfails
    · cases hover.symm.trans hnone
    · cases hover.symm.trans hfails

end MicroFramework.Unicode
