import Mathlib.Data.List.Basic
import Mathlib.Tactic.Ring

/-!
# UTF-16 strings and their scalar values

A UTF-16 string is a list of 16-bit units.  It is well formed when surrogates stand in it only as
high-low pairs; the well-formed strings are exactly the encodings of lists of characters, and
`scalars` reads the characters back.  UTF-8 is the encoding of the language's own strings.
-/

namespace MicroFramework.Utf

theorem forall_mem_of_all {α : Type*} {P : α → Prop} [DecidablePred P] {l : List α}
    (h : (l.all fun a ↦ decide (P a)) = true) : ∀ a ∈ l, P a :=
  fun a ha ↦ of_decide_eq_true (List.all_eq_true.mp h a ha)

/-! ## Surrogates and well-formed strings -/

def IsHighSurrogate (u : UInt16) : Prop := 0xD800 ≤ u.toNat ∧ u.toNat ≤ 0xDBFF

def IsLowSurrogate (u : UInt16) : Prop := 0xDC00 ≤ u.toNat ∧ u.toNat ≤ 0xDFFF

def IsSurrogate (u : UInt16) : Prop := 0xD800 ≤ u.toNat ∧ u.toNat ≤ 0xDFFF

instance (u : UInt16) : Decidable (IsHighSurrogate u) := inferInstanceAs (Decidable (_ ∧ _))

instance (u : UInt16) : Decidable (IsLowSurrogate u) := inferInstanceAs (Decidable (_ ∧ _))

instance (u : UInt16) : Decidable (IsSurrogate u) := inferInstanceAs (Decidable (_ ∧ _))

/-- Surrogates stand in the string only as a high one followed by a low one. -/
inductive WellFormed : List UInt16 → Prop
  | nil : WellFormed []
  | unit {u : UInt16} {s : List UInt16} (hu : ¬ IsSurrogate u) (hs : WellFormed s) :
      WellFormed (u :: s)
  | pair {high low : UInt16} {s : List UInt16} (hhigh : IsHighSurrogate high)
      (hlow : IsLowSurrogate low) (hs : WellFormed s) : WellFormed (high :: low :: s)

/-! ## Encoding and decoding -/

def utf16EncodeChar (c : Char) : List UInt16 :=
  if c.toNat < 0x10000 then [UInt16.ofNat c.toNat]
  else
    [UInt16.ofNat (0xD800 + (c.toNat - 0x10000) / 0x400),
      UInt16.ofNat (0xDC00 + (c.toNat - 0x10000) % 0x400)]

def utf16 (text : List Char) : List UInt16 :=
  text.flatMap utf16EncodeChar

def utf8 (text : List Char) : List UInt8 :=
  text.flatMap String.utf8EncodeChar

/-- The characters a UTF-16 string encodes. -/
def scalars : List UInt16 → List Char
  | [] => []
  | [u] => [Char.ofNat u.toNat]
  | u :: v :: s =>
    if IsHighSurrogate u ∧ IsLowSurrogate v then
      Char.ofNat (0x10000 + (u.toNat - 0xD800) * 0x400 + (v.toNat - 0xDC00)) :: scalars s
    else Char.ofNat u.toNat :: scalars (v :: s)

@[simp]
theorem utf16_nil : utf16 [] = [] := rfl

@[simp]
theorem utf16_cons (c : Char) (text : List Char) :
    utf16 (c :: text) = utf16EncodeChar c ++ utf16 text := by
  simp [utf16]

@[simp]
theorem utf8_nil : utf8 [] = [] := rfl

@[simp]
theorem utf8_cons (c : Char) (text : List Char) :
    utf8 (c :: text) = String.utf8EncodeChar c ++ utf8 text := by
  simp [utf8]

/-! ## The scalar values of characters -/

/-- A character's value is no surrogate and at most `0x10FFFF`. -/
theorem toNat_valid (c : Char) : c.toNat < 0xD800 ∨ (0xDFFF < c.toNat ∧ c.toNat < 0x110000) :=
  c.valid

variable {n : ℕ}

theorem toNat_ofNat (h : n < 0xD800 ∨ (0xDFFF < n ∧ n < 0x110000)) : (Char.ofNat n).toNat = n := by
  have hvalid : n.isValidChar := h
  rw [Char.ofNat, dif_pos hvalid]
  rfl

theorem unit_toNat (h : n < 0x10000) : (UInt16.ofNat n).toNat = n := Nat.mod_eq_of_lt h

theorem byte_toNat (h : n < 0x100) : (UInt8.ofNat n).toNat = n := Nat.mod_eq_of_lt h

variable {c : Char}

theorem utf16EncodeChar_unit (h : c.toNat < 0x10000) :
    utf16EncodeChar c = [UInt16.ofNat c.toNat] := by
  simp [utf16EncodeChar, h]

/-- A character from `0x10000` on is a high and a low surrogate. -/
theorem utf16EncodeChar_pair (h : 0x10000 ≤ c.toNat) :
    utf16EncodeChar c =
      [UInt16.ofNat (0xD800 + (c.toNat - 0x10000) / 0x400),
        UInt16.ofNat (0xDC00 + (c.toNat - 0x10000) % 0x400)] := by
  simp [utf16EncodeChar, Nat.not_lt.mpr h]

/-- The value of the high surrogate of a character. -/
theorem high_toNat (h : 0x10000 ≤ c.toNat) :
    (UInt16.ofNat (0xD800 + (c.toNat - 0x10000) / 0x400)).toNat =
      0xD800 + (c.toNat - 0x10000) / 0x400 := by
  have hvalid := toNat_valid c
  apply unit_toNat
  omega

theorem low_toNat (c : Char) :
    (UInt16.ofNat (0xDC00 + (c.toNat - 0x10000) % 0x400)).toNat =
      0xDC00 + (c.toNat - 0x10000) % 0x400 := by
  apply unit_toNat
  omega

theorem high_isHighSurrogate (h : 0x10000 ≤ c.toNat) :
    IsHighSurrogate (UInt16.ofNat (0xD800 + (c.toNat - 0x10000) / 0x400)) := by
  have hvalid := toNat_valid c
  rw [IsHighSurrogate, high_toNat h]
  omega

theorem low_isLowSurrogate (c : Char) :
    IsLowSurrogate (UInt16.ofNat (0xDC00 + (c.toNat - 0x10000) % 0x400)) := by
  rw [IsLowSurrogate, low_toNat]
  omega

theorem unit_not_isSurrogate (h : c.toNat < 0x10000) : ¬ IsSurrogate (UInt16.ofNat c.toNat) := by
  have hvalid := toNat_valid c
  rw [IsSurrogate, unit_toNat h]
  omega

/-! ## The UTF-8 encoding of one character, by its length -/

theorem utf8EncodeChar_one (h : c.toNat < 0x80) :
    String.utf8EncodeChar c = [UInt8.ofNat c.toNat] := by
  have h1 : c.val.toNat ≤ 0x7f := Nat.le_of_lt_succ h
  unfold String.utf8EncodeChar
  rw [if_pos h1]
  rfl

theorem utf8EncodeChar_two (hlow : 0x80 ≤ c.toNat) (hhigh : c.toNat < 0x800) :
    String.utf8EncodeChar c =
      [UInt8.ofNat (c.toNat / 64 % 32 + 0xC0), UInt8.ofNat (c.toNat % 64 + 0x80)] := by
  have h1 : ¬ c.val.toNat ≤ 0x7f := Nat.not_le.mpr hlow
  have h2 : c.val.toNat ≤ 0x7ff := Nat.le_of_lt_succ hhigh
  unfold String.utf8EncodeChar
  rw [if_neg h1, if_pos h2]
  rfl

theorem utf8EncodeChar_three (hlow : 0x800 ≤ c.toNat) (hhigh : c.toNat < 0x10000) :
    String.utf8EncodeChar c =
      [UInt8.ofNat (c.toNat / 4096 % 16 + 0xE0), UInt8.ofNat (c.toNat / 64 % 64 + 0x80),
        UInt8.ofNat (c.toNat % 64 + 0x80)] := by
  have h1 : ¬ c.val.toNat ≤ 0x7f := Nat.not_le.mpr (Nat.le_trans (by decide) hlow)
  have h2 : ¬ c.val.toNat ≤ 0x7ff := Nat.not_le.mpr hlow
  have h3 : c.val.toNat ≤ 0xffff := Nat.le_of_lt_succ hhigh
  unfold String.utf8EncodeChar
  rw [if_neg h1, if_neg h2, if_pos h3]
  rfl

theorem utf8EncodeChar_four (hlow : 0x10000 ≤ c.toNat) :
    String.utf8EncodeChar c =
      [UInt8.ofNat (c.toNat / 262144 % 8 + 0xF0), UInt8.ofNat (c.toNat / 4096 % 64 + 0x80),
        UInt8.ofNat (c.toNat / 64 % 64 + 0x80), UInt8.ofNat (c.toNat % 64 + 0x80)] := by
  have h1 : ¬ c.val.toNat ≤ 0x7f := Nat.not_le.mpr (Nat.le_trans (by decide) hlow)
  have h2 : ¬ c.val.toNat ≤ 0x7ff := Nat.not_le.mpr (Nat.le_trans (by decide) hlow)
  have h3 : ¬ c.val.toNat ≤ 0xffff := Nat.not_le.mpr hlow
  unfold String.utf8EncodeChar
  rw [if_neg h1, if_neg h2, if_neg h3]
  rfl

/-- The four lengths a character's UTF-8 encoding can have. -/
theorem width_cases (c : Char) :
    c.toNat < 0x80 ∨ (0x80 ≤ c.toNat ∧ c.toNat < 0x800) ∨
      (0x800 ≤ c.toNat ∧ c.toNat < 0x10000) ∨ 0x10000 ≤ c.toNat := by
  omega

/-! ## Well-formed strings are the encodings -/

theorem wellFormed_utf16 (text : List Char) : WellFormed (utf16 text) := by
  induction text with
  | nil => exact .nil
  | cons c text ih =>
    rw [utf16_cons]
    by_cases hc : c.toNat < 0x10000
    · rw [utf16EncodeChar_unit hc]
      exact .unit (unit_not_isSurrogate hc) ih
    · rw [utf16EncodeChar_pair (Nat.le_of_not_lt hc)]
      exact .pair (high_isHighSurrogate (Nat.le_of_not_lt hc)) (low_isLowSurrogate c) ih

theorem scalars_unit {u : UInt16} (hu : ¬ IsSurrogate u) (s : List UInt16) :
    scalars (u :: s) = Char.ofNat u.toNat :: scalars s := by
  have hhigh : ¬ IsHighSurrogate u := fun h ↦ hu ⟨h.1, by have := h.2; omega⟩
  cases s with
  | nil => rfl
  | cons v s => simp [scalars, hhigh]

theorem utf16_scalars {s : List UInt16} (hs : WellFormed s) : utf16 (scalars s) = s := by
  induction hs with
  | nil => rfl
  | @unit u s hu hs ih =>
    have hbound : u.toNat < 0x10000 := u.toNat_lt
    have hvalue : (Char.ofNat u.toNat).toNat = u.toNat := by
      apply toNat_ofNat
      rw [IsSurrogate] at hu
      omega
    rw [scalars_unit hu, utf16_cons, utf16EncodeChar_unit (by omega), hvalue, ih]
    simp
  | @pair high low s hhigh hlow hs ih =>
    have hvalue : (Char.ofNat (0x10000 + (high.toNat - 0xD800) * 0x400 +
        (low.toNat - 0xDC00))).toNat =
          0x10000 + (high.toNat - 0xD800) * 0x400 + (low.toNat - 0xDC00) := by
      apply toNat_ofNat
      rw [IsHighSurrogate] at hhigh
      rw [IsLowSurrogate] at hlow
      omega
    have hhighUnit : UInt16.ofNat (0xD800 + (0x10000 + (high.toNat - 0xD800) * 0x400 +
        (low.toNat - 0xDC00) - 0x10000) / 0x400) = high := by
      rw [IsHighSurrogate] at hhigh
      rw [IsLowSurrogate] at hlow
      rw [show 0xD800 + (0x10000 + (high.toNat - 0xD800) * 0x400 +
        (low.toNat - 0xDC00) - 0x10000) / 0x400 = high.toNat by omega, UInt16.ofNat_toNat]
    have hlowUnit : UInt16.ofNat (0xDC00 + (0x10000 + (high.toNat - 0xD800) * 0x400 +
        (low.toNat - 0xDC00) - 0x10000) % 0x400) = low := by
      rw [IsHighSurrogate] at hhigh
      rw [IsLowSurrogate] at hlow
      rw [show 0xDC00 + (0x10000 + (high.toNat - 0xD800) * 0x400 +
        (low.toNat - 0xDC00) - 0x10000) % 0x400 = low.toNat by omega, UInt16.ofNat_toNat]
    have hscalars : scalars (high :: low :: s) =
        Char.ofNat (0x10000 + (high.toNat - 0xD800) * 0x400 + (low.toNat - 0xDC00)) ::
          scalars s := by
      simp [scalars, hhigh, hlow]
    rw [hscalars, utf16_cons, utf16EncodeChar_pair (by omega), hvalue, hhighUnit, hlowUnit, ih]
    rfl

theorem toNat_ne_zero {text : List Char} (hnull : 0 ∉ utf16 text) (hc : c ∈ text) :
    c.toNat ≠ 0 := by
  intro hzero
  apply hnull
  apply List.mem_flatMap.mpr
  refine ⟨c, hc, ?_⟩
  rw [utf16EncodeChar_unit (by omega), hzero]
  exact List.mem_singleton.mpr rfl

end MicroFramework.Utf
