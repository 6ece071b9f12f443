import Mathlib.Data.UInt

/-!
# Little-endian words

Structures of the source are compared, checksummed and written as the bytes they occupy in
memory.  This module has the byte images of machine words of any width and the two inverse laws
the codecs above it need.
-/

namespace MicroFramework.Support

/-- The low `width` bytes of a value, least significant first. -/
def leBytes : ℕ → ℕ → List UInt8
  | 0, _ => []
  | width + 1, value => UInt8.ofNat value :: leBytes width (value / 256)

/-- The value whose bytes, least significant first, are given. -/
def leValue : List UInt8 → ℕ
  | [] => 0
  | byte :: rest => byte.toNat + 256 * leValue rest

@[simp]
theorem leBytes_length (width value : ℕ) : (leBytes width value).length = width := by
  induction width generalizing value with
  | zero => rfl
  | succ width ih => simp [leBytes, ih]

theorem leValue_lt (bytes : List UInt8) : leValue bytes < 256 ^ bytes.length := by
  induction bytes with
  | nil => simp [leValue]
  | cons byte rest ih =>
    have hbyte := byte.toNat_lt
    simp only [leValue, List.length_cons, Nat.pow_succ]
    omega

/-- Reading back the bytes of a value that fits loses nothing. -/
theorem leValue_leBytes (width value : ℕ) (h : value < 256 ^ width) :
    leValue (leBytes width value) = value := by
  induction width generalizing value with
  | zero => simp [leBytes, leValue] at h ⊢; omega
  | succ width ih =>
    have hrest : value / 256 < 256 ^ width := by
      rw [Nat.pow_succ] at h
      exact Nat.div_lt_of_lt_mul (by omega)
    simp only [leBytes, leValue, ih _ hrest, UInt8.toNat_ofNat']
    omega

theorem leValue_leBytes_toUInt16 (word : UInt16) :
    UInt16.ofNat (leValue (leBytes 2 word.toNat)) = word := by
  rw [leValue_leBytes 2 _ word.toNat_lt, UInt16.ofNat_toNat]

theorem leValue_leBytes_toUInt32 (word : UInt32) :
    UInt32.ofNat (leValue (leBytes 4 word.toNat)) = word := by
  rw [leValue_leBytes 4 _ word.toNat_lt, UInt32.ofNat_toNat]

end MicroFramework.Support
