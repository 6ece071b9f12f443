import Mathlib.Tactic.Ring
import Mathlib.Data.Nat.ModEq

/-!
# Signed and unsigned readings of machine words

The operations of a two's complement word as arithmetic of its integer value, at every width, and
the exact operands on which an operation that ignores the sign agrees with the one that respects it.
-/

namespace MicroFramework.Library.SignedWords

open Nat

variable {w : ℕ} {x y : BitVec w}

/-! ## Word operations as integer arithmetic -/

theorem ofInt_add (x y : BitVec w) : BitVec.ofInt w (x.toInt + y.toInt) = x + y := by
  rw [BitVec.ofInt_add, BitVec.ofInt_toInt, BitVec.ofInt_toInt]

theorem ofInt_sub (x y : BitVec w) : BitVec.ofInt w (x.toInt - y.toInt) = x - y := by
  apply BitVec.eq_of_toInt_eq
  rw [BitVec.toInt_ofInt, BitVec.toInt_sub]

theorem ofInt_mul (x y : BitVec w) : BitVec.ofInt w (x.toInt * y.toInt) = x * y := by
  rw [BitVec.ofInt_mul, BitVec.ofInt_toInt, BitVec.ofInt_toInt]

theorem ofInt_neg (x : BitVec w) : BitVec.ofInt w (-x.toInt) = -x := by
  apply BitVec.eq_of_toInt_eq
  rw [BitVec.toInt_ofInt, BitVec.toInt_neg]

theorem ofInt_tdiv (x y : BitVec w) : BitVec.ofInt w (x.toInt.tdiv y.toInt) = x.sdiv y := by
  apply BitVec.eq_of_toInt_eq
  rw [BitVec.toInt_ofInt, BitVec.toInt_sdiv]

theorem ofInt_tmod (x y : BitVec w) : BitVec.ofInt w (x.toInt.tmod y.toInt) = x.srem y := by
  apply BitVec.eq_of_toInt_eq
  rw [BitVec.toInt_ofInt, ← BitVec.toInt_srem, BitVec.toInt_bmod_cancel]

theorem ofNat_div (x y : BitVec w) : BitVec.ofNat w (x.toNat / y.toNat) = x / y := by
  apply BitVec.eq_of_toNat_eq
  rw [BitVec.toNat_ofNat, BitVec.toNat_udiv]
  exact mod_eq_of_lt (lt_of_le_of_lt (div_le_self _ _) x.isLt)

theorem ofNat_mod (x y : BitVec w) : BitVec.ofNat w (x.toNat % y.toNat) = x % y := by
  apply BitVec.eq_of_toNat_eq
  rw [BitVec.toNat_ofNat, BitVec.toNat_umod]
  exact mod_eq_of_lt (lt_of_le_of_lt (mod_le _ _) x.isLt)

theorem ofInt_mul_two_pow (x : BitVec w) (n : ℕ) : BitVec.ofInt w (x.toInt * 2 ^ n) = x <<< n := by
  rw [BitVec.shiftLeft_eq_mul_twoPow, BitVec.ofInt_mul, BitVec.ofInt_toInt]
  congr 1
  apply BitVec.eq_of_toNat_eq
  simp [BitVec.toNat_twoPow, BitVec.toNat_ofInt]
  norm_cast

theorem ofInt_div_two_pow (x : BitVec w) (n : ℕ) :
    BitVec.ofInt w (x.toInt / 2 ^ n) = x.sshiftRight n := by
  rw [BitVec.sshiftRight, Int.shiftRight_eq_div_pow]
  norm_cast

theorem ofNat_div_two_pow (x : BitVec w) (n : ℕ) : BitVec.ofNat w (x.toNat / 2 ^ n) = x >>> n := by
  apply BitVec.eq_of_toNat_eq
  rw [BitVec.toNat_ofNat, BitVec.toNat_ushiftRight, shiftRight_eq_div_pow]
  exact mod_eq_of_lt (lt_of_le_of_lt (div_le_self _ _) x.isLt)

/-! ## Widening by shifts -/

/-- Shifting the low `n` bits up to the top and back with zeros clears the rest. -/
theorem shiftLeft_ushiftRight {n : ℕ} (hn : n ≤ w) (x : BitVec w) :
    (x <<< (w - n)) >>> (w - n) = (x.setWidth n).setWidth w := by
  apply BitVec.eq_of_getLsbD_eq
  intro i hi
  rw [BitVec.getLsbD_ushiftRight, BitVec.getLsbD_shiftLeft, BitVec.getLsbD_setWidth,
    BitVec.getLsbD_setWidth]
  by_cases hlow : i < n
  · simp [hi, hlow, show w - n + i < w by omega]
  · simp [hlow, show ¬w - n + i < w by omega]

/-- Shifting the low `n` bits up to the top and back with the sign extends them. -/
theorem shiftLeft_sshiftRight {n : ℕ} (hpos : 0 < n) (hn : n ≤ w) (x : BitVec w) :
    (x <<< (w - n)).sshiftRight (w - n) = (x.setWidth n).signExtend w := by
  apply BitVec.eq_of_getLsbD_eq
  intro i hi
  have hmsb : (x <<< (w - n)).msb = (x.setWidth n).msb := by
    rw [BitVec.msb_eq_getLsbD_last, BitVec.msb_eq_getLsbD_last, BitVec.getLsbD_shiftLeft,
      BitVec.getLsbD_setWidth, show w - 1 - (w - n) = n - 1 by omega]
    simp [show w - 1 < w by omega, show ¬w - 1 < w - n by omega, show n - 1 < n by omega]
  rw [BitVec.getLsbD_sshiftRight, BitVec.getLsbD_signExtend, hmsb]
  by_cases hlow : i < n
  · simp [hi, hlow, show w - n + i < w by omega, show ¬w ≤ i by omega]
  · simp [hi, hlow, show ¬w - n + i < w by omega, show ¬w ≤ i by omega]

/-! ## Where the sign makes no difference -/

theorem two_mul_toNat_lt_of_msb (h : x.msb = false) : 2 * x.toNat < 2 ^ w :=
  BitVec.msb_eq_false_iff_two_mul_lt.mp h

theorem le_two_mul_toNat_of_msb (h : x.msb = true) : 2 ^ w ≤ 2 * x.toNat :=
  BitVec.msb_eq_true_iff_two_mul_ge.mp h

/-- A logical shift by less than the width agrees with an arithmetic one exactly on a clear sign
bit or for no shift at all. -/
theorem ushiftRight_eq_sshiftRight_iff (n : ℕ) (hn : n < w) :
    x >>> n = x.sshiftRight n ↔ x.msb = false ∨ n = 0 := by
  constructor
  · intro heq
    by_contra hcon
    push Not at hcon
    obtain ⟨hmsb, hpos⟩ := hcon
    have hsigned : (x.sshiftRight n).msb = x.msb := BitVec.msb_sshiftRight
    have hclear : (x >>> n).msb = false := by
      rw [BitVec.msb_ushiftRight]
      simp [hpos]
    rw [heq, hsigned] at hclear
    exact hmsb hclear
  · rintro (hmsb | rfl)
    · rw [BitVec.sshiftRight_eq_of_msb_false hmsb]
    · simp

/-- Widening with zeros agrees with widening by the sign exactly on a clear sign bit. -/
theorem setWidth_eq_signExtend_iff {v : ℕ} (hv : w < v) :
    x.setWidth v = x.signExtend v ↔ x.msb = false := by
  constructor
  · intro heq
    by_contra hmsb
    rw [Bool.not_eq_false] at hmsb
    have hnonneg : 0 ≤ (x.setWidth v).toInt := by
      rw [BitVec.toInt_setWidth]
      have := x.isLt
      have hpow : 2 ^ w * 2 ≤ 2 ^ v := by
        rw [← pow_succ]
        exact Nat.pow_le_pow_right (by decide) hv
      rw [Int.bmod_eq_of_le (by omega) (by omega)]
      exact Int.natCast_nonneg _
    rw [heq, BitVec.toInt_signExtend_of_le (le_of_lt hv)] at hnonneg
    have hneg := BitVec.toInt_neg_of_msb_true hmsb
    omega
  · intro hmsb
    exact (BitVec.signExtend_eq_setWidth_of_msb_false hmsb).symm

/-- The operands whose unsigned remainder is the bit pattern of their signed remainder. -/
def RemainderIgnoresSign (x y : BitVec w) : Prop :=
  if x.msb then
    if y.msb then x = y else y.toNat ∣ x.toNat ∧ y.toNat ∣ 2 ^ w
  else
    if y.msb then x.toNat + y.toNat < 2 ^ w else True

theorem toNat_neg_of_msb (h : x.msb = true) : (-x).toNat = 2 ^ w - x.toNat := by
  have hle := le_two_mul_toNat_of_msb h
  have := x.isLt
  rw [BitVec.toNat_neg]
  apply mod_eq_of_lt
  omega

/-- A dividend at least zero and a negative divisor. -/
theorem umod_eq_srem_of_divisor_neg (hx : x.msb = false) (hy : y.msb = true) :
    x % y = x.srem y ↔ x.toNat + y.toNat < 2 ^ w := by
  have hxlt := two_mul_toNat_lt_of_msb hx
  have hyge := le_two_mul_toNat_of_msb hy
  have hylt := y.isLt
  rw [← BitVec.toNat_inj, BitVec.toNat_umod, BitVec.toNat_srem, hx, hy]
  show _ = x.toNat % (-y).toNat ↔ _
  rw [toNat_neg_of_msb hy, mod_eq_of_lt (show x.toNat < y.toNat by omega)]
  constructor
  · intro heq
    have := mod_lt x.toNat (show 2 ^ w - y.toNat > 0 by omega)
    omega
  · intro hlt
    exact (mod_eq_of_lt (by omega)).symm

/-- A negative dividend and a divisor above zero. -/
theorem umod_eq_srem_of_dividend_neg (hx : x.msb = true) (hy : y.msb = false) (hpos : y ≠ 0) :
    x % y = x.srem y ↔ y.toNat ∣ x.toNat ∧ y.toNat ∣ 2 ^ w := by
  have hxge := le_two_mul_toNat_of_msb hx
  have hxlt := x.isLt
  have hylt := two_mul_toNat_lt_of_msb hy
  have hy0 : 0 < y.toNat := by
    rcases Nat.eq_zero_or_pos y.toNat with h | h
    · exact absurd (BitVec.eq_of_toNat_eq (by simpa using h)) hpos
    · exact h
  have hmod := mod_lt x.toNat hy0
  have hmod' := mod_lt (2 ^ w - x.toNat) hy0
  rw [← BitVec.toNat_inj, BitVec.toNat_umod, BitVec.toNat_srem, hx, hy]
  show _ = (-(-x % y)).toNat ↔ _
  rw [BitVec.toNat_neg, BitVec.toNat_umod, toNat_neg_of_msb hx]
  constructor
  · intro heq
    have hzero : (2 ^ w - x.toNat) % y.toNat = 0 := by
      by_contra hne
      rw [mod_eq_of_lt (show 2 ^ w - (2 ^ w - x.toNat) % y.toNat < 2 ^ w by omega)] at heq
      omega
    rw [hzero, Nat.sub_zero, Nat.mod_self] at heq
    have hdvd : y.toNat ∣ x.toNat := dvd_of_mod_eq_zero heq
    refine ⟨hdvd, ?_⟩
    have hsum := Nat.dvd_add (Nat.dvd_of_mod_eq_zero hzero) hdvd
    rwa [Nat.sub_add_cancel (Nat.le_of_lt hxlt)] at hsum
  · rintro ⟨hdvd, hpow⟩
    rw [Nat.mod_eq_zero_of_dvd hdvd, Nat.mod_eq_zero_of_dvd (Nat.dvd_sub hpow hdvd), Nat.sub_zero,
      mod_self]

/-- Two negative operands. -/
theorem umod_eq_srem_of_both_neg (hx : x.msb = true) (hy : y.msb = true) :
    x % y = x.srem y ↔ x = y := by
  have hxge := le_two_mul_toNat_of_msb hx
  have hxlt := x.isLt
  have hyge := le_two_mul_toNat_of_msb hy
  have hylt := y.isLt
  constructor
  · intro heq
    rw [← BitVec.toNat_inj, BitVec.toNat_umod, BitVec.toNat_srem, hx, hy] at heq
    change _ = (-(-x % -y)).toNat at heq
    rw [BitVec.toNat_neg, BitVec.toNat_umod, toNat_neg_of_msb hx, toNat_neg_of_msb hy] at heq
    rcases lt_trichotomy x.toNat y.toNat with hlt | hsame | hgt
    · have hmod := mod_lt (2 ^ w - x.toNat) (show 2 ^ w - y.toNat > 0 by omega)
      rw [mod_eq_of_lt hlt] at heq
      by_cases hzero : (2 ^ w - x.toNat) % (2 ^ w - y.toNat) = 0
      · rw [hzero, Nat.sub_zero, Nat.mod_self] at heq
        omega
      · rw [mod_eq_of_lt (by omega)] at heq
        omega
    · exact BitVec.eq_of_toNat_eq hsame
    · rw [mod_eq_sub_mod (le_of_lt hgt), mod_eq_of_lt (by omega),
        mod_eq_of_lt (show 2 ^ w - x.toNat < 2 ^ w - y.toNat by omega),
        mod_eq_of_lt (by omega)] at heq
      omega
  · rintro rfl
    simp

/-- The unsigned remainder by a nonzero divisor is the signed one exactly on these operands. -/
theorem umod_eq_srem_iff (hy : y ≠ 0) : x % y = x.srem y ↔ RemainderIgnoresSign x y := by
  unfold RemainderIgnoresSign
  cases hx : x.msb <;> cases hsign : y.msb
  · simp [BitVec.srem_eq, hx, hsign]
  · simpa using umod_eq_srem_of_divisor_neg hx hsign
  · simpa using umod_eq_srem_of_dividend_neg hx hsign hy
  · simpa using umod_eq_srem_of_both_neg hx hsign

end MicroFramework.Library.SignedWords
