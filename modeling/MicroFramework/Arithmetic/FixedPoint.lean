import Mathlib.Tactic.Linarith
import Mathlib.Tactic.Positivity
import Mathlib.Tactic.Ring
import MicroFramework.Arrays.Range

/-!
# Emulated floating point

With `TINYCLR_EMULATED_FLOATINGPOINT` an `R4` is a 32-bit and an `R8` a 64-bit number of units,
`2 ^ HB_FloatShift` and `2 ^ HB_DoubleShift` of which are one.
-/

namespace MicroFramework.Arithmetic.Emulated

open Arrays

def HB_FloatShift : ℕ := 10

def HB_DoubleShift : ℕ := 16

/-- A value of the type `CLR_INT64`. -/
def int64 (z : ℤ) : ℤ := z.bmod (2 ^ 64)

/-- A value of the type `CLR_UINT64`. -/
def uint64 (n : ℕ) : ℕ := n % 2 ^ 64

def IsInt64 (z : ℤ) : Prop := -2 ^ 63 ≤ z ∧ z < 2 ^ 63

/-- The division of `CLR_INT64`, which is not defined for every pair. -/
def divide (n d : ℤ) : Option ℤ :=
  if d = 0 ∨ n = -2 ^ 63 ∧ d = -1 then none else some (n.tdiv d)

namespace R4

/-- `operator*` -/
def mul (value num : ℤ) : ℤ := int32 (int64 (value * num) / 2 ^ HB_FloatShift)

/-- `operator/` -/
def div (value num : ℤ) : Option ℤ := (divide (int64 (value * 2 ^ HB_FloatShift)) num).map int32

end R4

namespace R8

/-- An operand without its sign. -/
def magnitude (op : ℤ) : ℕ := uint64 (if op < 0 then int64 (-op) % 2 ^ 64 else op).toNat

def accumulate (op1 op2 res part : ℕ) : ℕ :=
  let v := uint64 (op1 * (op2 / 2 ^ (16 * part) % 2 ^ 16))
  uint64 (res + if 16 * part ≥ HB_DoubleShift then uint64 (v * 2 ^ (16 * part - HB_DoubleShift))
    else v / 2 ^ (HB_DoubleShift - 16 * part))

/-- `operator*` -/
def mul (op1 op2 : ℤ) : ℤ :=
  let res := [0, 1, 2, 3].foldl (accumulate (magnitude op1) (magnitude op2)) 0
  if xor (op1 < 0) (op2 < 0) then int64 (-int64 res) else int64 res

/-- `operator/` -/
def div (value num : ℤ) : Option ℤ := divide (int64 (value * 2 ^ HB_DoubleShift)) num

end R8

/-! ## What the operators should give -/

/-- The quotient of the integers is a number of units of a type with so many bits. -/
def Representable (bits : ℕ) (n d : ℤ) : Prop :=
  -2 ^ (bits - 1) * |d| ≤ n * d.sign ∧ n * d.sign < 2 ^ (bits - 1) * |d|

/-- The result is less than one unit away from the quotient. -/
def Exact (n d result : ℤ) : Prop := |result * d - n| < |d|

variable {a b n d q : ℤ}

theorem int64_eq (h : IsInt64 n) : int64 n = n := by
  unfold IsInt64 at h
  unfold int64
  rw [Int.bmod_def]
  omega

theorem isInt64_int64 (n : ℤ) : IsInt64 (int64 n) := by
  unfold IsInt64 int64
  rw [Int.bmod_def]
  omega

theorem exact_tdiv (hd : d ≠ 0) : Exact n d (n.tdiv d) := by
  have hrest : n.tdiv d * d - n = -n.tmod d := by
    have := Int.tmod_add_mul_tdiv n d
    linarith
  rw [Exact, hrest, abs_neg, ← Int.natCast_natAbs, ← Int.natCast_natAbs, Int.natAbs_tmod]
  exact_mod_cast Nat.mod_lt _ (Int.natAbs_pos.mpr hd)

/-- A quotient that can be represented is not cut off. -/
theorem tdiv_bounds {bits : ℕ} (hd : d ≠ 0) (h : Representable bits n d) :
    -2 ^ (bits - 1) ≤ n.tdiv d ∧ n.tdiv d < 2 ^ (bits - 1) := by
  have hpos : 0 < |d| := abs_pos.mpr hd
  have heq : n.tdiv d = (n * d.sign).tdiv |d| := by
    obtain hneg | hpos := lt_or_gt_of_ne hd
    · rw [Int.sign_eq_neg_one_of_neg hneg, abs_of_neg hneg, mul_neg_one, Int.neg_tdiv_neg]
    · rw [Int.sign_eq_one_of_pos hpos, abs_of_pos hpos, mul_one]
  rw [heq]
  constructor
  · have hle := Int.tdiv_le_tdiv hpos h.1
    rwa [Int.mul_tdiv_cancel _ hpos.ne'] at hle
  · have hle := Int.tdiv_le_tdiv hpos (Int.le_sub_one_of_lt h.2)
    rw [@Int.tdiv_eq_ediv_of_nonneg (2 ^ (bits - 1) * |d| - 1) |d|
      (Int.sub_nonneg.mpr (Int.add_one_le_of_lt (Int.mul_pos (by positivity) hpos)))] at hle
    exact hle.trans_lt (Int.ediv_lt_of_lt_mul hpos (by linarith))

theorem divide_eq (hd : d ≠ 0) (hn : ¬ (n = -2 ^ 63 ∧ d = -1)) : divide n d = some (n.tdiv d) :=
  if_neg (not_or.mpr ⟨hd, hn⟩)

theorem magnitude_eq (h : IsInt64 a) : R8.magnitude a = a.natAbs := by
  unfold IsInt64 at h
  unfold R8.magnitude uint64 int64
  split_ifs with hneg
  · rw [Int.bmod_def]
    omega
  · omega

theorem accumulate_zero (x y res : ℕ) :
    R8.accumulate x y res 0 = uint64 (res + uint64 (x * (y % 2 ^ 16)) / 2 ^ 16) := by
  rw [R8.accumulate, if_neg (by decide), Nat.mul_zero, Nat.pow_zero, Nat.div_one]
  rfl

theorem accumulate_of_pos (x y res : ℕ) {part : ℕ} (hpart : 1 ≤ part) :
    R8.accumulate x y res part =
      uint64 (res + x * (y / 2 ^ (16 * part) % 2 ^ 16) * 2 ^ (16 * part - 16)) := by
  have hshift : 16 * part ≥ HB_DoubleShift := Nat.mul_le_mul_left 16 hpart
  rw [R8.accumulate, if_pos hshift, HB_DoubleShift]
  simp only [uint64, Nat.mod_mul_mod, Nat.add_mod_mod]

/-- The sum of the four partial products loses what the first of them has above 64 bits. -/
theorem accumulated {x y : ℕ} (hy : y < 2 ^ 64) (hfits : x * y < 2 ^ 80) :
    [0, 1, 2, 3].foldl (R8.accumulate x y) 0 + x * (y % 2 ^ 16) / 2 ^ 64 * 2 ^ 48 =
      x * y / 2 ^ 16 := by
  have hdigits : y = y % 2 ^ 16 + 2 ^ 16 * (y / 2 ^ 16 % 2 ^ 16) +
      2 ^ 32 * (y / 2 ^ 32 % 2 ^ 16) + 2 ^ 48 * (y / 2 ^ 48 % 2 ^ 16) := by omega
  have hproduct : x * y = x * (y % 2 ^ 16) + 2 ^ 16 * (x * (y / 2 ^ 16 % 2 ^ 16)) +
      2 ^ 32 * (x * (y / 2 ^ 32 % 2 ^ 16)) + 2 ^ 48 * (x * (y / 2 ^ 48 % 2 ^ 16)) := by
    conv_lhs => rw [hdigits]
    ring
  rw [List.foldl_cons, List.foldl_cons, List.foldl_cons, List.foldl_cons, List.foldl_nil,
    accumulate_zero, accumulate_of_pos x y _ (by decide : 1 ≤ 1),
    accumulate_of_pos x y _ (by decide : 1 ≤ 2), accumulate_of_pos x y _ (by decide : 1 ≤ 3)]
  unfold uint64
  simp only [Nat.reduceMul, Nat.zero_add] at *
  generalize x * y = product at *
  generalize x * (y % 2 ^ 16) = p at *
  generalize x * (y / 2 ^ 16 % 2 ^ 16) = p₁ at *
  generalize x * (y / 2 ^ 32 % 2 ^ 16) = p₂ at *
  generalize x * (y / 2 ^ 48 % 2 ^ 16) = p₃ at *
  clear hdigits
  omega

theorem representable_shift {bits s : ℕ} :
    Representable bits n (2 ^ s) ↔
      -2 ^ (bits - 1) * 2 ^ s ≤ n ∧ n < 2 ^ (bits - 1) * 2 ^ s := by
  have hpos : (0 : ℤ) < 2 ^ s := by positivity
  rw [Representable, abs_of_pos hpos, Int.sign_eq_one_of_pos hpos, mul_one]

theorem R4.mul_exact (h : Representable 32 (a * b) (2 ^ HB_FloatShift)) :
    Exact (a * b) (2 ^ HB_FloatShift) (R4.mul a b) := by
  have hfits := representable_shift.mp h
  rw [HB_FloatShift] at hfits ⊢
  have hwide : int64 (a * b) = a * b := int64_eq ⟨by omega, by omega⟩
  have hnarrow : IsInt32 (a * b / 2 ^ 10) := by
    unfold IsInt32
    omega
  rw [R4.mul, HB_FloatShift, hwide, int32_eq hnarrow, Exact,
    abs_of_pos (by decide : (0 : ℤ) < 2 ^ 10), abs_lt]
  omega

theorem R4.div_exact (ha : IsInt32 a) (hb : b ≠ 0)
    (h : Representable 32 (a * 2 ^ HB_FloatShift) b) :
    ∃ q, R4.div a b = some q ∧ Exact (a * 2 ^ HB_FloatShift) b q := by
  have hwide : int64 (a * 2 ^ HB_FloatShift) = a * 2 ^ HB_FloatShift := by
    apply int64_eq
    unfold IsInt32 at ha
    unfold IsInt64 HB_FloatShift
    omega
  have hlow : a * 2 ^ HB_FloatShift ≠ -2 ^ 63 := by
    unfold IsInt32 at ha
    unfold HB_FloatShift
    omega
  refine ⟨_, ?_, exact_tdiv hb⟩
  rw [R4.div, hwide, divide_eq hb fun hn ↦ hlow hn.1, Option.map_some, int32_eq (tdiv_bounds hb h)]

theorem R8.div_exact_iff (hb : b ≠ 0) (hlong : IsInt64 b)
    (h : Representable 64 (a * 2 ^ HB_DoubleShift) b) :
    (∃ q, R8.div a b = some q ∧ Exact (a * 2 ^ HB_DoubleShift) b q) ↔
      IsInt64 (a * 2 ^ HB_DoubleShift) := by
  rw [R8.div]
  generalize a * 2 ^ HB_DoubleShift = n at *
  constructor
  · -- the wrapped dividend would be a whole turn of the word away
    rintro ⟨q, hq, hexact⟩
    unfold divide at hq
    split_ifs at hq
    cases hq
    have hwrapped : Exact (int64 n) b ((int64 n).tdiv b) := exact_tdiv hb
    have hrange := isInt64_int64 n
    unfold Exact at hexact hwrapped
    rw [abs_lt] at hexact hwrapped
    have habs : |b| ≤ 2 ^ 63 := abs_le.mpr ⟨hlong.1, hlong.2.le⟩
    have hturn : ∃ k : ℤ, int64 n = n - 2 ^ 64 * k := ⟨_, (Int.bmod_eq_self_sub_mul_bdiv n _)⟩
    obtain ⟨k, hk⟩ := hturn
    have hzero : k = 0 := by omega
    rw [hk, hzero] at hrange
    simpa using hrange
  · intro hn
    refine ⟨_, ?_, exact_tdiv hb⟩
    rw [int64_eq hn]
    refine divide_eq hb fun hlowest ↦ ?_
    have hfits := h.2
    rw [hlowest.1, hlowest.2] at hfits
    exact absurd hfits (by decide)

theorem R8.mul_exact_iff (ha : IsInt64 a) (hb : IsInt64 b)
    (h : Representable 64 (a * b) (2 ^ HB_DoubleShift)) :
    Exact (a * b) (2 ^ HB_DoubleShift) (R8.mul a b) ↔ |a| * (|b| % 2 ^ 16) < 2 ^ 64 := by
  have hfits := representable_shift.mp h
  have hproduct : ((a.natAbs * b.natAbs : ℕ) : ℤ) =
      if xor (a < 0) (b < 0) then -(a * b) else a * b := by
    rw [Nat.cast_mul, Int.natCast_natAbs, Int.natCast_natAbs]
    obtain hneg | hnonneg := lt_or_ge a 0 <;> obtain hneg' | hnonneg' := lt_or_ge b 0 <;>
      simp [*, abs_of_neg, abs_of_nonneg, not_lt.mpr]
  have hlost : |a| * (|b| % 2 ^ 16) = (a.natAbs * (b.natAbs % 2 ^ 16) : ℕ) := by
    rw [← Int.natCast_natAbs, ← Int.natCast_natAbs]
    norm_cast
  have hsum := @accumulated a.natAbs b.natAbs
  rw [hlost, Exact, abs_of_pos (by decide : (0 : ℤ) < 2 ^ HB_DoubleShift), R8.mul, magnitude_eq ha,
    magnitude_eq hb, abs_lt]
  rw [HB_DoubleShift] at hfits ⊢
  unfold IsInt64 at hb
  generalize [0, 1, 2, 3].foldl (R8.accumulate a.natAbs b.natAbs) 0 = res at *
  generalize a.natAbs * (b.natAbs % 2 ^ 16) = p at *
  generalize a.natAbs * b.natAbs = product at *
  generalize a * b = exact at *
  unfold int64
  split_ifs at hproduct ⊢
  · rw [Int.bmod_def, Int.bmod_def]
    omega
  · rw [Int.bmod_def]
    omega

/-- With `R4`, products and quotients that can be represented are exact.  With `R8`, a product is so
if the partial product for the fraction of the second operand has 64 bits, and a quotient if the
shifted dividend has. -/
theorem emulated_exact (a b : ℤ) :
    (IsInt32 a → IsInt32 b →
      (Representable 32 (a * b) (2 ^ HB_FloatShift) →
        Exact (a * b) (2 ^ HB_FloatShift) (R4.mul a b)) ∧
      (b ≠ 0 → Representable 32 (a * 2 ^ HB_FloatShift) b →
        ∃ q, R4.div a b = some q ∧ Exact (a * 2 ^ HB_FloatShift) b q)) ∧
    (IsInt64 a → IsInt64 b →
      (Representable 64 (a * b) (2 ^ HB_DoubleShift) →
        (Exact (a * b) (2 ^ HB_DoubleShift) (R8.mul a b) ↔ |a| * (|b| % 2 ^ 16) < 2 ^ 64)) ∧
      (b ≠ 0 → Representable 64 (a * 2 ^ HB_DoubleShift) b →
        ((∃ q, R8.div a b = some q ∧ Exact (a * 2 ^ HB_DoubleShift) b q) ↔
          IsInt64 (a * 2 ^ HB_DoubleShift)))) :=
  ⟨fun ha _ ↦ ⟨R4.mul_exact, R4.div_exact ha⟩,
    fun ha hb ↦ ⟨R8.mul_exact_iff ha hb, fun hne ↦ R8.div_exact_iff hne hb⟩⟩

/-- Of `2 ^ 32`, the half is exact. -/
theorem emulated_exact_half :
    Exact (2 ^ 48 * 2 ^ 15) (2 ^ HB_DoubleShift) (R8.mul (2 ^ 48) (2 ^ 15)) :=
  (((emulated_exact _ _).2 ⟨by decide, by decide⟩ ⟨by decide, by decide⟩).1
    ⟨by decide, by decide⟩).mpr (by decide)

/-- Of `2 ^ 34` times a little less than one, the first partial product does not fit. -/
theorem mul_loses_bits :
    IsInt64 (2 ^ 50) ∧ Representable 64 (2 ^ 50 * 65535) (2 ^ HB_DoubleShift) ∧
      ¬ Exact (2 ^ 50 * 65535) (2 ^ HB_DoubleShift) (R8.mul (2 ^ 50) 65535) := by
  have hmul : R8.mul (2 ^ 50) 65535 = 281457796841472 := by decide +kernel
  refine ⟨⟨by decide, by decide⟩, ⟨by decide, by decide⟩, ?_⟩
  rw [hmul]
  unfold Exact
  decide

end MicroFramework.Arithmetic.Emulated
