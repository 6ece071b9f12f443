import Mathlib.Data.List.Basic
import Mathlib.Data.Nat.Bitwise
import Mathlib.Tactic.Ring

/-!
# Bits in order of weight

`bitsOf n v` lists the `n` low bits of a number from the highest down, and `ofBits` reads such a
list back.  Putting lists side by side is shifting and adding.
-/

namespace MicroFramework.Bits

open List Nat

/-- The `n` low bits of `v`, the highest first. -/
def bitsOf : ℕ → ℕ → List Bool
  | 0, _ => []
  | n + 1, v => v.testBit n :: bitsOf n v

/-- The number that a list of bits spells, the highest first. -/
def ofBits : List Bool → ℕ
  | [] => 0
  | bit :: bits => bit.toNat * 2 ^ bits.length + ofBits bits

def bitsOfBytes (bytes : List UInt8) : List Bool :=
  bytes.flatMap fun b ↦ bitsOf 8 b.toNat

@[simp]
theorem bitsOf_zero (v : ℕ) : bitsOf 0 v = [] := rfl

@[simp]
theorem length_bitsOf (n v : ℕ) : (bitsOf n v).length = n := by
  induction n with
  | zero => rfl
  | succ n ih => rw [bitsOf, length_cons, ih]

theorem bitsOf_congr {n v w : ℕ} (h : ∀ i < n, v.testBit i = w.testBit i) :
    bitsOf n v = bitsOf n w := by
  induction n with
  | zero => rfl
  | succ n ih =>
    rw [bitsOf, bitsOf, h n n.lt_succ_self, ih fun i hi ↦ h i (hi.trans n.lt_succ_self)]

theorem testBit_congr {n v w : ℕ} (h : bitsOf n v = bitsOf n w) :
    ∀ i < n, v.testBit i = w.testBit i := by
  induction n with
  | zero => exact fun i hi ↦ absurd hi i.not_lt_zero
  | succ n ih =>
    intro i hi
    rw [bitsOf, bitsOf, List.cons.injEq] at h
    rcases Nat.lt_succ_iff_lt_or_eq.mp hi with hi | rfl
    · exact ih h.2 i hi
    · exact h.1

/-- The bits of a word are those of its upper part and then those of its lower part. -/
theorem bitsOf_add (m n v : ℕ) : bitsOf (m + n) v = bitsOf m (v / 2 ^ n) ++ bitsOf n v := by
  induction m with
  | zero => simp
  | succ m ih =>
    calc
      bitsOf (m + 1 + n) v = bitsOf (m + n + 1) v := by rw [Nat.add_right_comm]
      _ = v.testBit (m + n) :: bitsOf (m + n) v := rfl
      _ = (v / 2 ^ n).testBit m :: (bitsOf m (v / 2 ^ n) ++ bitsOf n v) := by
        rw [ih, testBit_div_two_pow]
      _ = bitsOf (m + 1) (v / 2 ^ n) ++ bitsOf n v := rfl

theorem bitsOf_mod {m n : ℕ} (h : n ≤ m) (v : ℕ) : bitsOf n (v % 2 ^ m) = bitsOf n v := by
  apply bitsOf_congr
  intro i hi
  simp [testBit_mod_two_pow, hi.trans_le h]

theorem bitsOf_eq_zeros (n : ℕ) : bitsOf n 0 = replicate n false := by
  induction n with
  | zero => rfl
  | succ n ih => rw [bitsOf, ih, zero_testBit, replicate_succ]

theorem ofBits_append (bits bits' : List Bool) :
    ofBits (bits ++ bits') = ofBits bits * 2 ^ bits'.length + ofBits bits' := by
  induction bits with
  | nil => simp [ofBits]
  | cons bit bits ih =>
    simp only [cons_append, ofBits, ih, length_append]
    ring

theorem ofBits_lt (bits : List Bool) : ofBits bits < 2 ^ bits.length := by
  induction bits with
  | nil => simp [ofBits]
  | cons bit bits ih =>
    have hbit : bit.toNat ≤ 1 := by cases bit <;> decide
    calc
      ofBits (bit :: bits) < bit.toNat * 2 ^ bits.length + 2 ^ bits.length :=
        Nat.add_lt_add_left ih _
      _ ≤ 1 * 2 ^ bits.length + 2 ^ bits.length := Nat.add_le_add_right (mul_le_mul_right _ hbit) _
      _ = 2 ^ (bit :: bits).length := by
        rw [length_cons, Nat.pow_succ]
        ring

/-- Reading the low bits of a number gives the number modulo their weight. -/
theorem ofBits_bitsOf (n v : ℕ) : ofBits (bitsOf n v) = v % 2 ^ n := by
  induction n with
  | zero => simp [ofBits, mod_one]
  | succ n ih =>
    rw [bitsOf, ofBits, length_bitsOf, ih, testBit_eq_decide_div_mod_eq, Nat.pow_succ,
      mod_mul]
    rcases mod_two_eq_zero_or_one (v / 2 ^ n) with h | h <;> simp [h, Nat.add_comm]

/-! ## The number of ones -/

/-- The number of ones among the `n` low bits. -/
def weight (n v : ℕ) : ℕ := (bitsOf n v).count true

theorem weight_succ (n v : ℕ) : weight (n + 1) v = (v.testBit n).toNat + weight n v := by
  rw [weight, bitsOf, count_cons, Nat.add_comm, weight]
  cases v.testBit n <;> rfl

theorem weight_add (m n v : ℕ) : weight (m + n) v = weight m (v / 2 ^ n) + weight n v := by
  rw [weight, bitsOf_add, count_append, weight, weight]

theorem weight_mod (n v : ℕ) : weight n (v % 2 ^ n) = weight n v := by
  rw [weight, bitsOf_mod le_rfl, weight]

/-- A number below `2 ^ k` has at most `k` ones. -/
theorem weight_le {k v : ℕ} (n : ℕ) (h : v < 2 ^ k) : weight n v ≤ k := by
  by_cases hnk : n ≤ k
  · exact (count_le_length.trans_eq (length_bitsOf n v)).trans hnk
  · have hupper : weight (n - k) (v / 2 ^ k) = 0 := by
      rw [div_eq_of_lt h, weight, bitsOf_eq_zeros, count_replicate]
      rfl
    have hsplit : weight n v = weight (n - k) (v / 2 ^ k) + weight k v := by
      rw [← weight_add, Nat.sub_add_cancel (Nat.le_of_not_le hnk)]
    rw [hsplit, hupper, Nat.zero_add]
    exact count_le_length.trans_eq (length_bitsOf k v)

section Subset

variable {n v w : ℕ}

theorem weight_le_of_subset (h : ∀ i < n, v.testBit i = true → w.testBit i = true) :
    weight n v ≤ weight n w := by
  induction n with
  | zero => exact le_rfl
  | succ n ih =>
    rw [weight_succ, weight_succ]
    have hbit := Bool.toNat_le_toNat fun hv ↦ h n n.lt_succ_self hv
    exact Nat.add_le_add hbit (ih fun i hi ↦ h i (hi.trans n.lt_succ_self))

/-- More ones in the same places and another one make a greater number of ones. -/
theorem weight_lt_of_ssubset (h : ∀ i < n, v.testBit i = true → w.testBit i = true)
    (hne : ∃ i < n, v.testBit i ≠ w.testBit i) : weight n v < weight n w := by
  induction n with
  | zero =>
    obtain ⟨i, hi, -⟩ := hne
    exact absurd hi i.not_lt_zero
  | succ n ih =>
    have hlow : ∀ i < n, v.testBit i = true → w.testBit i = true :=
      fun i hi ↦ h i (hi.trans n.lt_succ_self)
    rw [weight_succ, weight_succ]
    by_cases htop : v.testBit n = w.testBit n
    · rw [htop]
      apply Nat.add_lt_add_left (ih hlow ?_)
      obtain ⟨i, hi, hdiffer⟩ := hne
      rcases Nat.lt_succ_iff_lt_or_eq.mp hi with hi | rfl
      · exact ⟨i, hi, hdiffer⟩
      · exact absurd htop hdiffer
    · apply Nat.add_lt_add_of_lt_of_le _ (weight_le_of_subset hlow)
      cases hv : v.testBit n with
      | true => exact absurd (hv.trans (h n n.lt_succ_self hv).symm) htop
      | false =>
        have hw : w.testBit n = true := Bool.eq_true_of_not_eq_false fun hw ↦ htop (hv.trans hw.symm)
        rw [hw]
        decide

end Subset

/-! ## Strings of bytes -/

@[simp]
theorem bitsOfBytes_nil : bitsOfBytes [] = [] := rfl

@[simp]
theorem bitsOfBytes_cons (b : UInt8) (bytes : List UInt8) :
    bitsOfBytes (b :: bytes) = bitsOf 8 b.toNat ++ bitsOfBytes bytes := by
  simp [bitsOfBytes]

@[simp]
theorem bitsOfBytes_append (bytes bytes' : List UInt8) :
    bitsOfBytes (bytes ++ bytes') = bitsOfBytes bytes ++ bitsOfBytes bytes' := by
  simp [bitsOfBytes]

@[simp]
theorem length_bitsOfBytes (bytes : List UInt8) :
    (bitsOfBytes bytes).length = 8 * bytes.length := by
  induction bytes with
  | nil => rfl
  | cons b bytes ih =>
    rw [bitsOfBytes_cons, length_append, length_bitsOf, ih, length_cons]
    ring

/-- Writing `insert` bits below the upper part of a byte whose lower part is clear. -/
theorem bitsOf_or_shift {b x avail insert : ℕ} (hinsert : insert ≤ avail) (havail : avail ≤ 8)
    (hclear : bitsOf avail b = replicate avail false) (hx : x < 2 ^ insert) :
    bitsOf 8 (b ||| x <<< (avail - insert)) =
      bitsOf (8 - avail) (b / 2 ^ avail) ++ bitsOf insert x ++
        replicate (avail - insert) false := by
  have hlow : ∀ i < avail, b.testBit i = false := by
    intro i hi
    rw [testBit_congr (hclear.trans (bitsOf_eq_zeros avail).symm) i hi, zero_testBit]
  have hsplit : 8 = (8 - avail) + (insert + (avail - insert)) := by omega
  rw [hsplit, bitsOf_add, bitsOf_add insert, ← hsplit, ← append_assoc,
    ← bitsOf_eq_zeros (avail - insert)]
  congr 1
  · congr 1
    · apply bitsOf_congr
      intro i _
      rw [testBit_div_two_pow, testBit_div_two_pow, testBit_or, testBit_shiftLeft,
        show insert + (avail - insert) = avail by omega,
        testBit_lt_two_pow (hx.trans_le (Nat.pow_le_pow_right (by decide) (by omega))),
        Bool.and_false, Bool.or_false]
    · apply bitsOf_congr
      intro i hi
      rw [testBit_div_two_pow, testBit_or, testBit_shiftLeft, hlow _ (by omega),
        Nat.add_sub_cancel]
      simp
  · apply bitsOf_congr
    intro i hi
    rw [testBit_or, testBit_shiftLeft, hlow i (by omega), zero_testBit,
      decide_eq_false (Nat.not_le.mpr hi), Bool.false_and, Bool.or_false]

end MicroFramework.Bits
