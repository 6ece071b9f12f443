import Mathlib.Algebra.Order.Group.Int
import Mathlib.Data.UInt

/-!
# Ranges of an array

Indices and lengths are values of the 32-bit type `int`; a sum wraps around.
-/

namespace MicroFramework.Arrays

/-- The value of an `int` expression: the sum or difference, wrapped around to 32 bits. -/
def int32 (z : ℤ) : ℤ := z.bmod (2 ^ 32)

/-- `CLR_RT_HeapBlock_Array::CheckRange` -/
def checkRange (index length numOfElements : ℤ) : Bool :=
  if length < 0 then false
  else if index < 0 ∨ index > numOfElements then false
  else if int32 (index + length) < 0 ∨ int32 (index + length) > numOfElements then false
  else true

def InRange (index length numOfElements : ℤ) : Prop :=
  0 ≤ index ∧ 0 ≤ length ∧ index + length ≤ numOfElements

instance (index length numOfElements : ℤ) : Decidable (InRange index length numOfElements) :=
  inferInstanceAs (Decidable (_ ∧ _))

/-- A value is an `int`. -/
def IsInt32 (z : ℤ) : Prop := -2 ^ 31 ≤ z ∧ z < 2 ^ 31

instance (z : ℤ) : Decidable (IsInt32 z) := inferInstanceAs (Decidable (_ ∧ _))

theorem int32_eq {z : ℤ} (h : IsInt32 z) : int32 z = z := by
  unfold IsInt32 at h
  unfold int32
  rw [Int.bmod_def]
  omega

/-- A sum beyond the largest `int` is negative. -/
theorem int32_overflow {z : ℤ} (hlo : 2 ^ 31 ≤ z) (hhi : z < 2 ^ 32) : int32 z = z - 2 ^ 32 := by
  unfold int32
  rw [Int.bmod_def]
  omega

theorem int32_isInt32 (z : ℤ) : IsInt32 (int32 z) := by
  unfold int32 IsInt32
  rw [Int.bmod_def]
  omega

/-- `CheckRange` is exact: a sum that wraps around is negative and fails the test. -/
theorem checkRange_iff {index length numOfElements : ℤ} (hindex : IsInt32 index)
    (hlength : IsInt32 length) (hnum : IsInt32 numOfElements) :
    checkRange index length numOfElements = true ↔ InRange index length numOfElements := by
  unfold IsInt32 at hindex hlength hnum
  unfold checkRange InRange
  by_cases hneg : length < 0
  · rw [if_pos hneg]
    simp only [Bool.false_eq_true, false_iff]
    omega
  rw [if_neg hneg]
  by_cases hout : index < 0 ∨ index > numOfElements
  · rw [if_pos hout]
    simp only [Bool.false_eq_true, false_iff]
    omega
  rw [if_neg hout]
  by_cases hover : index + length < 2 ^ 31
  · rw [int32_eq ⟨by omega, hover⟩]
    split_ifs <;> simp only [false_iff, true_iff] <;> omega
  · rw [int32_overflow (not_lt.mp hover) (by omega)]
    split_ifs <;> simp only [false_iff, true_iff] <;> omega

end MicroFramework.Arrays
