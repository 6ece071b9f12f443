import MicroFramework.Arrays.Range
import MicroFramework.Library.Listing

/-!
# Copying a range of an array

`CLR_RT_HeapBlock_Array::Copy` between arrays of numbers.  It checks nothing when there is nothing
to copy, and its sums are values of `int`: one that wraps around passes the check, and then the move
goes outside the arrays.
-/

namespace MicroFramework.Arrays

open Library

/-- Why nothing is copied, or what is not in the arrays. -/
inductive CopyFailure
  | outOfRange
  | outside

/-- The check of one of the two ranges fails. -/
def Refused (index length numElem : ℤ) : Prop :=
  length < 0 ∨ index < 0 ∨ numElem < int32 (length + index)

instance (index length numElem : ℤ) : Decidable (Refused index length numElem) :=
  inferInstanceAs (Decidable (_ ∨ _))

variable {α : Type*}

/-- `CLR_RT_HeapBlock_Array::Copy` -/
def copy (arraySrc : List α) (indexSrc : ℤ) (arrayDst : List α) (indexDst length : ℤ) :
    Except CopyFailure (List α) :=
  if length = 0 then .ok arrayDst
  else if Refused indexSrc length arraySrc.length ∨ Refused indexDst length arrayDst.length then
    .error .outOfRange
  else if InRange indexSrc length arraySrc.length ∧ InRange indexDst length arrayDst.length then
    .ok (replaceRange arrayDst indexDst.toNat
      (readRange arraySrc indexSrc.toNat length.toNat))
  else .error .outside

variable {arraySrc arrayDst : List α} {indexSrc indexDst length : ℤ}

theorem not_refused {index numElem : ℤ} (hin : InRange index length numElem)
    (hnum : numElem < 2 ^ 31) : ¬ Refused index length numElem := by
  unfold InRange at hin
  unfold Refused
  rw [int32_eq ⟨by omega, by omega⟩]
  omega

theorem copy_zero : copy arraySrc indexSrc arrayDst indexDst 0 = .ok arrayDst := if_pos rfl

theorem copy_inside (hsrc : InRange indexSrc length arraySrc.length)
    (hdst : InRange indexDst length arrayDst.length) (hsrcSize : arraySrc.length < 2 ^ 31)
    (hdstSize : arrayDst.length < 2 ^ 31) :
    copy arraySrc indexSrc arrayDst indexDst length =
      .ok (replaceRange arrayDst indexDst.toNat
        (readRange arraySrc indexSrc.toNat length.toNat)) := by
  unfold copy
  split_ifs with hzero hrefused hinside
  · subst hzero
    rw [Int.toNat_zero, readRange, List.take_zero, replaceRange_nil]
  · exact absurd hrefused (not_or.mpr
      ⟨not_refused hsrc (by omega), not_refused hdst (by omega)⟩)
  · rfl
  · exact absurd ⟨hsrc, hdst⟩ hinside

theorem copy_refused (hlength : length ≠ 0)
    (h : Refused indexSrc length arraySrc.length ∨ Refused indexDst length arrayDst.length) :
    copy arraySrc indexSrc arrayDst indexDst length = .error .outOfRange := by
  rw [copy, if_neg hlength, if_pos h]

end MicroFramework.Arrays
