import MicroFramework.Arrays.Range
import MicroFramework.Library.Listing
import Mathlib.Tactic.Positivity

/-!
# The arrays behind the collections

The native collections keep their elements in arrays of type `Object`: references, of which null is
one.  An array is created with all its elements null; `CopyTo` of a queue hands elements to an array
of the caller, which is an array of type `Object` too or has elements of another type, onto which an
element is assigned with a check of its type.
-/

namespace MicroFramework.Collections

open Library Arrays List

variable {α E : Type*}

abbrev Cells (α : Type*) := List (Option α)

/-- The errors that the operations return. -/
inductive Failure where
  | invalidOperation
  | invalidParameter
  | outOfRange
  | outOfMemory
  | invalidCast
  | wrongType
  | nullReference
  deriving DecidableEq

abbrev Result := Except Failure Unit

/-! ## Creating an array -/

/-- `sizeof(CLR_RT_HeapBlock)` -/
def sizeOfHeapBlock : ℕ := 12

/-- `sizeof(CLR_RT_HeapBlock_Array)` -/
def sizeOfArray : ℕ := 20

def maxSize : ℕ := 0xFFFF

/-- The bytes of an array of so many references. -/
def totLength (length : ℕ) : ℕ := sizeOfArray + length * sizeOfHeapBlock

/-- `CONVERTFROMSIZETOHEAPBLOCKS`, of the length as a `CLR_UINT32` -/
def lengthHB (length : ℕ) : ℕ := (totLength length % 2 ^ 32 + sizeOfHeapBlock - 1) / sizeOfHeapBlock

/-- What the creation of an array comes to: it fails, it gives an array, or the elements that are
cleared go beyond the blocks that were handed out. -/
inductive Created (α : Type*) where
  | failed
  | array (cells : Cells α)
  | overrun

/-- `CLR_RT_HeapBlock_Array::CreateInstance`; `gives` tells whether the heap hands out so many
blocks. -/
def createInstance (gives : ℕ → Bool) (length : ℕ) : Created α :=
  if lengthHB length > maxSize then .failed
  else if gives (lengthHB length) = false then .failed
  else if lengthHB length * sizeOfHeapBlock < totLength length then .overrun
  else .array (replicate length none)

/-- `ClearElements` of an array of type `Object`; there is none when it leaves the array. -/
def clearElements (array : Cells α) (index length : ℕ) : Option (Cells α) :=
  if index + length ≤ array.length then some (replaceRange array index (replicate length none))
  else none

def setElement (array : Cells α) (index : ℕ) (value : Option α) : Option (Cells α) :=
  if index < array.length then some (array.set index value) else none

def Fits (length : ℕ) : Prop := totLength length ≤ maxSize * sizeOfHeapBlock

variable {length : ℕ}

theorem fits_iff : Fits length ↔ length ≤ 65533 := by
  unfold Fits totLength maxSize sizeOfArray sizeOfHeapBlock
  omega

variable {gives : ℕ → Bool}

theorem createInstance_array {cells : Cells α} (h : createInstance gives length = .array cells) :
    Fits length ∧ cells = replicate length none := by
  unfold createInstance at h
  split_ifs at h with hmax hgives hover
  refine ⟨(not_lt.mp hover).trans ?_, (Created.array.inj h).symm⟩
  exact Nat.mul_le_mul_right _ (not_lt.mp hmax)

theorem createInstance_ne_overrun
    (h : totLength length < 2 ^ 32) : (createInstance gives length : Created α) ≠ .overrun := by
  unfold createInstance
  split_ifs with hmax hgives hover
  · exact nofun
  · exact nofun
  · unfold lengthHB sizeOfHeapBlock at hover
    rw [Nat.mod_eq_of_lt h] at hover
    omega
  · exact nofun

theorem createInstance_double (h : Fits length) :
    (createInstance gives (length * 2) : Created α) ≠ .overrun := by
  apply createInstance_ne_overrun
  have hlength := fits_iff.mp h
  unfold totLength sizeOfArray sizeOfHeapBlock
  omega

/-! ## Room for one more element -/

/-- A list, and the capacity of the array behind it. -/
structure Bounded (α : Type*) where
  list : Cells α
  capacity : ℕ

/-- The capacity with which one more element is stored: a full array is replaced by a larger one, if
that can be created. -/
def Bounded.roomFor (a : Bounded α) (gives : ℕ → Bool) (larger : ℕ → ℕ) : Option ℕ :=
  if a.list.length < a.capacity then some a.capacity
  else
    match (createInstance gives (larger a.capacity) : Created α) with
    | .array _ => some (larger a.capacity)
    | _ => none

namespace Bounded

variable {a : Bounded α} {larger : ℕ → ℕ}

theorem roomFor_room (h : a.list.length < a.capacity) :
    a.roomFor gives larger = some a.capacity := if_pos h

theorem roomFor_failed (hfull : ¬ a.list.length < a.capacity)
    (hcreate : (createInstance gives (larger a.capacity) : Created α) = .failed) :
    a.roomFor gives larger = none := by
  rw [roomFor, if_neg hfull, hcreate]

theorem roomFor_array {cells : Cells α} (hfull : ¬ a.list.length < a.capacity)
    (hcreate : createInstance gives (larger a.capacity) = .array cells) :
    a.roomFor gives larger = some (larger a.capacity) := by
  rw [roomFor, if_neg hfull, hcreate]

end Bounded

/-! ## Copying between arrays -/

/-- `ObjArrayMemcpy`, with the array that it writes; there is none when it leaves the arrays. -/
def objArrayMemcpy (arraySrc : Cells α) (indexSrc : ℤ) (arrayDst : Cells α) (indexDst : ℤ)
    (length : ℕ) : Option (Cells α) :=
  if 0 ≤ indexSrc ∧ indexSrc + length ≤ arraySrc.length ∧
      0 ≤ indexDst ∧ indexDst + length ≤ arrayDst.length then
    some (replaceRange arraySrc indexSrc.toNat (readRange arrayDst indexDst.toNat length))
  else none

/-- The loop of `CLR_RT_HeapBlock_Array::Copy` onto an array of another type, with the array as it
leaves it; there is none when it leaves the array. -/
def copyElements (assign : Option α → E → Except Failure E) :
    Cells α → List E → ℕ → Option (Result × List E)
  | [], dst, _ => some (.ok (), dst)
  | value :: src, dst, i =>
    match dst[i]? with
    | none => none
    | some old =>
      match assign value old with
      | .error failure => some (.error failure, dst)
      | .ok elem => copyElements assign src (dst.set i elem) (i + 1)

/-- `CLR_RT_HeapBlock_Array::Copy` from an array of type `Object` to an array of another type -/
def arrayCopy (assign : Option α → E → Except Failure E) (arraySrc : Cells α) (indexSrc : ℤ)
    (arrayDst : List E) (indexDst : ℤ) (length : ℕ) : Option (Result × List E) :=
  if length = 0 then some (.ok (), arrayDst)
  else if indexSrc < 0 ∨ indexDst < 0 ∨ int32 (length + indexSrc) > arraySrc.length ∨
      int32 (length + indexDst) > arrayDst.length then some (.error .outOfRange, arrayDst)
  else copyElements assign (readRange arraySrc indexSrc.toNat length) arrayDst indexDst.toNat

/-- The range of an array from `index` on for so many elements. -/
def RangeIn (index : ℤ) (count length : ℕ) : Prop := 0 ≤ index ∧ index + count ≤ length

/-- Each of the elements `xs` can be assigned to the one of the array that it comes onto. -/
def Assignable (assign : Option α → E → Except Failure E) (xs : Cells α) (index : ℤ)
    (array : List E) : Prop :=
  ∀ (k j : ℕ) (x : Option α) (old : E), xs[k]? = some x → (j : ℤ) = index + k →
    array[j]? = some old → ∃ elem, assign x old = .ok elem

/-- What it means to copy the elements `xs` to an array from `index` on: nothing changes outside the
range, on success each element of the range comes from the one of `xs`, and there is success if the
range lies in the array and the types allow it. -/
structure CopiedTo (assign : Option α → E → Except Failure E) (xs : Cells α) (index : ℤ)
    (array array' : List E) (result : Result) : Prop where
  length : array'.length = array.length
  frame : ∀ j : ℕ, (j : ℤ) < index ∨ index + xs.length ≤ j → array'[j]? = array[j]?
  exact : result = .ok () → ∀ (k : ℕ) (x : Option α), xs[k]? = some x →
    ∃ (j : ℕ) (old elem : E), (j : ℤ) = index + k ∧ array[j]? = some old ∧
      assign x old = .ok elem ∧ array'[j]? = some elem
  succeeds : RangeIn index xs.length array.length → Assignable assign xs index array →
    result = .ok ()

section

variable (assign : Option α → E → Except Failure E)

include assign

theorem copiedTo_failed (xs : Cells α) (index : ℤ) (array : List E) (failure : Failure)
    (h : RangeIn index xs.length array.length → ¬ Assignable assign xs index array) :
    CopiedTo assign xs index array array (.error failure) :=
  ⟨rfl, fun _ _ ↦ rfl, nofun, fun hrange hassign ↦ absurd hassign (h hrange)⟩

theorem copiedTo_nil (index : ℤ) (array : List E) : CopiedTo assign [] index array array (.ok ()) :=
  ⟨rfl, fun _ _ ↦ rfl, fun _ _ _ ↦ nofun, fun _ _ ↦ rfl⟩

theorem copyElements_append (xs ys : Cells α) (dst : List E) (i : ℕ) :
    copyElements assign (xs ++ ys) dst i =
      match copyElements assign xs dst i with
      | some (.ok (), dst') => copyElements assign ys dst' (i + xs.length)
      | r => r := by
  induction xs generalizing dst i with
  | nil => rfl
  | cons x xs ih =>
    rw [cons_append, copyElements, copyElements, length_cons]
    cases hold : dst[i]? with
    | none => rfl
    | some old =>
      cases hassign : assign x old with
      | error failure => simp only [hassign]
      | ok elem =>
        simp only [hassign]
        rw [ih, Nat.add_assoc, Nat.add_comm 1]

theorem copyElements_copiedTo (xs : Cells α)
    (dst : List E) (i : ℕ) (hin : i + xs.length ≤ dst.length) :
    ∃ result dst', copyElements assign xs dst i = some (result, dst') ∧
      CopiedTo assign xs i dst dst' result := by
  induction xs generalizing dst i with
  | nil => exact ⟨_, _, rfl, copiedTo_nil assign i dst⟩
  | cons x xs ih =>
    rw [length_cons] at hin
    have hlt : i < dst.length := by omega
    rw [copyElements, getElem?_eq_getElem hlt]
    dsimp only
    cases hassign : assign x dst[i] with
    | error failure =>
      refine ⟨_, _, rfl, copiedTo_failed assign _ _ dst failure fun _ hall ↦ ?_⟩
      obtain ⟨elem, helem⟩ := hall 0 i x dst[i] rfl (by simp) (getElem?_eq_getElem hlt)
      rw [hassign] at helem
      cases helem
    | ok elem =>
      obtain ⟨result, dst', hrun, hcopied⟩ := ih (dst.set i elem) (i + 1)
        (by rw [length_set]; omega)
      refine ⟨result, dst', hrun, by rw [hcopied.length, length_set], ?_, ?_, ?_⟩
      · intro j hj
        rw [length_cons] at hj
        rw [hcopied.frame j (by push_cast at hj ⊢; omega), getElem?_set_ne (by omega)]
      · intro hok k y hk
        cases k with
        | zero =>
          rw [getElem?_cons_zero] at hk
          cases hk
          refine ⟨i, dst[i], elem, by simp, getElem?_eq_getElem hlt, hassign, ?_⟩
          rw [hcopied.frame i (by push_cast; omega), getElem?_set_self hlt]
        | succ k =>
          rw [getElem?_cons_succ] at hk
          obtain ⟨j, old, elem', hj, hold, hassign', hnew⟩ := hcopied.exact hok k y hk
          refine ⟨j, old, elem', by push_cast at hj ⊢; omega, ?_, hassign', hnew⟩
          rwa [getElem?_set_ne (by push_cast at hj; omega)] at hold
      · intro _ hall
        apply hcopied.succeeds
        · rw [length_set]
          exact ⟨by positivity, by push_cast; omega⟩
        · intro k j y old hk hj hold
          rw [getElem?_set_ne (by push_cast at hj; omega)] at hold
          exact hall (k + 1) j y old (by rwa [getElem?_cons_succ]) (by push_cast at hj ⊢; omega)
            hold

end

end MicroFramework.Collections
