import MicroFramework.Library.SignedWords

/-!
# Numeric heap blocks

The integer slots of the evaluation stack and the operations the interpreter computes on them.  A
slot keeps a data type and eight bytes as two halves; a 32-bit member of the union is the lower half
and writing it leaves the upper half as it was.  The floating-point types and the references that
the same functions also handle are left out.
-/

namespace MicroFramework.Arithmetic

open Nat

/-! ## Data types -/

inductive DataType
  | boolean | i1 | u1 | char | i2 | u2 | i4 | u4 | i8 | u8
  deriving DecidableEq, Repr

structure DataTypeLookup where
  sizeInBits : ℕ
  sizeInBytes : ℕ
  numeric : Bool
  signed : Bool

/-- The rows of `c_CLR_RT_DataTypeLookup` for the integer data types. -/
def dataTypeLookup : DataType → DataTypeLookup
  | .boolean => ⟨1, 1, true, false⟩
  | .i1 => ⟨8, 1, true, true⟩
  | .u1 => ⟨8, 1, true, false⟩
  | .char => ⟨16, 2, true, false⟩
  | .i2 => ⟨16, 2, true, true⟩
  | .u2 => ⟨16, 2, true, false⟩
  | .i4 => ⟨32, 4, true, true⟩
  | .u4 => ⟨32, 4, true, false⟩
  | .i8 => ⟨64, 8, true, true⟩
  | .u8 => ⟨64, 8, true, false⟩

/-! ## The slot -/

/-- `CLR_RT_HeapBlock` with a numeric payload. -/
@[ext]
structure HeapBlock where
  dataType : DataType
  /-- `_L` -/
  low : BitVec 32
  /-- `_H` -/
  high : BitVec 32
  deriving DecidableEq, Repr

namespace HeapBlock

def u1 (block : HeapBlock) : BitVec 8 := block.low.setWidth 8

def u2 (block : HeapBlock) : BitVec 16 := block.low.setWidth 16

/-- `u4` and, read with its sign, `s4`. -/
def u4 (block : HeapBlock) : BitVec 32 := block.low

/-- `u8` and, read with its sign, `s8`. -/
def u8 (block : HeapBlock) : BitVec 64 :=
  block.high.setWidth 64 <<< 32 ||| block.low.setWidth 64

/-- Writing a 32-bit member keeps the upper half. -/
def setU4 (block : HeapBlock) (num : BitVec 32) : HeapBlock := { block with low := num }

def setU8 (block : HeapBlock) (num : BitVec 64) : HeapBlock :=
  { block with
    low := (0x00000000FFFFFFFF#64 &&& num).setWidth 32
    high := ((0xFFFFFFFF00000000#64 &&& num) >>> 32).setWidth 32 }

def changeDataType (block : HeapBlock) (dataType : DataType) : HeapBlock :=
  { block with dataType := dataType }

def setInteger (block : HeapBlock) (num : BitVec 32) : HeapBlock :=
  { block with dataType := .i4, low := num }

section

variable (block : HeapBlock)

include block

@[simp] theorem setInteger_dataType (num : BitVec 32) : (block.setInteger num).dataType = .i4 := rfl

@[simp] theorem setInteger_u4 (num : BitVec 32) : (block.setInteger num).u4 = num := rfl

@[simp] theorem setU4_u4 (num : BitVec 32) : (block.setU4 num).u4 = num := rfl

theorem u8_toNat : block.u8.toNat = block.high.toNat * 2 ^ 32 + block.low.toNat := by
  have hlow := block.low.isLt
  have hhigh := block.high.isLt
  have hshift : block.high.toNat <<< 32 = block.high.toNat * 2 ^ 32 := shiftLeft_eq _ _
  calc block.u8.toNat = block.high.toNat <<< 32 ||| block.low.toNat := by
        rw [u8, BitVec.toNat_or, BitVec.toNat_shiftLeft, BitVec.toNat_setWidth,
          BitVec.toNat_setWidth, mod_eq_of_lt (show block.high.toNat < 2 ^ 64 by omega),
          mod_eq_of_lt (show block.low.toNat < 2 ^ 64 by omega),
          mod_eq_of_lt (show block.high.toNat <<< 32 < 2 ^ 64 by omega)]
    _ = block.high.toNat <<< 32 + block.low.toNat := (shiftLeft_add_eq_or_of_lt hlow _).symm
    _ = block.high.toNat * 2 ^ 32 + block.low.toNat := by rw [hshift]

theorem setU8_low_toNat (num : BitVec 64) : (block.setU8 num).low.toNat = num.toNat % 2 ^ 32 := by
  have hmask : 0xFFFFFFFF &&& num.toNat = num.toNat % 2 ^ 32 := by
    rw [Nat.and_comm]
    exact and_two_pow_sub_one_eq_mod num.toNat 32
  rw [setU8]
  show (0xFFFFFFFF &&& num.toNat) % 2 ^ 32 = _
  rw [hmask, mod_mod]

theorem setU8_high_toNat (num : BitVec 64) : (block.setU8 num).high.toNat = num.toNat / 2 ^ 32 := by
  have hlt := num.isLt
  have hmask : (0xFFFFFFFF00000000 &&& num.toNat) >>> 32 = num.toNat / 2 ^ 32 := by
    rw [shiftRight_and_distrib, Nat.and_comm, shiftRight_eq_div_pow num.toNat]
    have := and_two_pow_sub_one_eq_mod (num.toNat / 2 ^ 32) 32
    rw [mod_eq_of_lt (by omega)] at this
    exact this
  rw [setU8]
  show ((0xFFFFFFFF00000000 &&& num.toNat) >>> 32) % 2 ^ 32 = _
  rw [hmask, mod_eq_of_lt (by omega)]

@[simp] theorem setU8_u8 (num : BitVec 64) : (block.setU8 num).u8 = num := by
  apply BitVec.eq_of_toNat_eq
  rw [u8_toNat, setU8_low_toNat, setU8_high_toNat]
  omega

/-- The 32-bit member is the low half of the 64-bit one. -/
theorem u4_eq_setWidth : block.u4 = block.u8.setWidth 32 := by
  apply BitVec.eq_of_toNat_eq
  have hlow := block.low.isLt
  rw [BitVec.toNat_setWidth, u8_toNat, u4]
  omega

end

end HeapBlock

/-!
## Numeric operations on heap blocks

`Compare_Values`, `Convert_Internal` and the `Numeric` functions.  Sums, differences, products and
negations wrap, as two's complement hardware computes them; a division or shift for which the native
operator has no result is a failure of its own, apart from the error codes the functions return.
-/

/-! ## Failures -/

/-- The error codes of the numeric functions. -/
inductive HResult
  | wrongType
  | divideByZero
  deriving DecidableEq, Repr

/-- How a numeric function can fail to deliver a value. -/
inductive Failure
  /-- The function returns an error code, which the interpreter turns into an exception. -/
  | fault (hr : HResult)
  /-- A native operator is applied to operands for which it has no result. -/
  | nativeOperator
  deriving DecidableEq, Repr

/-! ## Native operators -/

section Native

variable {w : ℕ}

/-- Division of signed words: none by zero, and none of the minimum by minus one. -/
def nativeDiv (x y : BitVec w) : Except Failure (BitVec w) :=
  if y = 0#w ∨ (x = BitVec.intMin w ∧ y = -1#w) then .error .nativeOperator else .ok (x.sdiv y)

/-- Remainder of signed words. -/
def nativeRem (x y : BitVec w) : Except Failure (BitVec w) :=
  if y = 0#w ∨ (x = BitVec.intMin w ∧ y = -1#w) then .error .nativeOperator else .ok (x.srem y)

/-- Division of unsigned words. -/
def nativeDivUn (x y : BitVec w) : Except Failure (BitVec w) :=
  if y = 0#w then .error .nativeOperator else .ok (x / y)

/-- Remainder of unsigned words. -/
def nativeRemUn (x y : BitVec w) : Except Failure (BitVec w) :=
  if y = 0#w then .error .nativeOperator else .ok (x % y)

def nativeShift (shift : BitVec w → ℕ → BitVec w) (x : BitVec w) (count : BitVec 32) :
    Except Failure (BitVec w) :=
  if w ≤ count.toNat then .error .nativeOperator else .ok (shift x count.toNat)

end Native

/-! ## Tests and promotion -/

namespace HeapBlock

def isZero (block : HeapBlock) : Bool :=
  match block.dataType with
  | .i8 | .u8 => block.u8 == 0
  | _ => block.u4 == 0

/-- `Promote`: what is narrower than 32 bits becomes an `I4`. -/
def promote (block : HeapBlock) : HeapBlock :=
  match block.dataType with
  | .i1 => (block.changeDataType .i4).setU4 (block.u1.signExtend 32)
  | .i2 => (block.changeDataType .i4).setU4 (block.u2.signExtend 32)
  | .boolean | .u1 => (block.changeDataType .i4).setU4 (block.u1.setWidth 32)
  | .char | .u2 => (block.changeDataType .i4).setU4 (block.u2.setWidth 32)
  | _ => block

/-! ## Comparison -/

def compareNumbers (left right : ℤ) : ℤ :=
  if left > right then 1 else if left < right then -1 else 0

/-- The two readings a comparison chooses from. -/
def reading {w : ℕ} (fSigned : Bool) (x : BitVec w) : ℤ :=
  if fSigned then x.toInt else x.toNat

def compareValuesNumeric (left right : HeapBlock) (fSigned : Bool) (bytes : ℕ) : ℤ :=
  match bytes with
  | 4 => compareNumbers (reading fSigned left.u4) (reading fSigned right.u4)
  | 8 => compareNumbers (reading fSigned left.u8) (reading fSigned right.u8)
  | 2 => compareNumbers (reading fSigned left.u2) (reading fSigned right.u2)
  | 1 => compareNumbers (reading fSigned left.u1) (reading fSigned right.u1)
  | _ => -1

def compareValues (left right : HeapBlock) (fSigned : Bool) : ℤ :=
  let leftDtl := dataTypeLookup left.dataType
  let rightDtl := dataTypeLookup right.dataType
  if left.dataType = right.dataType then
    compareValuesNumeric left right fSigned leftDtl.sizeInBytes
  else if leftDtl.numeric && rightDtl.numeric then
    if leftDtl.sizeInBytes = rightDtl.sizeInBytes then
      compareValuesNumeric left right fSigned leftDtl.sizeInBytes
    else -1
  else -1

/-! ## Conversion -/

/-- The first half of `Convert_Internal`: what is narrower than 64 bits is extended, with its sign
when both the source and the target type are signed. -/
def extend (block : HeapBlock) (et : DataType) : HeapBlock :=
  match block.dataType with
  | .i8 | .u8 => block
  | dt =>
    let shift := 64 - (dataTypeLookup dt).sizeInBits
    let res := block.u8 <<< shift
    if (dataTypeLookup dt).signed && (dataTypeLookup et).signed then
      block.setU8 (res.sshiftRight shift)
    else
      block.setU8 (res >>> shift)

def convertInternal (block : HeapBlock) (et : DataType) : HeapBlock :=
  ((block.extend et).changeDataType et).promote

/-! ## Arithmetic -/

/-- The switch over the data type that all `Numeric` functions share.  The operation is told whether
the tag of the left operand is signed, and reads the members of its width. -/
def numericSwitch (left : HeapBlock)
    (operation : Bool → {w : ℕ} → (HeapBlock → BitVec w) → Except Failure (BitVec w)) :
    Except Failure HeapBlock :=
  match left.dataType with
  | .i4 => (operation true u4).map left.setU4
  | .u4 => (operation false u4).map left.setU4
  | .i8 => (operation true u8).map left.setU8
  | .u8 => (operation false u8).map left.setU8
  | _ => .error (.fault .wrongType)

def numericAdd (left right : HeapBlock) : Except Failure HeapBlock :=
  left.numericSwitch fun _ _ load ↦ .ok (load left + load right)

def numericSub (left right : HeapBlock) : Except Failure HeapBlock :=
  left.numericSwitch fun _ _ load ↦ .ok (load left - load right)

def numericMul (left right : HeapBlock) : Except Failure HeapBlock :=
  left.numericSwitch fun _ _ load ↦ .ok (load left * load right)

/-- Signed under every tag. -/
def numericDiv (left right : HeapBlock) : Except Failure HeapBlock :=
  if right.isZero then .error (.fault .divideByZero)
  else left.numericSwitch fun _ _ load ↦ nativeDiv (load left) (load right)

def numericDivUn (left right : HeapBlock) : Except Failure HeapBlock :=
  if right.isZero then .error (.fault .divideByZero)
  else left.numericSwitch fun _ _ load ↦ nativeDivUn (load left) (load right)

/-- Signed under a signed tag only, unlike `numericDiv`. -/
def numericRem (left right : HeapBlock) : Except Failure HeapBlock :=
  if right.isZero then .error (.fault .divideByZero)
  else left.numericSwitch fun signed _ load ↦
    if signed then nativeRem (load left) (load right) else nativeRemUn (load left) (load right)

def numericRemUn (left right : HeapBlock) : Except Failure HeapBlock :=
  if right.isZero then .error (.fault .divideByZero)
  else left.numericSwitch fun _ _ load ↦ nativeRemUn (load left) (load right)

/-- The count is the 32-bit member of the right operand at both widths. -/
def numericShl (left right : HeapBlock) : Except Failure HeapBlock :=
  left.numericSwitch fun _ _ load ↦ nativeShift (· <<< ·) (load left) right.u4

/-- Arithmetic under a signed tag, logical under an unsigned one. -/
def numericShr (left right : HeapBlock) : Except Failure HeapBlock :=
  left.numericSwitch fun signed _ load ↦
    if signed then nativeShift BitVec.sshiftRight (load left) right.u4
    else nativeShift (· >>> ·) (load left) right.u4

def numericShrUn (left right : HeapBlock) : Except Failure HeapBlock :=
  left.numericSwitch fun _ _ load ↦ nativeShift (· >>> ·) (load left) right.u4

def numericNeg (left : HeapBlock) : Except Failure HeapBlock :=
  left.numericSwitch fun _ _ load ↦ .ok (-load left)

end HeapBlock

end MicroFramework.Arithmetic
