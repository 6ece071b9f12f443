import MicroFramework.Arithmetic.HeapBlock

/-!
# Integer instructions of the CLI

What the integer instructions of the Common Language Infrastructure mean: a stack of 32-bit and
64-bit integers without signedness, on which each instruction chooses the reading of its operands.
This is the statement the interpreter is compared with, and it is written over the integers.
-/

namespace MicroFramework.Arithmetic

/-! ## Instructions -/

inductive ArithmeticOpcode
  | add | sub | mul | div | divUn | rem | remUn
  deriving DecidableEq, Repr

inductive ShiftOpcode
  | shl | shr | shrUn
  deriving DecidableEq, Repr

/-- `ceq` to `clt.un`, and the comparisons of the conditional branches. -/
inductive CompareOpcode
  | ceq | cgt | cgtUn | clt | cltUn
  deriving DecidableEq, Repr

inductive BranchOpcode
  | beq | bge | bgt | ble | blt | bneUn | bgeUn | bgtUn | bleUn | bltUn
  deriving DecidableEq, Repr

/-- The targets of the conversions between integer types that do not check for overflow. -/
inductive ConvOpcode
  | i1 | i2 | i4 | i | i8 | u1 | u2 | u4 | u | u8
  deriving DecidableEq, Repr

inductive Opcode
  | arithmetic (op : ArithmeticOpcode)
  | shift (op : ShiftOpcode)
  | neg
  | compare (op : CompareOpcode)
  | branch (op : BranchOpcode)
  | conv (op : ConvOpcode)
  deriving DecidableEq, Repr

namespace Cli

/-! ## Values and exceptions -/

inductive Value
  | int32 (x : BitVec 32)
  | int64 (x : BitVec 64)
  deriving DecidableEq, Repr

inductive Exception
  | divideByZero
  /-- The quotient of the minimum by minus one is no integer of the width. -/
  | arithmetic
  deriving DecidableEq, Repr

/-- An instruction leaves a stack, and a branch also says whether it is taken. -/
structure Outcome (α : Type) where
  stack : List α
  taken : Option Bool

/-! ## Arithmetic at one width -/

section Width

variable {w : ℕ}

/-- The instructions on two operands of one width. -/
def arithmetic (op : ArithmeticOpcode) (x y : BitVec w) : Except Exception (BitVec w) :=
  match op with
  | .add => .ok (BitVec.ofInt w (x.toInt + y.toInt))
  | .sub => .ok (BitVec.ofInt w (x.toInt - y.toInt))
  | .mul => .ok (BitVec.ofInt w (x.toInt * y.toInt))
  | .div =>
    if y.toInt = 0 then .error .divideByZero
    else if x = BitVec.intMin w ∧ y.toInt = -1 then .error .arithmetic
    else .ok (BitVec.ofInt w (x.toInt.tdiv y.toInt))
  | .divUn =>
    if y.toNat = 0 then .error .divideByZero else .ok (BitVec.ofNat w (x.toNat / y.toNat))
  | .rem =>
    if y.toInt = 0 then .error .divideByZero
    else if x = BitVec.intMin w ∧ y.toInt = -1 then .error .arithmetic
    else .ok (BitVec.ofInt w (x.toInt.tmod y.toInt))
  | .remUn =>
    if y.toNat = 0 then .error .divideByZero else .ok (BitVec.ofNat w (x.toNat % y.toNat))

def shift (op : ShiftOpcode) (x : BitVec w) (count : ℕ) : BitVec w :=
  match op with
  | .shl => BitVec.ofInt w (x.toInt * 2 ^ count)
  | .shr => BitVec.ofInt w (x.toInt / 2 ^ count)
  | .shrUn => BitVec.ofNat w (x.toNat / 2 ^ count)

def compare (op : CompareOpcode) (x y : BitVec w) : Bool :=
  match op with
  | .ceq => x == y
  | .cgt => x.toInt > y.toInt
  | .cgtUn => x.toNat > y.toNat
  | .clt => x.toInt < y.toInt
  | .cltUn => x.toNat < y.toNat

def branch (op : BranchOpcode) (x y : BitVec w) : Bool :=
  match op with
  | .beq => x == y
  | .bge => x.toInt ≥ y.toInt
  | .bgt => x.toInt > y.toInt
  | .ble => x.toInt ≤ y.toInt
  | .blt => x.toInt < y.toInt
  | .bneUn => x != y
  | .bgeUn => x.toNat ≥ y.toNat
  | .bgtUn => x.toNat > y.toNat
  | .bleUn => x.toNat ≤ y.toNat
  | .bltUn => x.toNat < y.toNat

/-- Conversions truncate to the target and widen again by its sign; a conversion to 64 bits widens
by the sign of the target. -/
def convert (op : ConvOpcode) (x : BitVec w) : Value :=
  match op with
  | .i1 => .int32 (BitVec.ofInt 32 ((BitVec.ofInt 8 x.toInt).toInt))
  | .i2 => .int32 (BitVec.ofInt 32 ((BitVec.ofInt 16 x.toInt).toInt))
  | .u1 => .int32 (BitVec.ofNat 32 (x.toNat % 2 ^ 8))
  | .u2 => .int32 (BitVec.ofNat 32 (x.toNat % 2 ^ 16))
  | .i4 | .i => .int32 (BitVec.ofInt 32 x.toInt)
  | .u4 | .u => .int32 (BitVec.ofNat 32 x.toNat)
  | .i8 => .int64 (BitVec.ofInt 64 x.toInt)
  | .u8 => .int64 (BitVec.ofNat 64 x.toNat)

end Width

/-! ## Instructions on the stack -/

/-- Two operands of one width; `none` where the specification gives the instruction no result. -/
def binary (op : ArithmeticOpcode) (value1 value2 : Value) : Option (Except Exception Value) :=
  match value1, value2 with
  | .int32 x, .int32 y => some ((arithmetic op x y).map .int32)
  | .int64 x, .int64 y => some ((arithmetic op x y).map .int64)
  | _, _ => none

/-- A 32-bit count below the width of the value. -/
def shiftBy (op : ShiftOpcode) (value count : Value) : Option Value :=
  match value, count with
  | .int32 x, .int32 y => if y.toNat < 32 then some (.int32 (shift op x y.toNat)) else none
  | .int64 x, .int32 y => if y.toNat < 64 then some (.int64 (shift op x y.toNat)) else none
  | _, _ => none

/-- A test on two operands of one width. -/
def test (relation : {w : ℕ} → BitVec w → BitVec w → Bool) (value1 value2 : Value) :
    Option Bool :=
  match value1, value2 with
  | .int32 x, .int32 y => some (relation x y)
  | .int64 x, .int64 y => some (relation x y)
  | _, _ => none

def neg : Value → Value
  | .int32 x => .int32 (BitVec.ofInt 32 (-x.toInt))
  | .int64 x => .int64 (BitVec.ofInt 64 (-x.toInt))

def conv (op : ConvOpcode) : Value → Value
  | .int32 x => convert op x
  | .int64 x => convert op x

def execute (op : Opcode) (stack : List Value) : Option (Except Exception (Outcome Value)) :=
  match op, stack with
  | .arithmetic op, value2 :: value1 :: rest =>
    (binary op value1 value2).map fun result ↦ result.map fun value ↦ ⟨value :: rest, none⟩
  | .shift op, count :: value :: rest =>
    (shiftBy op value count).map fun value ↦ .ok ⟨value :: rest, none⟩
  | .neg, value :: rest => some (.ok ⟨neg value :: rest, none⟩)
  | .compare op, value2 :: value1 :: rest =>
    (test (compare op) value1 value2).map fun holds ↦
      .ok ⟨.int32 (if holds then 1 else 0) :: rest, none⟩
  | .branch op, value2 :: value1 :: rest =>
    (test (branch op) value1 value2).map fun taken ↦ .ok ⟨rest, some taken⟩
  | .conv op, value :: rest => some (.ok ⟨conv op value :: rest, none⟩)
  | _, _ => none

end Cli

/-!
## The interpreter's integer instructions

The arithmetic, comparison, branch and conversion cases of `Execute_IL` on the evaluation stack,
and what it means for a slot to hold an integer of the CLI.
-/

/-! ## Instructions -/

/-- The function of the heap block an instruction calls on `evalPos[ 0 ]` and `evalPos[ 1 ]`. -/
def ArithmeticOpcode.numeric : ArithmeticOpcode → HeapBlock → HeapBlock → Except Failure HeapBlock
  | .add => HeapBlock.numericAdd
  | .sub => HeapBlock.numericSub
  | .mul => HeapBlock.numericMul
  | .div => HeapBlock.numericDiv
  | .divUn => HeapBlock.numericDivUn
  | .rem => HeapBlock.numericRem
  | .remUn => HeapBlock.numericRemUn

def ShiftOpcode.numeric : ShiftOpcode → HeapBlock → HeapBlock → Except Failure HeapBlock
  | .shl => HeapBlock.numericShl
  | .shr => HeapBlock.numericShr
  | .shrUn => HeapBlock.numericShrUn

/-- The instructions `ceq` to `clt.un`. -/
def CompareOpcode.holds (op : CompareOpcode) (value1 value2 : HeapBlock) : Bool :=
  match op with
  | .ceq => value1.compareValues value2 true == 0
  | .cgt => value1.compareValues value2 true > 0
  | .cgtUn => value1.compareValues value2 false > 0
  | .clt => value1.compareValues value2 true < 0
  | .cltUn => value1.compareValues value2 false < 0

/-- `fCondition` of the conditional branches. -/
def BranchOpcode.taken (op : BranchOpcode) (value1 value2 : HeapBlock) : Bool :=
  match op with
  | .beq => value1.compareValues value2 true == 0
  | .bge => value1.compareValues value2 true ≥ 0
  | .bgt => value1.compareValues value2 true > 0
  | .ble => value1.compareValues value2 true ≤ 0
  | .blt => value1.compareValues value2 true < 0
  | .bneUn => value1.compareValues value2 false != 0
  | .bgeUn => value1.compareValues value2 false ≥ 0
  | .bgtUn => value1.compareValues value2 false > 0
  | .bleUn => value1.compareValues value2 false ≤ 0
  | .bltUn => value1.compareValues value2 false < 0

/-- The data type a conversion passes on; native integers are 32 bits wide. -/
def ConvOpcode.dataType : ConvOpcode → DataType
  | .i1 => .i1
  | .i2 => .i2
  | .i4 | .i => .i4
  | .i8 => .i8
  | .u1 => .u1
  | .u2 => .u2
  | .u4 | .u => .u4
  | .u8 => .u8

/-- One instruction on an evaluation stack whose top is the head of the list; `none` when the stack
holds too few slots, which no verified code reaches. -/
def execute (op : Opcode) (stack : List HeapBlock) :
    Option (Except Failure (Cli.Outcome HeapBlock)) :=
  match op, stack with
  | .arithmetic op, value2 :: value1 :: rest =>
    some ((op.numeric value1 value2).map fun value ↦ ⟨value :: rest, none⟩)
  | .shift op, count :: value :: rest =>
    some ((op.numeric value count).map fun value ↦ ⟨value :: rest, none⟩)
  | .neg, value :: rest => some (value.numericNeg.map fun value ↦ ⟨value :: rest, none⟩)
  | .compare op, value2 :: value1 :: rest =>
    some (.ok ⟨value1.setInteger (if op.holds value1 value2 then 1 else 0) :: rest, none⟩)
  | .branch op, value2 :: value1 :: rest => some (.ok ⟨rest, some (op.taken value1 value2)⟩)
  | .conv op, value :: rest => some (.ok ⟨value.convertInternal op.dataType :: rest, none⟩)
  | _, _ => none

/-! ## Slots and integers -/

/-- The slot holds the integer: a 32-bit one under either 32-bit tag, whatever its upper half is,
and a 64-bit one under either 64-bit tag. -/
inductive HeapBlock.Holds : HeapBlock → Cli.Value → Prop
  | int32 {block : HeapBlock} (htag : block.dataType = .i4 ∨ block.dataType = .u4) :
      Holds block (.int32 block.u4)
  | int64 {block : HeapBlock} (htag : block.dataType = .i8 ∨ block.dataType = .u8) :
      Holds block (.int64 block.u8)

/-- The interpreter does what the CLI says: it leaves the same stack and takes the same branch, or
it throws where an exception is due. -/
inductive Conforms : Except Cli.Exception (Cli.Outcome Cli.Value) →
    Except Failure (Cli.Outcome HeapBlock) → Prop
  | value {values : List Cli.Value} {blocks : List HeapBlock} {taken : Option Bool}
      (hstack : List.Forall₂ HeapBlock.Holds blocks values) :
      Conforms (.ok ⟨values, taken⟩) (.ok ⟨blocks, taken⟩)
  | divideByZero : Conforms (.error .divideByZero) (.error (.fault .divideByZero))
  | arithmetic (hr : HResult) : Conforms (.error .arithmetic) (.error (.fault hr))

end MicroFramework.Arithmetic
