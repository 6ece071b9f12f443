import Mathlib.Data.List.DropRight
import Mathlib.Data.UInt

/-!
# Parsing integers

`System.Convert`: the eight conversions of a string to an integer share one loop over the digits,
with an accumulator of 64 bits and one check before each multiplication.  A string is the list of its
UTF-16 code units.
-/

namespace MicroFramework.Text

/-! ## The conversions -/

/-- What the conversions throw. -/
inductive ParseFailure where
  | exception
  /-- `IndexOutOfRangeException`, on the sign of an empty string. -/
  | indexOutOfRange
deriving DecidableEq, Repr

def trim (value : List UInt16) : List UInt16 :=
  (value.dropWhile fun c ↦ c == 32).rdropWhile fun c ↦ c == 32

/-- `'0'` to `'9'` -/
def IsDigit (c : UInt16) : Prop := 48 ≤ c ∧ c ≤ 57

instance (c : UInt16) : Decidable (IsDigit c) := inferInstanceAs (Decidable (48 ≤ c ∧ c ≤ 57))

def digit (c : UInt16) : ℕ := c.toNat - 48

/-- The accumulator above which a multiplication by 10 is taken to overflow. -/
def overflowGuard (signed : Bool) : ℕ :=
  if signed then 0x0CCCCCCCCCCCCCCC else 0x1999999999999999

/-- The loop over the digits. -/
def accumulate (signed : Bool) : ℕ → List UInt16 → Except ParseFailure ℕ
  | result, [] => .ok result
  | result, c :: num =>
    if IsDigit c then
      if result > overflowGuard signed then .error .exception
      else accumulate signed ((result * 10 + digit c) % 2 ^ 64) num
    else .error .exception

/-- The value of an expression of type `long`. -/
def long (z : ℤ) : ℤ := z.bmod (2 ^ 64)

/-- What is left to check when the digits have been read. -/
def conclude (signed isNeg : Bool) (min max : ℤ) (result : ℕ) : Except ParseFailure ℤ :=
  if isNeg = true ∧ signed = false ∧ result ≠ 0 then .error .exception
  else
    let res := if isNeg then long (-long result) else long result
    if isNeg = true ∧ 0 < res then .error .exception
    else if isNeg = false ∧ max ≠ 0 ∧ res < 0 then .error .exception
    else if max ≠ 0 ∧ (res < min ∨ max < res) then .error .exception
    else .ok res

def splitSign : List UInt16 → Bool × List UInt16
  | 45 :: num => (true, num)
  | 43 :: num => (false, num)
  | num => (false, num)

/-- `ToInt64(string, bool, long, long)`; there is no string for a null reference. -/
def toInt64Within (value : Option (List UInt16)) (signed : Bool) (min max : ℤ) :
    Except ParseFailure ℤ :=
  match value with
  | none => .ok 0
  | some value =>
    let num := trim value
    if num = [] then .error .indexOutOfRange
    else
      match accumulate signed 0 (splitSign num).2 with
      | .error failure => .error failure
      | .ok result => conclude signed (splitSign num).1 min max result

def toSByte (value : Option (List UInt16)) : Except ParseFailure ℤ :=
  (toInt64Within value true (-128) 127).map fun res ↦ res.bmod (2 ^ 8)

def toByte (value : Option (List UInt16)) : Except ParseFailure ℤ :=
  (toInt64Within value false 0 255).map fun res ↦ res % 2 ^ 8

def toInt16 (value : Option (List UInt16)) : Except ParseFailure ℤ :=
  (toInt64Within value true (-32768) 32767).map fun res ↦ res.bmod (2 ^ 16)

def toUInt16 (value : Option (List UInt16)) : Except ParseFailure ℤ :=
  (toInt64Within value false 0 65535).map fun res ↦ res % 2 ^ 16

def toInt32 (value : Option (List UInt16)) : Except ParseFailure ℤ :=
  (toInt64Within value true (-2147483648) 2147483647).map fun res ↦ res.bmod (2 ^ 32)

def toUInt32 (value : Option (List UInt16)) : Except ParseFailure ℤ :=
  (toInt64Within value false 0 4294967295).map fun res ↦ res % 2 ^ 32

def toInt64 (value : Option (List UInt16)) : Except ParseFailure ℤ :=
  toInt64Within value true (-9223372036854775808) 9223372036854775807

def toUInt64 (value : Option (List UInt16)) : Except ParseFailure ℤ :=
  (toInt64Within value false 0 0).map fun res ↦ res % 2 ^ 64

/-! ## What they are for -/

inductive IntegerType where
  | sbyte
  | byte
  | int16
  | uint16
  | int32
  | uint32
  | int64
  | uint64
deriving DecidableEq

namespace IntegerType

variable (T : IntegerType)

def signed : Bool :=
  match T with
  | sbyte | int16 | int32 | int64 => true
  | _ => false

def bits : ℕ :=
  match T with
  | sbyte | byte => 8
  | int16 | uint16 => 16
  | int32 | uint32 => 32
  | int64 | uint64 => 64

/-- The value is one of the type. -/
def InRange (n : ℤ) : Prop :=
  if T.signed then -2 ^ (T.bits - 1) ≤ n ∧ n < 2 ^ (T.bits - 1) else 0 ≤ n ∧ n < 2 ^ T.bits

instance (n : ℤ) : Decidable (T.InRange n) :=
  inferInstanceAs (Decidable (if T.signed then _ ∧ _ else _ ∧ _))

/-- The conversion to the type. -/
def convert : Option (List UInt16) → Except ParseFailure ℤ :=
  match T with
  | sbyte => toSByte
  | byte => toByte
  | int16 => toInt16
  | uint16 => toUInt16
  | int32 => Text.toInt32
  | uint32 => toUInt32
  | int64 => Text.toInt64
  | uint64 => toUInt64

end IntegerType

/-- The number that digits denote, the highest first, behind the digits of `start`. -/
def numberFrom (start : ℕ) (digits : List UInt16) : ℕ :=
  digits.foldl (fun v c ↦ v * 10 + digit c) start

def number (digits : List UInt16) : ℕ := numberFrom 0 digits

def signedNumber (isNeg : Bool) (digits : List UInt16) : ℤ :=
  if isNeg then -(number digits : ℤ) else number digits

/-- Without the spaces around it, the string is an optional sign and digits that denote `n`. -/
def Denotes (value : List UInt16) (n : ℤ) : Prop :=
  (splitSign (trim value)).2 ≠ [] ∧ (∀ c ∈ (splitSign (trim value)).2, IsDigit c) ∧
    signedNumber (splitSign (trim value)).1 (splitSign (trim value)).2 = n

/-- The conversion gives the number that the string denotes, if it is one of the type, and throws on
every other string. -/
def ParsesExactly (T : IntegerType) (value : List UInt16) : Prop :=
  ∀ n, T.convert (some value) = .ok n ↔ Denotes value n ∧ T.InRange n

end MicroFramework.Text
