import Mathlib.Data.UInt

/-!
# Window indices and match codes

The compressor and the decompressor keep a circular window of the last 4096 bytes, which starts out
as spaces.  A match is two bytes: the low eight bits of its window index, less 16, and above the
upper four bits of that the length less 3.
-/

namespace MicroFramework.Compression

open Nat

/-- `WINSIZE`. -/
abbrev winSize : ℕ := 4096

/-- `MAXLEN`. -/
abbrev maxLen : ℕ := 18

/-- The window's first contents. -/
def space : UInt8 := 0x20

def dropIndex (x : ℕ) : ℕ :=
  if x = 0 then winSize - 1 else x - 1

def addIndex (x : ℕ) : ℕ :=
  if x + 1 = winSize then 0 else x + 1

/-- `InBetween`; the indices are compared as integers, and `target` is not moved when `higher`
is. -/
def inBetween (lower higher target : ℕ) : Prop :=
  lower ≤ target ∧ target ≤ if higher < lower then higher + winSize else higher

instance (lower higher target : ℕ) : Decidable (inBetween lower higher target) :=
  inferInstanceAs (Decidable (_ ∧ _))

/-- `y - 0x10` in 32 bits. -/
def biased (y : ℕ) : ℕ :=
  (y + 2 ^ 32 - 0x10) % 2 ^ 32

def compCode (x y : ℕ) : ℕ :=
  (((x - 3) &&& 0x0F) <<< 8) + ((biased y &&& 0x0F00) <<< 4) + (biased y &&& 0x00FF)

def compCodeLoByte (x : ℕ) : UInt8 :=
  UInt8.ofNat x

def compCodeHiByte (x : ℕ) : UInt8 :=
  UInt8.ofNat ((x % 2 ^ 16) >>> 8)

def codeLength (x : UInt8) : ℕ :=
  (x.toNat &&& 0x0F) + 3

def codeOffset (x1 x2 : UInt8) : ℕ :=
  ((((x2.toNat &&& 0xF0) >>> 4) * 0x0100 + x1.toNat) &&& 0x0FFF) + 0x0010

def realPos (x : ℕ) : ℕ :=
  x &&& (winSize - 1)

/-- `BITSET`. -/
def bitSet (byte : UInt8) (bit : ℕ) : Bool :=
  0 < byte.toNat &&& (1 <<< bit)

section Index

variable {p : ℕ}

theorem realPos_eq (x : ℕ) : realPos x = x % winSize := and_two_pow_sub_one_eq_mod x 12

theorem addIndex_mod : addIndex (p % winSize) = (p + 1) % winSize := by
  unfold addIndex winSize
  split <;> omega

theorem dropIndex_succ_mod : dropIndex ((p + 1) % winSize) = p % winSize := by
  unfold dropIndex winSize
  split <;> omega

theorem dropIndex_lt {x : ℕ} (h : x < winSize) : dropIndex x < winSize := by
  unfold dropIndex
  split <;> omega

end Index

section MatchCode

theorem land_mask (z k n : ℕ) : z &&& ((2 ^ k - 1) <<< n) = z / 2 ^ n % 2 ^ k * 2 ^ n := by
  rw [← shiftLeft_eq]
  apply eq_of_testBit_eq
  intro i
  by_cases h : n ≤ i
  · simp [testBit_and, testBit_shiftLeft, testBit_mod_two_pow, testBit_div_two_pow,
      h, Bool.and_comm]
  · simp [testBit_and, testBit_shiftLeft, h]

theorem land_upper (z : ℕ) : z &&& 0x0F00 = z / 256 % 16 * 256 := land_mask z 4 8

theorem land_high (z : ℕ) : z &&& 0xF0 = z / 16 % 16 * 16 := land_mask z 4 4

theorem land_byte (z : ℕ) : z &&& 0x00FF = z % 256 := and_two_pow_sub_one_eq_mod z 8

theorem land_nibble (z : ℕ) : z &&& 0x0F = z % 16 := and_two_pow_sub_one_eq_mod z 4

theorem biased_mod (y : ℕ) : biased y % 4096 = (y + 4080) % 4096 := by
  unfold biased
  omega

theorem compCode_eq (x y : ℕ) : compCode x y =
    (x - 3) % 16 * 256 + (y + 4080) % 4096 / 256 * 4096 + (y + 4080) % 256 := by
  have hmod := biased_mod y
  rw [compCode, land_nibble, land_upper, land_byte, shiftLeft_eq, shiftLeft_eq]
  omega

/-- The decompressor reads the length and the window index back. -/
theorem compCode_decode {x y : ℕ} (hlow : 3 ≤ x) (hhigh : x ≤ maxLen) :
    codeLength (compCodeHiByte (compCode x y)) = x ∧
      codeOffset (compCodeLoByte (compCode x y)) (compCodeHiByte (compCode x y)) % winSize =
        y % winSize := by
  have hlo : (compCodeLoByte (compCode x y)).toNat = compCode x y % 256 := by simp [compCodeLoByte]
  have hhi : (compCodeHiByte (compCode x y)).toNat = compCode x y % 65536 / 256 := by
    simp only [compCodeHiByte, UInt8.toNat_ofNat', shiftRight_eq_div_pow]
    omega
  have hcode := compCode_eq x y
  have hoffset (z : ℕ) : z &&& 0x0FFF = z % 4096 := and_two_pow_sub_one_eq_mod z 12
  have hlt := (compCodeHiByte (compCode x y)).toNat_lt
  unfold maxLen at hhigh
  constructor
  · rw [codeLength, land_nibble, hhi]
    omega
  · rw [codeOffset, land_high, hoffset, shiftRight_eq_div_pow, hlo, hhi]
    unfold winSize
    omega

end MatchCode

/-!
## The decompressor

`LZ77_Decompress` reads blocks of up to eight items, each block after a byte that says which of its
items are single bytes.  It stops reading items once the output buffer is full, and fails where the
input ends inside an item or the output does not fit.
-/

/-- The pointers and the window of `LZ77_Decompress`; `out` is what has been written. -/
structure Decompressor where
  inBuf : List UInt8
  window : ℕ → UInt8
  currPos : ℕ
  out : List UInt8

namespace Decompressor

/-- Read a byte; `none` is the return value -1. -/
def read (D : Decompressor) : Option (UInt8 × Decompressor) :=
  match D.inBuf with
  | [] => none
  | byte :: rest => some (byte, { D with inBuf := rest })

/-- A byte goes to the window and to the output. -/
def write (outSize : ℕ) (byte : UInt8) (D : Decompressor) : Option Decompressor :=
  if outSize ≤ D.out.length then none
  else
    some { D with
      window := Function.update D.window (realPos D.currPos) byte
      currPos := D.currPos + 1
      out := D.out ++ [byte] }

def copy (outSize : ℕ) : ℕ → ℕ → Decompressor → Option Decompressor
  | 0, _, D => some D
  | length + 1, offset, D => do
    let D ← D.write outSize (D.window (realPos offset))
    copy outSize length (offset + 1) D

def item (outSize : ℕ) (isByte : Bool) (D : Decompressor) : Option Decompressor :=
  if isByte then do
    let (byte1, D) ← D.read
    D.write outSize byte1
  else do
    let (byte1, D) ← D.read
    let (byte2, D) ← D.read
    D.copy outSize (codeLength byte2) (codeOffset byte1 byte2)

/-- The items of a block from number `counter` on; `left` of them remain. -/
def block (outSize : ℕ) (bitMap : UInt8) : ℕ → ℕ → Decompressor → Option Decompressor
  | 0, _, D => some D
  | left + 1, counter, D =>
    if D.out.length < outSize then do
      let D ← D.item outSize (bitSet bitMap counter)
      block outSize bitMap left (counter + 1) D
    else some D

/-- The blocks; every turn reads a byte, so the size of the input is turns enough. -/
def blocks (outSize : ℕ) : ℕ → Decompressor → Option Decompressor
  | 0, D => some D
  | turns + 1, D =>
    match D.read with
    | none => some D
    | some (bitMap, D) => do
      let D ← D.block outSize bitMap 8 0
      blocks outSize turns D

end Decompressor

/-- `LZ77_Decompress`: the bytes written, or `none` for the return value -1. -/
def decompress (inBuf : List UInt8) (outSize : ℕ) : Option (List UInt8) :=
  (Decompressor.blocks outSize inBuf.length
    { inBuf := inBuf, window := fun _ ↦ space, currPos := 0, out := [] }).map Decompressor.out

end MicroFramework.Compression
