import Mathlib.Data.Int.Bitwise
import Mathlib.Data.Nat.ModEq
import Mathlib.Tactic.Linarith

/-!
# Bitmaps and their descriptions

A bitmap is a description (width, height, bits for each pixel) and an array of 32-bit words.  Every
row starts at a word of its own.  A description is only made by `BitmapDescription_Initialize`,
which bounds the dimensions so that the size in bytes is a positive `int`.
-/

namespace MicroFramework.Graphics

def maxWidth : ℕ := 524287
def maxHeight : ℕ := 65535

/-- The bits for each pixel of a bitmap in the native format of the driver. -/
def nativeBpp : ℕ := 0

structure BitmapDescription where
  width : ℕ
  height : ℕ
  bitsPerPixel : ℕ
  deriving DecidableEq, Repr

/-! ## The driver's own format -/

/-- `Graphics_Driver::GetWidthInWords`: sixteen bits for each pixel. -/
def graphicsGetWidthInWords (width : ℕ) : ℕ :=
  (width * 16 + 31) / 32

def graphicsMaxSize : ℕ := 2097152

/-- `Graphics_Driver::GetSize`: the product is taken in 32 bits where it fits, else in 64. -/
def graphicsGetSize (width height : ℕ) : ℤ :=
  let size := graphicsGetWidthInWords width * height * 4
  if graphicsMaxSize < size then -1 else size

namespace BitmapDescription

def getWidthInWords (bm : BitmapDescription) : ℕ :=
  if bm.bitsPerPixel = nativeBpp then graphicsGetWidthInWords bm.width
  else (bm.width * bm.bitsPerPixel + 31) % 2 ^ 32 / 32

/-- The size in bytes, as the `int` that the unsigned product is returned as. -/
def getTotalSize (bm : BitmapDescription) : ℤ :=
  if bm.bitsPerPixel = nativeBpp then graphicsGetSize bm.width bm.height
  else ((bm.getWidthInWords * bm.height * 4 : ℕ) : ℤ).bmod (2 ^ 32)

def initializeDescription (width height bitsPerPixel : ℤ) : Option BitmapDescription :=
  if width < 0 ∨ maxWidth < width then none
  else if height < 0 ∨ maxHeight < height then none
  else if bitsPerPixel < 0 ∨ 32 < bitsPerPixel then none
  else
    let bm : BitmapDescription := ⟨width.toNat, height.toNat, bitsPerPixel.toNat⟩
    if bm.getTotalSize < 0 then none else some bm

/-- What a description that was made says. -/
theorem initializeDescription_spec {width height bitsPerPixel : ℤ} {bm : BitmapDescription}
    (h : initializeDescription width height bitsPerPixel = some bm) :
    (bm.width : ℤ) = width ∧ (bm.height : ℤ) = height ∧ (bm.bitsPerPixel : ℤ) = bitsPerPixel ∧
      bm.width ≤ maxWidth ∧ bm.height ≤ maxHeight ∧ bm.bitsPerPixel ≤ 32 ∧ 0 ≤ bm.getTotalSize := by
  unfold initializeDescription at h
  split at h
  · cases h
  split at h
  · cases h
  split at h
  · cases h
  rename_i hwidth hheight hbits
  dsimp only at h
  split at h
  · cases h
  rename_i hsize
  cases h
  refine ⟨by dsimp only; omega, by dsimp only; omega, by dsimp only; omega, by dsimp only; omega,
    by dsimp only; omega, by dsimp only; omega, by omega⟩

theorem getWidthInWords_one {bm : BitmapDescription} (hbits : bm.bitsPerPixel = 1)
    (hwidth : bm.width ≤ maxWidth) : bm.getWidthInWords = (bm.width + 31) / 32 := by
  unfold maxWidth at hwidth
  rw [getWidthInWords, hbits, if_neg (by decide), Nat.mul_one, Nat.mod_eq_of_lt (by omega)]

end BitmapDescription

end MicroFramework.Graphics
