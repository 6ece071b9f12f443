import Mathlib.Tactic.Ring
import MicroFramework.Graphics.Bitmap
import MicroFramework.Library.ExceptRules
import MicroFramework.Support.LittleEndian

/-!
# Decoding Windows bitmaps

The decoder reads headers, colour masks, palette entries and pixels through pointers into the
array.  Here a pointer is an offset, and a read of a byte that the array does not have stops the
decoder.  A read behind the array would see whatever stands there, so nothing is said of what
follows it.
-/

namespace MicroFramework.Graphics

open Library Support BitmapDescription Nat

inductive HResult where
  | fail
  | invalidParameter
  | notSupported
  | outOfRange
  deriving DecidableEq, Repr

inductive Stop where
  /-- A byte outside the array is read. -/
  | outside
  | failed (hr : HResult)
  deriving DecidableEq, Repr

def failIf (leave : Prop) [Decidable leave] (hr : HResult) : Except Stop Unit :=
  if leave then .error (.failed hr) else .ok ()

/-! ## Reads of the array -/

def readBytes (data : List UInt8) (offset count : ℕ) : Except Stop (List UInt8) :=
  if offset + count ≤ data.length then .ok ((data.drop offset).take count) else .error .outside

/-- The value of the `count` bytes at an offset, or of as many of them as there are. -/
def field (data : List UInt8) (offset count : ℕ) : ℕ :=
  leValue ((data.drop offset).take count)

def readField (data : List UInt8) (offset count : ℕ) : Except Stop ℕ :=
  (readBytes data offset count).map leValue

theorem readField_eq (data : List UInt8) (offset count : ℕ) :
    readField data offset count =
      if offset + count ≤ data.length then .ok (field data offset count) else .error .outside := by
  unfold readField readBytes
  split <;> rfl

/-- `CLR_RT_ByteArrayReader`: where it stands, and how many bytes it still has. -/
structure ByteArrayReader where
  source : ℕ
  sourceSize : ℕ
  deriving DecidableEq, Repr

namespace ByteArrayReader

/-- The source is not null. -/
def init (srcSize : ℕ) : Except Stop ByteArrayReader :=
  if srcSize = 0 then .error (.failed .invalidParameter) else .ok ⟨0, srcSize⟩

def skip (r : ByteArrayReader) (size : ℕ) : Except Stop ByteArrayReader :=
  if r.sourceSize < size then .error (.failed .fail)
  else .ok ⟨r.source + size, r.sourceSize - size⟩

def isValid (r : ByteArrayReader) : Bool := 0 < r.sourceSize

end ByteArrayReader

/-! ## The headers -/

def sizeofBITMAPFILEHEADER : ℕ := 14
def sizeofBITMAPINFOHEADER : ℕ := 40

def biRgb : ℕ := 0
def biBitfields : ℕ := 3

def toInt32 (value : ℕ) : ℤ := (value : ℤ).bmod (2 ^ 32)

inductive BmpEncodingType where
  | bmp16Bit_565
  | bmp24Bit_RGB
  | bmp8Bit_Indexed
  | bmp32Bit_ARGB
  deriving DecidableEq, Repr

structure BmpDecoder where
  width : ℤ
  height : ℤ
  encodingType : BmpEncodingType
  source : ByteArrayReader
  palette : ℕ
  paletteDepth : ℕ
  isTopDown : Bool
  deriving DecidableEq, Repr

/-- The encoding of the pixels and, for indexed pixels, the palette and the depth of its entries.
The colour masks are copied before the skip over them is checked. -/
def encodingOf (data : List UInt8) (pbmfh pbmih : ℕ) (source : ByteArrayReader) :
    Except Stop (BmpEncodingType × ℕ × ℕ) := do
  let biBitCount ← readField data (pbmih + 14) 2
  if biBitCount = 16 then
    let biCompression ← readField data (pbmih + 16) 4
    if biCompression = biBitfields then
      let red ← readField data source.source 4
      let green ← readField data (source.source + 4) 4
      let blue ← readField data (source.source + 8) 4
      let _ ← source.skip 12
      if red = 0xF800 ∧ green = 0x07E0 ∧ blue = 0x001F then return (.bmp16Bit_565, 0, 0)
      else throw (.failed .notSupported)
    else throw (.failed .notSupported)
  else if biBitCount = 32 then
    let biCompression ← readField data (pbmih + 16) 4
    if biCompression = biRgb then return (.bmp32Bit_ARGB, 0, 0)
    else throw (.failed .notSupported)
  else if biBitCount = 24 then
    let biCompression ← readField data (pbmih + 16) 4
    if biCompression = biRgb then return (.bmp24Bit_RGB, 0, 0)
    else throw (.failed .notSupported)
  else if biBitCount = 8 then
    let biClrUsed ← readField data (pbmih + 32) 4
    if biClrUsed ≠ 0 then
      let bfOffBits ← readField data (pbmfh + 10) 4
      let rest := (bfOffBits + 2 ^ 32 - sizeofBITMAPINFOHEADER - sizeofBITMAPFILEHEADER) % 2 ^ 32
      return (.bmp8Bit_Indexed, source.source, rest / biClrUsed % 2 ^ 8)
    else throw (.failed .notSupported)
  else throw (.failed .notSupported)

def bmpInitOutput (data : List UInt8) : Except Stop BmpDecoder := do
  let source ← ByteArrayReader.init data.length
  let pbmfh := source.source
  let source ← source.skip sizeofBITMAPFILEHEADER
  let bfType ← readField data pbmfh 2
  failIf (bfType ≠ 0x4d42) .fail
  let pbmih := source.source
  let biSize ← readField data pbmih 4
  failIf (biSize < sizeofBITMAPINFOHEADER) .fail
  let source ← source.skip biSize
  let biPlanes ← readField data (pbmih + 12) 2
  failIf (biPlanes ≠ 1) .fail
  let biHeight := toInt32 (← readField data (pbmih + 8) 4)
  -- the negative of the least `int` is itself
  let height := if 0 < biHeight then biHeight else (-biHeight).bmod (2 ^ 32)
  let width := toInt32 (← readField data (pbmih + 4) 4)
  failIf (width ≤ 0 ∨ height ≤ 0) .fail
  let (encodingType, palette, paletteDepth) ← encodingOf data pbmfh pbmih source
  let source ← ByteArrayReader.init data.length
  let bfOffBits ← readField data (pbmfh + 10) 4
  let source ← source.skip bfOffBits
  return {
    width := width, height := height, encodingType := encodingType, source := source,
    palette := palette, paletteDepth := paletteDepth, isTopDown := ¬ 0 < biHeight }

/-! ## The pixels -/

/-- Five bits of colour, the lowest one copied below. -/
def widen5 (c : ℕ) : ℕ := if c &&& 8 ≠ 0 then c ||| 7 else c

/-- Six bits of colour, the lowest one copied below. -/
def widen6 (c : ℕ) : ℕ := if c &&& 4 ≠ 0 then c ||| 3 else c

def rgb (r g b : ℕ) : ℕ := r ||| (g <<< 8) ||| (b <<< 16)

def BmpEncodingType.pixelBytes : BmpEncodingType → ℕ
  | .bmp16Bit_565 => 2
  | .bmp24Bit_RGB => 3
  | .bmp8Bit_Indexed => 1
  | .bmp32Bit_ARGB => 4

/-- `srcWidthInBytes`: each line is 4-byte aligned in size. -/
def srcWidthInBytes (encodingType : BmpEncodingType) (width : ℕ) : ℕ :=
  (width * (8 * encodingType.pixelBytes) + 31) / 32 * 4

/-- `BmpDecoder::BmpOutputHelper` behind the start of a row: the colour of the pixel at `srcRGB`. -/
def bmpOutputHelper (data : List UInt8) (d : BmpDecoder) (srcRGB : ℕ) : Except Stop ℕ :=
  match d.encodingType with
  | .bmp8Bit_Indexed => do
    let index := (← readField data srcRGB 1) * d.paletteDepth
    let b ← readField data (d.palette + (index + 0)) 1
    let g ← readField data (d.palette + (index + 1)) 1
    let r ← readField data (d.palette + (index + 2)) 1
    return rgb r g b
  | .bmp16Bit_565 => do
    let color16 ← readField data srcRGB 2
    return rgb (widen5 (color16 >>> 11 <<< 3)) (widen6 ((color16 >>> 5 &&& 0x3f) <<< 2))
      (widen5 ((color16 &&& 0x1f) <<< 3))
  | _ => do
    let r ← readField data (srcRGB + 2) 1
    let g ← readField data (srcRGB + 1) 1
    let b ← readField data srcRGB 1
    return rgb r g b

/-- The callbacks for `count` pixels of a row. -/
def outputRow (data : List UInt8) (d : BmpDecoder) : ℕ → ℕ → Except Stop (List ℕ)
  | 0, _ => return []
  | count + 1, srcRGB => do
    let color ← bmpOutputHelper data d srcRGB
    let colors ← outputRow data d count (srcRGB + d.encodingType.pixelBytes)
    return color :: colors

/-- The callbacks of `SetPixelsHelper` for `rows` rows, in the order of the source: the first pixel
of a row takes the row from the reader, and does not ask whether it could. -/
def outputRows (data : List UInt8) (d : BmpDecoder) :
    ℕ → ByteArrayReader → Except Stop (List (List ℕ))
  | 0, _ => return []
  | rows + 1, source => do
    let row ← outputRow data d d.width.toNat source.source
    let source := match source.skip (srcWidthInBytes d.encodingType d.width.toNat) with
      | .ok source => source
      | .error _ => source
    let colors ← outputRows data d rows source
    return row :: colors

/-- `BmpDecoder::BmpStartOutput`: the rows of colours, from the top of the picture down. -/
def bmpStartOutput (data : List UInt8) (d : BmpDecoder) : Except Stop (List (List ℕ)) := do
  failIf (d.source.isValid = false) .fail
  let size := srcWidthInBytes d.encodingType d.width.toNat * d.height.toNat % 2 ^ 32
  failIf (d.source.sourceSize < size) .outOfRange
  let rows ← outputRows data d d.height.toNat d.source
  return if d.isTopDown then rows else rows.reverse

/-- `CLR_GFX_Bitmap::CreateInstanceBmp`, where the memory for the bitmap is there. -/
def createInstanceBmp (data : List UInt8) : Except Stop (List (List ℕ)) := do
  let decoder ← bmpInitOutput data
  match initializeDescription decoder.width decoder.height nativeBpp with
  | none => throw (.failed .fail)
  | some _ => bmpStartOutput data decoder

/-! ## When a computation stays inside -/

/-- No byte outside the array is read. -/
def Inside {α : Type} (m : Except Stop α) : Prop := m ≠ .error .outside

section Rules

variable {α β : Type}

theorem inside_ok (a : α) : Inside (.ok a : Except Stop α) := by
  intro h
  cases h

theorem inside_failed (hr : HResult) : Inside (.error (.failed hr) : Except Stop α) := by
  intro h
  cases h

theorem inside_pure (a : α) : Inside (pure a : Except Stop α) := inside_ok a

theorem inside_throw (hr : HResult) : Inside (throw (.failed hr) : Except Stop α) :=
  inside_failed hr

theorem inside_ite (c : Prop) [Decidable c] (m m' : Except Stop α) :
    Inside (if c then m else m') ↔ (c → Inside m) ∧ (¬ c → Inside m') := by
  split
  · exact ⟨fun h ↦ ⟨fun _ ↦ h, fun hc ↦ absurd ‹_› hc⟩, fun h ↦ h.1 ‹_›⟩
  · exact ⟨fun h ↦ ⟨fun hc ↦ absurd hc ‹_›, fun _ ↦ h⟩, fun h ↦ h.2 ‹_›⟩

theorem inside_bind (m : Except Stop α) (f : α → Except Stop β) :
    Inside (m >>= f) ↔ Inside m ∧ ∀ a, m = .ok a → Inside (f a) := by
  cases m with
  | error stop =>
    constructor
    · exact fun h ↦ ⟨fun heq ↦ h (by rw [Except.error.inj heq]; rfl), fun a ha ↦ by cases ha⟩
    · exact fun h heq ↦ h.1 (by rw [Except.error.inj heq])
  | ok a =>
    constructor
    · exact fun h ↦ ⟨inside_ok a, fun a' ha ↦ by cases ha; exact h⟩
    · exact fun h ↦ h.2 a rfl

theorem inside_readField (data : List UInt8) (offset count : ℕ) :
    Inside (readField data offset count) ↔ offset + count ≤ data.length := by
  rw [readField_eq]
  split
  · exact iff_of_true (inside_ok _) ‹_›
  · exact iff_of_false (fun h ↦ h rfl) ‹_›

theorem inside_failIf (leave : Prop) [Decidable leave] (hr : HResult) :
    Inside (failIf leave hr) := by
  unfold failIf
  split
  · exact inside_failed hr
  · exact inside_ok ()

theorem inside_skip (r : ByteArrayReader) (size : ℕ) : Inside (r.skip size) := by
  unfold ByteArrayReader.skip
  split
  · exact inside_failed _
  · exact inside_ok _

theorem inside_init (srcSize : ℕ) : Inside (ByteArrayReader.init srcSize) := by
  unfold ByteArrayReader.init
  split
  · exact inside_failed _
  · exact inside_ok _

theorem readField_eq_ok_iff {data : List UInt8} {offset count value : ℕ} :
    readField data offset count = .ok value ↔
      offset + count ≤ data.length ∧ value = field data offset count := by
  rw [readField_eq]
  split
  · rw [Except.ok.injEq, eq_comm]
    exact (and_iff_right ‹_›).symm
  · exact iff_of_false (fun h ↦ by cases h) fun h ↦ absurd h.1 ‹_›

theorem failIf_eq_ok_iff {leave : Prop} [Decidable leave] {hr : HResult} {u : Unit} :
    failIf leave hr = .ok u ↔ ¬ leave := by
  unfold failIf
  split
  · exact iff_of_false (fun h ↦ by cases h) (not_not_intro ‹_›)
  · exact iff_of_true rfl ‹_›

theorem skip_eq_ok_iff {r r' : ByteArrayReader} {size : ℕ} :
    r.skip size = .ok r' ↔ size ≤ r.sourceSize ∧ r' = ⟨r.source + size, r.sourceSize - size⟩ := by
  unfold ByteArrayReader.skip
  split
  · exact iff_of_false (fun h ↦ by cases h) fun h ↦ by omega
  · rw [Except.ok.injEq, eq_comm]
    exact (and_iff_right (by omega)).symm

theorem init_eq_ok_iff {srcSize : ℕ} {r : ByteArrayReader} :
    ByteArrayReader.init srcSize = .ok r ↔ srcSize ≠ 0 ∧ r = ⟨0, srcSize⟩ := by
  unfold ByteArrayReader.init
  split
  · exact iff_of_false (fun h ↦ by cases h) fun h ↦ h.1 ‹_›
  · rw [Except.ok.injEq, eq_comm]
    exact (and_iff_right ‹_›).symm

end Rules

/-! ## The header fields -/

def biWidth (data : List UInt8) : ℤ := toInt32 (field data 18 4)

def biHeight (data : List UInt8) : ℤ := toInt32 (field data 22 4)

/-- The height of the picture; the least `int` stays as it is. -/
def bmpHeight (data : List UInt8) : ℤ :=
  if 0 < biHeight data then biHeight data else (-biHeight data).bmod (2 ^ 32)

def biSize (data : List UInt8) : ℕ := field data 14 4
def biBitCount (data : List UInt8) : ℕ := field data 28 2
def biCompression (data : List UInt8) : ℕ := field data 30 4
def biClrUsed (data : List UInt8) : ℕ := field data 46 4
def bfOffBits (data : List UInt8) : ℕ := field data 10 4

def paletteDepth (data : List UInt8) : ℕ :=
  (bfOffBits data + 2 ^ 32 - sizeofBITMAPINFOHEADER - sizeofBITMAPFILEHEADER) % 2 ^ 32 /
    biClrUsed data % 2 ^ 8

structure HeadersPass (data : List UInt8) : Prop where
  isBmp : field data 0 2 = 0x4d42
  le_biSize : 40 ≤ biSize data
  biSize_le : 14 + biSize data ≤ data.length
  planes : field data 26 2 = 1
  width_pos : 0 < biWidth data
  height_pos : 0 < bmpHeight data

def encoding (data : List UInt8) : Except Stop (BmpEncodingType × ℕ × ℕ) :=
  encodingOf data 0 14 ⟨14 + biSize data, data.length - 14 - biSize data⟩

variable {d : BmpDecoder} {data : List UInt8}

theorem bmpInitOutput_eq_ok_iff :
    bmpInitOutput data = .ok d ↔
      HeadersPass data ∧ encoding data = .ok (d.encodingType, d.palette, d.paletteDepth) ∧
        bfOffBits data ≤ data.length ∧
        d.source = ⟨bfOffBits data, data.length - bfOffBits data⟩ ∧
        d.width = biWidth data ∧ d.height = bmpHeight data ∧
        d.isTopDown = decide (¬ 0 < biHeight data) := by
  unfold bmpInitOutput
  simp only [bind_eq_ok_iff, readField_eq_ok_iff, failIf_eq_ok_iff, skip_eq_ok_iff,
    init_eq_ok_iff, pure_eq_ok_iff]
  simp only [and_assoc, exists_and_left, exists_eq_left, exists_const, zero_add,
    sizeofBITMAPFILEHEADER, sizeofBITMAPINFOHEADER]
  constructor
  · rintro ⟨-, hfile, -, hbmp, -, hsize, hle, -, hplanes, -, -, hpos, ⟨type, palette, depth⟩,
      hencoding, -, -, hoff, hd⟩
    rw [not_or, not_le, not_le] at hpos
    have hpass : HeadersPass data :=
      ⟨not_not.mp hbmp, not_lt.mp hsize, Nat.add_le_of_le_sub' hfile hle, not_not.mp hplanes,
        hpos.1, hpos.2⟩
    rw [← hd]
    dsimp only
    exact ⟨hpass, hencoding, hoff, by rfl, by rfl, by rfl, by rfl⟩
  · obtain ⟨width, height, encodingType, source, palette, depth, isTopDown⟩ := d
    rintro ⟨h, hencoding, hoff, hsource, hwidth, hheight, htop⟩
    dsimp only at hsource hwidth hheight htop hencoding
    have hlen := h.biSize_le
    have hsize := h.le_biSize
    have hpos : ¬ (biWidth data ≤ 0 ∨ bmpHeight data ≤ 0) := by
      rw [not_or, not_le, not_le]
      exact ⟨h.width_pos, h.height_pos⟩
    refine ⟨by omega, by omega, by omega, not_not_intro h.isBmp, by omega, not_lt.mpr hsize,
      Nat.le_sub_of_add_le' hlen, by omega, not_not_intro h.planes, by omega, by omega, hpos, _,
      hencoding, by omega, by omega, hoff, ?_⟩
    rw [hsource, hwidth, hheight, htop]
    rfl

theorem inside_encoding (hlen : 54 ≤ data.length) :
    Inside (encoding data) ↔
      (biBitCount data = 16 → biCompression data = biBitfields →
        14 + biSize data + 12 ≤ data.length) := by
  unfold encoding encodingOf
  simp only [inside_bind, inside_ite, inside_pure, inside_throw, inside_skip, inside_readField,
    readField_eq_ok_iff, skip_eq_ok_iff, and_imp, forall_eq_apply_imp_iff, implies_true, and_true]
  constructor
  · intro h h16 hcompression
    have hmasks := ((h.2 (by omega)).1 h16).2 (by omega) hcompression
    have hgreen := hmasks.2 hmasks.1
    exact hgreen.2 hgreen.1
  · intro h
    refine ⟨by omega, fun _ ↦ ⟨fun h16 ↦ ⟨by omega, fun _ hcompression ↦ ?_⟩, fun _ ↦
      ⟨fun _ ↦ by omega, fun _ ↦ ⟨fun _ ↦ by omega, fun _ _ ↦ ⟨by omega, fun _ _ ↦ by omega⟩⟩⟩⟩⟩
    have hend := h h16 hcompression
    exact ⟨by omega, fun _ ↦ ⟨by omega, fun _ ↦ by omega⟩⟩

theorem encoding_eq_indexed_iff (hlen : 54 ≤ data.length) {palette depth : ℕ} :
    encoding data = .ok (.bmp8Bit_Indexed, palette, depth) ↔
      biBitCount data = 8 ∧ biClrUsed data ≠ 0 ∧ palette = 14 + biSize data ∧
        depth = paletteDepth data := by
  unfold encoding encodingOf
  simp only [bind_eq_ok_iff, ite_eq_ok_iff, pure_eq_ok_iff, throw_ne_ok, readField_eq_ok_iff,
    skip_eq_ok_iff, Prod.mk.injEq, reduceCtorEq, false_and, and_false, exists_false, or_false,
    false_or, and_assoc, exists_and_left, exists_eq_left, true_and, zero_add]
  constructor
  · rintro ⟨-, -, -, -, h8, -, hused, -, hpalette, hdepth⟩
    exact ⟨h8, hused, hpalette.symm, hdepth.symm⟩
  · rintro ⟨h8, hused, hpalette, hdepth⟩
    have hcount : field data (14 + 14) 2 = 8 := h8
    refine ⟨by omega, by omega, by omega, by omega, hcount, by omega, hused, by omega,
      hpalette.symm, hdepth.symm⟩

/-! ## The pixels stay in the rows -/

/-- The palette has the entry of the pixel at this offset. -/
def PixelInside (data : List UInt8) (d : BmpDecoder) (srcRGB : ℕ) : Prop :=
  d.encodingType = .bmp8Bit_Indexed →
    d.palette + field data srcRGB 1 * d.paletteDepth + 3 ≤ data.length

def OnlyReads {α : Type} (m : Except Stop α) : Prop := ∀ hr, m ≠ .error (.failed hr)

theorem OnlyReads.exists_ok {α : Type} {m : Except Stop α} (h : OnlyReads m) (hin : Inside m) :
    ∃ a, m = .ok a := by
  match m with
  | .ok a => exact ⟨a, rfl⟩
  | .error .outside => exact absurd rfl hin
  | .error (.failed hr) => exact absurd rfl (h hr)

theorem onlyReads_pure {α : Type} (a : α) : OnlyReads (pure a : Except Stop α) := by
  intro hr h
  cases h

theorem onlyReads_readField (data : List UInt8) (offset count : ℕ) :
    OnlyReads (readField data offset count) := by
  intro hr h
  rw [readField_eq] at h
  split at h <;> cases h

theorem OnlyReads.bind {α β : Type} {m : Except Stop α} {f : α → Except Stop β} (hm : OnlyReads m)
    (hf : ∀ a, OnlyReads (f a)) : OnlyReads (m >>= f) := by
  match m with
  | .ok a => exact hf a
  | .error .outside => exact fun hr h ↦ by cases h
  | .error (.failed hr) => exact absurd rfl (hm hr)

theorem onlyReads_bmpOutputHelper (data : List UInt8) (d : BmpDecoder) (srcRGB : ℕ) :
    OnlyReads (bmpOutputHelper data d srcRGB) := by
  unfold bmpOutputHelper
  split
  · exact (onlyReads_readField _ _ _).bind fun _ ↦ (onlyReads_readField _ _ _).bind fun _ ↦
      (onlyReads_readField _ _ _).bind fun _ ↦ (onlyReads_readField _ _ _).bind fun _ ↦
        onlyReads_pure _
  · exact (onlyReads_readField _ _ _).bind fun _ ↦ onlyReads_pure _
  · exact (onlyReads_readField _ _ _).bind fun _ ↦ (onlyReads_readField _ _ _).bind fun _ ↦
      (onlyReads_readField _ _ _).bind fun _ ↦ onlyReads_pure _

theorem inside_bmpOutputHelper {srcRGB : ℕ} (h : srcRGB + d.encodingType.pixelBytes ≤ data.length) :
    Inside (bmpOutputHelper data d srcRGB) ↔ PixelInside data d srcRGB := by
  unfold bmpOutputHelper PixelInside
  cases hencoding : d.encodingType <;> rw [hencoding, BmpEncodingType.pixelBytes] at h <;>
    simp only [inside_bind, inside_pure, inside_readField, readField_eq_ok_iff, and_imp,
      forall_eq_apply_imp_iff, implies_true, and_true, reduceCtorEq, false_implies, true_implies,
      iff_true]
  all_goals omega

/-- A row of pixels in the array is read exactly if all its pixels are. -/
theorem inside_outputRow {count srcRGB : ℕ}
    (h : srcRGB + count * d.encodingType.pixelBytes ≤ data.length) :
    Inside (outputRow data d count srcRGB) ↔
      ∀ x < count, PixelInside data d (srcRGB + x * d.encodingType.pixelBytes) := by
  induction count generalizing srcRGB with
  | zero => exact iff_of_true (inside_pure []) fun x hx ↦ absurd hx x.not_lt_zero
  | succ count ih =>
    rw [succ_mul] at h
    have hone : srcRGB + d.encodingType.pixelBytes ≤ data.length := by omega
    have hmore : srcRGB + d.encodingType.pixelBytes + count * d.encodingType.pixelBytes ≤
        data.length := by omega
    have hfirst := inside_bmpOutputHelper hone
    have hrest := ih hmore
    rw [outputRow, inside_bind, hfirst]
    simp only [inside_bind, inside_pure, implies_true, and_true, hrest]
    constructor
    · rintro ⟨hpixel, hpixels⟩ x hx
      cases x with
      | zero => rwa [zero_mul, add_zero]
      | succ x =>
        obtain ⟨color, hcolor⟩ := (onlyReads_bmpOutputHelper data d srcRGB).exists_ok
          (hfirst.mpr hpixel)
        rw [succ_mul, add_comm (x * _), ← add_assoc]
        exact hpixels color hcolor x (lt_of_succ_lt_succ hx)
    · intro hpixels
      constructor
      · have hzero := hpixels 0 (succ_pos _)
        rwa [zero_mul, add_zero] at hzero
      · intro color hcolor x hx
        have hnext := hpixels (x + 1) (succ_lt_succ hx)
        rwa [succ_mul, add_comm (x * _), ← add_assoc] at hnext

theorem onlyReads_outputRow (data : List UInt8) (d : BmpDecoder) (count srcRGB : ℕ) :
    OnlyReads (outputRow data d count srcRGB) := by
  induction count generalizing srcRGB with
  | zero => exact onlyReads_pure []
  | succ count ih =>
    exact (onlyReads_bmpOutputHelper data d srcRGB).bind fun _ ↦ (ih _).bind fun _ ↦
      onlyReads_pure _

/-- A row of the file holds its pixels. -/
theorem pixels_le_srcWidthInBytes (encodingType : BmpEncodingType) (width : ℕ) :
    width * encodingType.pixelBytes ≤ srcWidthInBytes encodingType width := by
  unfold srcWidthInBytes
  cases encodingType <;> dsimp only [BmpEncodingType.pixelBytes] <;> omega

theorem inside_outputRows {rows : ℕ} {r : ByteArrayReader}
    (hsize : rows * srcWidthInBytes d.encodingType d.width.toNat ≤ r.sourceSize)
    (hin : r.source + r.sourceSize = data.length) :
    Inside (outputRows data d rows r) ↔
      ∀ y < rows, ∀ x < d.width.toNat, PixelInside data d
        (r.source + y * srcWidthInBytes d.encodingType d.width.toNat +
          x * d.encodingType.pixelBytes) := by
  induction rows generalizing r with
  | zero => exact iff_of_true (inside_pure []) fun y hy ↦ absurd hy y.not_lt_zero
  | succ rows ih =>
    have hrow := pixels_le_srcWidthInBytes d.encodingType d.width.toNat
    rw [succ_mul] at hsize
    generalize hwidth : srcWidthInBytes d.encodingType d.width.toNat = bytes at *
    have hskip : r.skip bytes = .ok ⟨r.source + bytes, r.sourceSize - bytes⟩ :=
      skip_eq_ok_iff.mpr ⟨by omega, rfl⟩
    have hfits : r.source + d.width.toNat * d.encodingType.pixelBytes ≤ data.length := by omega
    have hfirst := inside_outputRow hfits
    have hrest := ih (r := ⟨r.source + bytes, r.sourceSize - bytes⟩) (by dsimp only; omega)
      (by dsimp only; omega)
    rw [outputRows, inside_bind, hfirst]
    simp only [hwidth, hskip, inside_bind, inside_pure, implies_true, and_true, hrest]
    constructor
    · rintro ⟨hpixels, hmore⟩ y hy
      cases y with
      | zero => rwa [zero_mul, add_zero]
      | succ y =>
        obtain ⟨row, hread⟩ := (onlyReads_outputRow data d _ _).exists_ok (hfirst.mpr hpixels)
        rw [succ_mul, add_comm (y * _), ← add_assoc]
        exact hmore row hread y (lt_of_succ_lt_succ hy)
    · intro hpixels
      constructor
      · have hzero := hpixels 0 (succ_pos _)
        rwa [zero_mul, add_zero] at hzero
      · intro row hread y hy
        have hnext := hpixels (y + 1) (succ_lt_succ hy)
        rwa [succ_mul, add_comm (y * _), ← add_assoc] at hnext

/-! ## When all reads are inside -/

variable {bm : BitmapDescription}

/-- Within the limits of a bitmap the size of the pixels in the file does not wrap. -/
theorem srcWidthInBytes_mul_lt {width height : ℤ}
    (h : initializeDescription width height nativeBpp = some bm) (encodingType : BmpEncodingType) :
    srcWidthInBytes encodingType width.toNat * height.toNat < 2 ^ 32 := by
  obtain ⟨hwidth, hheight, hbits, -, -, -, hsize⟩ := initializeDescription_spec h
  have hnative : bm.bitsPerPixel = nativeBpp := by exact_mod_cast hbits
  rw [getTotalSize, if_pos hnative, graphicsGetSize] at hsize
  split at hsize
  · exact absurd hsize (by decide)
  rename_i hmax
  rw [← hwidth, ← hheight, Int.toNat_natCast, Int.toNat_natCast]
  have hrow : srcWidthInBytes encodingType bm.width ≤ 8 * graphicsGetWidthInWords bm.width := by
    unfold srcWidthInBytes graphicsGetWidthInWords
    cases encodingType <;> dsimp only [BmpEncodingType.pixelBytes] <;> omega
  unfold graphicsMaxSize at hmax
  calc
    srcWidthInBytes encodingType bm.width * bm.height ≤
        8 * graphicsGetWidthInWords bm.width * bm.height := mul_le_mul_right _ hrow
    _ = 2 * (graphicsGetWidthInWords bm.width * bm.height * 4) := by ring
    _ < 2 ^ 32 := by omega

def indexedRow (data : List UInt8) : ℕ :=
  srcWidthInBytes .bmp8Bit_Indexed (biWidth data).toNat

/-- The indexed pixels are decoded: the picture is within the limits and in the array. -/
structure PixelsPass (data : List UInt8) : Prop where
  limits : (initializeDescription (biWidth data) (bmpHeight data) nativeBpp).isSome
  offset_lt : bfOffBits data < data.length
  rows_le : bfOffBits data + indexedRow data * (bmpHeight data).toNat ≤ data.length

/-- What the fields must say for all reads to be inside the array. -/
structure ReadsInside (data : List UInt8) : Prop where
  /-- Behind a file header there is the size of the info header. -/
  header : 14 ≤ data.length → field data 0 2 = 0x4d42 → 18 ≤ data.length
  /-- There are the three colour masks. -/
  masks : HeadersPass data → biBitCount data = 16 → biCompression data = biBitfields →
    14 + biSize data + 12 ≤ data.length
  palette : HeadersPass data → biBitCount data = 8 → biClrUsed data ≠ 0 → PixelsPass data →
    ∀ y < (bmpHeight data).toNat, ∀ x < (biWidth data).toNat,
      14 + biSize data + field data (bfOffBits data + y * indexedRow data + x) 1 *
        paletteDepth data + 3 ≤ data.length

theorem inside_bmpInitOutput (data : List UInt8) :
    Inside (bmpInitOutput data) ↔
      (14 ≤ data.length → field data 0 2 = 0x4d42 → 18 ≤ data.length) ∧
        (HeadersPass data → biBitCount data = 16 → biCompression data = biBitfields →
          14 + biSize data + 12 ≤ data.length) := by
  unfold bmpInitOutput
  simp only [inside_bind, inside_init, inside_skip, inside_failIf, inside_pure, inside_readField,
    readField_eq_ok_iff, failIf_eq_ok_iff, skip_eq_ok_iff, init_eq_ok_iff, and_imp,
    forall_eq_apply_imp_iff, forall_const, implies_true, true_and, and_true, zero_add,
    sizeofBITMAPFILEHEADER, sizeofBITMAPINFOHEADER]
  constructor
  · intro h
    constructor
    · intro hfile hbmp
      exact ((h (by omega) hfile).2 (by omega) (not_not_intro hbmp)).1
    · intro hpass
      have hsize := hpass.le_biSize
      have hle := hpass.biSize_le
      have hpos : ¬ (biWidth data ≤ 0 ∨ bmpHeight data ≤ 0) := by
        rw [not_or, not_le, not_le]
        exact ⟨hpass.width_pos, hpass.height_pos⟩
      have hfile := (h (by omega) (by omega)).2 (by omega) (not_not_intro hpass.isBmp)
      have hinfo := hfile.2 (by omega) (not_lt.mpr hsize) (Nat.le_sub_of_add_le' hle)
      have hplanes := hinfo.2 (by omega) (not_not_intro hpass.planes)
      have hdims := (hplanes.2 (by omega)).2 (by omega) hpos
      exact (inside_encoding (by omega)).mp hdims.1
  · rintro ⟨hheader, hmasks⟩ - hfile
    refine ⟨by omega, fun _ hbmp ↦ ⟨hheader hfile (not_not.mp hbmp), fun _ hsize hle ↦ ?_⟩⟩
    have hlen : 14 + biSize data ≤ data.length := Nat.add_le_of_le_sub' hfile hle
    have hmin : 40 ≤ biSize data := not_lt.mp hsize
    refine ⟨by omega, fun _ hplanes ↦ ⟨by omega, fun _ ↦ ⟨by omega, fun _ hpos ↦
      ⟨?_, fun _ _ _ ↦ by omega⟩⟩⟩⟩
    rw [not_or, not_le, not_le] at hpos
    have hpass : HeadersPass data :=
      ⟨not_not.mp hbmp, hmin, hlen, not_not.mp hplanes, hpos.1, hpos.2⟩
    exact (inside_encoding (by omega)).mpr (hmasks hpass)

theorem inside_bmpStartOutput (hlimits : initializeDescription d.width d.height nativeBpp = some bm)
    (hin : d.source.source + d.source.sourceSize = data.length) :
    Inside (bmpStartOutput data d) ↔
      (0 < d.source.sourceSize →
        srcWidthInBytes d.encodingType d.width.toNat * d.height.toNat ≤ d.source.sourceSize →
          ∀ y < d.height.toNat, ∀ x < d.width.toNat, PixelInside data d
            (d.source.source + y * srcWidthInBytes d.encodingType d.width.toNat +
              x * d.encodingType.pixelBytes)) := by
  have hsize := mod_eq_of_lt (srcWidthInBytes_mul_lt hlimits d.encodingType)
  unfold bmpStartOutput
  simp only [inside_bind, inside_failIf, inside_pure, failIf_eq_ok_iff, hsize, forall_const,
    implies_true, true_and, and_true, ByteArrayReader.isValid, decide_eq_false_iff_not,
    not_not]
  refine forall_congr' fun _ ↦ ?_
  rw [not_lt]
  refine forall_congr' fun hle ↦ ?_
  rw [mul_comm] at hle
  exact inside_outputRows hle hin

theorem exists_indexedDecoder (hpass : HeadersPass data)
    (h8 : biBitCount data = 8) (hused : biClrUsed data ≠ 0) (hoff : bfOffBits data ≤ data.length) :
    ∃ d, bmpInitOutput data = .ok d ∧ d.encodingType = .bmp8Bit_Indexed := by
  have hsize := hpass.le_biSize
  have hle := hpass.biSize_le
  have hencoding : encoding data = .ok (.bmp8Bit_Indexed, 14 + biSize data, paletteDepth data) :=
    (encoding_eq_indexed_iff (by omega)).mpr ⟨h8, hused, rfl, rfl⟩
  let d : BmpDecoder :=
    { width := biWidth data, height := bmpHeight data, encodingType := .bmp8Bit_Indexed,
      source := ⟨bfOffBits data, data.length - bfOffBits data⟩, palette := 14 + biSize data,
      paletteDepth := paletteDepth data, isTopDown := decide (¬ 0 < biHeight data) }
  refine ⟨d, ?_, rfl⟩
  rw [bmpInitOutput_eq_ok_iff]
  dsimp only [d]
  exact ⟨hpass, hencoding, hoff, rfl, rfl, rfl, rfl⟩

/-- What the decoder of indexed pixels reads stays inside exactly if the palette has the entry of
every pixel. -/
theorem inside_indexed
    (hd : bmpInitOutput data = .ok d) (hindexed : d.encodingType = .bmp8Bit_Indexed)
    (hlimits : initializeDescription d.width d.height nativeBpp = some bm) :
    Inside (bmpStartOutput data d) ↔
      (bfOffBits data < data.length →
        bfOffBits data + indexedRow data * (bmpHeight data).toNat ≤ data.length →
          ∀ y < (bmpHeight data).toNat, ∀ x < (biWidth data).toNat,
            14 + biSize data + field data (bfOffBits data + y * indexedRow data + x) 1 *
              paletteDepth data + 3 ≤ data.length) := by
  obtain ⟨hpass, hencoding, hoff, hsource, hwidth, hheight, -⟩ := bmpInitOutput_eq_ok_iff.mp hd
  have hsize := hpass.le_biSize
  have hle := hpass.biSize_le
  have hin : d.source.source + d.source.sourceSize = data.length := by
    rw [hsource]
    exact Nat.add_sub_cancel' hoff
  rw [hindexed] at hencoding
  obtain ⟨-, -, hpalette, hdepth⟩ := (encoding_eq_indexed_iff (by omega)).mp hencoding
  rw [inside_bmpStartOutput hlimits hin]
  unfold PixelInside
  rw [hsource, hwidth, hheight, hindexed, hpalette, hdepth]
  have hrow : srcWidthInBytes .bmp8Bit_Indexed (biWidth data).toNat = indexedRow data := rfl
  simp only [hrow, BmpEncodingType.pixelBytes, Nat.mul_one, true_implies, Nat.sub_pos_iff_lt]
  rw [Nat.le_sub_iff_add_le' hoff]

/-- All bytes that are read lie in the array if and only if the fields say so. -/
theorem createInstanceBmp_inside_iff (data : List UInt8) :
    Inside (createInstanceBmp data) ↔ ReadsInside data := by
  have hstart : Inside (createInstanceBmp data) ↔ Inside (bmpInitOutput data) ∧
      ∀ d, bmpInitOutput data = .ok d → ∀ bm,
        initializeDescription d.width d.height nativeBpp = some bm →
          Inside (bmpStartOutput data d) := by
    rw [createInstanceBmp, inside_bind]
    refine and_congr_right fun _ ↦ forall_congr' fun d ↦ imp_congr_right fun _ ↦ ?_
    cases initializeDescription d.width d.height nativeBpp with
    | none => exact iff_of_true (inside_throw _) fun bm h ↦ by cases h
    | some bm => exact ⟨fun h _ _ ↦ h, fun h ↦ h bm rfl⟩
  rw [hstart, inside_bmpInitOutput]
  constructor
  · rintro ⟨⟨hheader, hmasks⟩, hpixels⟩
    refine ⟨hheader, hmasks, ?_⟩
    intro hpass h8 hused hpixelsPass y hy x hx
    obtain ⟨d, hd, hindexed⟩ := exists_indexedDecoder hpass h8 hused hpixelsPass.offset_lt.le
    obtain ⟨-, -, -, -, hwidth, hheight, -⟩ := bmpInitOutput_eq_ok_iff.mp hd
    obtain ⟨bm, hlimits⟩ := Option.isSome_iff_exists.mp hpixelsPass.limits
    rw [← hwidth, ← hheight] at hlimits
    exact (inside_indexed hd hindexed hlimits).mp (hpixels d hd bm hlimits) hpixelsPass.offset_lt
      hpixelsPass.rows_le y hy x hx
  · rintro ⟨hheader, hmasks, hpalette⟩
    refine ⟨⟨hheader, hmasks⟩, ?_⟩
    intro d hd bm hlimits
    obtain ⟨hpass, hencoding, hoff, hsource, hwidth, hheight, -⟩ := bmpInitOutput_eq_ok_iff.mp hd
    by_cases hindexed : d.encodingType = .bmp8Bit_Indexed
    · have hsize := hpass.le_biSize
      have hle := hpass.biSize_le
      rw [hindexed] at hencoding
      obtain ⟨h8, hused, -, -⟩ := (encoding_eq_indexed_iff (by omega)).mp hencoding
      rw [inside_indexed hd hindexed hlimits]
      intro hlt hrows
      rw [hwidth, hheight] at hlimits
      exact hpalette hpass h8 hused ⟨by rw [hlimits, Option.isSome_some], hlt, hrows⟩
    · have hin : d.source.source + d.source.sourceSize = data.length := by
        rw [hsource]
        exact Nat.add_sub_cancel' hoff
      rw [inside_bmpStartOutput hlimits hin]
      exact fun _ _ _ _ _ _ h ↦ absurd h hindexed

/-- Behind a file header alone the size of the info header is read. -/
theorem bare_header_read_outside : ¬ ∀ data, Inside (createInstanceBmp data) := by
  intro h
  exact h (0x42 :: 0x4d :: List.replicate 12 0) rfl

end MicroFramework.Graphics
