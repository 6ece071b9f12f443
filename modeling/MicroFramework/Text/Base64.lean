import Mathlib.Data.Int.Notation
import Mathlib.Data.List.Basic

/-!
# Base64

`ConvertBase64`: the encoder writes all trios but the last in its loop, the last one behind it, and
the padding over that; the decoder reads the string in groups of four from the end, and fills its
output from the end.
-/

namespace MicroFramework.Text

/-- What the conversions throw. -/
inductive Base64Failure where
  | argument
  | indexOutOfRange
deriving DecidableEq, Repr

/-! ## Encoding -/

def base64Encoding : List UInt16 :=
  [65, 66, 67, 68, 69, 70, 71, 72, 73, 74, 75, 76,
   77, 78, 79, 80, 81, 82, 83, 84, 85, 86, 87, 88,
   89, 90, 97, 98, 99, 100, 101, 102, 103, 104, 105, 106,
   107, 108, 109, 110, 111, 112, 113, 114, 115, 116, 117, 118,
   119, 120, 121, 122, 48, 49, 50, 51, 52, 53, 54, 55,
   56, 57, 33, 42]

/-- The character for a value of 6 bits. -/
def encodeSextet (value : UInt8) : UInt16 := base64Encoding.getD value.toNat 0

def getBase64EncodedLength (binaryLen : ℕ) : ℕ :=
  (binaryLen / 3 + if binaryLen % 3 ≠ 0 then 1 else 0) * 4

/-- The 6 bits of each of the four characters for a trio. -/
def sextets (uc0 uc1 uc2 : UInt8) : List UInt8 :=
  [uc0 >>> 2,
   ((uc0 <<< 4) &&& (0x30 : UInt8)) ||| ((uc1 >>> 4) &&& (0xf : UInt8)),
   ((uc1 <<< 2) &&& (0x3c : UInt8)) ||| ((uc2 >>> 6) &&& (0x3 : UInt8)),
   uc2 &&& 0x3f]

/-- The loop over so many trios, with what is left of the input. -/
def encodeLoop : ℕ → List UInt8 → Except Base64Failure (List UInt16 × List UInt8)
  | 0, rest => .ok ([], rest)
  | trios + 1, uc0 :: uc1 :: uc2 :: rest =>
    (encodeLoop trios rest).map fun outcome ↦
      ((sextets uc0 uc1 uc2).map encodeSextet ++ outcome.1, outcome.2)
  | _ + 1, _ => .error .indexOutOfRange

/-- The padding is written over the end of the output. -/
def writePadding (inArrayLen : ℕ) (outArray : List UInt16) : List UInt16 :=
  match inArrayLen % 3 with
  | 1 => (outArray.set (outArray.length - 2) 61).set (outArray.length - 1) 61
  | 2 => outArray.set (outArray.length - 1) 61
  | _ => outArray

def toBase64String (inArray : List UInt8) : Except Base64Failure (List UInt16) :=
  let trios : ℤ := (getBase64EncodedLength inArray.length / 4 : ℕ) - 1
  match encodeLoop trios.toNat inArray with
  | .error failure => .error failure
  | .ok (_, []) => .error .indexOutOfRange
  | .ok (outArray, uc0 :: rest) =>
    .ok (writePadding inArray.length
      (outArray ++ (sextets uc0 (rest.getD 0 0) (rest.getD 1 0)).map encodeSextet))

/-! ## Decoding -/

def base64Decode : List UInt8 :=
  [0x00, 0x00, 0x00, 0x00, 0x00, 0x00, 0x00, 0x00, 0x00, 0x00, 0x00, 0x00, 0x00, 0x00, 0x00, 0x00,
   0x00, 0x00, 0x00, 0x00, 0x00, 0x00, 0x00, 0x00, 0x00, 0x00, 0x00, 0x00, 0x00, 0x00, 0x00, 0x00,
   0x00, 0x3E, 0x00, 0x00, 0x00, 0x00, 0x00, 0x00, 0x00, 0x00, 0x3f, 0x3e, 0x00, 0x00, 0x00, 0x3f,
   0x34, 0x35, 0x36, 0x37, 0x38, 0x39, 0x3a, 0x3b, 0x3c, 0x3d, 0x00, 0x00, 0x00, 0x00, 0x00, 0x00,
   0x00, 0x00, 0x01, 0x02, 0x03, 0x04, 0x05, 0x06, 0x07, 0x08, 0x09, 0x0a, 0x0b, 0x0c, 0x0d, 0x0e,
   0x0f, 0x10, 0x11, 0x12, 0x13, 0x14, 0x15, 0x16, 0x17, 0x18, 0x19, 0x00, 0x00, 0x00, 0x00, 0x00,
   0x00, 0x1a, 0x1b, 0x1c, 0x1d, 0x1e, 0x1f, 0x20, 0x21, 0x22, 0x23, 0x24, 0x25, 0x26, 0x27, 0x28,
   0x29, 0x2a, 0x2b, 0x2c, 0x2d, 0x2e, 0x2f, 0x30, 0x31, 0x32, 0x33, 0x00, 0x00, 0x00, 0x00, 0x00]

/-- The value of a character; the table has 128 entries. -/
def decodeChar (c : UInt16) : Except Base64Failure UInt8 :=
  match base64Decode[c.toNat]? with
  | some value => .ok value
  | none => .error .indexOutOfRange

/-- The loop over a group, from `ibDest` on: the values up to the equal sign. -/
def readGroup (isLast : Bool) : ℕ → List UInt16 → Except Base64Failure (List UInt8)
  | _, [] => .ok []
  | ibDest, c :: rest =>
    if c = 61 then
      if ibDest < 2 ∨ isLast = false then .error .argument else .ok []
    else
      match decodeChar c with
      | .error failure => .error failure
      | .ok value => (readGroup isLast (ibDest + 1) rest).map (value :: ·)

def joinGroup (rgbOutput : List UInt8) : List UInt8 :=
  match rgbOutput with
  | [v0, v1] => [(v0 <<< 2) ||| ((v1 &&& 0x30) >>> 4)]
  | [v0, v1, v2] =>
    [(v0 <<< 2) ||| ((v1 &&& 0x30) >>> 4), ((v1 &&& 0x0F) <<< 4) ||| ((v2 &&& 0x3C) >>> 2)]
  | [v0, v1, v2, v3] =>
    [(v0 <<< 2) ||| ((v1 &&& 0x30) >>> 4), ((v1 &&& 0x0F) <<< 4) ||| ((v2 &&& 0x3C) >>> 2),
      ((v2 &&& 0x03) <<< 6) ||| v3]
  | _ => []

/-- The loop over the groups, the last one first, with the bytes that it writes at the end of the
output. -/
def decodeLoop : List UInt16 → Except Base64Failure (List UInt8)
  | c0 :: c1 :: c2 :: c3 :: rest =>
    match decodeLoop rest with
    | .error failure => .error failure
    | .ok written =>
      (readGroup (decide (rest = [])) 0 [c0, c1, c2, c3]).map fun rgbOutput ↦
        joinGroup rgbOutput ++ written
  | _ => .ok []

/-- The size of the output array: three bytes a group, less the padding. -/
def outputLength (inString : List UInt16) : ℕ :=
  let outCurPos := inString.length / 4 * 3
  if inString[inString.length - 1]? = some 61 then
    if inString[inString.length - 2]? = some 61 then outCurPos - 1 - 1 else outCurPos - 1
  else outCurPos

/-- `FromBase64String`; bytes of the array that are not written stay 0. -/
def fromBase64String (inString : List UInt16) : Except Base64Failure (List UInt8) :=
  if inString.length % 4 ≠ 0 then .error .argument
  else if inString = [] then .error .indexOutOfRange
  else
    (decodeLoop inString).map fun written ↦
      List.replicate (outputLength inString - written.length) 0 ++ written

/-! ## What they are for -/

/-- The characters that stand for 6 bits: letters, digits, and `+` or `!`, `/` or `*`. -/
def InAlphabet (c : UInt16) : Prop :=
  65 ≤ c ∧ c ≤ 90 ∨ 97 ≤ c ∧ c ≤ 122 ∨ 48 ≤ c ∧ c ≤ 57 ∨ c = 43 ∨ c = 33 ∨ c = 47 ∨ c = 42

/-- The length is a multiple of 4, and at most two equal signs follow characters of the alphabet. -/
def WellFormed (inString : List UInt16) : Prop :=
  inString.length % 4 = 0 ∧
    ∃ body padding, inString = body ++ List.replicate padding 61 ∧ padding ≤ 2 ∧
      ∀ c ∈ body, InAlphabet c

/-- An encoded array is decoded to itself. -/
def RoundTrips (inArray : List UInt8) : Prop :=
  ∃ outString, toBase64String inArray = .ok outString ∧ fromBase64String outString = .ok inArray

/-- Only a well-formed string is decoded, and any other one is an `ArgumentException`. -/
def RejectsMalformed (inString : List UInt16) : Prop :=
  (∀ bytes, fromBase64String inString = .ok bytes → WellFormed inString) ∧
    (¬ WellFormed inString → fromBase64String inString = .error .argument)

end MicroFramework.Text
