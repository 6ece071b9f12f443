import MicroFramework.Unicode.Helper
import MicroFramework.Arrays.Range

/-!
# The native methods of `System.String`

A string is its zero-terminated bytes and an array of characters its units.  The heap answers every
request with a block or without one.  What stands in memory behind an array is a list of units; a
read past its end is `none`.
-/

namespace MicroFramework.Unicode

open Arrays

/-- The `HRESULT` of a native method that fails. -/
inductive Failure
  | wrongType
  | outOfRange
  | outOfMemory
  deriving DecidableEq

/-- Whether the heap gives a block for an array of so many characters, and so many heap blocks for a
string. -/
structure Heap where
  givesArray : ℕ → Bool
  givesBlocks : ℕ → Bool

def Conversion.written (conversion : Conversion UInt8 UInt16) (buffer : List UInt16) :
    List UInt16 :=
  let stored := conversion.output ++ if conversion.terminated then [0] else []
  stored ++ buffer.drop stored.length

/-! ## Reading the characters of a string -/

def getLength (szText : List UInt8) : Option ℤ := countNumberOfCharacters szText (-1)

def getChars (buf : List UInt16) (szText : List UInt8) (index : ℤ) :
    Option (Except Failure UInt16) :=
  match countNumberOfCharacters szText (-1) with
  | none => none
  | some len =>
    if len < 0 then some (.error .wrongType)
    else if index < 0 ∨ index ≥ len then some (.error .outOfRange)
    else
      -- First move to the character, then read it.
      match convertFromUTF8 szText 2 index true (-1) with
      | none => none
      | some moved =>
        match convertFromUTF8 moved.input moved.outputSize 1 false (-1) with
        | none => none
        | some read => some (.ok ((read.written buf).headD 0))

/-- `ConvertToCharArray`, for a text that is there.  A new array holds zeros. -/
def convertToCharArray (heap : Heap) (szText : List UInt8) (startIndex length : ℤ) :
    Option (Except Failure (List UInt16)) :=
  match countNumberOfCharacters szText (-1) with
  | none => none
  | some totLength =>
    if totLength < 0 then some (.error .wrongType)
    else
      let length := if length = -1 then totLength else length
      if checkRange startIndex length totLength = false then some (.error .outOfRange)
      else if heap.givesArray length.toNat = false then some (.error .outOfMemory)
      else
        let array := List.replicate length.toNat 0
        -- First move to the character, then read it.
        match convertFromUTF8 szText length startIndex true (-1) with
        | none => none
        | some moved =>
          match convertFromUTF8 moved.input moved.outputSize length false (-1) with
          | none => none
          | some read => some (.ok (read.written array))

/-! ## Creating strings -/

/-- `sizeof(CLR_RT_HeapBlock_String)`, which is that of a heap block. -/
def sizeofString : ℕ := 12

def heapBlocks (size : ℕ) : ℕ := (size + 11) % 2 ^ 32 / 12

/-- A new string: the bytes of its block behind the header, what the conversion stored into them,
and whether it stored the terminator.  The creation itself has stored a zero at the start. -/
structure NewString where
  room : ℕ
  output : List UInt8
  terminated : Bool
  deriving DecidableEq

/-- Everything was stored inside the block. -/
def NewString.InBounds (s : NewString) : Prop :=
  1 ≤ s.room ∧ s.output.length + (if s.terminated then 1 else 0) ≤ s.room

/-- The text up to the zero behind it, which is missing when the conversion stopped in the middle. -/
def NewString.text (s : NewString) : Option (List UInt8) :=
  if s.terminated ∨ s.output = [] then some s.output else none

/-- `CLR_RT_HeapBlock_String::CreateInstance( reference, szText, length )`, for `length` units at
`szText`. -/
def createInstance (heap : Heap) (szText : List UInt16) (length : ℕ) :
    Option (Except Failure NewString) :=
  match countNumberOfBytes szText (int32 length) with
  | none => none
  | some numberOfBytes =>
    let lengthInBytes := (numberOfBytes % 2 ^ 32).toNat
    let totLength := (sizeofString + lengthInBytes + 1) % 2 ^ 32
    if heap.givesBlocks (heapBlocks totLength) = false then some (.error .outOfMemory)
    else
      match convertToUTF8 szText (int32 (lengthInBytes + 1)) (int32 length) false with
      | none => none
      | some conversion =>
        some (.ok {
          room := heapBlocks totLength * 12 - sizeofString
          output := conversion.output
          terminated := conversion.terminated })

/-- `FromCharArray`, with what stands in memory behind the array.  An empty array leaves the null
reference that the constructor was called with. -/
def fromCharArray (heap : Heap) (array behind : List UInt16) (startIndex length : ℤ) :
    Option (Except Failure (Option NewString)) :=
  if array.length = 0 then some (.ok none)
  else
    let length := if length = -1 then int32 (array.length - startIndex) else length
    if checkRange startIndex length array.length = false then some (.error .outOfRange)
    else
      (createInstance heap (array.drop startIndex.toNat ++ behind) length.toNat).map
        (Except.map some)

/-- `Substring`, with what stands in memory behind the array of the characters. -/
def substring (heap : Heap) (szText : List UInt8) (behind : List UInt16)
    (startIndex length : ℤ) : Option (Except Failure NewString) :=
  match convertToCharArray heap szText 0 (-1) with
  | none => none
  | some (.error failure) => some (.error failure)
  | some (.ok array) =>
    if startIndex < 0 ∨ startIndex > array.length then some (.error .outOfRange)
    else if length = -1 then
      createInstance heap (array.drop startIndex.toNat ++ behind) (array.length - startIndex.toNat)
    else if length < 0 ∨ int32 (startIndex + length) > array.length then
      some (.error .outOfRange)
    else createInstance heap (array.drop startIndex.toNat ++ behind) length.toNat

/-- `Substring( startIndex, length )` -/
def substringRange (heap : Heap) (szText : List UInt8) (behind : List UInt16)
    (startIndex length : ℤ) : Option (Except Failure NewString) :=
  if length < 0 then some (.error .outOfRange)
  else substring heap szText behind startIndex length

end MicroFramework.Unicode
