import MicroFramework.Library.ByteMemory
import MicroFramework.Library.DoublyLinked

/-!
# The simple heap

`SimpleHeap_Initialize`, `SimpleHeap_Allocate`, `SimpleHeap_Release` and `SimpleHeap_ReAllocate` on
byte memory.  A block starts with a header of five words and, when it is in use, ends with a guard
word; the null pointer is zero, and sizes are computed with 32 bits.
-/

namespace MicroFramework.SimpleHeap

open Library

/-- The fields of `BlockHeader`. -/
inductive Field
  | next
  | prev
  | length
  | signature
  | headGuard
  deriving DecidableEq

def Field.offset : Field → ℕ
  | .next => 0
  | .prev => 4
  | .length => 8
  | .signature => 12
  | .headGuard => 16

def headerSize : ℕ := 20

def guardSize : ℕ := 4

def free : ℕ := 0xDEADBEEF

def busy : ℕ := 0xDEADBE5E

def guardWord : ℕ := 0xbab1f00d

def get (m : Memory) (blk : ℕ) (field : Field) : ℕ := loadWord m (blk + field.offset)

def set (m : Memory) (blk : ℕ) (field : Field) (v : ℕ) : Memory :=
  storeWord m (blk + field.offset) v

/-- The address of the guard word at the end of a block. -/
def tailGuard (m : Memory) (blk : ℕ) : ℕ := blk + get m blk .length - guardSize

def initializeHeap (m : Memory) (buffer length : ℕ) : Memory :=
  let m := set m buffer .length length
  let m := set m buffer .next 0
  let m := set m buffer .prev 0
  let m := set m buffer .signature free
  set m buffer .headGuard guardWord

/-- The size of the block for `len` bytes: with its header and its tail guard, rounded up to
words. -/
def blockLength (len : ℕ) : ℕ :=
  let len := (len + headerSize) % 2 ^ 32
  let len := (len + guardSize) % 2 ^ 32
  (len + 4 - 1) % 2 ^ 32 / 4 * 4

/-- The test of the loop over the blocks. -/
def fits (m : Memory) (len blk : ℕ) : Bool :=
  get m blk .signature = free && decide (len ≤ get m blk .length)

/-- The step of the loop over the blocks, which a null pointer ends. -/
def follow (m : Memory) (blk : ℕ) : Option ℕ :=
  if blk = 0 then none else some (get m blk .next)

def linkPrev (m : Memory) (next prev : ℕ) : Memory :=
  if next = 0 then m else set m next .prev prev

/-- Splits the block `prev` in two, the second one of `len` bytes. -/
def split (m : Memory) (prev len : ℕ) : ℕ × Memory :=
  let ptr := prev + get m prev .length - len
  let next := get m prev .next
  let m := set m ptr .next next
  let m := set m ptr .prev prev
  let m := set m prev .next ptr
  let m := linkPrev m next ptr
  let m := set m ptr .length len
  let m := set m prev .length (get m prev .length - len)
  (ptr, m)

/-- A perfect or almost perfect fit is left as it is. -/
def carve (m : Memory) (ptr len : ℕ) : ℕ × Memory :=
  if get m ptr .length ≤ (len + headerSize * 2) % 2 ^ 32 then (ptr, m) else split m ptr len

/-- Marks a block as used and sets its guard words. -/
def occupy (m : Memory) (ptr : ℕ) : Memory :=
  let m := set m ptr .signature busy
  let m := set m ptr .headGuard guardWord
  storeWord m (tailGuard m ptr) guardWord

/-- `SimpleHeap_Allocate`; `none` when the fuel for the loop is used up. -/
def allocate (m : Memory) (first fuel len : ℕ) : Option (ℕ × Memory) :=
  match search (follow m) (fits m (blockLength len)) fuel first with
  | none => none
  | some none => some (0, m)
  | some (some ptr) =>
    let (ptr, m) := carve m ptr (blockLength len)
    some (ptr + headerSize, occupy m ptr)

/-- Merges the block `next` into the block `blk` before it. -/
def absorb (m : Memory) (blk next : ℕ) : Memory :=
  let m := set m blk .length (get m blk .length + get m next .length)
  let nextnext := get m next .next
  let m := set m blk .next nextnext
  linkPrev m nextnext blk

/-- The merges of `SimpleHeap_Release`: first with the following block, then with the preceding one,
if they are free. -/
def merge (m : Memory) (blk : ℕ) : Memory :=
  let next := get m blk .next
  let m := if next ≠ 0 ∧ get m next .signature = free then absorb m blk next else m
  let prev := get m blk .prev
  if prev ≠ 0 ∧ get m prev .signature = free then absorb m prev blk else m

/-- `SimpleHeap_Release`; `none` for its breakpoints on a block that is not in use (a check of debug
builds) or whose guard words were overwritten. -/
def release (m : Memory) (ptr : ℕ) : Option Memory :=
  if ptr = 0 then some m
  else
    let blk := ptr - headerSize
    if get m blk .signature ≠ busy ∨ get m blk .headGuard ≠ guardWord ∨
        loadWord m (tailGuard m blk) ≠ guardWord then none
    else some (merge (set m blk .signature free) blk)

/-- The number of bytes that `SimpleHeap_ReAllocate` copies from the block `blk`. -/
def copyLength (m : Memory) (blk len : ℕ) : ℕ :=
  if get m blk .length < len then get m blk .length else len

def reAllocate (m : Memory) (first fuel ptr len : ℕ) : Option (ℕ × Memory) :=
  match allocate m first fuel len with
  | none => none
  | some (p, m) =>
    if p = 0 then some (0, m)
    else if ptr = 0 then some (p, m)
    else
      let m := copy m p ptr (copyLength m (ptr - headerSize) len)
      match release m ptr with
      | none => none
      | some m => some (p, m)

section Fields

variable {m m' : Memory} {blk blk' v : ℕ} {field field' : Field}

theorem Field.offset_le (field : Field) : field.offset + 4 ≤ headerSize := by cases field <;> decide

theorem get_lt (m : Memory) (blk : ℕ) (field : Field) : get m blk field < 2 ^ 32 := loadWord_lt m _

theorem get_congr (h : ∀ i, blk ≤ i → i < blk + headerSize → m' i = m i) (field : Field) :
    get m' blk field = get m blk field := by
  have hoffset := field.offset_le
  exact loadWord_congr fun i hlow hhigh ↦ h i (by omega) (by omega)

@[simp] theorem get_set_self (m : Memory) (blk : ℕ) (field : Field) (h : v < 2 ^ 32) :
    get (set m blk field v) blk field = v :=
  loadWord_storeWord m _ h

theorem get_set_of_ne (h : field' ≠ field) :
    get (set m blk field v) blk field' = get m blk field' := by
  refine loadWord_storeWord_of_apart ?_
  revert h
  cases field <;> cases field' <;> simp [Field.offset]

theorem get_set_of_apart (h : blk' + headerSize ≤ blk ∨ blk + headerSize ≤ blk') :
    get (set m blk field v) blk' field' = get m blk' field' := by
  have hoffset := field.offset_le
  have hoffset' := field'.offset_le
  exact loadWord_storeWord_of_apart (by omega)

theorem set_of_apart {i : ℕ} (h : i < blk ∨ blk + headerSize ≤ i) : set m blk field v i = m i := by
  have hoffset := field.offset_le
  exact storeWord_of_apart (by omega)

theorem get_linkPrev_of_apart (h : blk = 0 ∨ blk' + headerSize ≤ blk ∨ blk + headerSize ≤ blk') :
    get (linkPrev m blk v) blk' field = get m blk' field := by
  unfold linkPrev
  split
  · rfl
  · exact get_set_of_apart (by omega)

theorem linkPrev_of_apart {i : ℕ} (h : blk = 0 ∨ i < blk ∨ blk + headerSize ≤ i) :
    linkPrev m blk v i = m i := by
  unfold linkPrev
  split
  · rfl
  · exact set_of_apart (by omega)

theorem linkPrev_congr {i : ℕ} (h : m' i = m i) : linkPrev m' blk v i = linkPrev m blk v i := by
  unfold linkPrev
  split
  · exact h
  · simp only [set, storeWord, store, h]

end Fields

end MicroFramework.SimpleHeap
