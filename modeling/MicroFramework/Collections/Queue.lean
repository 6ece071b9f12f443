import MicroFramework.Collections.ObjectArray
import MicroFramework.Library.RingBuffer
import MicroFramework.Library.Simulation

/-!
# The native queue

`CLR_RT_HeapBlock_Queue`: a ring in an array of type `Object`, which is replaced by one of twice the
size when it is full.  The queue refines a first-in-first-out list as long as nothing is copied to
an array of type `Object`, since `ObjArrayMemcpy` copies the other way round: from the target into
the queue.
-/

namespace MicroFramework.Collections

open Library Arrays

variable {α E : Type*}

/-- The array of a caller, which has the type `Object` or another type. -/
inductive ToArray (α E : Type*) where
  | objects (cells : Cells α)
  | others (elements : List E)

def ToArray.numOfElements : ToArray α E → ℕ
  | .objects cells => cells.length
  | .others elements => elements.length

/-- `CLR_RT_HeapBlock_Queue` -/
structure Queue (α : Type*) where
  array : Cells α
  head : ℕ
  tail : ℕ
  size : ℕ

namespace Queue

/-- The operations; `gives` tells what the heap hands out. -/
inductive Op (α E : Type*) where
  | enqueue (value : Option α) (gives : ℕ → Bool)
  | dequeue
  | peek
  | clear
  | copyTo (toArray : ToArray α E) (index : ℤ)

/-- What an operation returns. -/
inductive Answer (α E : Type*) where
  | result (r : Result)
  | value (value : Option α)
  | copied (toArray : ToArray α E) (r : Result)

/-- The queue that the managed constructor makes. -/
def new : Queue α := ⟨List.replicate 4 none, 0, 0, 0⟩

variable (assign : Option α → E → Except Failure E)

/-- `arrayCopy`: `ObjArrayMemcpy` for an array of type `Object`, `CLR_RT_HeapBlock_Array::Copy` for
one of another type, with both arrays as it leaves them. -/
def arrayCopy (array : Cells α) (indexSrc : ℤ) (toArray : ToArray α E) (indexDst : ℤ)
    (length : ℕ) : Option (Cells α × ToArray α E × Result) :=
  match toArray with
  | .objects cells =>
    (objArrayMemcpy array indexSrc cells indexDst length).map fun array ↦
      (array, .objects cells, .ok ())
  | .others elements =>
    (Collections.arrayCopy assign array indexSrc elements indexDst length).map fun r ↦
      (array, .others r.2, r.1)

def copyTo (q : Queue α) (toArray : ToArray α E) (index : ℤ) :
    Option (Cells α × ToArray α E × Result) :=
  if int32 (toArray.numOfElements - index) < q.size then
    some (q.array, toArray, .error .invalidParameter)
  else if 0 < q.size then
    if q.head < q.tail then arrayCopy assign q.array q.head toArray index q.size
    else
      let firstPart := q.array.length - q.head
      match arrayCopy assign q.array q.head toArray index firstPart with
      | some (array, toArray, .ok ()) =>
        arrayCopy assign array 0 toArray (int32 (index + firstPart)) q.tail
      | r => r
  else some (q.array, toArray, .ok ())

def store (q : Queue α) (value : Option α) : Option (Queue α × Answer α E) :=
  (setElement q.array q.tail value).map fun array ↦
    (⟨array, q.head, (q.tail + 1) % q.array.length, q.size + 1⟩, .result (.ok ()))

/-- The new array of `Enqueue`, after the call of `CopyTo`, takes the place of the old one. -/
def setArray (size : ℕ) (value : Option α) :
    Option (Cells α × ToArray α E × Result) → Option (Queue α × Answer α E)
  | some (_, .objects array, _) => store ⟨array, 0, size, size⟩ value
  | _ => none

def enqueue (q : Queue α) (value : Option α) (gives : ℕ → Bool) : Option (Queue α × Answer α E) :=
  let capacity := q.array.length
  if q.size = capacity then
    match createInstance gives (capacity * 2) with
    | .failed => some (q, .result (.error .outOfMemory))
    | .overrun => none
    | .array cells => setArray q.size value (q.copyTo assign (.objects cells) 0)
  else q.store value

def dequeue (q : Queue α) : Option (Queue α × Answer α E) :=
  if q.size = 0 then some (q, .result (.error .invalidOperation))
  else
    match q.array[q.head]? with
    | none => none
    | some value =>
      some (⟨q.array.set q.head none, (q.head + 1) % q.array.length, q.tail, q.size - 1⟩,
        .value value)

def peek (q : Queue α) : Option (Queue α × Answer α E) :=
  if q.size = 0 then some (q, .result (.error .invalidOperation))
  else q.array[q.head]?.map fun value ↦ (q, .value value)

def clear (q : Queue α) : Option (Queue α × Answer α E) :=
  let array :=
    if 0 < q.size then
      if q.head < q.tail then clearElements q.array q.head q.size
      else
        (clearElements q.array q.head (q.array.length - q.head)).bind fun array ↦
          clearElements array 0 q.tail
    else some q.array
  array.map fun array ↦ (⟨array, 0, 0, 0⟩, .result (.ok ()))

/-- One operation; there is none when it leaves an array. -/
def step (q : Queue α) : Op α E → Option (Queue α × Answer α E)
  | .enqueue value gives => q.enqueue assign value gives
  | .dequeue => q.dequeue
  | .peek => q.peek
  | .clear => q.clear
  | .copyTo toArray index =>
    (q.copyTo assign toArray index).map fun r ↦ (⟨r.1, q.head, q.tail, q.size⟩, .copied r.2.1 r.2.2)

/-! ## The list -/

/-- What a copy of the elements to the array of a caller does. -/
def Copies (xs : Cells α) (index : ℤ) : ToArray α E → ToArray α E → Result → Prop
  | .objects cells, .objects cells', r => CopiedTo (fun x _ ↦ .ok x) xs index cells cells' r
  | .others elements, .others elements', r => CopiedTo assign xs index elements elements' r
  | _, _, _ => False

/-- A first-in-first-out list: what each operation answers, and the list behind it. -/
def Fifo (a : Bounded α) : Op α E → Answer α E → Bounded α → Prop
  | .enqueue value gives, ans, a' =>
    match a.roomFor gives (· * 2) with
    | some n => ans = .result (.ok ()) ∧ a' = ⟨a.list ++ [value], n⟩
    | none => ans = .result (.error .outOfMemory) ∧ a' = a
  | .dequeue, ans, a' =>
    match a.list with
    | [] => ans = .result (.error .invalidOperation) ∧ a' = a
    | x :: xs => ans = .value x ∧ a' = ⟨xs, a.capacity⟩
  | .peek, ans, a' => a' = a ∧
    match a.list with
    | [] => ans = .result (.error .invalidOperation)
    | x :: _ => ans = .value x
  | .clear, ans, a' => ans = .result (.ok ()) ∧ a' = ⟨[], a.capacity⟩
  | .copyTo toArray index, ans, a' => a' = a ∧
    ∃ toArray' r, ans = .copied toArray' r ∧ Copies assign a.list index toArray toArray' r

/-- The queue holds the list: its elements lie around the ring from the head on, and no other cell
retains an element. -/
structure Holds (q : Queue α) (xs : Cells α) : Prop where
  fits : Fits q.array.length
  head_lt : q.head < q.array.length
  size : q.size = xs.length
  size_le : xs.length ≤ q.array.length
  tail : q.tail = (q.head + xs.length) % q.array.length
  cells : ∀ i < q.array.length, q.array[(q.head + i) % q.array.length]? = some (xs.getD i none)

def Represents (q : Queue α) (a : Bounded α) : Prop := q.Holds a.list ∧ q.array.length = a.capacity

/-- The elements, read around the ring. -/
def contents (q : Queue α) : Cells α :=
  (List.range q.size).map fun i ↦ q.array.getD ((q.head + i) % q.array.length) none

/-- The array of the caller and the index are values of their types. -/
def Op.Valid : Op α E → Prop
  | .copyTo toArray index => toArray.numOfElements < 2 ^ 31 ∧ IsInt32 index
  | _ => True

/-- The operation does not run into `ObjArrayMemcpy` with anything that matters: the array does not
grow while it has an element other than null, and a copy to an array of type `Object` finds there
what it should write. -/
def Clean (q : Queue α) : Op α E → Prop
  | .enqueue _ gives =>
    q.size = q.array.length → (createInstance gives (q.size * 2) : Created α) = .failed ∨
      ∀ x ∈ q.array, x = none
  | .copyTo (.objects cells) index =>
    q.size = 0 ∨ int32 (cells.length - index) < q.size ∨
      0 ≤ index ∧ readRange cells index.toNat q.size = q.contents
  | _ => True

end Queue

end MicroFramework.Collections
