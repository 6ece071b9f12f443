import MicroFramework.Collections.ObjectArray
import MicroFramework.Library.Simulation

/-!
# The native array list

`CLR_RT_HeapBlock_ArrayList`: the elements lie at the start of an array of type `Object`, which grows
by half when it is full or takes the capacity that is asked for.  The list refines a list that is
accessed by index, as long as no capacity is asked for whose number of bytes wraps around.
-/

namespace MicroFramework.Collections

open Library

variable {α : Type*}

/-- `CLR_RT_HeapBlock_ArrayList` -/
structure ArrayList (α : Type*) where
  items : Cells α
  size : ℕ

namespace ArrayList

/-- The operations; `gives` tells what the heap hands out. -/
inductive Op (α : Type*) where
  | getItem (index : ℤ)
  | setItem (index : ℤ) (value : Option α)
  | add (value : Option α) (gives : ℕ → Bool)
  | clear
  | insert (index : ℤ) (value : Option α) (gives : ℕ → Bool)
  | removeAt (index : ℤ)
  | setCapacity (newCapacity : ℤ) (gives : ℕ → Bool)

/-- What an operation returns. -/
inductive Answer (α : Type*) where
  | result (r : Result)
  | value (value : Option α)
  | index (index : ℕ)

def defaultCapacity : ℕ := 4

/-- The list that the managed constructor makes. -/
def new : ArrayList α := ⟨List.replicate defaultCapacity none, 0⟩

variable (l : ArrayList α)

def getItem (index : ℤ) : Option (ArrayList α × Answer α) :=
  if index < 0 ∨ index ≥ l.size then some (l, .result (.error .outOfRange))
  else l.items[index.toNat]?.map fun value ↦ (l, .value value)

def setItem (index : ℤ) (value : Option α) : Option (ArrayList α × Answer α) :=
  if index < 0 ∨ index ≥ l.size then some (l, .result (.error .outOfRange))
  else (setElement l.items index.toNat value).map fun items ↦ (⟨items, l.size⟩, .result (.ok ()))

def setCapacity (newCapacity : ℤ) (gives : ℕ → Bool) : Option (ArrayList α × Result) :=
  if newCapacity ≠ l.items.length then
    if newCapacity < l.size then some (l, .error .outOfRange)
    else
      let newCapacity : ℤ :=
        if newCapacity < defaultCapacity then defaultCapacity else newCapacity
      match createInstance gives newCapacity.toNat with
      | .failed => some (l, .error .outOfMemory)
      | .overrun => none
      | .array newItems =>
        if l.size ≤ newItems.length then
          some (⟨replaceRange newItems 0 (readRange l.items 0 l.size), l.size⟩, .ok ())
        else none
  else some (l, .ok ())

def ensureCapacity (min currentCapacity : ℕ) (gives : ℕ → Bool) : Option (ArrayList α × Result) :=
  if currentCapacity < min then
    let newCapacity := currentCapacity * 3 / 2
    let newCapacity := if newCapacity < min then min else newCapacity
    l.setCapacity newCapacity gives
  else some (l, .ok ())

/-- Room for one more element, as `Add` and `Insert` make it. -/
def makeRoom (gives : ℕ → Bool) : Option (ArrayList α × Result) :=
  if l.size = l.items.length then l.ensureCapacity (l.size + 1) l.items.length gives
  else some (l, .ok ())

def add (value : Option α) (gives : ℕ → Bool) : Option (ArrayList α × Answer α) :=
  match l.makeRoom gives with
  | none => none
  | some (l, .error failure) => some (l, .result (.error failure))
  | some (l, .ok ()) =>
    (setElement l.items l.size value).map fun items ↦ (⟨items, l.size + 1⟩, .index l.size)

def clear : Option (ArrayList α × Answer α) :=
  (clearElements l.items 0 l.size).map fun items ↦ (⟨items, 0⟩, .result (.ok ()))

/-- The loop of `Insert`: the `count` elements from `index` on move up one slot, the last one
first. -/
def moveUp (items : Cells α) (index : ℕ) : ℕ → Option (Cells α)
  | 0 => some items
  | count + 1 =>
    match items[index + count]? with
    | none => none
    | some value =>
      (setElement items (index + count + 1) value).bind fun items ↦ moveUp items index count

/-- The loop of `RemoveAt`: the `count` elements behind `index` move down one slot. -/
def moveDown (items : Cells α) (index : ℕ) : ℕ → Option (Cells α)
  | 0 => some items
  | count + 1 =>
    match items[index + 1]? with
    | none => none
    | some value => (setElement items index value).bind fun items ↦ moveDown items (index + 1) count

def insert (index : ℤ) (value : Option α) (gives : ℕ → Bool) : Option (ArrayList α × Answer α) :=
  if index < 0 ∨ index > l.size then some (l, .result (.error .outOfRange))
  else
    match l.makeRoom gives with
    | none => none
    | some (l, .error failure) => some (l, .result (.error failure))
    | some (l, .ok ()) =>
      (moveUp l.items index.toNat (l.size - index.toNat)).bind fun items ↦
        (setElement items index.toNat value).map fun items ↦ (⟨items, l.size + 1⟩, .result (.ok ()))

def removeAt (index : ℤ) : Option (ArrayList α × Answer α) :=
  if index < 0 ∨ index ≥ l.size then some (l, .result (.error .outOfRange))
  else
    (moveDown l.items index.toNat (l.size - 1 - index.toNat)).bind fun items ↦
      (setElement items (l.size - 1) none).map fun items ↦ (⟨items, l.size - 1⟩, .result (.ok ()))

/-- One operation; there is none when it leaves an array. -/
def step : Op α → Option (ArrayList α × Answer α)
  | .getItem index => l.getItem index
  | .setItem index value => l.setItem index value
  | .add value gives => l.add value gives
  | .clear => l.clear
  | .insert index value gives => l.insert index value gives
  | .removeAt index => l.removeAt index
  | .setCapacity newCapacity gives =>
    (l.setCapacity newCapacity gives).map fun r ↦ (r.1, .result r.2)

/-! ## The list -/

def largerCapacity (n : ℕ) : ℕ := max defaultCapacity (max (n + 1) (n * 3 / 2))

/-- A list that is accessed by index: what each operation answers, and the list behind it. -/
def Indexed (a : Bounded α) : Op α → Answer α → Bounded α → Prop
  | .getItem index, ans, a' => a' = a ∧
    if 0 ≤ index ∧ index < a.list.length then
      ∃ x, a.list[index.toNat]? = some x ∧ ans = .value x
    else ans = .result (.error .outOfRange)
  | .setItem index value, ans, a' =>
    if 0 ≤ index ∧ index < a.list.length then
      ans = .result (.ok ()) ∧ a' = ⟨a.list.set index.toNat value, a.capacity⟩
    else ans = .result (.error .outOfRange) ∧ a' = a
  | .add value gives, ans, a' =>
    match a.roomFor gives largerCapacity with
    | some n => ans = .index a.list.length ∧ a' = ⟨a.list ++ [value], n⟩
    | none => ans = .result (.error .outOfMemory) ∧ a' = a
  | .clear, ans, a' => ans = .result (.ok ()) ∧ a' = ⟨[], a.capacity⟩
  | .insert index value gives, ans, a' =>
    if 0 ≤ index ∧ index ≤ a.list.length then
      match a.roomFor gives largerCapacity with
      | some n => ans = .result (.ok ()) ∧ a' = ⟨a.list.insertIdx index.toNat value, n⟩
      | none => ans = .result (.error .outOfMemory) ∧ a' = a
    else ans = .result (.error .outOfRange) ∧ a' = a
  | .removeAt index, ans, a' =>
    if 0 ≤ index ∧ index < a.list.length then
      ans = .result (.ok ()) ∧ a' = ⟨a.list.eraseIdx index.toNat, a.capacity⟩
    else ans = .result (.error .outOfRange) ∧ a' = a
  | .setCapacity newCapacity gives, ans, a' =>
    if newCapacity = a.capacity then ans = .result (.ok ()) ∧ a' = a
    else if newCapacity < a.list.length then ans = .result (.error .outOfRange) ∧ a' = a
    else
      match (createInstance gives (max defaultCapacity newCapacity.toNat) : Created α) with
      | .array _ => ans = .result (.ok ()) ∧ a' = ⟨a.list, max defaultCapacity newCapacity.toNat⟩
      | _ => ans = .result (.error .outOfMemory) ∧ a' = a

/-- The array list holds the list: the elements are the start of the array, and no other cell
retains an element. -/
structure Holds (l : ArrayList α) (xs : Cells α) : Prop where
  fits : Fits l.items.length
  size : l.size = xs.length
  cells : ∃ room, l.items = xs ++ List.replicate room none

def Represents (l : ArrayList α) (a : Bounded α) : Prop :=
  l.Holds a.list ∧ l.items.length = a.capacity

/-- A capacity is asked for whose array the heap counts right, or refuses. -/
def Clean (_ : ArrayList α) : Op α → Prop
  | .setCapacity newCapacity gives =>
    (createInstance gives newCapacity.toNat : Created α) ≠ .overrun
  | _ => True

theorem new_represents : (new : ArrayList α).Represents ⟨[], defaultCapacity⟩ :=
  ⟨⟨fits_iff.mpr (by simp [new, defaultCapacity]), rfl, 4, rfl⟩, rfl⟩

end ArrayList

end MicroFramework.Collections
