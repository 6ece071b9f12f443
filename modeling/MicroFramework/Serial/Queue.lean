import Mathlib.Algebra.Order.Group.Nat
import Mathlib.Data.UInt

/-!
# The circular queue of the serial driver

`Hal_Queue_UnknownSize`: a buffer with a writer, a reader and a flag that tells a full queue from an
empty one.  The bounds on the two positions are fields, so that every queue keeps them.
-/

namespace MicroFramework.Serial

variable {T : Type}

structure HalQueue (T : Type) where
  writer : ℕ
  reader : ℕ
  size : ℕ
  full : Bool
  data : ℕ → T
  writer_lt : writer < size
  reader_lt : reader < size
  eq_of_full : full = true → writer = reader

namespace HalQueue

/-- `Initialize`, on a buffer of at least one element. -/
def initializeQueue (data : ℕ → T) (size : ℕ) (hsize : 0 < size) : HalQueue T where
  writer := 0
  reader := 0
  size := size
  full := false
  data := data
  writer_lt := hsize
  reader_lt := hsize
  eq_of_full := fun _ ↦ rfl

def numberOfElements (q : HalQueue T) : ℕ :=
  if q.writer < q.reader then q.size + q.writer - q.reader
  else if q.full then q.size
  else q.writer - q.reader

def isEmpty (q : HalQueue T) : Bool := decide (q.writer = q.reader) && !q.full

/-- The position `i`, moved to the start of the buffer when it is at its end. -/
def wrap (q : HalQueue T) (i : ℕ) : ℕ := if i = q.size then 0 else i

theorem size_pos (q : HalQueue T) : 0 < q.size := Nat.zero_lt_of_lt q.writer_lt

theorem wrap_lt (q : HalQueue T) {i : ℕ} (h : i ≤ q.size) : q.wrap i < q.size := by
  have hpos := q.reader_lt
  unfold wrap
  split <;> omega

/-- `Push()` with the store through the pointer it returns; `none` for a null pointer. -/
def push (q : HalQueue T) (x : T) : Option (HalQueue T) :=
  if q.full then none
  else some
    { q with
      writer := q.wrap (q.writer + 1)
      full := decide (q.wrap (q.writer + 1) = q.reader)
      data := Function.update q.data q.writer x
      writer_lt := q.wrap_lt q.writer_lt
      eq_of_full := of_decide_eq_true }

/-- `Pop()` with the load through the pointer it returns. -/
def pop (q : HalQueue T) : Option (T × HalQueue T) :=
  if q.reader = q.writer ∧ q.full = false then none
  else some (q.data q.reader,
    { q with
      reader := q.wrap (q.reader + 1)
      full := false
      reader_lt := q.wrap_lt q.reader_lt
      eq_of_full := fun h ↦ absurd h Bool.false_ne_true })

/-- The elements that `Push(nElements)` can store without wrapping around. -/
def maxPush (q : HalQueue T) : ℕ :=
  if q.writer < q.reader then q.reader - q.writer else q.size - q.writer

/-- The elements that `Pop(nElements)` can take without wrapping around. -/
def maxPop (q : HalQueue T) : ℕ :=
  if q.writer ≤ q.reader then q.size - q.reader else q.writer - q.reader

theorem writer_add_maxPush_le (q : HalQueue T) (n : ℕ) : q.writer + min q.maxPush n ≤ q.size := by
  have hwriter := q.writer_lt
  have hreader := q.reader_lt
  unfold maxPush
  split <;> omega

theorem reader_add_maxPop_le (q : HalQueue T) (n : ℕ) : q.reader + min q.maxPop n ≤ q.size := by
  have hwriter := q.writer_lt
  have hreader := q.reader_lt
  unfold maxPop
  split <;> omega

/-- The buffer with the elements `xs` copied to it from the position `i` on. -/
def store (data : ℕ → T) (i : ℕ) : List T → ℕ → T
  | [] => data
  | x :: xs => store (Function.update data i x) (i + 1) xs

/-- `Push(nElements)` for the elements `xs`, with the copy to the pointer it returns: the number of
elements copied, zero for a null pointer, and the queue. -/
def pushBlock (q : HalQueue T) (xs : List T) : ℕ × HalQueue T :=
  if q.full = true ∨ xs.length = 0 then (0, q)
  else
    let nElements := min q.maxPush xs.length
    (nElements,
      { q with
        writer := q.wrap (q.writer + nElements)
        full := decide (q.wrap (q.writer + nElements) = q.reader)
        data := store q.data q.writer (xs.take nElements)
        writer_lt := q.wrap_lt (q.writer_add_maxPush_le _)
        eq_of_full := of_decide_eq_true })

/-- `Pop(nElements)` with the load of the elements behind the pointer it returns.  Asked for an
element, an empty queue starts over at the start of its buffer. -/
def popBlock (q : HalQueue T) (nElements : ℕ) : Option (List T) × HalQueue T :=
  if nElements = 0 then (none, q)
  else if q.reader = q.writer ∧ q.full = false then
    (none,
      { q with
        writer := 0
        reader := 0
        writer_lt := Nat.zero_lt_of_lt q.writer_lt
        reader_lt := Nat.zero_lt_of_lt q.writer_lt
        eq_of_full := fun _ ↦ rfl })
  else
    let nElements := min q.maxPop nElements
    (some ((List.range nElements).map fun i ↦ q.data (q.reader + i)),
      { q with
        reader := q.wrap (q.reader + nElements)
        full := false
        reader_lt := q.wrap_lt (q.reader_add_maxPop_le _)
        eq_of_full := fun h ↦ absurd h Bool.false_ne_true })

section Counts

variable {q q' : HalQueue T}

@[simp] theorem numberOfElements_initializeQueue (data : ℕ → T) (size : ℕ) (hsize : 0 < size) :
    (initializeQueue data size hsize).numberOfElements = 0 := rfl

theorem numberOfElements_le (q : HalQueue T) : q.numberOfElements ≤ q.size := by
  have hwriter := q.writer_lt
  have hreader := q.reader_lt
  unfold numberOfElements
  split
  · omega
  · split <;> omega

theorem isEmpty_iff : q.isEmpty = true ↔ q.numberOfElements = 0 := by
  have hwriter := q.writer_lt
  have hreader := q.reader_lt
  unfold isEmpty numberOfElements
  cases hfull : q.full
  · simp only [Bool.not_false, Bool.and_true, decide_eq_true_eq, Bool.false_eq_true, if_false]
    split <;> omega
  · have := q.eq_of_full hfull
    simp only [Bool.not_true, Bool.and_false, Bool.false_eq_true, if_true, false_iff]
    split <;> omega

theorem size_push {x : T} (h : q.push x = some q') : q'.size = q.size := by
  unfold push at h
  split at h
  · exact absurd h (by simp)
  · obtain rfl := Option.some.inj h
    rfl

theorem numberOfElements_push {x : T} (h : q.push x = some q') :
    q'.numberOfElements = q.numberOfElements + 1 := by
  have hwriter := q.writer_lt
  have hreader := q.reader_lt
  unfold push at h
  split at h
  · exact absurd h (by simp)
  · rename_i hfull
    obtain rfl := Option.some.inj h
    clear h
    rw [Bool.not_eq_true] at hfull
    by_cases hend : q.writer + 1 = q.size
    · by_cases hzero : q.reader = 0
      · simp [numberOfElements, wrap, hfull, hend, hzero]
      · simp [numberOfElements, wrap, hfull, hend]
        split_ifs <;> omega
    · by_cases hmeet : q.writer + 1 = q.reader
      · have hlt : q.writer < q.reader := by omega
        have hne : q.reader ≠ q.size := by omega
        simp [numberOfElements, wrap, hmeet, hlt, hne]
        omega
      · simp [numberOfElements, wrap, hfull, hend, hmeet]
        split_ifs <;> omega

theorem push_isSome (q : HalQueue T) (x : T) : (q.push x).isSome = !q.full := by
  unfold push
  split <;> simp_all

@[simp] theorem size_popBlock (q : HalQueue T) (n : ℕ) : (q.popBlock n).2.size = q.size := by
  unfold popBlock
  split
  · rfl
  · split <;> rfl

theorem numberOfElements_popBlock (q : HalQueue T) (n : ℕ) :
    (q.popBlock n).2.numberOfElements = q.numberOfElements - min q.maxPop n := by
  have hwriter := q.writer_lt
  have hreader := q.reader_lt
  have hfull := q.eq_of_full
  unfold popBlock
  split
  · rename_i hn
    rw [hn, Nat.min_zero, Nat.sub_zero]
  · split
    · rename_i hn hempty
      simp [numberOfElements, hempty.1, hempty.2]
    · rename_i hn hempty
      cases hf : q.full
      · simp only [hf, and_true] at hempty
        simp only [numberOfElements, wrap, maxPop, hf, Bool.false_eq_true, if_false]
        split_ifs <;> omega
      · have heq := hfull hf
        simp only [numberOfElements, wrap, maxPop, hf, Bool.false_eq_true, if_false, if_true]
        split_ifs <;> omega

/-- What a block that is not null holds, and how much the queue had. -/
theorem popBlock_some {n : ℕ} {xs : List T} (h : (q.popBlock n).1 = some xs) :
    xs.length = min q.maxPop n ∧ 0 < xs.length ∧ xs.length ≤ q.numberOfElements := by
  have hwriter := q.writer_lt
  have hreader := q.reader_lt
  have hfull := q.eq_of_full
  unfold popBlock at h
  split at h
  · exact absurd h (by simp)
  · split at h
    · exact absurd h (by simp)
    · rename_i hn hempty
      obtain rfl := Option.some.inj h
      rw [List.length_map, List.length_range]
      refine ⟨rfl, ?_⟩
      cases hf : q.full
      · simp only [hf, and_true] at hempty
        simp only [numberOfElements, maxPop, hf, Bool.false_eq_true, if_false]
        split_ifs <;> omega
      · have heq := hfull hf
        simp only [numberOfElements, maxPop, hf, if_true]
        split_ifs <;> omega

/-- A null block leaves the queue with the elements it had. -/
theorem popBlock_none {n : ℕ} (h : (q.popBlock n).1 = none) :
    (q.popBlock n).2.numberOfElements = q.numberOfElements := by
  rw [numberOfElements_popBlock]
  by_cases hn : n = 0
  · rw [hn, Nat.min_zero, Nat.sub_zero]
  · have hempty : q.reader = q.writer ∧ q.full = false := by
      by_contra hempty
      simp [popBlock, hn, hempty] at h
    simp [numberOfElements, hempty.1, hempty.2]

/-- `DiscardBuffer` empties a queue by two blocks, wherever its elements lie. -/
def discard (q : HalQueue T) : HalQueue T :=
  let q' := (q.popBlock q.numberOfElements).2
  (q'.popBlock q'.numberOfElements).2

@[simp] theorem size_discard (q : HalQueue T) : q.discard.size = q.size := by simp [discard]

/-- The first block reaches the end of the elements or of the buffer. -/
theorem maxPop_popBlock (q : HalQueue T) :
    (q.popBlock q.numberOfElements).2.numberOfElements ≤
      (q.popBlock q.numberOfElements).2.maxPop := by
  have hwriter := q.writer_lt
  have hreader := q.reader_lt
  have hfull := q.eq_of_full
  rw [numberOfElements_popBlock]
  unfold popBlock
  split
  · rename_i hn
    simp [hn]
  · split
    · rename_i hn hempty
      exact absurd (by simp [numberOfElements, hempty.1, hempty.2]) hn
    · rename_i hn hempty
      cases hf : q.full
      · simp only [hf, and_true] at hempty
        simp only [numberOfElements, wrap, maxPop, hf, Bool.false_eq_true, if_false]
        split_ifs <;> omega
      · have heq := hfull hf
        simp only [numberOfElements, wrap, maxPop, hf, if_true]
        split_ifs <;> omega

@[simp] theorem numberOfElements_discard (q : HalQueue T) : q.discard.numberOfElements = 0 := by
  have h := q.maxPop_popBlock
  unfold discard
  rw [numberOfElements_popBlock, Nat.min_eq_right h, Nat.sub_self]

end Counts

end HalQueue

end MicroFramework.Serial
