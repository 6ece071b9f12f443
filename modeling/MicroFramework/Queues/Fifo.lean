import MicroFramework.Queues.HalQueue

/-!
# The ring queues are first in, first out

The contents of a queue are the slots from the reader on.  An operation on several elements is
described once; the operations on one element are its cases.
-/

namespace MicroFramework.Queues

open List Nat

namespace HalQueue

variable {T : Type*} {q : HalQueue T}

/-- The elements of the queue, the oldest first. -/
def contents (q : HalQueue T) : List T :=
  (List.range q.numberOfElements).map fun i ↦ q.data ((q.reader + i) % q.size)

structure NextFree (q : HalQueue T) (slot count : ℕ) : Prop where
  inside : slot + count ≤ q.size
  room : q.contents.length + count ≤ q.size
  next : ∀ i < count, slot + i = (q.reader + (q.contents.length + i)) % q.size

structure Oldest (q : HalQueue T) (slot count : ℕ) : Prop where
  inside : slot + count ≤ q.size
  enough : count ≤ q.contents.length
  oldest : q.load slot count = q.contents.take count

structure IsFifo (q : HalQueue T) (capacity : ℕ) : Prop where
  numberOfElements : q.numberOfElements = q.contents.length
  bounded : q.contents.length ≤ capacity
  isEmpty : q.isEmpty = true ↔ q.contents = []
  isFull : q.isFull = true ↔ q.contents.length = capacity
  known : q.pushKnown = q.push ∧ q.popKnown = q.pop
  push_none : q.push.1 = none ↔ q.contents.length = capacity
  push_some : ∀ slot, q.push.1 = some slot → q.NextFree slot 1
  pop_none : q.pop.1 = none ↔ q.contents = []
  pop_some : ∀ slot, q.pop.1 = some slot → q.Oldest slot 1
  peek_none : q.peek = none ↔ q.contents = []
  peek_some : ∀ slot, q.peek = some slot → q.Oldest slot 1
  pushMany_none : ∀ n, (q.pushMany n).1 = none ↔ n = 0 ∨ q.contents.length = capacity
  pushMany_some : ∀ n slot, (q.pushMany n).1 = some slot →
    0 < (q.pushMany n).2.1 ∧ (q.pushMany n).2.1 ≤ n ∧ q.NextFree slot (q.pushMany n).2.1 ∧
      ((q.pushMany n).2.1 < n → slot + (q.pushMany n).2.1 = capacity ∨
        q.contents.length + (q.pushMany n).2.1 = capacity)
  popMany_none : ∀ n, (q.popMany n).1 = none ↔ n = 0 ∨ q.contents = []
  popMany_some : ∀ n slot, (q.popMany n).1 = some slot →
    0 < (q.popMany n).2.1 ∧ (q.popMany n).2.1 ≤ n ∧ q.Oldest slot (q.popMany n).2.1 ∧
      ((q.popMany n).2.1 < n → slot + (q.popMany n).2.1 = capacity ∨
        q.contents.length = (q.popMany n).2.1)
  getElement_inside : ∀ index slot, q.getElement index = some slot → slot < capacity
  getElement : ∀ (index : ℕ) (x : T), q.contents[index]? = some x →
    ∃ slot, q.getElement index = some slot ∧ q.data slot = x

/-! ## Positions -/

/-- The positions lie inside the buffer. -/
structure Ring (q : HalQueue T) : Prop where
  writer_lt : q.writer < q.size
  reader_lt : q.reader < q.size
  eq_of_full : q.full = true → q.writer = q.reader

@[simp]
theorem length_contents (q : HalQueue T) : q.contents.length = q.numberOfElements := by
  rw [contents, length_map, length_range]

theorem getElem_contents {i : ℕ} (h : i < q.contents.length) :
    q.contents[i] = q.data ((q.reader + i) % q.size) := by
  simp [contents]

theorem slot_eq {size reader i : ℕ} (hreader : reader < size) (hi : i ≤ size) :
    (reader + i) % size = if reader + i < size then reader + i else reader + i - size := by
  split_ifs with h
  · exact mod_eq_of_lt h
  · rw [mod_eq_sub_mod (not_lt.mp h), mod_eq_of_lt (by omega)]

section Ring

theorem Ring.wrap_lt (h : Ring q) {i : ℕ} (hi : i ≤ q.size) : q.wrap i < q.size := by
  have := h.reader_lt
  unfold wrap
  split_ifs <;> omega

theorem Ring.numberOfElements_le (h : Ring q) : q.numberOfElements ≤ q.size := by
  have hwriter := h.writer_lt
  have hreader := h.reader_lt
  unfold numberOfElements
  split_ifs <;> omega

theorem Ring.isEmpty_iff (h : Ring q) :
    (q.reader = q.writer ∧ q.full = false) ↔ q.numberOfElements = 0 := by
  have hwriter := h.writer_lt
  have hreader := h.reader_lt
  have hfull := h.eq_of_full
  unfold numberOfElements
  cases hf : q.full with
  | true =>
    have := hfull hf
    simp only [Bool.true_eq_false, and_false, if_true, false_iff]
    split_ifs <;> omega
  | false =>
    simp only [and_true, Bool.false_eq_true, if_false]
    split_ifs <;> omega

theorem Ring.isFull_iff (h : Ring q) : q.full = true ↔ q.numberOfElements = q.size := by
  have hwriter := h.writer_lt
  have hreader := h.reader_lt
  have hfull := h.eq_of_full
  unfold numberOfElements
  cases hf : q.full with
  | true =>
    have := hfull hf
    simp only [if_true, true_iff]
    split_ifs <;> omega
  | false =>
    simp only [Bool.false_eq_true, if_false, false_iff]
    split_ifs <;> omega

theorem Ring.writer_eq (h : Ring q) (hf : q.full = false) :
    q.writer = (q.reader + q.numberOfElements) % q.size := by
  have hwriter := h.writer_lt
  rw [slot_eq h.reader_lt h.numberOfElements_le]
  have hreader := h.reader_lt
  unfold numberOfElements
  rw [hf]
  simp only [Bool.false_eq_true, if_false]
  split_ifs <;> omega

end Ring

/-! ## Storing -/

structure Pushed (q : HalQueue T) (n : ℕ) (slot count : ℕ) (q' : HalQueue T) : Prop where
  pointer : slot = q.writer
  pos : 0 < count
  le : count ≤ n
  inside : slot + count ≤ q.size
  room : q.numberOfElements + count ≤ q.size
  reduced : count < n → slot + count = q.size ∨ q.numberOfElements + count = q.size
  ring : Ring q'
  number : q'.numberOfElements = q.numberOfElements + count
  reader : q'.reader = q.reader
  size : q'.size = q.size
  data : q'.data = q.data

variable {n count slot : ℕ}

theorem Ring.pushMany (h : Ring q) (hf : q.full = false) (hn : 0 < n) :
    ∃ count q', q.pushMany n = (some q.writer, count, q') ∧ Pushed q n q.writer count q' := by
  have hwriter := h.writer_lt
  have hreader := h.reader_lt
  unfold HalQueue.pushMany
  rw [if_neg (by rw [hf]; simp; omega)]
  refine ⟨_, _, rfl, ?_⟩
  generalize hmax : (if q.writer < q.reader then q.reader - q.writer else q.size - q.writer) = max
  generalize hcount : (if max < n then max else n) = count
  have hpos : 0 < count := by split_ifs at hmax hcount <;> omega
  have hinside : q.writer + count ≤ q.size := by split_ifs at hmax hcount <;> omega
  constructor
  case pointer => rfl
  case pos => exact hpos
  case le => split_ifs at hcount <;> omega
  case inside => exact hinside
  case room =>
    unfold numberOfElements
    rw [hf]
    simp only [Bool.false_eq_true, if_false]
    split_ifs at hmax hcount ⊢ <;> omega
  case reduced =>
    unfold numberOfElements
    rw [hf]
    simp only [Bool.false_eq_true, if_false]
    split_ifs at hmax hcount ⊢ <;> omega
  case ring =>
    constructor
    · exact h.wrap_lt hinside
    · exact hreader
    · rw [hf, Bool.false_or]
      exact of_decide_eq_true
  case number =>
    unfold numberOfElements wrap
    rw [hf]
    simp only [Bool.false_or, decide_eq_true_eq, Bool.false_eq_true, if_false]
    split_ifs at hmax hcount ⊢ <;> omega
  case reader => rfl
  case size => rfl
  case data => rfl

variable {q' : HalQueue T}

/-- The elements stored through the pointer follow those that were in the queue. -/
theorem Pushed.contents_store {xs : List T}
    (h : Pushed q n slot count q') (hq : Ring q) (hf : q.full = false) (hxs : xs.length = count) :
    (q'.store slot xs).contents = q.contents ++ xs := by
  have hreader := hq.reader_lt
  have hwriter := hq.writer_eq hf
  rw [← h.pointer, slot_eq hreader hq.numberOfElements_le] at hwriter
  have hroom := h.room
  have hinside := h.inside
  have hnumber : (q'.store slot xs).numberOfElements = q.numberOfElements + count := h.number
  have hdata (i : ℕ) : (q'.store slot xs).data (((q'.store slot xs).reader + i) %
      (q'.store slot xs).size) = if slot ≤ (q.reader + i) % q.size
        then (xs[(q.reader + i) % q.size - slot]?).getD (q.data ((q.reader + i) % q.size))
        else q.data ((q.reader + i) % q.size) := by
    have hsameReader : (q'.store slot xs).reader = q.reader := h.reader
    have hsameSize : (q'.store slot xs).size = q.size := h.size
    rw [hsameReader, hsameSize, ← h.data]
    rfl
  rw [contents, hnumber, range_add, map_append, map_map, contents]
  congr 1
  · apply map_congr_left
    intro i hi
    rw [mem_range] at hi
    rw [hdata, slot_eq hreader (by omega)]
    -- The slot of an element that was there is before the writer or behind the new elements.
    split_ifs with hwrap hle hle
    · rw [getElem?_eq_none (by split_ifs at hwriter <;> omega), Option.getD_none]
    · rfl
    · rw [getElem?_eq_none (by split_ifs at hwriter <;> omega), Option.getD_none]
    · rfl
  · apply ext_getElem
    · rw [length_map, length_range, hxs]
    · intro i hi hi'
      have hslot : (q.reader + (q.numberOfElements + i)) % q.size = slot + i := by
        rw [slot_eq hreader (by omega)]
        split_ifs at hwriter ⊢ <;> omega
      rw [getElem_map, getElem_range, Function.comp_apply, hdata, hslot,
        if_pos (le_add_right _ _), Nat.add_sub_cancel_left, getElem?_eq_getElem hi',
        Option.getD_some]

/-! ## Loading -/

/-- What `Pop( nElements )` does to a queue that is not empty. -/
structure Popped (q : HalQueue T) (n : ℕ) (slot count : ℕ) (q' : HalQueue T) : Prop where
  pointer : slot = q.reader
  pos : 0 < count
  le : count ≤ n
  inside : slot + count ≤ q.size
  enough : count ≤ q.numberOfElements
  reduced : count < n → slot + count = q.size ∨ q.numberOfElements = count
  ring : Ring q'
  number : q'.numberOfElements = q.numberOfElements - count
  reader : q'.reader = (q.reader + count) % q.size
  size : q'.size = q.size
  data : q'.data = q.data

theorem Ring.popMany (h : Ring q) (hne : q.numberOfElements ≠ 0) (hn : 0 < n) :
    ∃ count q', q.popMany n = (some q.reader, count, q') ∧ Popped q n q.reader count q' := by
  have hwriter := h.writer_lt
  have hreader := h.reader_lt
  have hfull := h.eq_of_full
  unfold HalQueue.popMany
  rw [if_neg (by omega), if_neg fun hempty ↦ hne (h.isEmpty_iff.mp hempty)]
  refine ⟨_, _, rfl, ?_⟩
  have hnonempty : ¬ (q.reader = q.writer ∧ q.full = false) :=
    fun hempty ↦ hne (h.isEmpty_iff.mp hempty)
  generalize hmax : (if q.writer ≤ q.reader then q.size - q.reader else q.writer - q.reader) = max
  generalize hcount : (if max < n then max else n) = count
  have hpos : 0 < count := by split_ifs at hmax hcount <;> omega
  have hinside : q.reader + count ≤ q.size := by split_ifs at hmax hcount <;> omega
  have henough : count ≤ q.numberOfElements := by
    unfold numberOfElements
    cases hf : q.full with
    | true =>
      have := hfull hf
      simp only [if_true]
      split_ifs at hmax hcount ⊢ <;> omega
    | false =>
      simp only [Bool.false_eq_true, if_false]
      rw [hf] at hnonempty
      simp only [and_true] at hnonempty
      split_ifs at hmax hcount ⊢ <;> omega
  constructor
  case pointer => rfl
  case pos => exact hpos
  case le => split_ifs at hcount <;> omega
  case inside => exact hinside
  case enough => exact henough
  case reduced =>
    unfold numberOfElements
    cases hf : q.full with
    | true =>
      have := hfull hf
      simp only [if_true]
      split_ifs at hmax hcount ⊢ <;> omega
    | false =>
      simp only [Bool.false_eq_true, if_false]
      split_ifs at hmax hcount ⊢ <;> omega
  case ring => exact ⟨hwriter, h.wrap_lt hinside, fun h ↦ absurd h Bool.false_ne_true⟩
  case number =>
    unfold numberOfElements at henough ⊢
    unfold wrap
    cases hf : q.full with
    | true =>
      have := hfull hf
      rw [hf] at henough
      simp only [Bool.false_eq_true, if_false, if_true] at henough ⊢
      split_ifs at hmax hcount henough ⊢ <;> omega
    | false =>
      rw [hf] at henough
      simp only [Bool.false_eq_true, if_false] at henough ⊢
      split_ifs at hmax hcount henough ⊢ <;> omega
  case reader =>
    rw [slot_eq hreader (by omega)]
    unfold wrap
    dsimp only
    split_ifs <;> omega
  case size => rfl
  case data => rfl

theorem Popped.load (h : Popped q n slot count q') : q.load slot count = q.contents.take count := by
  have hinside := h.inside
  have henough := h.enough
  rw [HalQueue.load, contents, ← map_take, take_range, Nat.min_eq_left henough]
  apply map_congr_left
  intro i hi
  rw [mem_range] at hi
  rw [h.pointer] at hinside ⊢
  rw [mod_eq_of_lt (by omega)]

/-- The elements that were not loaded stay. -/
theorem Popped.contents (h : Popped q n slot count q') : q'.contents = q.contents.drop count := by
  have henough := h.enough
  apply ext_getElem
  · rw [length_contents, length_drop, length_contents, h.number]
  · intro i hi hi'
    rw [getElem_drop, getElem_contents, getElem_contents, h.reader, h.size, h.data,
      mod_add_mod, Nat.add_assoc]

/-! ## One element -/

/-- `Push()` is the case of one element. -/
theorem Ring.push_eq (h : Ring q) : q.push = ((q.pushMany 1).1, (q.pushMany 1).2.2) := by
  have hwriter := h.writer_lt
  unfold HalQueue.push HalQueue.pushMany
  cases hf : q.full with
  | true => rfl
  | false =>
    have hone : (if (if q.writer < q.reader then q.reader - q.writer else q.size - q.writer) < 1
        then (if q.writer < q.reader then q.reader - q.writer else q.size - q.writer) else 1) =
        1 := by
      split_ifs <;> omega
    simp only [Bool.false_eq_true, one_ne_zero, or_self, if_false, hone]

/-- `Pop()` is the case of one element, except that it leaves the positions of an empty queue. -/
theorem Ring.pop_eq (h : Ring q) (hne : q.numberOfElements ≠ 0) :
    q.pop = ((q.popMany 1).1, (q.popMany 1).2.2) := by
  have hreader := h.reader_lt
  have hnonempty : ¬ (q.reader = q.writer ∧ q.full = false) :=
    fun hempty ↦ hne (h.isEmpty_iff.mp hempty)
  have hone : (if (if q.writer ≤ q.reader then q.size - q.reader else q.writer - q.reader) < 1
      then (if q.writer ≤ q.reader then q.size - q.reader else q.writer - q.reader) else 1) =
      1 := by
    split_ifs <;> omega
  unfold HalQueue.pop HalQueue.popMany
  rw [if_neg hnonempty, if_neg one_ne_zero, if_neg hnonempty]
  simp only [hone]

/-! ## What a client sees -/

theorem Ring.contents_eq_nil (h : Ring q) :
    q.contents = [] ↔ q.reader = q.writer ∧ q.full = false := by
  rw [h.isEmpty_iff, ← length_contents, length_eq_zero_iff]

theorem Ring.pushMany_none (h : Ring q) (n : ℕ) :
    (q.pushMany n).1 = none ↔ n = 0 ∨ q.contents.length = q.size := by
  rw [length_contents, ← h.isFull_iff]
  unfold HalQueue.pushMany
  by_cases hrefused : q.full = true ∨ n = 0
  · rw [if_pos hrefused]
    exact iff_of_true rfl hrefused.symm
  · rw [if_neg hrefused]
    exact iff_of_false (Option.some_ne_none _) fun hor ↦ hrefused hor.symm

theorem Ring.popMany_none (h : Ring q) (n : ℕ) :
    (q.popMany n).1 = none ↔ n = 0 ∨ q.contents = [] := by
  rw [h.contents_eq_nil]
  unfold HalQueue.popMany
  by_cases hn : n = 0
  · rw [if_pos hn]
    exact iff_of_true rfl (Or.inl hn)
  rw [if_neg hn]
  by_cases hempty : q.reader = q.writer ∧ q.full = false
  · rw [if_pos hempty]
    exact iff_of_true rfl (Or.inr hempty)
  · rw [if_neg hempty]
    exact iff_of_false (Option.some_ne_none _) (not_or.mpr ⟨hn, hempty⟩)

/-- A refused `Push( nElements )` leaves the queue as it was. -/
theorem pushMany_refused (q : HalQueue T) (hnone : (q.pushMany n).1 = none) :
    (q.pushMany n).2.2 = q := by
  unfold HalQueue.pushMany at hnone ⊢
  by_cases hrefused : q.full = true ∨ n = 0
  · rw [if_pos hrefused]
  · rw [if_neg hrefused] at hnone
    exact absurd hnone (Option.some_ne_none _)

/-- A refused `Pop( nElements )` may move both positions of an empty queue to its start. -/
theorem Ring.popMany_refused (h : Ring q) (hnone : (q.popMany n).1 = none) :
    (q.popMany n).2.2.Ring ∧ (q.popMany n).2.2.size = q.size ∧
      (q.popMany n).2.2.contents = q.contents := by
  unfold HalQueue.popMany at hnone ⊢
  by_cases hn : n = 0
  · rw [if_pos hn]
    exact ⟨h, rfl, rfl⟩
  rw [if_neg hn] at hnone ⊢
  by_cases hempty : q.reader = q.writer ∧ q.full = false
  · rw [if_pos hempty]
    have hpos := zero_lt_of_lt h.reader_lt
    have hring : HalQueue.Ring { q with reader := 0, writer := 0 } := ⟨hpos, hpos, fun _ ↦ rfl⟩
    refine ⟨hring, rfl, ?_⟩
    rw [h.contents_eq_nil.mpr hempty, hring.contents_eq_nil]
    exact ⟨rfl, hempty.2⟩
  · rw [if_neg hempty] at hnone
    exact absurd hnone (Option.some_ne_none _)

theorem Ring.pushMany_some (h : Ring q) (hsome : (q.pushMany n).1 = some slot) :
    q.full = false ∧ Pushed q n slot (q.pushMany n).2.1 (q.pushMany n).2.2 := by
  have hnone := mt (h.pushMany_none n).mpr (hsome ▸ Option.some_ne_none _)
  rw [not_or, length_contents, ← h.isFull_iff, Bool.not_eq_true] at hnone
  obtain ⟨count, q', hpush, hpushed⟩ := h.pushMany hnone.2 (Nat.pos_of_ne_zero hnone.1)
  rw [hpush] at hsome ⊢
  obtain rfl := Option.some.inj hsome
  exact ⟨hnone.2, hpushed⟩

theorem Ring.popMany_some (h : Ring q) (hsome : (q.popMany n).1 = some slot) :
    Popped q n slot (q.popMany n).2.1 (q.popMany n).2.2 := by
  have hnone := mt (h.popMany_none n).mpr (hsome ▸ Option.some_ne_none _)
  rw [not_or, h.contents_eq_nil, h.isEmpty_iff] at hnone
  obtain ⟨count, q', hpop, hpopped⟩ := h.popMany hnone.2 (Nat.pos_of_ne_zero hnone.1)
  rw [hpop] at hsome ⊢
  obtain rfl := Option.some.inj hsome
  exact hpopped

theorem Pushed.nextFree (h : Pushed q n slot count q')
    (hq : Ring q) (hf : q.full = false) : q.NextFree slot count := by
  have hinside := h.inside
  have hwriter := hq.writer_eq hf
  rw [← h.pointer] at hwriter
  constructor
  · exact hinside
  · rw [length_contents]
    exact h.room
  · intro i hi
    rw [length_contents, ← Nat.add_assoc, ← mod_add_mod, ← hwriter, mod_eq_of_lt (by omega)]

theorem Popped.oldest (h : Popped q n slot count q') : q.Oldest slot count := by
  constructor
  · exact h.inside
  · rw [length_contents]
    exact h.enough
  · exact h.load

theorem Ring.push_some (h : Ring q) (hsome : q.push.1 = some slot) :
    q.full = false ∧ Pushed q 1 slot 1 q.push.2 := by
  rw [h.push_eq] at hsome ⊢
  obtain ⟨hf, hpushed⟩ := h.pushMany_some hsome
  have hcount : (q.pushMany 1).2.1 = 1 := le_antisymm hpushed.le hpushed.pos
  rw [hcount] at hpushed
  exact ⟨hf, hpushed⟩

theorem Ring.push_none (h : Ring q) : q.push.1 = none ↔ q.contents.length = q.size := by
  rw [h.push_eq, h.pushMany_none]
  exact or_iff_right one_ne_zero

theorem Ring.pop_none (h : Ring q) : q.pop.1 = none ↔ q.contents = [] := by
  rw [h.contents_eq_nil]
  unfold HalQueue.pop
  by_cases hempty : q.reader = q.writer ∧ q.full = false
  · rw [if_pos hempty]
    exact iff_of_true rfl hempty
  · rw [if_neg hempty]
    exact iff_of_false (Option.some_ne_none _) hempty

theorem Ring.pop_some (h : Ring q) (hsome : q.pop.1 = some slot) : Popped q 1 slot 1 q.pop.2 := by
  have hne := mt h.pop_none.mpr (hsome ▸ Option.some_ne_none _)
  rw [h.contents_eq_nil, h.isEmpty_iff] at hne
  rw [h.pop_eq hne] at hsome ⊢
  have hpopped := h.popMany_some hsome
  have hcount : (q.popMany 1).2.1 = 1 := le_antisymm hpopped.le hpopped.pos
  rw [hcount] at hpopped
  exact hpopped

/-- `Peek()` gives the pointer of `Pop()`. -/
theorem peek_eq (q : HalQueue T) : q.peek = q.pop.1 := by
  unfold peek pop
  by_cases hempty : q.reader = q.writer ∧ q.full = false
  · rw [if_pos hempty, if_pos ⟨hempty.1.symm, hempty.2⟩]
  · rw [if_neg hempty, if_neg fun h ↦ hempty ⟨h.1.symm, h.2⟩]

theorem Ring.isFifo (h : Ring q) : q.IsFifo q.size := by
  constructor
  case numberOfElements => exact (length_contents q).symm
  case bounded => exact (length_contents q).trans_le h.numberOfElements_le
  case isEmpty =>
    rw [h.contents_eq_nil, HalQueue.isEmpty, Bool.and_eq_true, decide_eq_true_eq, Bool.not_eq_true',
      @eq_comm ℕ q.writer]
  case isFull => exact (length_contents q).symm ▸ h.isFull_iff
  case known => exact ⟨pushKnown_eq q, popKnown_eq q⟩
  case push_none => exact h.push_none
  case push_some =>
    intro slot hsome
    obtain ⟨hf, hpushed⟩ := h.push_some hsome
    exact hpushed.nextFree h hf
  case pop_none => exact h.pop_none
  case pop_some => exact fun slot hsome ↦ (h.pop_some hsome).oldest
  case peek_none => exact peek_eq q ▸ h.pop_none
  case peek_some => exact fun slot hsome ↦ (h.pop_some (peek_eq q ▸ hsome)).oldest
  case pushMany_none => exact h.pushMany_none
  case pushMany_some =>
    intro n slot hsome
    obtain ⟨hf, hpushed⟩ := h.pushMany_some hsome
    exact ⟨hpushed.pos, hpushed.le, hpushed.nextFree h hf,
      fun hlt ↦ (length_contents q).symm ▸ hpushed.reduced hlt⟩
  case popMany_none => exact h.popMany_none
  case popMany_some =>
    intro n slot hsome
    have hpopped := h.popMany_some hsome
    exact ⟨hpopped.pos, hpopped.le, hpopped.oldest,
      fun hlt ↦ (length_contents q).symm ▸ hpopped.reduced hlt⟩
  case getElement_inside =>
    intro index slot hsome
    unfold HalQueue.getElement at hsome
    split_ifs at hsome
    obtain rfl := Option.some.inj hsome
    exact mod_lt _ (zero_lt_of_lt h.reader_lt)
  case getElement =>
    intro index x hx
    obtain ⟨hlt, hget⟩ := List.getElem?_eq_some_iff.mp hx
    rw [getElem_contents] at hget
    refine ⟨_, ?_, hget⟩
    unfold HalQueue.getElement
    rw [length_contents] at hlt
    rw [if_neg (by omega), Int.toNat_natCast]

end HalQueue

/-! ## Runs -/

namespace Session

variable {T : Type*} {s : Session T}

/-- What every run keeps: the elements in the queue are those pushed and not popped. -/
structure Invariant (size : ℕ) (s : Session T) : Prop where
  ring : s.queue.Ring
  size : s.queue.size = size
  fifo : s.pushed = s.popped ++ s.queue.contents

theorem ring_store {q : HalQueue T} (h : q.Ring) (slot : ℕ) (xs : List T) :
    (q.store slot xs).Ring :=
  ⟨h.writer_lt, h.reader_lt, h.eq_of_full⟩

variable {q' : HalQueue T} {size : ℕ}

section

variable (h : Invariant size s)

include h

theorem Invariant.pushed {n slot count : ℕ}
    {xs : List T} (hf : s.queue.full = false) (hpushed : s.queue.Pushed n slot count q')
    (hxs : xs.length = count) :
    Invariant size { s with queue := q'.store slot xs, pushed := s.pushed ++ xs } := by
  constructor
  · exact ring_store hpushed.ring slot xs
  · exact hpushed.size.trans h.size
  · dsimp only
    rw [hpushed.contents_store h.ring hf hxs, ← append_assoc, h.fifo]

theorem Invariant.popped {n slot count : ℕ} (hpopped : s.queue.Popped n slot count q') :
    Invariant size { s with queue := q', popped := s.popped ++ s.queue.load slot count } := by
  constructor
  · exact hpopped.ring
  · exact hpopped.size.trans h.size
  · dsimp only
    rw [hpopped.contents, hpopped.load, append_assoc, take_append_drop, h.fifo]

/-- A null pointer leaves the contents as they were. -/
theorem Invariant.refused (hring : q'.Ring)
    (hsize : q'.size = s.queue.size) (hcontents : q'.contents = s.queue.contents) :
    Invariant size { s with queue := q' } := by
  constructor
  · exact hring
  · exact hsize.trans h.size
  · dsimp only
    rw [hcontents, h.fifo]

theorem Invariant.perform (operation : Operation T) : Invariant size (s.perform operation) := by
  cases operation with
  | push x =>
    unfold Session.perform
    cases hresult : s.queue.push with
    | mk pointer q' =>
      cases pointer with
      | none =>
        unfold HalQueue.push at hresult
        split_ifs at hresult
        · cases hresult
          exact h
        · cases hresult
      | some slot =>
        obtain ⟨hf, hpushed⟩ := h.ring.push_some (congrArg Prod.fst hresult)
        rw [hresult] at hpushed
        exact h.pushed hf hpushed rfl
  | pop =>
    unfold Session.perform
    cases hresult : s.queue.pop with
    | mk pointer q' =>
      cases pointer with
      | none =>
        unfold HalQueue.pop at hresult
        split_ifs at hresult
        · cases hresult
          exact h
        · cases hresult
      | some slot =>
        have hpopped := h.ring.pop_some (congrArg Prod.fst hresult)
        rw [hresult] at hpopped
        exact h.popped hpopped
  | peek | getElement index => exact h
  | pushMany xs =>
    unfold Session.perform
    dsimp only
    rcases hresult : s.queue.pushMany xs.length with ⟨_ | slot, count, q'⟩
    · have hsame := s.queue.pushMany_refused (congrArg Prod.fst hresult)
      rw [hresult] at hsame
      obtain rfl : q' = s.queue := hsame
      exact h
    · obtain ⟨hf, hpushed⟩ := h.ring.pushMany_some (congrArg Prod.fst hresult)
      rw [hresult] at hpushed
      apply h.pushed hf hpushed
      rw [length_take]
      exact Nat.min_eq_left hpushed.le
  | popMany n =>
    unfold Session.perform
    dsimp only
    rcases hresult : s.queue.popMany n with ⟨_ | slot, count, q'⟩
    · have hrefused := h.ring.popMany_refused (congrArg Prod.fst hresult)
      rw [hresult] at hrefused
      exact h.refused hrefused.1 hrefused.2.1 hrefused.2.2
    · have hpopped := h.ring.popMany_some (congrArg Prod.fst hresult)
      rw [hresult] at hpopped
      exact h.popped hpopped

theorem Invariant.run (operations : List (Operation T)) : Invariant size (s.run operations) := by
  induction operations generalizing s with
  | nil => exact h
  | cons operation operations ih => exact ih (h.perform operation)

end

theorem invariant_start (data : ℕ → T) (hsize : 0 < size) : Invariant size (start data size) :=
  ⟨⟨hsize, hsize, fun _ ↦ rfl⟩, rfl, rfl⟩

/-- After every sequence of operations on a buffer of this size, the contents are the elements
pushed and not yet popped, and the queue answers as a list of that capacity would. -/
def Fifo (data : ℕ → T) (size : ℕ) : Prop :=
  ∀ operations, ((start data size).run operations).pushed =
      ((start data size).run operations).popped ++
        ((start data size).run operations).queue.contents ∧
    ((start data size).run operations).queue.IsFifo size

/-- A new queue without capacity is full and does not say so. -/
theorem not_fifo_zero (data : ℕ → T) : ¬ Fifo data 0 := by
  intro hfifo
  have hfull := (hfifo []).2.isFull.mpr rfl
  exact Bool.false_ne_true hfull

/-- The queues are right for every capacity of at least one element.  Without capacity the writer
never meets the reader again, and no push is refused. -/
theorem fifo_iff (data : ℕ → T) (size : ℕ) : Fifo data size ↔ 0 < size := by
  constructor
  · intro hfifo
    by_contra hsize
    obtain rfl : size = 0 := Nat.eq_zero_of_not_pos hsize
    exact not_fifo_zero data hfifo
  · intro hsize operations
    have h := (invariant_start data hsize).run operations
    have hisFifo := h.ring.isFifo
    rw [h.size] at hisFifo
    exact ⟨h.fifo, hisFifo⟩

/-- A queue on a buffer of no elements hands out a pointer to slot 0. -/
theorem push_zeroCapacity :
    (start (fun _ ↦ 0) 0 : Session ℕ).queue.push.1 = some 0 ∧ ¬ Fifo (fun _ ↦ (0 : ℕ)) 0 :=
  ⟨rfl, not_fifo_zero _⟩

end Session

end MicroFramework.Queues
