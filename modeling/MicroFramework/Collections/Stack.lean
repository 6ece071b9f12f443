import MicroFramework.Collections.ObjectArray
import MicroFramework.Library.Simulation

/-!
# The native stack

`CLR_RT_HeapBlock_Stack`: the elements lie at the end of an array of type `Object`, the top one
first, and move to the end of an array of twice the size when the array is full.  The stack refines
a last-in-first-out list.
-/

namespace MicroFramework.Collections

open Library List

variable {α : Type*}

/-- `CLR_RT_HeapBlock_Stack` -/
structure Stack (α : Type*) where
  array : Cells α
  size : ℕ

namespace Stack

/-- The operations; `gives` tells what the heap hands out. -/
inductive Op (α : Type*) where
  | push (value : Option α) (gives : ℕ → Bool)
  | pop
  | peek
  | clear

/-- What an operation returns. -/
inductive Answer (α : Type*) where
  | result (r : Result)
  | value (value : Option α)

def new : Stack α := ⟨replicate 4 none, 0⟩

/-- The end of `Push`: the value is stored in front of the elements. -/
def store (s : Stack α) (value : Option α) : Option (Stack α × Answer α) :=
  if s.array.length < s.size + 1 then none
  else
    (setElement s.array (s.array.length - (s.size + 1)) value).map fun array ↦
      (⟨array, s.size + 1⟩, .result (.ok ()))

def push (s : Stack α) (value : Option α) (gives : ℕ → Bool) : Option (Stack α × Answer α) :=
  if s.size = s.array.length then
    match createInstance gives (s.array.length * 2) with
    | .failed => some (s, .result (.error .outOfMemory))
    | .overrun => none
    | .array cells =>
      if s.size ≤ s.array.length ∧ s.size + s.size ≤ cells.length then
        store ⟨replaceRange cells s.size (readRange s.array 0 s.size), s.size⟩ value
      else none
  else s.store value

def pop (s : Stack α) : Option (Stack α × Answer α) :=
  if s.size = 0 then some (s, .result (.error .invalidOperation))
  else
    match s.array[s.array.length - s.size]? with
    | none => none
    | some value => some (⟨s.array.set (s.array.length - s.size) none, s.size - 1⟩, .value value)

def peek (s : Stack α) : Option (Stack α × Answer α) :=
  if s.size = 0 then some (s, .result (.error .invalidOperation))
  else s.array[s.array.length - s.size]?.map fun value ↦ (s, .value value)

def clear (s : Stack α) : Option (Stack α × Answer α) :=
  (clearElements s.array (s.array.length - s.size) s.size).map fun array ↦
    (⟨array, 0⟩, .result (.ok ()))

/-- One operation; there is none when it leaves an array. -/
def step (s : Stack α) : Op α → Option (Stack α × Answer α)
  | .push value gives => s.push value gives
  | .pop => s.pop
  | .peek => s.peek
  | .clear => s.clear

/-! ## The list -/

/-- A last-in-first-out list: what each operation answers, and the list behind it. -/
def Lifo (a : Bounded α) : Op α → Answer α → Bounded α → Prop
  | .push value gives, ans, a' =>
    match a.roomFor gives (· * 2) with
    | some n => ans = .result (.ok ()) ∧ a' = ⟨value :: a.list, n⟩
    | none => ans = .result (.error .outOfMemory) ∧ a' = a
  | .pop, ans, a' =>
    match a.list with
    | [] => ans = .result (.error .invalidOperation) ∧ a' = a
    | x :: xs => ans = .value x ∧ a' = ⟨xs, a.capacity⟩
  | .peek, ans, a' => a' = a ∧
    match a.list with
    | [] => ans = .result (.error .invalidOperation)
    | x :: _ => ans = .value x
  | .clear, ans, a' => ans = .result (.ok ()) ∧ a' = ⟨[], a.capacity⟩

/-- The stack holds the list: the elements are the end of the array, and no other cell retains an
element. -/
structure Holds (s : Stack α) (xs : Cells α) : Prop where
  fits : Fits s.array.length
  positive : 0 < s.array.length
  size : s.size = xs.length
  cells : ∃ room, s.array = replicate room none ++ xs

def Represents (s : Stack α) (a : Bounded α) : Prop := s.Holds a.list ∧ s.array.length = a.capacity

theorem new_represents : (new : Stack α).Represents ⟨[], 4⟩ :=
  ⟨⟨fits_iff.mpr (by simp [new]), by simp [new], rfl, 4, rfl⟩, rfl⟩

namespace Holds

variable {s : Stack α} {xs : Cells α}

section

variable (h : s.Holds xs)

include h

theorem top {room : ℕ} (hcells : s.array = replicate room none ++ xs) :
    s.array.length - s.size = room := by
  rw [h.size, hcells, length_append, length_replicate, Nat.add_sub_cancel]

theorem store (value : Option α) (hroom : s.size < s.array.length) :
    ∃ s', s.store value = some (s', .result (.ok ())) ∧
      s'.Represents ⟨value :: xs, s.array.length⟩ := by
  obtain ⟨room, hcells⟩ := h.cells
  have htop := h.top hcells
  have hset : s.array.set (s.array.length - (s.size + 1)) value =
      replicate (room - 1) none ++ value :: xs := by
    obtain ⟨k, rfl⟩ : ∃ k, room = k + 1 := ⟨room - 1, by omega⟩
    rw [show s.array.length - (s.size + 1) = k by omega, hcells, replicate_succ',
      append_assoc, set_append_right _ _ (by simp)]
    simp
  unfold Stack.store
  rw [if_neg (by omega), setElement, if_pos (by omega)]
  refine ⟨_, rfl, ⟨?_, ?_, by simp [h.size], room - 1, hset⟩, length_set⟩
  · simpa using h.fits
  · simpa using h.positive

/-- The elements move to the end of the array that is twice as long. -/
theorem grown (hfull : s.size = s.array.length) (hfits : Fits (s.array.length * 2)) :
    Holds ⟨replaceRange (replicate (s.array.length * 2) none) s.size
      (readRange s.array 0 s.size), s.size⟩ xs := by
  obtain ⟨room, hcells⟩ := h.cells
  have htop := h.top hcells
  have hroom : room = 0 := by omega
  have harray : s.array = xs := by rw [hcells, hroom]; rfl
  have hread : readRange s.array 0 s.size = xs := by
    rw [readRange, drop_zero, harray, h.size, take_length]
  have hreplace : replaceRange (replicate (s.array.length * 2) none) s.size xs =
      replicate s.size none ++ xs := by
    rw [replaceRange, take_replicate, drop_replicate, min_eq_left (by omega),
      show s.array.length * 2 - (s.size + xs.length) = 0 by rw [← h.size]; omega,
      replicate_zero, append_nil]
  rw [hread, hreplace]
  have hpos := h.positive
  have hlength : (replicate s.size (none : Option α) ++ xs).length = s.array.length * 2 := by
    rw [length_append, length_replicate, ← h.size]
    omega
  exact ⟨by rw [hlength]; exact hfits, by rw [hlength]; omega, h.size, s.size, rfl⟩

theorem push (value : Option α) (gives : ℕ → Bool) :
    ∃ s' ans a', s.push value gives = some (s', ans) ∧
      Lifo ⟨xs, s.array.length⟩ (.push value gives) ans a' ∧ s'.Represents a' := by
  have hpos := h.positive
  unfold Stack.push
  simp only [Lifo]
  by_cases hfull : s.size = s.array.length
  · have hnone : ¬ xs.length < s.array.length := by have := h.size; omega
    rw [if_pos hfull]
    cases hcreate : (createInstance gives (s.array.length * 2) : Created α) with
    | failed =>
      rw [@Bounded.roomFor_failed _ gives ⟨xs, s.array.length⟩ (· * 2) hnone hcreate]
      exact ⟨s, _, _, rfl, ⟨rfl, rfl⟩, h, rfl⟩
    | overrun => exact absurd hcreate (createInstance_double h.fits)
    | array cells =>
      obtain ⟨hfits, rfl⟩ := createInstance_array hcreate
      have hgrown := h.grown hfull hfits
      have hread := length_readRange (by omega : 0 + s.size ≤ s.array.length)
      have hlength : (replaceRange (replicate (s.array.length * 2) none) s.size
          (readRange s.array 0 s.size)).length = s.array.length * 2 := by
        rw [length_replaceRange (by rw [hread, length_replicate]; omega), length_replicate]
      obtain ⟨s', hstore, hholds⟩ := hgrown.store value (by
        dsimp only
        rw [hlength]
        omega)
      dsimp only at hholds ⊢
      rw [hlength] at hholds
      rw [@Bounded.roomFor_array _ gives ⟨xs, s.array.length⟩ (· * 2) _ hnone hcreate,
        if_pos ⟨hfull.le, by rw [length_replicate]; omega⟩, hstore]
      exact ⟨s', _, _, rfl, ⟨rfl, rfl⟩, hholds⟩
  · obtain ⟨room, hcells⟩ := h.cells
    have htop := h.top hcells
    have hlength : s.array.length = room + xs.length := by
      rw [hcells, length_append, length_replicate]
    have hroom : s.size < s.array.length := by have := h.size; omega
    obtain ⟨s', hstore, hholds⟩ := h.store value hroom
    rw [if_neg hfull, hstore, @Bounded.roomFor_room _ gives ⟨xs, s.array.length⟩ (· * 2)
      (h.size ▸ hroom)]
    exact ⟨s', _, _, rfl, ⟨rfl, rfl⟩, hholds⟩

theorem top_eq {x : Option α} {rest : Cells α} (hxs : xs = x :: rest) :
    s.array[s.array.length - s.size]? = some x := by
  obtain ⟨room, hcells⟩ := h.cells
  rw [h.top hcells, hcells, hxs, getElem?_append_right (by simp), length_replicate,
    Nat.sub_self, getElem?_cons_zero]

theorem pop : ∃ s' ans a', s.pop = some (s', ans) ∧ Lifo ⟨xs, s.array.length⟩ .pop ans a' ∧
    s'.Represents a' := by
  unfold Stack.pop
  cases hxs : xs with
  | nil =>
    rw [if_pos (by rw [h.size, hxs]; rfl)]
    exact ⟨_, _, _, rfl, ⟨rfl, rfl⟩, hxs ▸ h, rfl⟩
  | cons x rest =>
    obtain ⟨room, hcells⟩ := h.cells
    rw [if_neg (by rw [h.size, hxs]; exact Nat.succ_ne_zero _), h.top_eq hxs]
    refine ⟨_, _, _, rfl, ⟨rfl, rfl⟩, ⟨?_, ?_, ?_, room + 1, ?_⟩, length_set⟩
    · simpa using h.fits
    · simpa using h.positive
    · rw [h.size, hxs]
      rfl
    · dsimp only
      rw [h.top hcells, hcells, hxs, set_append_right _ _ (by simp), length_replicate,
        Nat.sub_self, set_cons_zero, replicate_succ', append_assoc]
      rfl

theorem peek : ∃ s' ans a', s.peek = some (s', ans) ∧ Lifo ⟨xs, s.array.length⟩ .peek ans a' ∧
    s'.Represents a' := by
  unfold Stack.peek
  cases hxs : xs with
  | nil =>
    rw [if_pos (by rw [h.size, hxs]; rfl)]
    exact ⟨_, _, _, rfl, ⟨rfl, rfl⟩, hxs ▸ h, rfl⟩
  | cons x rest =>
    rw [if_neg (by rw [h.size, hxs]; exact Nat.succ_ne_zero _), h.top_eq hxs]
    exact ⟨_, _, _, rfl, ⟨rfl, rfl⟩, hxs ▸ h, rfl⟩

theorem clear : ∃ s' ans a', s.clear = some (s', ans) ∧ Lifo ⟨xs, s.array.length⟩ .clear ans a' ∧
    s'.Represents a' := by
  obtain ⟨room, hcells⟩ := h.cells
  have htop := h.top hcells
  have hlength : s.array.length = room + xs.length := by
    rw [hcells, length_append, length_replicate]
  have hcleared : replaceRange s.array room (replicate s.size none) =
      replicate (room + s.size) none := by
    rw [replaceRange, length_replicate, drop_eq_nil_of_le (by rw [h.size, hlength]),
      hcells, take_left' length_replicate, append_nil, replicate_append_replicate]
  unfold Stack.clear
  rw [clearElements, if_pos (by have := h.size; omega), htop, hcleared]
  refine ⟨_, _, ⟨[], _⟩, rfl, ⟨rfl, rfl⟩, ⟨?_, ?_, rfl, room + s.size, ?_⟩,
    by simp [hlength, h.size]⟩
  · have hfits := h.fits
    rw [hlength, ← h.size] at hfits
    simpa using hfits
  · have hpos := h.positive
    rw [hlength, ← h.size] at hpos
    simpa using hpos
  · rw [append_nil]

end

end Holds

theorem simulates : Simulates (step : Stack α → Op α → _) (fun _ _ ↦ True) Lifo Represents := by
  rintro s ⟨xs, n⟩ op ⟨h, rfl⟩ _
  cases op with
  | push value gives => exact h.push value gives
  | pop => exact h.pop
  | peek => exact h.peek
  | clear => exact h.clear

end Stack

end MicroFramework.Collections
