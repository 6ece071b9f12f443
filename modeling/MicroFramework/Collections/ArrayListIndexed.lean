import MicroFramework.Collections.ArrayList
import MicroFramework.Collections.QueueFifo
import MicroFramework.Collections.Stack

/-!
# The native array list is a list accessed by index

Each operation of an array list that holds a list is matched by the list.
-/

namespace MicroFramework.Collections

namespace ArrayList

open Library List Option

variable {α : Type*} {l : ArrayList α} {xs : Cells α}

namespace Holds

theorem length_items (h : l.Holds xs) : xs.length ≤ l.items.length := by
  obtain ⟨room, hcells⟩ := h.cells
  rw [hcells, length_append]
  exact Nat.le_add_right _ _

theorem getElem? (h : l.Holds xs) {i : ℕ} (hi : i < xs.length) : l.items[i]? = xs[i]? := by
  obtain ⟨room, hcells⟩ := h.cells
  rw [hcells, getElem?_append_left hi]

theorem getItem (h : l.Holds xs) (index : ℤ) : ∃ l' ans a', l.getItem index = some (l', ans) ∧
    Indexed ⟨xs, l.items.length⟩ (.getItem index) ans a' ∧ l'.Represents a' := by
  simp only [ArrayList.getItem, Indexed]
  rw [h.size]
  by_cases hin : 0 ≤ index ∧ index < xs.length
  · have hlt : index.toNat < xs.length := by omega
    rw [if_neg (by omega), h.getElem? hlt, getElem?_eq_getElem hlt]
    refine ⟨_, _, _, rfl, ⟨rfl, ?_⟩, h, rfl⟩
    rw [if_pos hin]
    exact ⟨_, rfl, rfl⟩
  · rw [if_pos (by omega)]
    refine ⟨_, _, _, rfl, ⟨rfl, ?_⟩, h, rfl⟩
    rw [if_neg hin]

theorem setItem (h : l.Holds xs) (index : ℤ) (value : Option α) :
    ∃ l' ans a', l.setItem index value = some (l', ans) ∧
      Indexed ⟨xs, l.items.length⟩ (.setItem index value) ans a' ∧ l'.Represents a' := by
  simp only [ArrayList.setItem, Indexed]
  rw [h.size]
  by_cases hin : 0 ≤ index ∧ index < xs.length
  · have hlt : index.toNat < xs.length := by omega
    obtain ⟨room, hcells⟩ := h.cells
    simp only [if_pos hin]
    rw [if_neg (by omega), setElement, if_pos (hlt.trans_le h.length_items)]
    refine ⟨_, _, _, rfl, ⟨rfl, rfl⟩, ⟨by simpa using h.fits, by simp, room, ?_⟩, length_set⟩
    dsimp only
    rw [hcells, set_append_left _ _ hlt]
  · simp only [if_neg hin]
    rw [if_pos (by omega)]
    exact ⟨_, _, _, rfl, ⟨rfl, rfl⟩, h, rfl⟩

/-! ## Capacity -/

section

variable (h : l.Holds xs)

include h

/-- A new array with the elements at its start. -/
theorem moved {n : ℕ} (hfits : Fits n) (hn : xs.length ≤ n) :
    Represents ⟨replaceRange (replicate n none) 0 (readRange l.items 0 l.size), l.size⟩
      ⟨xs, n⟩ := by
  obtain ⟨room, hcells⟩ := h.cells
  have hread : readRange l.items 0 l.size = xs := by
    rw [readRange, drop_zero, h.size, hcells, take_left' rfl]
  have hreplace : replaceRange (replicate n none) 0 xs = xs ++ replicate (n - xs.length) none := by
    rw [replaceRange, take_zero, nil_append, zero_add, drop_replicate]
  rw [hread, hreplace]
  have hlength : (xs ++ replicate (n - xs.length) (none : Option α)).length = n := by
    rw [length_append, length_replicate, Nat.add_sub_cancel' hn]
  exact ⟨⟨by rw [hlength]; exact hfits, h.size, _, rfl⟩, hlength⟩

theorem setCapacity (newCapacity : ℤ) (gives : ℕ → Bool)
    (hclean : (createInstance gives newCapacity.toNat : Created α) ≠ .overrun) :
    ∃ l' r a', l.setCapacity newCapacity gives = some (l', r) ∧
      Indexed ⟨xs, l.items.length⟩ (.setCapacity newCapacity gives) (.result r) a' ∧
      l'.Represents a' := by
  simp only [ArrayList.setCapacity, Indexed]
  rw [h.size]
  by_cases hsame : newCapacity = l.items.length
  · rw [if_neg (not_not.mpr hsame)]
    simp only [if_pos hsame]
    exact ⟨l, _, _, rfl, ⟨rfl, rfl⟩, h, rfl⟩
  rw [if_pos hsame]
  simp only [if_neg hsame]
  by_cases hless : newCapacity < xs.length
  · rw [if_pos hless]
    simp only [if_pos hless]
    exact ⟨l, _, _, rfl, ⟨rfl, rfl⟩, h, rfl⟩
  rw [if_neg hless]
  simp only [if_neg hless]
  have hcapacity : (if newCapacity < defaultCapacity then (defaultCapacity : ℤ)
      else newCapacity).toNat = max defaultCapacity newCapacity.toNat := by
    split_ifs <;> omega
  rw [hcapacity]
  have hle : xs.length ≤ max defaultCapacity newCapacity.toNat := by omega
  have hne : (createInstance gives (max defaultCapacity newCapacity.toNat) : Created α) ≠
      .overrun := by
    rcases max_choice defaultCapacity newCapacity.toNat with hmax | hmax
    · rw [hmax]
      exact createInstance_ne_overrun (by decide)
    · rwa [hmax]
  cases hcreate : (createInstance gives (max defaultCapacity newCapacity.toNat) : Created α) with
  | failed => exact ⟨l, _, _, rfl, ⟨rfl, rfl⟩, h, rfl⟩
  | overrun => exact absurd hcreate hne
  | array cells =>
    obtain ⟨hfits, rfl⟩ := createInstance_array hcreate
    have hmoved := h.moved hfits hle
    dsimp only
    rw [length_replicate, if_pos hle]
    rw [h.size] at hmoved
    exact ⟨_, _, _, rfl, ⟨rfl, rfl⟩, hmoved⟩

/-- The room that is made for one more element. -/
theorem makeRoom (gives : ℕ → Bool) :
    ∃ l' r a', l.makeRoom gives = some (l', r) ∧ l'.Represents a' ∧
      match Bounded.roomFor ⟨xs, l.items.length⟩ gives largerCapacity with
      | some n => r = .ok () ∧ a' = ⟨xs, n⟩ ∧ xs.length < n
      | none => r = .error .outOfMemory ∧ a' = ⟨xs, l.items.length⟩ := by
  have hle := h.length_items
  unfold ArrayList.makeRoom
  by_cases hfull : l.size = l.items.length
  · have hnone : ¬ xs.length < l.items.length := by have := h.size; omega
    rw [if_pos hfull]
    unfold ArrayList.ensureCapacity
    rw [if_pos (by omega)]
    dsimp only
    generalize hcapacity : (if l.items.length * 3 / 2 < l.size + 1 then l.size + 1
      else l.items.length * 3 / 2) = capacity
    have hlt : l.items.length < capacity := by split_ifs at hcapacity <;> omega
    have hfits := fits_iff.mp h.fits
    have hbound : capacity ≤ 2 * l.items.length + 1 := by split_ifs at hcapacity <;> omega
    obtain ⟨l', r, a', hrun, hspec, hholds⟩ := h.setCapacity capacity gives (by
      rw [Int.toNat_natCast]
      apply createInstance_ne_overrun
      unfold totLength sizeOfArray sizeOfHeapBlock
      omega)
    refine ⟨l', r, a', hrun, hholds, ?_⟩
    have hlarger : max defaultCapacity capacity = largerCapacity l.items.length := by
      unfold largerCapacity
      split_ifs at hcapacity <;> omega
    simp only [Indexed] at hspec
    rw [if_neg (by omega), if_neg (by omega), Int.toNat_natCast, hlarger] at hspec
    cases hcreate : (createInstance gives (largerCapacity l.items.length) : Created α) with
    | failed | overrun =>
      rw [hcreate] at hspec
      rw [Bounded.roomFor, if_neg hnone, hcreate]
      exact ⟨by cases hspec.1; rfl, hspec.2⟩
    | array cells =>
      rw [hcreate] at hspec
      rw [@Bounded.roomFor_array _ gives ⟨xs, _⟩ largerCapacity _ hnone hcreate]
      exact ⟨by cases hspec.1; rfl, hspec.2, by dsimp only; omega⟩
  · have hroom : xs.length < l.items.length := by have := h.size; omega
    rw [if_neg hfull, @Bounded.roomFor_room _ gives ⟨xs, _⟩ largerCapacity hroom]
    exact ⟨l, _, _, rfl, ⟨h, rfl⟩, rfl, rfl, hroom⟩

theorem cells_room (hroom : xs.length < l.items.length) :
    ∃ room, l.items = xs ++ none :: replicate room none := by
  obtain ⟨room, hcells⟩ := h.cells
  have hlength : l.items.length = xs.length + room := by
    rw [hcells, length_append, length_replicate]
  obtain ⟨k, rfl⟩ : ∃ k, room = k + 1 := ⟨room - 1, by omega⟩
  exact ⟨k, by rw [hcells, replicate_succ]⟩

end

/-! ## Add and clear -/

theorem add (h : l.Holds xs) (value : Option α) (gives : ℕ → Bool) :
    ∃ l' ans a', l.add value gives = some (l', ans) ∧
      Indexed ⟨xs, l.items.length⟩ (.add value gives) ans a' ∧ l'.Represents a' := by
  obtain ⟨l', r, a', hrun, ⟨hholds, hcapacity⟩, hr⟩ := h.makeRoom gives
  simp only [ArrayList.add, Indexed]
  rw [hrun]
  cases hroomFor : Bounded.roomFor ⟨xs, l.items.length⟩ gives largerCapacity with
  | some n =>
    rw [hroomFor] at hr
    obtain ⟨rfl, rfl, hroom⟩ := hr
    have hroom : xs.length < l'.items.length := hroom.trans_eq hcapacity.symm
    obtain ⟨room, hcells⟩ := hholds.cells_room hroom
    dsimp only
    rw [hholds.size, setElement, if_pos hroom]
    refine ⟨_, _, _, rfl, ⟨rfl, rfl⟩, ⟨by simpa using hholds.fits, by simp, room, ?_⟩,
      length_set.trans hcapacity⟩
    dsimp only at hcells ⊢
    rw [hcells, set_append_right _ _ le_rfl, Nat.sub_self, set_cons_zero, append_assoc]
    rfl
  | none =>
    rw [hroomFor] at hr
    obtain ⟨rfl, rfl⟩ := hr
    exact ⟨l', _, _, rfl, ⟨rfl, rfl⟩, hholds, hcapacity⟩

theorem clear (h : l.Holds xs) : ∃ l' ans a', l.clear = some (l', ans) ∧
    Indexed ⟨xs, l.items.length⟩ .clear ans a' ∧ l'.Represents a' := by
  obtain ⟨room, hcells⟩ := h.cells
  have hlength : l.items.length = xs.length + room := by
    rw [hcells, length_append, length_replicate]
  have hcleared : replaceRange l.items 0 (replicate l.size none) =
      replicate l.items.length none := by
    calc replaceRange l.items 0 (replicate l.size none)
        = replicate xs.length none ++ l.items.drop xs.length := by
          rw [replaceRange, take_zero, nil_append, length_replicate, zero_add, h.size]
      _ = replicate xs.length none ++ replicate room none := by rw [hcells, drop_left' rfl]
      _ = replicate l.items.length none := by rw [replicate_append_replicate, hlength]
  unfold ArrayList.clear
  rw [clearElements, if_pos (by have := h.size; omega), hcleared]
  exact ⟨_, _, _, rfl, ⟨rfl, rfl⟩, ⟨by simpa using h.fits, rfl, _, rfl⟩, length_replicate⟩

/-! ## Moving elements -/

theorem insertIdx_eq_take_drop (xs : Cells α) (i : ℕ) (value : Option α) (hi : i ≤ xs.length) :
    xs.insertIdx i value = xs.take i ++ value :: xs.drop i := by
  induction i generalizing xs with
  | zero => rfl
  | succ i ih =>
    cases xs with
    | nil => exact absurd hi (Nat.not_succ_le_zero i)
    | cons x xs =>
      rw [insertIdx_succ_cons, ih xs (Nat.le_of_succ_le_succ hi)]
      rfl

/-- The loop of `Insert` opens a slot in front of the elements that it moves. -/
theorem moveUp_eq (before ys after : Cells α) (z : Option α) :
    ∃ w, moveUp (before ++ ys ++ z :: after) before.length ys.length =
      some (before ++ w :: (ys ++ after)) := by
  induction ys using reverseRecOn generalizing z after with
  | nil => exact ⟨z, by rw [append_nil]; rfl⟩
  | append_singleton ys y ih =>
    obtain ⟨w, hw⟩ := ih (y :: after) y
    refine ⟨w, ?_⟩
    have hread : (before ++ (ys ++ [y]) ++ z :: after)[before.length + ys.length]? = some y := by
      rw [append_assoc, getElem?_append_right (by omega), Nat.add_sub_cancel_left,
        append_assoc, getElem?_append_right le_rfl, Nat.sub_self]
      rfl
    have hset : (before ++ (ys ++ [y]) ++ z :: after).set (before.length + ys.length + 1) y =
        before ++ ys ++ y :: (y :: after) := by
      rw [set_append_right _ _ (by simp; omega), length_append, length_append,
        length_singleton, ← Nat.add_assoc, Nat.sub_self]
      simp
    rw [length_append, length_singleton, moveUp, hread]
    dsimp only
    rw [setElement, if_pos (by simp; omega), hset, bind_some, hw, append_assoc]
    rfl

/-- The loop of `RemoveAt` closes the slot in front of the elements that it moves. -/
theorem moveDown_eq (before ys after : Cells α) (x : Option α) :
    ∃ w, moveDown (before ++ x :: (ys ++ after)) before.length ys.length =
      some (before ++ ys ++ w :: after) := by
  induction ys generalizing before x with
  | nil => exact ⟨x, by rw [append_nil]; rfl⟩
  | cons y ys ih =>
    obtain ⟨w, hw⟩ := ih (before ++ [y]) y
    refine ⟨w, ?_⟩
    have hread : (before ++ x :: (y :: ys ++ after))[before.length + 1]? = some y := by
      rw [getElem?_append_right (by omega), Nat.add_sub_cancel_left]
      rfl
    have hset : (before ++ x :: (y :: ys ++ after)).set before.length y =
        before ++ [y] ++ y :: (ys ++ after) := by
      rw [set_append_right _ _ le_rfl, Nat.sub_self]
      simp
    rw [length_append, length_singleton] at hw
    rw [length_cons, moveDown, hread]
    dsimp only
    rw [setElement, if_pos (by simp), hset, bind_some, hw]
    simp

theorem insert (h : l.Holds xs) (index : ℤ) (value : Option α) (gives : ℕ → Bool) :
    ∃ l' ans a', l.insert index value gives = some (l', ans) ∧
      Indexed ⟨xs, l.items.length⟩ (.insert index value gives) ans a' ∧ l'.Represents a' := by
  simp only [ArrayList.insert, Indexed]
  rw [h.size]
  by_cases hin : 0 ≤ index ∧ index ≤ xs.length
  · simp only [if_pos hin]
    rw [if_neg (by omega)]
    obtain ⟨index, rfl⟩ := Int.eq_ofNat_of_zero_le hin.1
    have hle : index ≤ xs.length := by omega
    rw [Int.toNat_natCast]
    obtain ⟨l', r, a', hrun, ⟨hholds, hcapacity⟩, hr⟩ := h.makeRoom gives
    rw [hrun]
    cases hroomFor : Bounded.roomFor ⟨xs, l.items.length⟩ gives largerCapacity with
    | some n =>
      rw [hroomFor] at hr
      obtain ⟨rfl, rfl, hroom⟩ := hr
      have hroom : xs.length < l'.items.length := hroom.trans_eq hcapacity.symm
      obtain ⟨room, hcells⟩ := hholds.cells_room hroom
      have htake : (xs.take index).length = index := length_take_of_le hle
      obtain ⟨w, hw⟩ := moveUp_eq (xs.take index) (xs.drop index) (replicate room none) none
      rw [htake, length_drop, take_append_drop, ← hcells] at hw
      have hset : (xs.take index ++ w :: (xs.drop index ++ replicate room none)).set index
          value = xs.insertIdx index value ++ replicate room none := by
        rw [set_append_right _ _ htake.le, htake, Nat.sub_self, set_cons_zero,
          insertIdx_eq_take_drop _ _ _ hle]
        simp
      dsimp only
      rw [hholds.size, hw, bind_some, setElement, if_pos (by simp; omega), hset]
      have hlength : (xs.insertIdx index value ++ replicate room none).length =
          l'.items.length := by
        simp only [hcells, length_append, length_insertIdx_of_le_length hle, length_cons]
        omega
      refine ⟨_, _, _, rfl, ⟨rfl, rfl⟩, ⟨?_, ?_, room, rfl⟩, hlength.trans hcapacity⟩
      · dsimp only
        rw [hlength]
        exact hholds.fits
      · rw [length_insertIdx_of_le_length hle]
    | none =>
      rw [hroomFor] at hr
      obtain ⟨rfl, rfl⟩ := hr
      exact ⟨l', _, _, rfl, ⟨rfl, rfl⟩, hholds, hcapacity⟩
  · simp only [if_neg hin]
    rw [if_pos (by omega)]
    exact ⟨l, _, _, rfl, ⟨rfl, rfl⟩, h, rfl⟩

theorem removeAt (h : l.Holds xs) (index : ℤ) :
    ∃ l' ans a', l.removeAt index = some (l', ans) ∧
      Indexed ⟨xs, l.items.length⟩ (.removeAt index) ans a' ∧ l'.Represents a' := by
  simp only [ArrayList.removeAt, Indexed]
  rw [h.size]
  by_cases hin : 0 ≤ index ∧ index < xs.length
  · simp only [if_pos hin]
    rw [if_neg (by omega)]
    obtain ⟨index, rfl⟩ := Int.eq_ofNat_of_zero_le hin.1
    have hlt : index < xs.length := by omega
    rw [Int.toNat_natCast]
    obtain ⟨room, hcells⟩ := h.cells
    have htake : (xs.take index).length = index := length_take_of_le hlt.le
    have hsplit : l.items =
        xs.take index ++ xs[index] :: (xs.drop (index + 1) ++ replicate room none) := by
      rw [hcells, ← cons_append, ← append_assoc, ← drop_eq_getElem_cons hlt,
        take_append_drop]
    obtain ⟨w, hw⟩ := moveDown_eq (xs.take index) (xs.drop (index + 1)) (replicate room none)
      xs[index]
    rw [htake, length_drop, ← hsplit] at hw
    have hset : (xs.take index ++ xs.drop (index + 1) ++ w :: replicate room none).set
        (xs.length - 1) none = xs.eraseIdx index ++ replicate (room + 1) none := by
      rw [set_append_right _ _ (by simp; omega), length_append, htake, length_drop,
        show xs.length - 1 - (index + (xs.length - (index + 1))) = 0 by omega, set_cons_zero,
        eraseIdx_eq_take_drop_succ, replicate_succ]
    rw [show xs.length - 1 - index = xs.length - (index + 1) by omega, hw, bind_some,
      setElement, if_pos (by simp; omega), hset]
    have hlength : (xs.eraseIdx index ++ replicate (room + 1) none).length = l.items.length := by
      rw [hcells, length_append, length_eraseIdx_of_lt hlt, length_append, length_replicate,
        length_replicate]
      omega
    refine ⟨_, _, _, rfl, ⟨rfl, rfl⟩, ⟨?_, ?_, room + 1, rfl⟩, hlength⟩
    · dsimp only
      rw [hlength]
      exact h.fits
    · rw [length_eraseIdx_of_lt hlt]
  · simp only [if_neg hin]
    rw [if_pos (by omega)]
    exact ⟨l, _, _, rfl, ⟨rfl, rfl⟩, h, rfl⟩

end Holds

/-- Every clean operation of an array list that holds a list is one of the list. -/
theorem simulates : Simulates (step : ArrayList α → Op α → _) Clean Indexed Represents := by
  rintro l ⟨xs, n⟩ op ⟨h, rfl⟩ hclean
  cases op with
  | getItem index => exact h.getItem index
  | setItem index value => exact h.setItem index value
  | add value gives => exact h.add value gives
  | clear => exact h.clear
  | insert index value gives => exact h.insert index value gives
  | removeAt index => exact h.removeAt index
  | setCapacity newCapacity gives =>
    obtain ⟨l', r, a', hrun, hspec, hholds⟩ := h.setCapacity newCapacity gives hclean
    exact ⟨l', .result r, a', by rw [step, hrun]; rfl, hspec, hholds⟩

end ArrayList

/-!
## The native collections refine lists

The three collections over whole runs.  The queue loses its elements when it grows, because
`ObjArrayMemcpy` has its arguments of `memcpy` in the wrong order.
-/

open Library

/-- A successful `Enqueue` of a list appends the value. -/
theorem follows_enqueue {α E : Type*} {assign : Option α → E → Except Failure E}
    {a b : Bounded α} {value : Option α} {gives : ℕ → Bool} {ops : List (Queue.Op α E)}
    {answers : List (Queue.Answer α E)}
    (h : Follows (Queue.Fifo assign) a (.enqueue value gives :: ops)
      (.result (.ok ()) :: answers) b) :
    ∃ n, Follows (Queue.Fifo assign) ⟨a.list ++ [value], n⟩ ops answers b := by
  obtain ⟨a', hspec, hrest⟩ := follows_cons h
  simp only [Queue.Fifo] at hspec
  split at hspec
  · exact ⟨_, hspec.2 ▸ hrest⟩
  · cases hspec.1

end MicroFramework.Collections
