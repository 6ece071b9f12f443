import MicroFramework.Collections.Queue

/-!
# The native queue is first in, first out

Each operation of a queue that holds a list is matched by the list, when it does not come to
`ObjArrayMemcpy`.
-/

namespace MicroFramework.Collections.Queue

open Library Arrays List Nat Option Queue

variable {α E : Type*} {q : Queue α} {xs : Cells α} {assign : Option α → E → Except Failure E}

namespace Holds

/-! ## Reading around the ring -/

section

variable (h : q.Holds xs)

include h

theorem getElem? {i : ℕ} (hi : i < xs.length) :
    q.array[(q.head + i) % q.array.length]? = xs[i]? := by
  rw [h.cells i (hi.trans_le h.size_le), getD_eq_getElem?_getD, getElem?_eq_getElem hi]
  rfl

theorem contents_eq : q.contents = xs := by
  apply ext_getElem
  · simp [contents, h.size]
  · intro i hi hxs
    have hcell := h.getElem? hxs
    rw [getElem?_eq_getElem hxs] at hcell
    simp only [contents, getElem_map, getElem_range, getD_eq_getElem?_getD, hcell,
      getD_some]

theorem tail_eq : q.tail =
    if q.head + xs.length < q.array.length then q.head + xs.length
    else q.head + xs.length - q.array.length := by
  rw [h.tail, cell_eq h.head_lt h.size_le]

/-- The elements lie side by side, or go on at the start of the array. -/
theorem head_lt_tail_iff (hne : 0 < xs.length) :
    q.head < q.tail ↔ q.head + xs.length < q.array.length := by
  have hle := h.size_le
  rw [h.tail_eq]
  split_ifs <;> omega

/-- The cells of a range that does not wrap around are elements side by side. -/
theorem readRange_eq {i k p : ℕ} (hik : i + k ≤ xs.length)
    (hp : ∀ j < k, (q.head + (i + j)) % q.array.length = p + j)
    (hpk : p + k ≤ q.array.length) : readRange q.array p k = readRange xs i k := by
  apply ext_getElem?
  intro j
  by_cases hj : j < k
  · rw [getElem?_readRange hj, getElem?_readRange hj, ← hp j hj, h.getElem? (by omega)]
  · rw [getElem?_eq_none (by rw [length_readRange hpk]; omega),
      getElem?_eq_none (by rw [length_readRange hik]; omega)]

theorem readRange_all (hlt : q.head + xs.length < q.array.length) :
    readRange q.array q.head xs.length = xs := by
  have hread := @readRange_eq _ _ _ h 0 xs.length q.head (by omega)
    (fun j hj ↦ by rw [zero_add, mod_eq_of_lt (by omega)]) (by omega)
  rw [hread, readRange, drop_zero, take_length]

theorem readRange_first (hge : q.array.length ≤ q.head + xs.length) :
    readRange q.array q.head (q.array.length - q.head) = xs.take (q.array.length - q.head) := by
  have hlt := h.head_lt
  have hread := @readRange_eq _ _ _ h 0 (q.array.length - q.head) q.head (by omega)
    (fun j hj ↦ by rw [zero_add, mod_eq_of_lt (by omega)]) (by omega)
  rw [hread, readRange, drop_zero]

theorem readRange_second (hge : q.array.length ≤ q.head + xs.length) :
    readRange q.array 0 q.tail = xs.drop (q.array.length - q.head) := by
  have hlt := h.head_lt
  have hle := h.size_le
  have htail : q.tail = q.head + xs.length - q.array.length := by rw [h.tail_eq, if_neg (by omega)]
  have hread := @readRange_eq _ _ _ h (q.array.length - q.head) q.tail 0 (by omega)
    (fun j hj ↦ by rw [cell_eq hlt (by omega)]; split_ifs <;> omega) (by omega)
  rw [hread, readRange, take_of_length_le (by rw [length_drop]; omega)]

end

/-! ## Dequeue, peek and clear -/

theorem head_eq (h : q.Holds xs) {x : Option α} {rest : Cells α} (hxs : xs = x :: rest) :
    q.array[q.head]? = some x := by
  have hcell := @getElem? _ _ _ h 0 (by simp [hxs])
  rw [Nat.add_zero, mod_eq_of_lt h.head_lt] at hcell
  rw [hcell, hxs]
  rfl

theorem dequeue (h : q.Holds xs) : ∃ q' ans a', q.dequeue = some (q', ans) ∧
    Fifo assign ⟨xs, q.array.length⟩ .dequeue ans a' ∧ q'.Represents a' := by
  unfold Queue.dequeue
  cases hxs : xs with
  | nil =>
    rw [if_pos (by rw [h.size, hxs]; rfl)]
    exact ⟨_, _, _, rfl, ⟨rfl, rfl⟩, hxs ▸ h, rfl⟩
  | cons x rest =>
    have hlt := h.head_lt
    have hle := h.size_le
    rw [hxs, length_cons] at hle
    rw [if_neg (by rw [h.size, hxs]; exact succ_ne_zero _), h.head_eq hxs]
    refine ⟨_, _, _, rfl, ⟨rfl, rfl⟩, ?_, length_set⟩
    constructor
    case fits => simpa using h.fits
    case head_lt => simpa using mod_lt _ (by omega)
    case size =>
      rw [h.size, hxs]
      rfl
    case size_le =>
      dsimp only
      rw [length_set]
      omega
    case tail =>
      dsimp only
      rw [length_set, h.tail, hxs, length_cons, mod_add_mod]
      congr 1
      omega
    case cells =>
      dsimp only
      intro i hi
      rw [length_set] at hi ⊢
      rw [mod_add_mod, Nat.add_assoc, Nat.add_comm 1 i]
      by_cases hlast : i + 1 = q.array.length
      · -- the cell of the element that was removed
        rw [hlast, add_mod_right, mod_eq_of_lt hlt, getElem?_set_self hlt,
          getD_eq_getElem?_getD, getElem?_eq_none (by omega)]
        rfl
      · have hne : q.head ≠ (q.head + (i + 1)) % q.array.length := by
          intro heq
          have hzero : (q.head + 0) % q.array.length = (q.head + (i + 1)) % q.array.length := by
            rwa [Nat.add_zero, mod_eq_of_lt hlt]
          exact absurd ((cell_inj hlt (by omega) (by omega)).mp hzero) (by omega)
        rw [getElem?_set_ne hne, h.cells (i + 1) (by omega), hxs]
        rfl

theorem peek (h : q.Holds xs) : ∃ q' ans a', q.peek = some (q', ans) ∧
    Fifo assign ⟨xs, q.array.length⟩ .peek ans a' ∧ q'.Represents a' := by
  unfold Queue.peek
  cases hxs : xs with
  | nil =>
    rw [if_pos (by rw [h.size, hxs]; rfl)]
    exact ⟨_, _, _, rfl, ⟨rfl, rfl⟩, hxs ▸ h, rfl⟩
  | cons x rest =>
    rw [if_neg (by rw [h.size, hxs]; exact succ_ne_zero _), h.head_eq hxs]
    exact ⟨_, _, _, rfl, ⟨rfl, rfl⟩, hxs ▸ h, rfl⟩

/-- A ring of null cells holds the empty list. -/
theorem of_none {array : Cells α} (hpos : 0 < array.length) (hfits : Fits array.length)
    (hnone : ∀ p < array.length, array[p]? = some none) : Holds ⟨array, 0, 0, 0⟩ [] := by
  refine ⟨hfits, hpos, rfl, zero_le _, (zero_mod _).symm, ?_⟩
  intro i hi
  exact hnone _ (mod_lt _ hpos)

theorem cell_none (h : q.Holds xs) {p i : ℕ} (hi : i < q.array.length)
    (hp : (q.head + i) % q.array.length = p) (hout : xs.length ≤ i) :
    q.array[p]? = some none := by
  rw [← hp, h.cells i hi, getD_eq_getElem?_getD, getElem?_eq_none hout]
  rfl

theorem clear (h : q.Holds xs) : ∃ q' ans a', q.clear = some (q', ans) ∧
    Fifo assign ⟨xs, q.array.length⟩ .clear ans a' ∧ q'.Represents a' := by
  have hlt := h.head_lt
  have hle := h.size_le
  suffices hcleared : ∃ array, q.clear = some (⟨array, 0, 0, 0⟩, .result (.ok ())) ∧
      array.length = q.array.length ∧ ∀ p < q.array.length, array[p]? = some none by
    obtain ⟨array, hrun, hlength, hnone⟩ := hcleared
    refine ⟨_, _, ⟨[], _⟩, hrun, ⟨rfl, rfl⟩, of_none ?_ ?_ ?_, hlength⟩
    · omega
    · exact hlength ▸ h.fits
    · rwa [hlength]
  unfold Queue.clear
  rw [h.size]
  by_cases hpos : 0 < xs.length
  · rw [if_pos hpos]
    by_cases hwrap : q.head + xs.length < q.array.length
    · rw [if_pos ((h.head_lt_tail_iff hpos).mpr hwrap), clearElements, if_pos hwrap.le]
      refine ⟨_, rfl, length_replaceRange (by simpa using hwrap.le), ?_⟩
      intro p hp
      rw [getElem?_replaceRange (by simpa using hwrap.le), length_replicate]
      split_ifs with hin
      · rw [getElem?_replicate_of_lt (by omega)]
      · obtain ⟨i, hi, hcell⟩ := exists_cell hlt hp
        refine h.cell_none hi hcell ?_
        rw [cell_eq hlt hi.le] at hcell
        split_ifs at hcell <;> omega
    · have htail : q.tail = q.head + xs.length - q.array.length := by
        rw [h.tail_eq, if_neg hwrap]
      have hfirst : q.head + (replicate (q.array.length - q.head) (none : Option α)).length ≤
          q.array.length := by
        rw [length_replicate]
        omega
      have hlength := length_replaceRange hfirst
      have hsecond : 0 + (replicate q.tail (none : Option α)).length ≤
          (replaceRange q.array q.head (replicate (q.array.length - q.head) none)).length := by
        rw [length_replicate, hlength]
        omega
      rw [if_neg (by rw [h.head_lt_tail_iff hpos]; exact hwrap), clearElements,
        if_pos (by omega), bind_some, clearElements, if_pos (by simpa using hsecond)]
      refine ⟨_, rfl, (length_replaceRange hsecond).trans hlength, ?_⟩
      intro p hp
      rw [getElem?_replaceRange hsecond, getElem?_replaceRange hfirst, length_replicate,
        length_replicate]
      split_ifs with hin hin'
      · rw [getElem?_replicate_of_lt (by omega)]
      · rw [getElem?_replicate_of_lt (by omega)]
      · obtain ⟨i, hi, hcell⟩ := exists_cell hlt hp
        refine h.cell_none hi hcell ?_
        rw [cell_eq hlt hi.le] at hcell
        split_ifs at hcell <;> omega
  · rw [if_neg hpos]
    refine ⟨_, rfl, rfl, ?_⟩
    intro p hp
    obtain ⟨i, hi, hcell⟩ := exists_cell hlt hp
    exact h.cell_none hi hcell (by omega)

/-! ## Enqueue -/

theorem tail_lt (h : q.Holds xs) : q.tail < q.array.length := by
  rw [h.tail]
  exact mod_lt _ (by have := h.head_lt; omega)

theorem store (h : q.Holds xs) (value : Option α) (hroom : xs.length < q.array.length) :
    ∃ q', (q.store value : Option (Queue α × Answer α E)) = some (q', .result (.ok ())) ∧
      q'.Represents ⟨xs ++ [value], q.array.length⟩ := by
  have hlt := h.head_lt
  unfold Queue.store
  rw [setElement, if_pos h.tail_lt]
  refine ⟨_, rfl, ?_, length_set⟩
  constructor
  case fits => simpa using h.fits
  case head_lt => simpa using hlt
  case size => simp [h.size]
  case size_le => simpa using succ_le_of_lt hroom
  case tail =>
    dsimp only
    rw [length_set, length_append, length_singleton, h.tail, mod_add_mod,
      Nat.add_assoc]
  case cells =>
    dsimp only
    intro i hi
    rw [length_set] at hi ⊢
    rw [getD_eq_getElem?_getD]
    by_cases hlast : i = xs.length
    · rw [hlast, ← h.tail, getElem?_set_self h.tail_lt, getElem?_append_right le_rfl,
        Nat.sub_self]
      rfl
    · have hne : q.tail ≠ (q.head + i) % q.array.length := by
        rw [h.tail]
        intro heq
        exact hlast ((cell_inj hlt hroom hi).mp heq).symm
      rw [getElem?_set_ne hne, h.cells i hi, getD_eq_getElem?_getD]
      by_cases hin : i < xs.length
      · rw [getElem?_append_left hin]
      · rw [getElem?_eq_none (by omega), getElem?_eq_none (by simp; omega)]

/-- `ObjArrayMemcpy` inside the arrays leaves the array of the queue with its length. -/
theorem objArrayMemcpy_some {array cells : Cells α} {indexSrc indexDst length : ℕ}
    (hsrc : indexSrc + length ≤ array.length) (hdst : indexDst + length ≤ cells.length) :
    ∃ array', objArrayMemcpy array indexSrc cells indexDst length = some array' ∧
      array' = replaceRange array indexSrc (readRange cells indexDst length) ∧
      array'.length = array.length := by
  have hread := length_readRange hdst
  refine ⟨_, if_pos ⟨by positivity, by exact_mod_cast hsrc, by positivity, by exact_mod_cast hdst⟩,
    ?_, ?_⟩
  · rw [Int.toNat_natCast, Int.toNat_natCast]
  · rw [Int.toNat_natCast, Int.toNat_natCast, length_replaceRange (by rw [hread]; exact hsrc)]

theorem copyTo_grown (h : q.Holds xs) (hfull : xs.length = q.array.length) {cells : Cells α}
    (hcells : cells.length = q.array.length * 2) :
    ∃ array, q.copyTo assign (.objects cells) 0 = some (array, .objects cells, .ok ()) := by
  have hlt := h.head_lt
  have hfits := fits_iff.mp h.fits
  have htail : q.tail = q.head := by
    rw [h.tail_eq, if_neg (by omega)]
    omega
  unfold copyTo
  rw [h.size]
  simp only [ToArray.numOfElements]
  rw [int32_eq ⟨by omega, by omega⟩, if_neg (by omega), if_pos (by omega),
    if_neg (by omega)]
  obtain ⟨array, hfirst, -, hlength⟩ := @objArrayMemcpy_some α q.array cells q.head 0
    (q.array.length - q.head) (by omega) (by omega)
  obtain ⟨array', hsecond, -, -⟩ := @objArrayMemcpy_some α array cells 0
    (q.array.length - q.head) q.tail (by omega) (by omega)
  rw [cast_zero] at hfirst hsecond
  rw [int32_eq ⟨by omega, by omega⟩, zero_add]
  simp only [arrayCopy, hfirst, map_some, hsecond]
  exact ⟨array', rfl⟩

/-- A new array holds a list of nulls. -/
theorem of_replicate {n : ℕ} (hfits : Fits n) (hn : xs.length < n) (hnone : ∀ x ∈ xs, x = none) :
    Holds ⟨replicate n none, 0, xs.length, xs.length⟩ xs := by
  refine ⟨by simpa using hfits, by simp; omega, rfl, by simp; omega, ?_, ?_⟩
  · simp [mod_eq_of_lt hn]
  · intro i hi
    rw [length_replicate] at hi
    dsimp only
    rw [zero_add, length_replicate, mod_eq_of_lt hi, getElem?_replicate_of_lt hi,
      getD_eq_getElem?_getD]
    cases hx : xs[i]? with
    | none => rfl
    | some x => rw [hnone x (mem_of_getElem? hx)]; rfl

theorem mem_array (h : q.Holds xs) {x : Option α} (hx : x ∈ xs) : x ∈ q.array := by
  obtain ⟨i, hi⟩ := mem_iff_getElem?.mp hx
  have hlt := (List.getElem?_eq_some_iff.mp hi).1
  exact mem_of_getElem? ((h.getElem? hlt).trans hi)

/-- The growth of a full queue. -/
theorem enqueue_grown {gives : ℕ → Bool} {cells array cells' : Cells α} {r : Result}
    (value : Option α) (hfull : q.size = q.array.length)
    (hcreate : createInstance gives (q.array.length * 2) = .array cells)
    (hcopy : q.copyTo assign (.objects cells) 0 = some (array, .objects cells', r)) :
    q.enqueue assign value gives = Queue.store ⟨cells', 0, q.size, q.size⟩ value := by
  simp only [enqueue, if_pos hfull, hcreate]
  rw [hcopy]
  rfl

theorem enqueue (h : q.Holds xs) (value : Option α) (gives : ℕ → Bool)
    (hclean : q.Clean (.enqueue value gives : Op α E)) :
    ∃ q' ans a', q.enqueue assign value gives = some (q', ans) ∧
      Fifo assign ⟨xs, q.array.length⟩ (.enqueue value gives) ans a' ∧ q'.Represents a' := by
  simp only [Fifo]
  by_cases hfull : q.size = q.array.length
  · have hlen : xs.length = q.array.length := by rw [← h.size, hfull]
    cases hcreate : (createInstance gives (q.array.length * 2) : Created α) with
    | failed =>
      rw [@Bounded.roomFor_failed _ gives ⟨xs, _⟩ (· * 2) (not_lt.mpr hlen.ge) hcreate]
      refine ⟨q, _, _, ?_, ⟨rfl, rfl⟩, h, rfl⟩
      simp only [Queue.enqueue, if_pos hfull, hcreate]
    | overrun => exact absurd hcreate (createInstance_double h.fits)
    | array cells =>
      obtain ⟨hnew, hcells⟩ := createInstance_array hcreate
      have hnone : ∀ x ∈ xs, x = none := by
        rcases hclean hfull with hfailed | hnone
        · rw [hfull, hcreate] at hfailed
          cases hfailed
        · exact fun x hx ↦ hnone x (h.mem_array hx)
      have hpos := h.head_lt
      obtain ⟨array, hcopy⟩ := @copyTo_grown _ _ _ _ assign h hlen cells (by simp [hcells])
      have hgrown := of_replicate hnew (by omega) hnone
      rw [← hcells] at hgrown
      obtain ⟨q', hstore, hholds⟩ := @Holds.store α E _ _ hgrown value (by simp [hcells]; omega)
      have hlength : cells.length = q.array.length * 2 := by simp [hcells]
      dsimp only at hholds
      rw [hlength] at hholds
      rw [@Bounded.roomFor_array _ gives ⟨xs, _⟩ (· * 2) _ (not_lt.mpr hlen.ge) hcreate]
      refine ⟨q', _, _, ?_, ⟨rfl, rfl⟩, hholds⟩
      rw [enqueue_grown value hfull hcreate hcopy, h.size, hstore]
  · have hlt : xs.length < q.array.length :=
      lt_of_le_of_ne h.size_le fun heq ↦ hfull (h.size.trans heq)
    obtain ⟨q', hstore, hholds⟩ := @Holds.store α E _ _ h value hlt
    rw [@Bounded.roomFor_room _ gives ⟨xs, _⟩ (· * 2) hlt]
    refine ⟨q', _, _, ?_, ⟨rfl, rfl⟩, hholds⟩
    rw [Queue.enqueue, if_neg hfull, hstore]

/-! ## Copying to the array of a caller -/

/-- The guard of `CopyTo` rejects only ranges outside the array. -/
theorem not_rangeIn_of_guard {index : ℤ} {count num : ℕ} (hnum : num < 2 ^ 31)
    (hguard : int32 (num - index) < count) : ¬ RangeIn index count num := by
  rintro ⟨hlo, hhi⟩
  rw [int32_eq ⟨by omega, by omega⟩] at hguard
  omega

/-- An index that passes the guard is negative, or its range lies in the array. -/
theorem rangeIn_of_guard {index : ℤ} {count num : ℕ} (hnum : num < 2 ^ 31)
    (hguard : ¬ int32 (num - index) < count) (hlo : 0 ≤ index) (hindex : IsInt32 index) :
    index + count ≤ num := by
  unfold IsInt32 at hindex
  rw [int32_eq ⟨by omega, by omega⟩] at hguard
  omega

/-- `ObjArrayMemcpy` changes nothing where both ranges are the same. -/
theorem objArrayMemcpy_same {array cells : Cells α} {indexSrc indexDst length : ℕ}
    (hsrc : indexSrc + length ≤ array.length) (hdst : indexDst + length ≤ cells.length)
    (hsame : readRange array indexSrc length = readRange cells indexDst length) :
    objArrayMemcpy array indexSrc cells indexDst length = some array := by
  obtain ⟨array', hrun, rfl, -⟩ := objArrayMemcpy_some hsrc hdst
  rw [hrun, replaceRange_self]
  rw [length_readRange hdst, hsame]

/-- A copy to an array of type `Object` that has the elements already. -/
theorem copyTo_same (h : q.Holds xs) (hpos : 0 < xs.length) {cells : Cells α} {index : ℕ}
    (hlength : cells.length < 2 ^ 31) (hguard : ¬ int32 (cells.length - index) < xs.length)
    (hread : readRange cells index xs.length = xs) :
    q.copyTo assign (.objects cells) index = some (q.array, .objects cells, .ok ()) := by
  have hlt := h.head_lt
  have hle := h.size_le
  have hfits := fits_iff.mp h.fits
  have hin : index + xs.length ≤ cells.length := by
    have hlen := congrArg List.length hread
    rw [readRange, length_take, length_drop] at hlen
    omega
  unfold copyTo
  simp only [ToArray.numOfElements]
  rw [h.size, if_neg hguard, if_pos hpos]
  by_cases hwrap : q.head + xs.length < q.array.length
  · rw [if_pos ((h.head_lt_tail_iff hpos).mpr hwrap)]
    simp only [arrayCopy]
    rw [objArrayMemcpy_same hwrap.le hin (by rw [h.readRange_all hwrap, hread]), map_some]
  · have htail := h.tail_eq
    rw [if_neg hwrap] at htail
    have hfirst : readRange cells index (q.array.length - q.head) =
        xs.take (q.array.length - q.head) := by
      rw [← hread, readRange, readRange, take_take, min_eq_left (by omega)]
    have hsecond : readRange cells (index + (q.array.length - q.head)) q.tail =
        xs.drop (q.array.length - q.head) := by
      rw [← hread, readRange, readRange, drop_take, drop_drop]
      congr 1
      omega
    rw [if_neg (by rw [h.head_lt_tail_iff hpos]; exact hwrap)]
    simp only [arrayCopy]
    rw [objArrayMemcpy_same (by omega) (by omega)
      (by rw [h.readRange_first (by omega), hfirst]), map_some]
    dsimp only
    rw [int32_eq ⟨by omega, by omega⟩]
    have hmemcpy := @objArrayMemcpy_same α q.array cells 0 (index + (q.array.length - q.head))
      q.tail (by omega) (by omega) (by rw [h.readRange_second (by omega), hsecond])
    push_cast at hmemcpy
    rw [hmemcpy, map_some]

/-- Elements that are there already. -/
theorem copiedTo_same {cells : Cells α} {index : ℕ} (hread : readRange cells index xs.length = xs) :
    CopiedTo (fun x _ ↦ .ok x) xs index cells cells (.ok ()) := by
  refine ⟨rfl, fun _ _ ↦ rfl, ?_, fun _ _ ↦ rfl⟩
  intro _ k x hk
  have hlt := (List.getElem?_eq_some_iff.mp hk).1
  have hcell : cells[index + k]? = some x := by rw [← getElem?_readRange hlt, hread, hk]
  exact ⟨index + k, x, x, by push_cast; rfl, hcell, rfl, hcell⟩

/-- `CLR_RT_HeapBlock_Array::Copy` of ranges inside the arrays is the loop. -/
theorem arrayCopy_inside {array : Cells α} {elements : List E} {indexSrc indexDst length : ℕ}
    (hsrc : indexSrc + length ≤ array.length) (hdst : indexDst + length ≤ elements.length)
    (harray : array.length < 2 ^ 31) (helements : elements.length < 2 ^ 31) :
    Collections.arrayCopy assign array indexSrc elements indexDst length =
      copyElements assign (readRange array indexSrc length) elements indexDst := by
  unfold Collections.arrayCopy
  by_cases hz : length = 0
  · subst hz
    rw [if_pos rfl, readRange, take_zero]
    rfl
  · rw [if_neg hz, int32_eq ⟨by omega, by omega⟩, int32_eq ⟨by omega, by omega⟩,
      if_neg (by omega), Int.toNat_natCast, Int.toNat_natCast]

theorem arrayCopy_negative {array : Cells α} {elements : List E} {indexSrc indexDst : ℤ}
    {length : ℕ} (hpos : 0 < length) (hneg : indexDst < 0) :
    Collections.arrayCopy assign array indexSrc elements indexDst length =
      some (.error .outOfRange, elements) := by
  unfold Collections.arrayCopy
  rw [if_neg (by omega), if_pos (.inr (.inl hneg))]

/-- A copy to an array of another type, inside the array, is the loop over the elements. -/
theorem copyTo_inside (h : q.Holds xs) (hpos : 0 < xs.length) {elements : List E} {index : ℕ}
    (hlength : elements.length < 2 ^ 31) (hguard : ¬ int32 (elements.length - index) < xs.length)
    (hin : index + xs.length ≤ elements.length) :
    q.copyTo assign (.others elements) index =
      (copyElements assign xs elements index).map fun r ↦ (q.array, .others r.2, r.1) := by
  have hlt := h.head_lt
  have hle := h.size_le
  have hfits := fits_iff.mp h.fits
  unfold copyTo
  simp only [ToArray.numOfElements]
  rw [h.size, if_neg hguard, if_pos hpos]
  by_cases hwrap : q.head + xs.length < q.array.length
  · rw [if_pos ((h.head_lt_tail_iff hpos).mpr hwrap)]
    simp only [arrayCopy]
    rw [arrayCopy_inside hwrap.le hin (by omega) hlength, h.readRange_all hwrap]
  · have htail := h.tail_eq
    rw [if_neg hwrap] at htail
    have hsplit : xs.take (q.array.length - q.head) ++ xs.drop (q.array.length - q.head) = xs :=
      take_append_drop _ _
    have htake : (xs.take (q.array.length - q.head)).length = q.array.length - q.head :=
      length_take_of_le (by omega)
    rw [if_neg (by rw [h.head_lt_tail_iff hpos]; exact hwrap)]
    simp only [arrayCopy]
    rw [arrayCopy_inside (by omega) (by omega) (by omega) hlength, h.readRange_first (by omega)]
    obtain ⟨result, elements', hfirst, hcopied⟩ := copyElements_copiedTo assign
      (xs.take (q.array.length - q.head)) elements index (by omega)
    conv_rhs => rw [← hsplit, copyElements_append, hfirst]
    rw [hfirst]
    cases result with
    | error failure => rfl
    | ok _ =>
      have hlength' := hcopied.length
      dsimp only [map_some]
      rw [int32_eq ⟨by omega, by omega⟩]
      have hsecond := @arrayCopy_inside α E assign q.array elements' 0
        (index + (q.array.length - q.head)) q.tail (by omega) (by omega) (by omega) (by omega)
      push_cast at hsecond
      rw [hsecond, h.readRange_second (by omega), htake]

theorem copyTo (h : q.Holds xs) (toArray : ToArray α E) (index : ℤ)
    (hnum : toArray.numOfElements < 2 ^ 31) (hindex : IsInt32 index)
    (hclean : q.Clean (.copyTo toArray index)) :
    ∃ toArray' r, q.copyTo assign toArray index = some (q.array, toArray', r) ∧
      Copies assign xs index toArray toArray' r := by
  by_cases hguard : int32 (toArray.numOfElements - index) < q.size
  · -- the range lies outside the array
    have hrange := not_rangeIn_of_guard hnum hguard
    rw [h.size] at hrange
    refine ⟨toArray, .error .invalidParameter, by rw [Queue.copyTo, if_pos hguard], ?_⟩
    cases toArray with
    | objects cells | others elements => exact copiedTo_failed _ _ _ _ _ fun hin ↦ absurd hin hrange
  by_cases hpos : 0 < q.size
  · rw [h.size] at hguard hpos
    cases toArray with
    | objects cells =>
      rcases hclean with hz | hreject | ⟨hlo, hread⟩
      · rw [h.size] at hz
        omega
      · rw [h.size] at hreject
        exact absurd hreject hguard
      · obtain ⟨index, rfl⟩ := Int.eq_ofNat_of_zero_le hlo
        rw [h.size, h.contents_eq] at hread
        exact ⟨_, _, h.copyTo_same hpos hnum hguard hread, copiedTo_same hread⟩
    | others elements =>
      by_cases hlo : 0 ≤ index
      · have hin := rangeIn_of_guard hnum hguard hlo hindex
        obtain ⟨index, rfl⟩ := Int.eq_ofNat_of_zero_le hlo
        have hin : index + xs.length ≤ elements.length := by exact_mod_cast hin
        obtain ⟨result, elements', hrun, hcopied⟩ :=
          copyElements_copiedTo assign xs elements index hin
        refine ⟨.others elements', result, ?_, hcopied⟩
        rw [h.copyTo_inside hpos hnum hguard hin, hrun]
        rfl
      · refine ⟨.others elements, .error .outOfRange, ?_,
          copiedTo_failed _ _ _ _ _ fun hin ↦ absurd hin.1 hlo⟩
        have hlt := h.head_lt
        unfold Queue.copyTo
        rw [h.size, if_neg hguard, if_pos hpos]
        split_ifs with hwrap
        · simp only [arrayCopy]
          rw [arrayCopy_negative hpos (by omega)]
          rfl
        · simp only [arrayCopy]
          rw [arrayCopy_negative (by omega) (by omega)]
          rfl
  · refine ⟨toArray, .ok (), by rw [Queue.copyTo, if_neg hguard, if_neg hpos], ?_⟩
    have hnil : xs = [] := length_eq_zero_iff.mp (by rw [← h.size]; omega)
    rw [hnil]
    cases toArray with
    | objects cells | others elements => exact copiedTo_nil _ _ _

end Holds

theorem new_represents : (new : Queue α).Represents ⟨[], 4⟩ := by
  refine ⟨?_, rfl⟩
  apply Holds.of_none
  · simp
  · exact fits_iff.mpr (by simp)
  · intro p hp
    rw [length_replicate] at hp
    exact getElem?_replicate_of_lt hp

/-- Every clean operation of a queue that holds a list is one of the list. -/
theorem simulates (assign : Option α → E → Except Failure E) :
    Simulates (step assign) (fun q op ↦ op.Valid ∧ q.Clean op) (Fifo assign) Represents := by
  rintro q ⟨xs, n⟩ op ⟨h, rfl⟩ hclean
  cases op with
  | enqueue value gives => exact h.enqueue value gives hclean.2
  | dequeue => exact h.dequeue
  | peek => exact h.peek
  | clear => exact h.clear
  | copyTo toArray index =>
    obtain ⟨toArray', r, hrun, hcopies⟩ :=
      @Holds.copyTo _ _ _ _ assign h toArray index hclean.1.1 hclean.1.2 hclean.2
    refine ⟨q, _, _, ?_, ⟨rfl, toArray', r, rfl, hcopies⟩, h, rfl⟩
    rw [step, hrun]
    rfl

end MicroFramework.Collections.Queue
