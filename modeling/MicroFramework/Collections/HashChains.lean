import MicroFramework.Collections.Hashtable

/-!
# Chains of entries

An entry refers to an older one, so that the chains end.  A new entry leaves the chains of the old ones
as they are; a new value or a new reference of an entry changes the chains that pass through it.
-/

namespace MicroFramework.Collections.Hashtable

open List

variable {K V : Type*} {heap heap' : Heap K V} {head : Option ℕ} {entry : Entry K V} {cur : ℕ}

/-- The entries refer to older ones. -/
def Descending (heap : Heap K V) : Prop :=
  ∀ (cur : ℕ) (entry : Entry K V), heap[cur]? = some entry → ∀ next ∈ entry.next, next < cur

/-- The head is an entry of the heap, or there is none. -/
def Below (heap : Heap K V) (head : Option ℕ) : Prop := ∀ cur ∈ head, cur < heap.length

theorem below_none : Below heap none := by rintro cur ⟨⟩

theorem below_some (h : heap[cur]? = some entry) : Below heap (some cur) := by
  rintro other ⟨⟩
  exact (List.getElem?_eq_some_iff.mp h).1

theorem Below.mono (h : Below heap head) (hle : heap.length ≤ heap'.length) : Below heap' head :=
  fun cur hcur ↦ lt_of_lt_of_le (h cur hcur) hle

theorem Below.exists (h : Below heap (some cur)) : ∃ entry, heap[cur]? = some entry :=
  ⟨_, getElem?_eq_getElem (h cur rfl)⟩

theorem Descending.below (hheap : Descending heap) (h : heap[cur]? = some entry) :
    Below heap entry.next := by
  intro next hnext
  exact (hheap cur entry h next hnext).trans (List.getElem?_eq_some_iff.mp h).1

/-- More turns than the number of the head do not matter. -/
theorem chain_turns (hheap : Descending heap) {turns turns' : ℕ} (hle : turns ≤ turns')
    (hhead : ∀ cur ∈ head, cur < turns) : chain heap turns' head = chain heap turns head := by
  induction turns generalizing turns' head with
  | zero =>
    cases head with
    | none => cases turns' <;> rfl
    | some cur => exact absurd (hhead cur rfl) (Nat.not_lt_zero cur)
  | succ turns ih =>
    obtain ⟨more, rfl⟩ : ∃ more, turns' = more + 1 := ⟨turns' - 1, by omega⟩
    cases head with
    | none => rfl
    | some cur =>
      rw [chain, chain]
      cases hentry : heap[cur]? with
      | none => rfl
      | some entry =>
        have hnext : ∀ next ∈ entry.next, next < turns := by
          intro next hmem
          have hlt := hheap cur entry hentry next hmem
          have hcur := hhead cur rfl
          omega
        simp only
        rw [ih (by omega) hnext]

@[simp]
theorem cellsFrom_none : cellsFrom heap none = [] := by
  rw [cellsFrom]
  cases heap <;> rfl

section

variable (hheap : Descending heap)

include hheap

theorem cellsFrom_some (h : heap[cur]? = some entry) :
    cellsFrom heap (some cur) = (cur, entry) :: cellsFrom heap entry.next := by
  have hcur := (List.getElem?_eq_some_iff.mp h).1
  obtain ⟨turns, hturns⟩ : ∃ turns, heap.length = turns + 1 := ⟨heap.length - 1, by omega⟩
  have hnext : ∀ next ∈ entry.next, next < turns := by
    intro next hmem
    have hlt := hheap cur entry h next hmem
    omega
  rw [cellsFrom, cellsFrom, chain_turns hheap (by omega : turns ≤ heap.length) hnext, hturns, chain,
    h]

theorem chain_induction {P : Option ℕ → Prop} (hnone : P none)
    (hsome : ∀ (cur : ℕ) (entry : Entry K V), heap[cur]? = some entry → P entry.next →
      P (some cur)) : ∀ head, Below heap head → P head := by
  have hstep : ∀ cur, cur < heap.length → P (some cur) := by
    intro cur
    induction cur using Nat.strong_induction_on with
    | _ cur ih =>
      intro hcur
      have hentry := getElem?_eq_getElem hcur
      apply hsome cur _ hentry
      cases hnext : heap[cur].next with
      | none => exact hnone
      | some next =>
        have hlt := hheap cur _ hentry next hnext
        exact ih next hlt (hlt.trans hcur)
  intro head hhead
  cases head with
  | none => exact hnone
  | some cur => exact hstep cur (hhead cur rfl)

theorem mem_cellsFrom (hhead : Below heap head) :
    ∀ cell ∈ cellsFrom heap head, heap[cell.1]? = some cell.2 ∧ ∃ first ∈ head, cell.1 ≤ first := by
  revert hhead
  apply chain_induction hheap (P := fun head ↦ ∀ cell ∈ cellsFrom heap head,
    heap[cell.1]? = some cell.2 ∧ ∃ first ∈ head, cell.1 ≤ first)
  · intro cell hcell
    rw [cellsFrom_none] at hcell
    exact absurd hcell not_mem_nil
  · intro cur entry hentry ih cell hcell
    rw [cellsFrom_some hheap hentry] at hcell
    rcases mem_cons.mp hcell with rfl | hcell
    · exact ⟨hentry, cur, rfl, le_refl cur⟩
    · obtain ⟨hat, first, hfirst, hle⟩ := ih cell hcell
      exact ⟨hat, cur, rfl, hle.trans (hheap cur entry hentry first hfirst).le⟩

/-- Chains of the same entries are the same. -/
theorem cellsFrom_congr (hheap' : Descending heap') (hhead : Below heap head)
    (hsame : ∀ cell ∈ cellsFrom heap head, heap'[cell.1]? = some cell.2) :
    cellsFrom heap' head = cellsFrom heap head := by
  revert hsame
  apply chain_induction hheap (P := fun head ↦
    (∀ cell ∈ cellsFrom heap head, heap'[cell.1]? = some cell.2) →
      cellsFrom heap' head = cellsFrom heap head) _ _ head hhead
  · intro _
    rw [cellsFrom_none, cellsFrom_none]
  · intro cur entry hentry ih hsame
    rw [cellsFrom_some hheap hentry] at hsame ⊢
    rw [cellsFrom_some hheap' (hsame _ mem_cons_self),
      ih fun cell hcell ↦ hsame cell (mem_cons_of_mem _ hcell)]

end

/-! ## A new entry -/

theorem descending_append (hheap : Descending heap) (hnext : Below heap entry.next) :
    Descending (heap ++ [entry]) := by
  intro cur other hother next hmem
  rcases Nat.lt_or_ge cur heap.length with hlt | hge
  · rw [getElem?_append_left hlt] at hother
    exact hheap cur other hother next hmem
  · rw [getElem?_append_right hge, getElem?_singleton] at hother
    split at hother
    · obtain rfl := Option.some.inj hother
      exact lt_of_lt_of_le (hnext next hmem) hge
    · cases hother

theorem cellsFrom_append (hheap : Descending heap) (hnext : Below heap entry.next)
    (hhead : Below heap head) : cellsFrom (heap ++ [entry]) head = cellsFrom heap head := by
  apply cellsFrom_congr hheap (descending_append hheap hnext) hhead
  intro cell hcell
  have hat := (mem_cellsFrom hheap hhead cell hcell).1
  rw [List.getElem?_append_left (List.getElem?_eq_some_iff.mp hat).1]
  exact hat

theorem cellsFrom_new (hheap : Descending heap) (hnext : Below heap entry.next) :
    cellsFrom (heap ++ [entry]) (some heap.length) =
      (heap.length, entry) :: cellsFrom heap entry.next := by
  rw [cellsFrom_some (descending_append hheap hnext) getElem?_concat_length,
    cellsFrom_append hheap hnext hnext]

/-! ## An entry that changes -/

section

variable (hheap : Descending heap)

include hheap

theorem descending_set (hnext : ∀ next ∈ entry.next, next < cur) :
    Descending (heap.set cur entry) := by
  intro other found hfound next hmem
  by_cases heq : cur = other
  · subst heq
    rw [getElem?_set_self'] at hfound
    obtain ⟨_, -, rfl⟩ := Option.map_eq_some_iff.mp hfound
    exact hnext next hmem
  · rw [getElem?_set_ne heq] at hfound
    exact hheap other found hfound next hmem

theorem cellsFrom_set_of_forall_ne
    (hnext : ∀ next ∈ entry.next, next < cur) (hhead : Below heap head)
    (hne : ∀ cell ∈ cellsFrom heap head, cell.1 ≠ cur) :
    cellsFrom (heap.set cur entry) head = cellsFrom heap head := by
  apply cellsFrom_congr hheap (descending_set hheap hnext) hhead
  intro cell hcell
  rw [getElem?_set_ne (hne cell hcell).symm]
  exact (mem_cellsFrom hheap hhead cell hcell).1

theorem forall_ne_of_next (hhead : Below heap head)
    (hnext : ∀ next ∈ head, next < cur) : ∀ cell ∈ cellsFrom heap head, cell.1 ≠ cur := by
  intro cell hcell
  obtain ⟨-, first, hfirst, hle⟩ := mem_cellsFrom hheap hhead cell hcell
  have hlt := hnext first hfirst
  omega

variable {left right : List (ℕ × Entry K V)}

/-- What stands behind an entry of a chain is the chain from its reference on. -/
theorem cellsFrom_next (hhead : Below heap head)
    (hchain : cellsFrom heap head = left ++ (cur, entry) :: right) :
    cellsFrom heap entry.next = right := by
  apply chain_induction hheap (P := fun head ↦ ∀ left,
    cellsFrom heap head = left ++ (cur, entry) :: right → cellsFrom heap entry.next = right) _ _
    head hhead left hchain
  · intro left hchain
    rw [cellsFrom_none] at hchain
    exact absurd hchain.symm (append_ne_nil_of_right_ne_nil _ (cons_ne_nil _ _))
  · intro first found hfound ih left hchain
    rw [cellsFrom_some hheap hfound] at hchain
    cases left with
    | nil =>
      obtain ⟨hcell, hright⟩ := cons.inj hchain
      rw [← (Prod.mk.inj hcell).2]
      exact hright
    | cons cell left => exact ih left (cons.inj hchain).2

/-- A chain through the entry goes on with its new reference. -/
theorem cellsFrom_set {entry' : Entry K V}
    (hnext : ∀ next ∈ entry'.next, next < cur) (hhead : Below heap head)
    (hchain : cellsFrom heap head = left ++ (cur, entry) :: right) :
    cellsFrom (heap.set cur entry') head = left ++ (cur, entry') :: cellsFrom heap entry'.next := by
  have hset := descending_set hheap hnext
  apply chain_induction hheap (P := fun head ↦ ∀ left,
    cellsFrom heap head = left ++ (cur, entry) :: right →
      cellsFrom (heap.set cur entry') head = left ++ (cur, entry') :: cellsFrom heap entry'.next)
    _ _ head hhead left hchain
  · intro left hchain
    rw [cellsFrom_none] at hchain
    exact absurd hchain.symm (append_ne_nil_of_right_ne_nil _ (cons_ne_nil _ _))
  · intro first found hfound ih left hchain
    have hlt := (List.getElem?_eq_some_iff.mp hfound).1
    have hrest := hchain
    rw [cellsFrom_some hheap hfound] at hrest
    cases left with
    | nil =>
      obtain ⟨hcell, -⟩ := cons.inj hrest
      obtain rfl := (Prod.mk.inj hcell).1
      have hbelow : Below heap entry'.next := fun next hmem ↦ (hnext next hmem).trans hlt
      rw [cellsFrom_some hset (getElem?_set_self hlt),
        cellsFrom_set_of_forall_ne hheap hnext hbelow (forall_ne_of_next hheap hbelow hnext)]
      rfl
    | cons cell left =>
      obtain ⟨rfl, htail⟩ := cons.inj hrest
      have hne : cur ≠ first := by
        have hmem : (cur, entry) ∈ cellsFrom heap found.next := by
          rw [htail]
          exact mem_append_right _ mem_cons_self
        exact forall_ne_of_next hheap (hheap.below hfound) (hheap first found hfound) _ hmem
      rw [cellsFrom_some hset (by rw [getElem?_set_ne hne]; exact hfound), ih left htail]
      rfl

theorem exists_append_of_mem (hhead : Below heap head) (hmem : (cur, entry) ∈ cellsFrom heap head) :
    ∃ left, cellsFrom heap head = left ++ (cur, entry) :: cellsFrom heap entry.next := by
  obtain ⟨left, right, hchain⟩ := append_of_mem hmem
  exact ⟨left, by rw [hchain, cellsFrom_next hheap hhead hchain]⟩

end

/-!
## Buckets of a hash table

Every entry is in the bucket of its hash code, so that an equal key is found in one bucket.  Adding,
changing and removing an entry are changes of one bucket.
-/

open Arrays

variable {K V G : Type*} {keys : Keys K} {heap heap' : Heap K V} {key : K} {n : ℤ}

/-! ## The index of a bucket -/

/-- The remainder is an index: the negation of the least `int` is negative, but its remainder may be
zero. -/
def Indexed (keys : Keys K) (key : K) (numOfBuckets : ℤ) : Prop :=
  keys.getHashCode key ≠ -2 ^ 31 ∨ numOfBuckets ∣ 2 ^ 31

theorem hash_range (hn : 0 < n) (h : Indexed keys key n) :
    0 ≤ hash keys key n ∧ hash keys key n < n := by
  obtain ⟨hlo, hhi⟩ := keys.range key
  rw [hash]
  refine ⟨?_, Int.tmod_lt_of_pos _ hn⟩
  split
  · rename_i hneg
    by_cases hleast : keys.getHashCode key = -2 ^ 31
    · have hdvd := h.resolve_left (not_not_intro hleast)
      have hwrap : int32 (keys.getHashCode key * -1) = -2 ^ 31 := by
        rw [hleast]
        decide
      rw [hwrap, Int.neg_tmod, Int.tmod_eq_zero_of_dvd hdvd, neg_zero]
    · rw [int32_eq (by unfold IsInt32; omega)]
      exact Int.tmod_nonneg _ (by omega)
  · rename_i hneg
    exact Int.tmod_nonneg _ (by omega)

theorem hash_congr {a b : K} (h : keys.equals a b = true) : hash keys a n = hash keys b n := by
  rw [hash, hash, keys.consistent h]

/-! ## Entries in their buckets -/

/-- There are so many buckets, and every entry is in the one of its index. -/
structure Fits (keys : Keys K) (heap : Heap K V) (n : ℤ) (buckets : Buckets) : Prop where
  pos : 0 < n
  size : (buckets.length : ℤ) = n
  below : ∀ head ∈ buckets, Below heap head
  placed : ∀ (index : ℕ) (head : Option ℕ), buckets[index]? = some head →
    ∀ cell ∈ cellsFrom heap head, hash keys cell.2.key n = index

variable {buckets : Buckets} {index : ℕ} {head head' : Option ℕ}

/-- Empty buckets. -/
theorem fits_replicate (hn : 0 < n) : Fits keys heap n (List.replicate n.toNat none) := by
  have hnone : ∀ {index : ℕ} {head : Option ℕ},
      (List.replicate n.toNat (none : Option ℕ))[index]? = some head → head = none := by
    intro index head hhead
    exact List.eq_of_mem_replicate (List.mem_of_getElem? hhead)
  refine ⟨hn, by rw [List.length_replicate]; omega, ?_, ?_⟩
  · intro head hhead
    rw [List.eq_of_mem_replicate hhead]
    exact below_none
  · intro index head hhead cell hcell
    rw [hnone hhead, cellsFrom_none] at hcell
    exact absurd hcell List.not_mem_nil

theorem contents_replicate (count : ℕ) : contents heap (List.replicate count none) = [] := by
  rw [contents, cells, List.map_eq_nil_iff, List.flatMap_eq_nil_iff]
  intro head hhead
  rw [List.eq_of_mem_replicate hhead, cellsFrom_none]

theorem whichBucket_eq (hfits : Fits keys heap n buckets) (hkey : Indexed keys key n) :
    ∃ index head, whichBucket keys buckets key n = .ok (index, head) ∧
      hash keys key n = index ∧ buckets[index]? = some head := by
  obtain ⟨hlo, hhi⟩ := hash_range hfits.pos hkey
  have hsize := hfits.size
  have hlt : (hash keys key n).toNat < buckets.length := by omega
  have hat := List.getElem?_eq_getElem hlt
  refine ⟨(hash keys key n).toNat, buckets[(hash keys key n).toNat], ?_, by omega, hat⟩
  have hne : ¬ n = 0 := by
    have hpos := hfits.pos
    omega
  rw [whichBucket, if_neg hne, bucketAt, if_pos hlo, hat]

theorem cells_split (heap : Heap K V) (hhead : buckets[index]? = some head) :
    ∃ left right, buckets = left ++ head :: right ∧ left.length = index ∧
      cells heap buckets = cells heap left ++ (cellsFrom heap head ++ cells heap right) := by
  obtain ⟨hlt, hget⟩ := List.getElem?_eq_some_iff.mp hhead
  have hsplit : buckets = buckets.take index ++ head :: buckets.drop (index + 1) := by
    rw [← hget, List.getElem_cons_drop, List.take_append_drop]
  refine ⟨buckets.take index, buckets.drop (index + 1), hsplit,
    List.length_take_of_le hlt.le, ?_⟩
  calc cells heap buckets
      = cells heap (buckets.take index ++ head :: buckets.drop (index + 1)) := by rw [← hsplit]
    _ = _ := by rw [cells, List.flatMap_append, List.flatMap_cons]; rfl

variable {cell : ℕ × Entry K V}

theorem mem_cells_of_mem (hhead : buckets[index]? = some head)
    (hcell : cell ∈ cellsFrom heap head) : cell ∈ cells heap buckets :=
  List.mem_flatMap.mpr ⟨head, List.mem_of_getElem? hhead, hcell⟩

theorem mem_cellsFrom_of_equals (hfits : Fits keys heap n buckets)
    (hindex : hash keys key n = index) (hhead : buckets[index]? = some head)
    (hcell : cell ∈ cells heap buckets)
    (hequals : keys.equals cell.2.key key = true) : cell ∈ cellsFrom heap head := by
  obtain ⟨other, hother, hmem⟩ := List.mem_flatMap.mp hcell
  obtain ⟨i, hi⟩ := List.mem_iff_getElem?.mp hother
  have hplaced := hfits.placed i other hi cell hmem
  rw [hash_congr hequals, hindex] at hplaced
  have hsame : index = i := by exact_mod_cast hplaced
  rw [hsame, hi] at hhead
  rw [← Option.some.inj hhead]
  exact hmem

theorem entryForKey_some (h : entryForKey keys heap key head = some cell) :
    cell ∈ cellsFrom heap head ∧ keys.equals cell.2.key key = true := by
  rw [entryForKey] at h
  have hequals := List.find?_some h
  exact ⟨List.mem_of_find?_eq_some h, hequals⟩

theorem entryForKey_none (hfits : Fits keys heap n buckets)
    (hindex : hash keys key n = index) (hhead : buckets[index]? = some head) :
    entryForKey keys heap key head = none ↔
      ∀ cell ∈ cells heap buckets, ¬ keys.equals cell.2.key key = true := by
  rw [entryForKey, List.find?_eq_none]
  constructor
  · intro hnone cell hcell hequals
    exact hnone cell (mem_cellsFrom_of_equals hfits hindex hhead hcell hequals) hequals
  · intro hnone cell hcell
    exact hnone cell (mem_cells_of_mem hhead hcell)

/-! ## A bucket that changes -/

def Keeps (heap heap' : Heap K V) (head : Option ℕ) : Prop :=
  Below heap' head ∧ cellsFrom heap' head = cellsFrom heap head

theorem Keeps.cells (hkeeps : ∀ head ∈ buckets, Keeps heap heap' head) :
    cells heap' buckets = cells heap buckets := by
  rw [Hashtable.cells, Hashtable.cells, List.flatMap_def, List.flatMap_def]
  exact congrArg List.flatten (List.map_congr_left fun head hhead ↦ (hkeeps head hhead).2)

/-- The other buckets keep their entries. -/
theorem Fits.change (hfits : Fits keys heap n buckets) (hhead : buckets[index]? = some head)
    (heap' : Heap K V) (head' : Option ℕ) (hbelow : Below heap' head')
    (hplaced : ∀ cell ∈ cellsFrom heap' head', hash keys cell.2.key n = index)
    (hothers : ∀ (i : ℕ) (other : Option ℕ), i ≠ index → buckets[i]? = some other →
      Keeps heap heap' other) :
    Fits keys heap' n (buckets.set index head') ∧
      ∃ left right, cells heap buckets = left ++ (cellsFrom heap head ++ right) ∧
        cells heap' (buckets.set index head') = left ++ (cellsFrom heap' head' ++ right) := by
  have hcases : ∀ {i : ℕ} {other : Option ℕ}, (buckets.set index head')[i]? = some other →
      i = index ∧ other = head' ∨ i ≠ index ∧ buckets[i]? = some other := by
    intro i other hi
    by_cases heq : i = index
    · subst heq
      rw [List.getElem?_set_self (List.getElem?_eq_some_iff.mp hhead).1] at hi
      exact Or.inl ⟨rfl, (Option.some.inj hi).symm⟩
    · rw [List.getElem?_set_ne (Ne.symm heq)] at hi
      exact Or.inr ⟨heq, hi⟩
  constructor
  · refine ⟨hfits.pos, by rw [List.length_set]; exact hfits.size, ?_, ?_⟩
    · intro other hother
      obtain ⟨i, hi⟩ := List.mem_iff_getElem?.mp hother
      rcases hcases hi with ⟨-, rfl⟩ | ⟨hne, hi⟩
      · exact hbelow
      · exact (hothers i other hne hi).1
    · intro i other hi cell hcell
      rcases hcases hi with ⟨rfl, rfl⟩ | ⟨hne, hi⟩
      · exact hplaced cell hcell
      · rw [(hothers i other hne hi).2] at hcell
        exact hfits.placed i other hi cell hcell
  · obtain ⟨left, right, hbuckets, hleft, hcells⟩ := cells_split heap hhead
    subst hbuckets
    have hkeepsLeft : ∀ other ∈ left, Keeps heap heap' other := by
      intro other hother
      obtain ⟨i, hi⟩ := List.mem_iff_getElem?.mp hother
      have hlt := (List.getElem?_eq_some_iff.mp hi).1
      exact hothers i other (by omega) (by rw [List.getElem?_append_left hlt]; exact hi)
    have hkeepsRight : ∀ other ∈ right, Keeps heap heap' other := by
      intro other hother
      obtain ⟨i, hi⟩ := List.mem_iff_getElem?.mp hother
      apply hothers (index + 1 + i) other (by omega)
      rw [List.getElem?_append_right (by omega), hleft, Nat.add_assoc, Nat.add_sub_cancel_left,
        Nat.add_comm 1 i, List.getElem?_cons_succ]
      exact hi
    refine ⟨_, _, hcells, ?_⟩
    rw [← hleft, List.set_append_right _ _ (le_refl _), Nat.sub_self, List.set_cons_zero, cells,
      List.flatMap_append, List.flatMap_cons]
    show Hashtable.cells heap' left ++ (_ ++ Hashtable.cells heap' right) = _
    rw [Keeps.cells hkeepsLeft, Keeps.cells hkeepsRight]

end MicroFramework.Collections.Hashtable
