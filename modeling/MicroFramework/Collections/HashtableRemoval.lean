import MicroFramework.Collections.HashtableMethods

/-!
# Removing from a hash table

The entry of a key is unlinked: from its bucket if it is in front, and otherwise from the entry before
it, which a clone may share.
-/

namespace MicroFramework.Collections.Hashtable

open Arrays Library List

variable {K V G : Type*} {keys : Keys K} {doubles : Doubles G} {heap heap' : Heap K V}
  {table : Hashtable G} {key : K} {head : Option ℕ} {m : Map keys V} {index cur : ℕ}
  {entry : Entry K V}

/-- An entry that is not in front has one before it. -/
theorem exists_previous (hheap : Descending heap) (hhead : Below heap head)
    (hmem : (cur, entry) ∈ cellsFrom heap head) (hne : head ≠ some cur) :
    ∃ cell ∈ cellsFrom heap head, cell.2.next = some cur := by
  apply chain_induction hheap (P := fun head ↦ (cur, entry) ∈ cellsFrom heap head →
    head ≠ some cur → ∃ cell ∈ cellsFrom heap head, cell.2.next = some cur) _ _ head hhead hmem hne
  · intro hmem
    rw [cellsFrom_none] at hmem
    exact absurd hmem not_mem_nil
  · intro first found hfound ih hmem hne
    rw [cellsFrom_some hheap hfound] at hmem ⊢
    by_cases hnext : found.next = some cur
    · exact ⟨_, mem_cons_self, hnext⟩
    · rcases mem_cons.mp hmem with heq | hmem
      · exact absurd (congrArg some (Prod.mk.inj heq).1.symm) hne
      · obtain ⟨cell, hcell, hbefore⟩ := ih hmem hnext
        exact ⟨cell, mem_cons_of_mem _ hcell, hbefore⟩

def Unlinks (keys : Keys K) (heap : Heap K V) (table : Hashtable G) (key : K) (before : ℕ) : Prop :=
  ∃ index head cur entry previous, find keys heap table key = .ok (index, head, some (cur, entry)) ∧
    head ≠ some cur ∧
    ((cellsFrom heap head).find? fun cell ↦ cell.2.next = some cur) = some (before, previous)

theorem count_pred {count : ℕ} (hcount : table.count = (count + 1 : ℕ))
    (hint : table.count < 2 ^ 31) : int32 (table.count - 1) = count := by
  have hin : IsInt32 (table.count - 1) := by
    unfold IsInt32
    omega
  rw [int32_eq hin]
  omega

/-- The entry in front is unlinked from its bucket. -/
theorem remove_front (hheap : Descending heap) (h : Holds keys heap table m)
    (hhead : table.buckets[index]? = some (some cur))
    (hentry : heap[cur]? = some entry) (hequals : keys.equals entry.key key = true) :
    Holds keys heap { table with
      buckets := table.buckets.set index entry.next
      count := int32 (table.count - 1) } (m.erase (classOf keys key)) := by
  have hbelow := hheap.below hentry
  have hchain := cellsFrom_some hheap hentry
  obtain ⟨hfits, left, right, hcells, hcells'⟩ := h.fits.change hhead heap entry.next hbelow
    (by
      intro cell hcell
      apply h.fits.placed index _ hhead
      rw [hchain]
      exact mem_cons_of_mem _ hcell)
    (fun i other _ hother ↦ ⟨h.fits.below other (mem_of_getElem? hother), rfl⟩)
  have hperm : (contents heap table.buckets).Perm
      (entry.pair :: contents heap (table.buckets.set index entry.next)) := by
    rw [contents, contents, hcells, hcells', hchain]
    exact (perm_middle (a := (cur, entry))).map (fun cell : ℕ × Entry K V ↦ cell.2.pair)
  have hnumber := h.count
  rw [hperm.length_eq, length_cons] at hnumber
  have hpred := count_pred hnumber h.room
  refine ⟨hfits, (h.lists.perm hperm).erase hequals, hpred, ?_⟩
  have hroom := h.room
  show int32 (table.count - 1) < 2 ^ 31
  omega

/-- Another entry is unlinked from the one before it. -/
theorem remove_behind (hheap : Descending heap) (h : Holds keys heap table m)
    (hhead : table.buckets[index]? = some head)
    (hentry : heap[cur]? = some entry) (hequals : keys.equals entry.key key = true) {before : ℕ}
    {previous : Entry K V} (hmem : (before, previous) ∈ cellsFrom heap head)
    (hbefore : previous.next = some cur) :
    Descending (heap.set before { previous with next := entry.next }) ∧
      Holds keys (heap.set before { previous with next := entry.next })
        { table with count := int32 (table.count - 1) } (m.erase (classOf keys key)) ∧
      ∀ other, Below heap other → Avoids heap other before →
        Keeps heap (heap.set before { previous with next := entry.next }) other := by
  have hbelow := h.fits.below head (mem_of_getElem? hhead)
  have hprevious := (mem_cellsFrom hheap hbelow _ hmem).1
  obtain ⟨left, hchain⟩ := exists_append_of_mem hheap hbelow hmem
  rw [hbefore, cellsFrom_some hheap hentry] at hchain
  have hnext : ∀ next ∈ entry.next, next < before := by
    intro next hmemnext
    have hlt := hheap cur entry hentry next hmemnext
    have hlt' := hheap before previous hprevious cur hbefore
    omega
  obtain ⟨hfits, bucketsLeft, bucketsRight, hcells, hcells'⟩ :=
    change_entry { previous with next := entry.next } hheap h.fits hhead hchain rfl hnext
      (by
        intro cell hcell
        rw [hchain]
        exact mem_append_right _ (mem_cons_of_mem _ (mem_cons_of_mem _ hcell)))
  have hperm : (contents heap table.buckets).Perm (entry.pair ::
      contents (heap.set before { previous with next := entry.next }) table.buckets) := by
    have hbehind : (bucketsLeft ++ (left ++ (before, previous) :: (cur, entry) ::
        cellsFrom heap entry.next ++ bucketsRight)).Perm ((cur, entry) :: (bucketsLeft ++
          (left ++ (before, previous) :: cellsFrom heap entry.next ++ bucketsRight))) := by
      rw [append_assoc, append_assoc, cons_append, cons_append,
        cons_append, ← append_assoc, ← append_assoc]
      apply List.Perm.trans _ perm_middle
      exact (List.Perm.swap _ _ _).append_left _
    have hsame : contents (heap.set before { previous with next := entry.next }) table.buckets =
        (bucketsLeft ++ (left ++ (before, previous) :: cellsFrom heap entry.next ++
          bucketsRight)).map (fun cell ↦ cell.2.pair) := by
      rw [contents, hcells']
      simp only [map_append, map_cons, Entry.pair]
    rw [hsame, contents, hcells, hchain]
    exact hbehind.map (fun cell : ℕ × Entry K V ↦ cell.2.pair)
  have hnumber := h.count
  rw [hperm.length_eq, length_cons] at hnumber
  have hpred := count_pred hnumber h.room
  refine ⟨descending_set hheap hnext, ⟨hfits, (h.lists.perm hperm).erase hequals, hpred, ?_⟩,
    fun other hother havoids ↦ keeps_set hheap hnext hother havoids⟩
  have hroom := h.room
  show int32 (table.count - 1) < 2 ^ 31
  omega

/-- A key is erased; only the entry before the one of the key changes. -/
theorem remove_spec (hheap : Descending heap) (h : Holds keys heap table m)
    (hkey : Indexed keys key table.numberOfBuckets) :
    ∃ heap' table', remove keys heap table key = .ok (heap', table') ∧ Descending heap' ∧
      Holds keys heap' table' (m.erase (classOf keys key)) ∧
      ∀ other, Below heap other → (∀ before, Unlinks keys heap table key before →
        Avoids heap other before) → Keeps heap heap' other := by
  obtain ⟨index, head, hfind, -, hhead, hlookup⟩ := find_spec h hkey
  rw [remove, hfind]
  cases hfound : entryForKey keys heap key head with
  | none =>
    rw [hfound] at hlookup
    have herase : m.erase (classOf keys key) = m := by
      apply Finmap.ext_lookup
      intro q
      by_cases hq : q = classOf keys key
      · rw [hq, Finmap.lookup_erase, hlookup]
        rfl
      · exact Finmap.lookup_erase_ne hq
    refine ⟨heap, table, rfl, hheap, ?_, fun other hother _ ↦ ⟨hother, rfl⟩⟩
    rw [herase]
    exact h
  | some cell =>
    obtain ⟨cur, entry⟩ := cell
    obtain ⟨hmem, hequals⟩ := entryForKey_some hfound
    have hbelow := h.fits.below head (mem_of_getElem? hhead)
    have hentry := (mem_cellsFrom hheap hbelow _ hmem).1
    simp only
    by_cases hfront : head = some cur
    · rw [if_pos hfront]
      rw [hfront] at hhead
      exact ⟨heap, _, rfl, hheap, remove_front hheap h hhead hentry hequals,
        fun other hother _ ↦ ⟨hother, rfl⟩⟩
    · rw [if_neg hfront]
      cases hprevious : (cellsFrom heap head).find? fun cell ↦ cell.2.next = some cur with
      | none =>
        obtain ⟨cell, hcell, hbefore⟩ := exists_previous hheap hbelow hmem hfront
        have hnone := find?_eq_none.mp hprevious cell hcell
        exact absurd (decide_eq_true hbefore) hnone
      | some cell =>
        obtain ⟨before, previous⟩ := cell
        have hbefore : previous.next = some cur := of_decide_eq_true
          (find?_some (p := fun cell : ℕ × Entry K V ↦ cell.2.next = some cur) hprevious)
        obtain ⟨hheap', hholds, hkeeps⟩ := remove_behind hheap h hhead hentry hequals
          (mem_of_find?_eq_some hprevious) hbefore
        rw [hfound] at hfind
        exact ⟨_, _, rfl, hheap', hholds, fun other hother havoids ↦ hkeeps other hother
          (havoids before ⟨index, head, cur, entry, previous, hfind, hfront, hprevious⟩)⟩

/-! ## New tables -/

theorem lists_empty : Lists (∅ : Map keys V) ([] : List (K × Option V)) := Lists.nil

theorem new_spec (heap : Heap K V) {capacity : ℤ} (hcapacity : 0 < capacity) (maxLoadFactor : ℤ) :
    ∃ table, new doubles capacity maxLoadFactor = .ok table ∧
      Holds keys heap table (∅ : Map keys V) := by
  refine ⟨_, by rw [new, if_neg (by omega)], fits_replicate hcapacity, ?_, ?_,
    (by decide : (0 : ℤ) < 2 ^ 31)⟩
  · rw [contents_replicate]
    exact lists_empty
  · rw [contents_replicate]
    rfl

theorem clear_spec (heap : Heap K V) (table : Hashtable G) :
    Holds keys heap table.clear (∅ : Map keys V) := by
  refine ⟨fits_replicate (by decide : (0 : ℤ) < 4), ?_, ?_, (by decide : (0 : ℤ) < 2 ^ 31)⟩
  · rw [clear, contents_replicate]
    exact lists_empty
  · rw [clear, contents_replicate]
    rfl

theorem clone_spec (h : Holds keys heap table m) :
    ∃ table', table.clone doubles = .ok table' ∧ Holds keys heap table' m := by
  have hpos := h.fits.pos
  have hsize := h.fits.size
  have htake : table.buckets.take table.numberOfBuckets.toNat = table.buckets :=
    take_of_length_le (by omega)
  rw [clone, new, if_neg (by omega)]
  simp only
  rw [if_neg (by omega), htake]
  exact ⟨_, rfl, h.fits, h.lists, h.count, h.room⟩

/-!
## Enumerating a hash table

The enumerator goes from entry to entry and from bucket to bucket; what it has still to give is the
rest of the chain and the buckets behind it.
-/

variable {K V G : Type*} {keys : Keys K} {heap : Heap K V} {table : Hashtable G}

/-- What the enumerator has still to give: behind the entry, and in the buckets from the next on. -/
def Pending (heap : Heap K V) (table : Hashtable G) (e : Enumerator)
    (rest : List (ℕ × Entry K V)) : Prop :=
  ∃ next : ℕ, e.index = (next : ℤ) - 1 ∧
    rest = cellsFrom heap (e.temp.bind fun temp ↦ heap[temp]?.bind Entry.next) ++
      cells heap (table.buckets.drop next)

/-- `MoveNext` comes to the first of what is left, or says that there is nothing. -/
def Moves (heap : Heap K V) (table : Hashtable G)
    (result : Except HashtableException (Bool × Enumerator)) : List (ℕ × Entry K V) → Prop
  | [] => ∃ e, result = .ok (false, e)
  | cell :: rest => ∃ e, result = .ok (true, e) ∧ e.temp = some cell.1 ∧
      heap[cell.1]? = some cell.2 ∧ Pending heap table e rest

section

variable (hheap : Descending heap)

include hheap

theorem moves_first {cur next : ℕ} {entry : Entry K V} {index : ℤ}
    (hentry : heap[cur]? = some entry) (hindex : index = (next : ℤ) - 1) :
    Moves heap table (.ok (true, ⟨index, some cur⟩))
      (cellsFrom heap (some cur) ++ cells heap (table.buckets.drop next)) := by
  rw [cellsFrom_some hheap hentry]
  refine ⟨_, rfl, rfl, hentry, next, hindex, ?_⟩
  rw [Option.bind_some, hentry]
  rfl

section

variable (hfits : Fits keys heap table.numberOfBuckets table.buckets)

include hfits

theorem moveNext_bucket (turns next : ℕ) (hturns : table.buckets.length ≤ turns + next) :
    Moves heap table (moveNext heap table turns ⟨(next : ℤ) - 1, none⟩)
      (cells heap (table.buckets.drop next)) := by
  have hsize := hfits.size
  induction turns generalizing next with
  | zero =>
    rw [List.drop_eq_nil_of_le (by omega)]
    exact ⟨_, rfl⟩
  | succ turns ih =>
    have hindex : (next : ℤ) - 1 + 1 = next := by omega
    rw [moveNext]
    simp only [hindex]
    by_cases hlt : next < table.buckets.length
    · have hat := List.getElem?_eq_getElem hlt
      have hbucket : bucketAt table.buckets next = some table.buckets[next] := by
        rw [bucketAt, if_pos (by omega), Int.toNat_natCast, hat]
      have hcells : cells heap (table.buckets.drop next) =
          cellsFrom heap table.buckets[next] ++ cells heap (table.buckets.drop (next + 1)) := by
        rw [List.drop_eq_getElem_cons hlt, cells, List.flatMap_cons]
        rfl
      rw [if_pos (by omega), hbucket, hcells]
      cases hhead : table.buckets[next] with
      | none =>
        have hnext : (next : ℤ) = ((next + 1 : ℕ) : ℤ) - 1 := by omega
        rw [cellsFrom_none, List.nil_append, hnext]
        exact ih (next + 1) (by omega)
      | some first =>
        rw [hhead] at hat
        obtain ⟨entry, hentry⟩ := (hfits.below _ (List.mem_of_getElem? hat)).exists
        exact moves_first hheap hentry (by omega)
    · rw [if_neg (by omega), List.drop_eq_nil_of_le (by omega)]
      exact ⟨_, rfl⟩

variable {e : Enumerator} {rest : List (ℕ × Entry K V)}

/-- From entry to entry. -/
theorem moveNext_spec (hpending : Pending heap table e rest) :
    Moves heap table (moveNext heap table (table.buckets.length + 2) e) rest := by
  obtain ⟨next, hindex, rfl⟩ := hpending
  obtain ⟨index, temp⟩ := e
  simp only at hindex
  cases temp with
  | none =>
    rw [Option.bind_none, cellsFrom_none, List.nil_append, hindex]
    exact moveNext_bucket hheap hfits _ next (by omega)
  | some cur =>
    rw [moveNext, Option.bind_some]
    simp only
    cases hnext : heap[cur]?.bind Entry.next with
    | none =>
      rw [cellsFrom_none, List.nil_append, hindex]
      exact moveNext_bucket hheap hfits (table.buckets.length + 1) next (by omega)
    | some first =>
      obtain ⟨found, hfound, hfirst⟩ := Option.bind_eq_some_iff.mp hnext
      have hbelow := hheap.below hfound
      rw [hfirst] at hbelow
      obtain ⟨entry, hentry⟩ := hbelow.exists
      exact moves_first hheap hentry hindex

theorem enumerateFrom_spec {turns : ℕ} (hpending : Pending heap table e rest)
    (hturns : rest.length < turns) :
    enumerateFrom heap table turns e = .ok (rest.map fun cell ↦ cell.2.pair) := by
  induction turns generalizing e rest with
  | zero => exact absurd hturns (Nat.not_lt_zero _)
  | succ turns ih =>
    have hmoves := moveNext_spec hheap hfits hpending
    rw [enumerateFrom]
    cases rest with
    | nil =>
      obtain ⟨e', hresult⟩ := hmoves
      rw [hresult]
      rfl
    | cons cell rest =>
      obtain ⟨e', hresult, htemp, hentry, hpending'⟩ := hmoves
      rw [List.length_cons] at hturns
      rw [hresult]
      simp only [htemp, Option.bind_some, hentry]
      rw [ih hpending' (by omega)]
      rfl

end

end

/-! ## The number of turns -/

theorem chain_length_le (turns : ℕ) (head : Option ℕ) : (chain heap turns head).length ≤ turns := by
  induction turns generalizing head with
  | zero => exact Nat.le_refl 0
  | succ turns ih =>
    cases head with
    | none => exact Nat.zero_le _
    | some cur =>
      rw [chain]
      split
      · exact Nat.zero_le _
      · exact Nat.succ_le_succ (ih _)

theorem cells_length_le (buckets : Buckets) :
    (cells heap buckets).length ≤ buckets.length * heap.length := by
  induction buckets with
  | nil => exact Nat.zero_le _
  | cons head buckets ih =>
    have hchain : (cellsFrom heap head).length ≤ heap.length := chain_length_le _ head
    rw [cells, List.flatMap_cons, List.length_append, List.length_cons, Nat.succ_mul, Nat.add_comm]
    exact Nat.add_le_add ih hchain

theorem enumerate_eq (hheap : Descending heap)
    (hfits : Fits keys heap table.numberOfBuckets table.buckets) :
    enumerate heap table = .ok (contents heap table.buckets) := by
  apply enumerateFrom_spec hheap hfits
  · refine ⟨0, by simp, ?_⟩
    rw [Option.bind_none, cellsFrom_none, List.nil_append, List.drop_zero]
  · exact Nat.lt_succ_of_le (cells_length_le table.buckets)

end MicroFramework.Collections.Hashtable
