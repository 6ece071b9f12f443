import MicroFramework.Collections.HashChains
import MicroFramework.Library.FiniteMaps

/-!
# Methods of a hash table

A table holds a finite map on the classes of equal keys: its chains list the keys with their values.
Each method changes the map as it should, as long as the count is right, the indices of the keys are
indices of buckets, and the entries that it changes belong to no other table.
-/

namespace MicroFramework.Collections.Hashtable

open Arrays Library List

variable {K V G : Type*} {keys : Keys K} {doubles : Doubles G} {heap heap' : Heap K V}
  {table : Hashtable G} {key : K} {value : Option V} {buckets : Buckets} {head : Option ℕ}

/-! ## A heap with new entries -/

/-- There are new entries, and the old chains are as before. -/
structure Grown (heap heap' : Heap K V) : Prop where
  descending : Descending heap'
  keeps : ∀ head, Below heap head → Keeps heap heap' head

theorem Grown.refl (hheap : Descending heap) : Grown heap heap :=
  ⟨hheap, fun _ hhead ↦ ⟨hhead, rfl⟩⟩

variable {heap'' : Heap K V}

theorem Keeps.trans (h : Keeps heap heap' head) (h' : Grown heap' heap'') :
    Keeps heap heap'' head := by
  obtain ⟨hbelow, heq⟩ := h'.keeps head h.1
  exact ⟨hbelow, heq.trans h.2⟩

theorem Grown.trans (h : Grown heap heap') (h' : Grown heap' heap'') :
    Grown heap heap'' :=
  ⟨h'.descending, fun head hhead ↦ (h.keeps head hhead).trans h'⟩

variable {entry : Entry K V}

theorem grown_append (hheap : Descending heap)
    (hnext : Below heap entry.next) : Grown heap (heap ++ [entry]) := by
  refine ⟨descending_append hheap hnext, fun head hhead ↦ ⟨?_, ?_⟩⟩
  · apply hhead.mono
    rw [length_append]
    exact Nat.le_add_right _ _
  · exact cellsFrom_append hheap hnext hhead

/-! ## Adding -/

theorem addTo_new (hheap : Descending heap) (hfits : Fits keys heap table.numberOfBuckets buckets)
    (hkey : Indexed keys key table.numberOfBuckets)
    (hnew : ∀ cell ∈ cells heap buckets, ¬ keys.equals cell.2.key key = true)
    (value : Option V) (overwrite : Bool) :
    ∃ heap' buckets', addTo keys heap table buckets key value overwrite =
        .ok (heap', table.counted, buckets') ∧ Grown heap heap' ∧
      Fits keys heap' table.numberOfBuckets buckets' ∧
        (contents heap' buckets').Perm ((key, value) :: contents heap buckets) := by
  obtain ⟨index, head, hwhich, hindex, hhead⟩ := whichBucket_eq hfits hkey
  have hbelow : Below heap head := hfits.below head (mem_of_getElem? hhead)
  have hgrown : Grown heap (heap ++ [⟨key, value, head⟩]) := grown_append hheap hbelow
  have hchain : cellsFrom (heap ++ [⟨key, value, head⟩]) (some heap.length) =
      (heap.length, ⟨key, value, head⟩) :: cellsFrom heap head := cellsFrom_new hheap hbelow
  obtain ⟨hfits', left, right, hcells, hcells'⟩ := hfits.change hhead
    (heap ++ [⟨key, value, head⟩]) (some heap.length) (below_some getElem?_concat_length)
    (by
      intro cell hcell
      rw [hchain] at hcell
      rcases mem_cons.mp hcell with rfl | hcell
      · exact hindex
      · exact hfits.placed index head hhead cell hcell)
    (fun i other _ hother ↦ hgrown.keeps other (hfits.below other (mem_of_getElem? hother)))
  refine ⟨_, _, ?_, hgrown, hfits', ?_⟩
  · rw [addTo, hwhich]
    simp only
    rw [(entryForKey_none hfits hindex hhead).mpr hnew]
  · rw [contents, contents, hcells, hcells', hchain]
    exact (perm_middle (a := (heap.length, (⟨key, value, head⟩ : Entry K V)))).map
      (fun cell ↦ cell.2.pair)

variable {index cur : ℕ}

variable {cell : ℕ × Entry K V}

theorem addTo_exists
    (hwhich : whichBucket keys buckets key table.numberOfBuckets = .ok (index, head))
    (hfound : entryForKey keys heap key head = some cell) (value : Option V) :
    addTo keys heap table buckets key value false = .error .keyExists := by
  rw [addTo, hwhich]
  simp only
  rw [hfound]
  rfl

/-- The chains that do not pass through an entry. -/
def Avoids (heap : Heap K V) (head : Option ℕ) (cur : ℕ) : Prop :=
  ∀ cell ∈ cellsFrom heap head, cell.1 ≠ cur

theorem keeps_set (hheap : Descending heap)
    (hnext : ∀ next ∈ entry.next, next < cur) (hhead : Below heap head)
    (havoids : Avoids heap head cur) : Keeps heap (heap.set cur entry) head := by
  refine ⟨?_, cellsFrom_set_of_forall_ne hheap hnext hhead havoids⟩
  apply hhead.mono
  rw [length_set]

/-- The entry of a key is in the chain of no other bucket. -/
theorem avoids_of_ne (hheap : Descending heap)
    (hfits : Fits keys heap table.numberOfBuckets buckets) (hhead : buckets[index]? = some head)
    (hcell : cell ∈ cellsFrom heap head) {i : ℕ} {other : Option ℕ} (hne : i ≠ index)
    (hother : buckets[i]? = some other) : Avoids heap other cell.1 := by
  intro found hfound heq
  have hat := (mem_cellsFrom hheap (hfits.below head (mem_of_getElem? hhead)) cell hcell).1
  have hat' := (mem_cellsFrom hheap (hfits.below other (mem_of_getElem? hother)) found hfound).1
  rw [heq, hat] at hat'
  have hplaced := hfits.placed index head hhead cell hcell
  have hplaced' := hfits.placed i other hother found hfound
  rw [← Option.some.inj hat', hplaced] at hplaced'
  exact hne (by exact_mod_cast hplaced'.symm)

theorem change_entry (entry' : Entry K V) (hheap : Descending heap)
    (hfits : Fits keys heap table.numberOfBuckets buckets) (hhead : buckets[index]? = some head)
    {left right : List (ℕ × Entry K V)}
    (hchain : cellsFrom heap head = left ++ (cur, entry) :: right)
    (hkey : entry'.key = entry.key) (hnext : ∀ next ∈ entry'.next, next < cur)
    (hmem : ∀ cell ∈ cellsFrom heap entry'.next, cell ∈ cellsFrom heap head) :
    Fits keys (heap.set cur entry') table.numberOfBuckets buckets ∧
      ∃ before behind, cells heap buckets = before ++ (cellsFrom heap head ++ behind) ∧
        cells (heap.set cur entry') buckets =
          before ++ (left ++ (cur, entry') :: cellsFrom heap entry'.next ++ behind) := by
  have hbelow := hfits.below head (mem_of_getElem? hhead)
  have hchain' := cellsFrom_set hheap hnext hbelow hchain
  have hcell : (cur, entry) ∈ cellsFrom heap head := by
    rw [hchain]
    exact mem_append_right _ mem_cons_self
  have hchange := hfits.change hhead (heap.set cur entry') head
    (by
      apply hbelow.mono
      rw [length_set])
    (by
      intro cell hcell'
      rw [hchain'] at hcell'
      rcases mem_append.mp hcell' with hleft | hright
      · apply hfits.placed index head hhead
        rw [hchain]
        exact mem_append_left _ hleft
      · rcases mem_cons.mp hright with rfl | hright
        · have hplaced := hfits.placed index head hhead _ hcell
          show hash keys entry'.key table.numberOfBuckets = index
          rw [hkey]
          exact hplaced
        · exact hfits.placed index head hhead cell (hmem cell hright))
    (fun i other hne hother ↦ keeps_set hheap hnext
      (hfits.below other (mem_of_getElem? hother))
      (avoids_of_ne hheap hfits hhead hcell hne hother))
  have hsame : buckets.set index head = buckets := by
    obtain ⟨hlt, hget⟩ := List.getElem?_eq_some_iff.mp hhead
    rw [← hget, set_getElem_self]
  rw [hsame, hchain'] at hchange
  exact hchange

/-- A key that is there gets another value. -/
theorem addTo_old (hheap : Descending heap) (hfits : Fits keys heap table.numberOfBuckets buckets)
    (hwhich : whichBucket keys buckets key table.numberOfBuckets = .ok (index, head))
    (hhead : buckets[index]? = some head)
    (hfound : entryForKey keys heap key head = some (cur, entry)) (value : Option V) :
    ∃ heap', addTo keys heap table buckets key value true = .ok (heap', table.counted, buckets) ∧
      Descending heap' ∧ Fits keys heap' table.numberOfBuckets buckets ∧
      (∃ rest, (contents heap buckets).Perm ((entry.key, entry.value) :: rest) ∧
        (contents heap' buckets).Perm ((entry.key, value) :: rest)) ∧
      ∀ other, Below heap other → Avoids heap other cur → Keeps heap heap' other := by
  have hbelow := hfits.below head (mem_of_getElem? hhead)
  have hmem := (entryForKey_some hfound).1
  obtain ⟨left, hchain⟩ := exists_append_of_mem hheap hbelow hmem
  have hnext := hheap cur entry (mem_cellsFrom hheap hbelow _ hmem).1
  obtain ⟨hfits', before, behind, hcells, hcells'⟩ :=
    change_entry { entry with value := value } hheap hfits hhead hchain rfl hnext
      (by
        intro cell hcell
        rw [hchain]
        exact mem_append_right _ (mem_cons_of_mem _ hcell))
  refine ⟨heap.set cur { entry with value := value }, ?_, descending_set hheap hnext, hfits',
    ⟨(before ++ (left ++ (cellsFrom heap entry.next ++ behind))).map fun cell ↦ cell.2.pair, ?_, ?_⟩,
    fun other hother havoids ↦ keeps_set hheap hnext hother havoids⟩
  · rw [addTo, hwhich]
    simp only
    rw [hfound]
    rfl
  · rw [contents, hcells, hchain, append_assoc, cons_append]
    exact ((List.perm_middle.append_left before).trans perm_middle).map
      (fun cell : ℕ × Entry K V ↦ cell.2.pair)
  · rw [contents, hcells', append_assoc, cons_append]
    exact ((List.perm_middle.append_left before).trans perm_middle).map
      (fun cell : ℕ × Entry K V ↦ cell.2.pair)

/-! ## Rehashing -/

theorem counted_count {count : ℕ} (hcount : table.count = count) (hroom : (count : ℤ) + 1 < 2 ^ 31) :
    table.counted.count = (count + 1 : ℕ) := by
  have hin : IsInt32 ((count : ℤ) + 1) := by
    unfold IsInt32
    omega
  calc table.counted.count = int32 (table.count + 1) := rfl
    _ = (count : ℤ) + 1 := by rw [hcount, int32_eq hin]
    _ = (count + 1 : ℕ) := by omega

/-- The loop adds the entries that are left. -/
theorem rehashLoop_spec (table : Hashtable G) (rest : List (ℕ × Entry K V)) (hheap : Descending heap)
    (hfits : Fits keys heap table.numberOfBuckets buckets)
    (hcount : table.count = (contents heap buckets).length)
    (hroom : ((contents heap buckets).length : ℤ) + rest.length < 2 ^ 31)
    (hkeys : ∀ cell ∈ rest, Indexed keys cell.2.key table.numberOfBuckets)
    (hdistinct : rest.Pairwise fun p q ↦ ¬ keys.equals p.2.key q.2.key = true)
    (hfresh : ∀ pair ∈ contents heap buckets, ∀ cell ∈ rest,
      ¬ keys.equals pair.1 cell.2.key = true) :
    ∃ heap' table' newTable, rehashLoop keys heap table buckets rest =
        (heap', table', .ok newTable) ∧ Grown heap heap' ∧
      table'.numberOfBuckets = table.numberOfBuckets ∧
      Fits keys heap' table'.numberOfBuckets newTable ∧
      table'.count = (contents heap' newTable).length ∧
      (contents heap' newTable).Perm
        (rest.map (fun cell ↦ cell.2.pair) ++ contents heap buckets) := by
  induction rest generalizing heap table buckets with
  | nil => exact ⟨heap, table, buckets, rfl, .refl hheap, rfl, hfits, hcount, List.Perm.refl _⟩
  | cons cell rest ih =>
    obtain ⟨number, cur⟩ := cell
    rw [length_cons] at hroom
    obtain ⟨heap₁, buckets₁, hadd, hgrown, hfits₁, hperm⟩ := addTo_new hheap hfits
      (hkeys _ mem_cons_self)
      (fun cell hcell ↦ hfresh _ (mem_map_of_mem hcell) _ mem_cons_self) cur.value false
    have hlength := hperm.length_eq
    rw [length_cons] at hlength
    have hcount₁ : table.counted.count = (contents heap₁ buckets₁).length := by
      rw [hlength]
      exact counted_count hcount (by push_cast at hroom ⊢; omega)
    obtain ⟨hfirst, hdistinct₁⟩ := pairwise_cons.mp hdistinct
    have hfresh₁ : ∀ pair ∈ contents heap₁ buckets₁, ∀ cell ∈ rest,
        ¬ keys.equals pair.1 cell.2.key = true := by
      intro pair hpair cell hcell
      rcases mem_cons.mp (hperm.mem_iff.mp hpair) with rfl | hpair
      · exact hfirst cell hcell
      · exact hfresh pair hpair cell (mem_cons_of_mem _ hcell)
    obtain ⟨heap₂, table₂, newTable, hloop, hgrown₂, hsize, hfits₂, hcount₂, hperm₂⟩ :=
      ih table.counted hgrown.descending hfits₁ hcount₁ (by rw [hlength]; push_cast at hroom ⊢; omega)
        (fun cell hcell ↦ hkeys cell (mem_cons_of_mem _ hcell)) hdistinct₁ hfresh₁
    refine ⟨heap₂, table₂, newTable, ?_, hgrown.trans hgrown₂, hsize, hfits₂, hcount₂, ?_⟩
    · rw [rehashLoop, hadd]
      exact hloop
    · exact hperm₂.trans ((hperm.append_left _).trans perm_middle)

theorem rehash_spec (table : Hashtable G) (hheap : Descending heap) {newSize : ℤ} (hsize : 0 < newSize)
    (hroom : ((contents heap table.buckets).length : ℤ) < 2 ^ 31)
    (hkeys : ∀ pair ∈ contents heap table.buckets, Indexed keys pair.1 newSize)
    (hdistinct : (contents heap table.buckets).Pairwise fun p q ↦ ¬ keys.equals p.1 q.1 = true) :
    ∃ heap' table', rehash keys heap table newSize = (heap', table', none) ∧ Grown heap heap' ∧
      Fits keys heap' table'.numberOfBuckets table'.buckets ∧
      table'.count = (contents heap' table'.buckets).length ∧
      (contents heap' table'.buckets).Perm (contents heap table.buckets) := by
  have hempty : contents heap (replicate newSize.toNat none) = [] := contents_replicate _
  rw [contents, length_map] at hroom
  obtain ⟨heap', table', newTable, hloop, hgrown, hsame, hfits, hcount, hperm⟩ :=
    rehashLoop_spec { table with numberOfBuckets := newSize, count := 0 }
      (cells heap table.buckets) hheap (fits_replicate hsize : Fits keys heap newSize _)
      (by rw [hempty]; rfl) (by rw [hempty]; simpa using hroom)
      (fun cell hcell ↦ hkeys _ (mem_map_of_mem hcell)) (pairwise_map.mp hdistinct)
      (by rw [hempty]; exact fun pair hpair ↦ absurd hpair not_mem_nil)
  rw [hempty, append_nil] at hperm
  refine ⟨heap', { table' with buckets := newTable }, ?_, hgrown, hfits, hcount, hperm⟩
  rw [rehash, if_neg (by omega), hloop]

/-! ## The finite map of a table -/

/-- Equal keys are equivalent. -/
def setoid (keys : Keys K) : Setoid K where
  r a b := keys.equals a b = true
  iseqv := ⟨keys.refl, keys.symm, keys.trans⟩

instance : DecidableEq (Quotient (setoid keys)) :=
  @Quotient.decidableEq K (setoid keys) fun a b ↦
    inferInstanceAs (Decidable (keys.equals a b = true))

abbrev Map (keys : Keys K) (V : Type*) := Finmap fun _ : Quotient (setoid keys) ↦ Option V

def classOf (keys : Keys K) (key : K) : Quotient (setoid keys) := Quotient.mk (setoid keys) key

/-- A table holds a map: its chains list it, and its count is right. -/
structure Holds (keys : Keys K) (heap : Heap K V) (table : Hashtable G) (m : Map keys V) : Prop where
  fits : Fits keys heap table.numberOfBuckets table.buckets
  lists : Lists m (contents heap table.buckets)
  count : table.count = (contents heap table.buckets).length
  room : table.count < 2 ^ 31

variable {m : Map keys V}

/-- What is found is what the map says. -/
theorem find_spec (h : Holds keys heap table m) (hkey : Indexed keys key table.numberOfBuckets) :
    ∃ index head, find keys heap table key = .ok (index, head, entryForKey keys heap key head) ∧
      whichBucket keys table.buckets key table.numberOfBuckets = .ok (index, head) ∧
      table.buckets[index]? = some head ∧
      m.lookup (classOf keys key) = (entryForKey keys heap key head).map fun cell ↦ cell.2.value := by
  obtain ⟨index, head, hwhich, hindex, hhead⟩ := whichBucket_eq h.fits hkey
  refine ⟨index, head, by rw [find, hwhich]; rfl, hwhich, hhead, ?_⟩
  cases hfound : entryForKey keys heap key head with
  | none =>
    have hnone := (entryForKey_none h.fits hindex hhead).mp hfound
    apply Finmap.lookup_eq_none.mpr
    intro hmem
    obtain ⟨pair, hpair, hequals⟩ := h.lists.mem_iff.mp hmem
    obtain ⟨cell, hcell, rfl⟩ := mem_map.mp hpair
    exact hnone cell hcell hequals
  | some cell =>
    obtain ⟨hmem, hequals⟩ := entryForKey_some hfound
    exact h.lists.lookup_eq (mem_map_of_mem (mem_cells_of_mem hhead hmem)) hequals

/-- Chains that are kept hold what they held. -/
theorem Holds.keeps (h : Holds keys heap table m)
    (hkeeps : ∀ head ∈ table.buckets, Keeps heap heap' head) : Holds keys heap' table m := by
  have hcontents : contents heap' table.buckets = contents heap table.buckets := by
    rw [contents, contents, Keeps.cells hkeeps]
  refine ⟨⟨h.fits.pos, h.fits.size, fun head hhead ↦ (hkeeps head hhead).1, ?_⟩, ?_, ?_, h.room⟩
  · intro index head hhead cell hcell
    rw [(hkeeps head (mem_of_getElem? hhead)).2] at hcell
    exact h.fits.placed index head hhead cell hcell
  · rw [hcontents]
    exact h.lists
  · rw [hcontents]
    exact h.count

/-! ## Storing -/

/-- One more entry makes the load too high. -/
def Overloaded (table : Hashtable G) : Prop :=
  table.maxLoadFactor ≤ (table.count + 1).tdiv table.numberOfBuckets

instance (table : Hashtable G) : Decidable table.Overloaded :=
  inferInstanceAs (Decidable (_ ≤ _))

/-- The number of buckets after rehashing. -/
def newSize (doubles : Doubles G) (table : Hashtable G) : ℤ :=
  doubles.scaled table.numberOfBuckets table.growthFactor

/-- A key can be stored: its index is one of a bucket, there is room for one more, and where the
table is rehashed there are buckets again, and indices for all keys. -/
structure Storable (keys : Keys K) (doubles : Doubles G) (heap : Heap K V) (table : Hashtable G)
    (key : K) : Prop where
  indexed : Indexed keys key table.numberOfBuckets
  room : table.count + 1 < 2 ^ 31
  size : table.Overloaded → 0 < newSize doubles table
  rehashed : table.Overloaded → Indexed keys key (newSize doubles table) ∧
    ∀ pair ∈ contents heap table.buckets, Indexed keys pair.1 (newSize doubles table)

/-- What follows on adding: the table is rehashed if the load is too high. -/
theorem store_of_addTo {heap₁ : Heap K V} {buckets₁ : Buckets} {overwrite : Bool}
    (hadd : addTo keys heap table table.buckets key value overwrite =
      .ok (heap₁, table.counted, buckets₁))
    (hheap : Descending heap₁) (hfits : Fits keys heap₁ table.numberOfBuckets buckets₁)
    (hlists : Lists m (contents heap₁ buckets₁)) (hstorable : Storable keys doubles heap table key)
    (hnonneg : 0 ≤ table.count) (hroom : ((contents heap₁ buckets₁).length : ℤ) < 2 ^ 31)
    (hkeys : ∀ pair ∈ contents heap₁ buckets₁,
      pair.1 = key ∨ ∃ other ∈ contents heap table.buckets, pair.1 = other.1)
    (hcount : table.Overloaded ∨ table.count + 1 = (contents heap₁ buckets₁).length) :
    ∃ heap' table', store keys doubles heap table key value overwrite = (heap', table', none) ∧
      Grown heap₁ heap' ∧ Holds keys heap' table' m := by
  have hone : int32 (table.count + 1) = table.count + 1 := by
    have hlt := hstorable.room
    apply int32_eq
    unfold IsInt32
    omega
  have hload : table.counted.loadFactor = (table.count + 1).tdiv table.numberOfBuckets := by
    rw [← hone]
    rfl
  have hunfold : store keys doubles heap table key value overwrite =
      if table.Overloaded then
        rehash keys heap₁ { table.counted with buckets := buckets₁ } (newSize doubles table)
      else (heap₁, { table.counted with buckets := buckets₁ }, none) := by
    rw [store, hadd]
    simp only [hload]
    rfl
  rw [hunfold]
  by_cases hoverloaded : table.Overloaded
  · rw [if_pos hoverloaded]
    obtain ⟨hkey, hothers⟩ := hstorable.rehashed hoverloaded
    obtain ⟨heap', table', hrehash, hgrown, hfits', hcount', hperm⟩ :=
      rehash_spec { table.counted with buckets := buckets₁ } hheap
        (hstorable.size hoverloaded) hroom
        (by
          intro pair hpair
          rcases hkeys pair hpair with heq | ⟨other, hother, heq⟩
          · rw [heq]
            exact hkey
          · rw [heq]
            exact hothers other hother)
        hlists.pairwise
    refine ⟨heap', table', hrehash, hgrown, hfits', hlists.perm hperm.symm, hcount', ?_⟩
    rw [hcount', hperm.length_eq]
    exact hroom
  · rw [if_neg hoverloaded]
    have hnumber : table.counted.count = (contents heap₁ buckets₁).length := by
      rw [← hcount.resolve_left hoverloaded, ← hone]
      rfl
    exact ⟨heap₁, _, rfl, .refl hheap, hfits, hlists, hnumber, hnumber.trans_lt hroom⟩

/-- A key that is not in the map is inserted. -/
theorem store_new (hheap : Descending heap) (h : Holds keys heap table m)
    (hstorable : Storable keys doubles heap table key) (hnew : classOf keys key ∉ m)
    (value : Option V) (overwrite : Bool) :
    ∃ heap' table', store keys doubles heap table key value overwrite = (heap', table', none) ∧
      Grown heap heap' ∧ Holds keys heap' table' (m.insert (classOf keys key) value) := by
  have hfresh : ¬ ∃ pair ∈ contents heap table.buckets, setoid keys pair.1 key :=
    mt h.lists.mem_iff.mpr hnew
  obtain ⟨heap₁, buckets₁, hadd, hgrown, hfits, hperm⟩ := addTo_new hheap h.fits hstorable.indexed
    (fun cell hcell hequals ↦ hfresh ⟨_, mem_map_of_mem hcell, hequals⟩) value overwrite
  have hlists := (h.lists.cons value hfresh).perm hperm.symm
  have hlength : ((contents heap₁ buckets₁).length : ℤ) = table.count + 1 := by
    rw [hperm.length_eq, length_cons, h.count]
    omega
  obtain ⟨heap', table', hstore, hgrown', hholds⟩ := store_of_addTo hadd hgrown.descending hfits
    hlists hstorable (by rw [h.count]; omega) (by rw [hlength]; exact hstorable.room)
    (by
      intro pair hpair
      rcases mem_cons.mp (hperm.mem_iff.mp hpair) with rfl | hpair
      · exact Or.inl rfl
      · exact Or.inr ⟨pair, hpair, rfl⟩)
    (Or.inr hlength.symm)
  exact ⟨heap', table', hstore, hgrown.trans hgrown', hholds⟩

/-- A key that is in the map gets another value; its entry is the one that changes. -/
theorem store_old (hheap : Descending heap) (h : Holds keys heap table m)
    (hstorable : Storable keys doubles heap table key) (hoverloaded : table.Overloaded)
    (hfind : find keys heap table key = .ok (index, head, some (cur, entry))) (value : Option V) :
    ∃ heap' table', store keys doubles heap table key value true = (heap', table', none) ∧
      Descending heap' ∧ Holds keys heap' table' (m.insert (classOf keys key) value) ∧
      ∀ other, Below heap other → Avoids heap other cur → Keeps heap heap' other := by
  obtain ⟨index', head', hfind', hwhich, hhead, -⟩ := find_spec h hstorable.indexed
  obtain ⟨rfl, rfl, hfound⟩ : index' = index ∧ head' = head ∧
      entryForKey keys heap key head' = some (cur, entry) := by
    have heq := Except.ok.inj (hfind'.symm.trans hfind)
    exact ⟨(Prod.mk.inj heq).1, (Prod.mk.inj (Prod.mk.inj heq).2).1,
      (Prod.mk.inj (Prod.mk.inj heq).2).2⟩
  have hequals := (entryForKey_some hfound).2
  obtain ⟨heap₁, hadd, hheap₁, hfits, ⟨rest, hold, hchanged⟩, hkeeps⟩ :=
    addTo_old hheap h.fits hwhich hhead hfound value
  have hlists := ((h.lists.perm hold).replace value hequals).perm hchanged.symm
  have hlength : (contents heap₁ table.buckets).length = (contents heap table.buckets).length :=
    hchanged.length_eq.trans hold.length_eq.symm
  have hroom := hstorable.room
  rw [h.count] at hroom
  obtain ⟨heap', table', hstore, hgrown, hholds⟩ := store_of_addTo hadd hheap₁ hfits hlists hstorable
    (by rw [h.count]; omega) (by rw [hlength]; omega)
    (by
      intro pair hpair
      right
      rcases mem_cons.mp (hchanged.mem_iff.mp hpair) with rfl | hpair
      · exact ⟨_, hold.mem_iff.mpr mem_cons_self, rfl⟩
      · exact ⟨pair, hold.mem_iff.mpr (mem_cons_of_mem _ hpair), rfl⟩)
    (Or.inl hoverloaded)
  exact ⟨heap', table', hstore, hgrown.descending, hholds,
    fun other hother havoids ↦ (hkeeps other hother havoids).trans hgrown⟩

end MicroFramework.Collections.Hashtable
