import MicroFramework.Library.Runs
import MicroFramework.SimpleHeap.Layout

/-!
# What the allocator does to the list of blocks

`allocate` uses the first free block that fits, or its end; `release` frees a block and merges it
with its free neighbours, so that no two free blocks are neighbours.  Apart from the block that is
used, both write to headers only.
-/

namespace MicroFramework.SimpleHeap

open Library List SimpleHeap

variable {m m' : Memory} {start before a n k len i : ℕ} {x y : Blk} {place : ℕ × Blk}
  {blocks left right : List Blk}

/-- No two free blocks are neighbours. -/
def Coalesced (blocks : List Blk) : Prop :=
  blocks.IsChain fun x y ↦ x.used = true ∨ y.used = true

/-- A block in use, with its address. -/
def Occupied (start : ℕ) (blocks : List Blk) (place : ℕ × Blk) : Prop :=
  place ∈ located Blk.length start blocks ∧ place.2.used = true

def HeaderByte (start : ℕ) (blocks : List Blk) (i : ℕ) : Prop :=
  ∃ place ∈ located Blk.length start blocks, place.1 ≤ i ∧ i < place.1 + headerSize

def WordLengths (blocks : List Blk) : Prop := ∀ x ∈ blocks, x.length % 4 = 0

section Lists

theorem wordLengths_cons : WordLengths (x :: blocks) ↔ x.length % 4 = 0 ∧ WordLengths blocks :=
  forall_mem_cons

theorem wordLengths_append_cons : WordLengths (left ++ x :: right) ↔
    WordLengths left ∧ x.length % 4 = 0 ∧ WordLengths right := by
  unfold WordLengths
  rw [forall_mem_append, forall_mem_cons]

theorem coalesced_append_cons :
    Coalesced (left ++ x :: right) ↔ Coalesced left ∧ Coalesced right ∧
      (∀ y ∈ left.getLast?, y.used = true ∨ x.used = true) ∧
      ∀ y ∈ right.head?, x.used = true ∨ y.used = true := by
  unfold Coalesced
  rw [isChain_append, isChain_cons]
  simp only [head?_cons, Option.mem_some_iff, forall_eq']
  tauto

theorem occupied_append_cons :
    Occupied start (left ++ x :: right) place ↔
      Occupied start left place ∨
      (place = (start + extent Blk.length left, x) ∧ x.used = true) ∨
      Occupied (start + extent Blk.length left + x.length) right place := by
  simp only [Occupied, located_append, located_cons, mem_append, mem_cons]
  constructor
  · rintro ⟨hleft | rfl | hright, hused⟩
    · exact .inl ⟨hleft, hused⟩
    · exact .inr (.inl ⟨rfl, hused⟩)
    · exact .inr (.inr ⟨hright, hused⟩)
  · rintro (⟨hleft, hused⟩ | ⟨rfl, hused⟩ | ⟨hright, hused⟩)
    · exact ⟨.inl hleft, hused⟩
    · exact ⟨.inr (.inl rfl), hused⟩
    · exact ⟨.inr (.inr hright), hused⟩

theorem occupied_merge :
    Occupied start (left ++ ⟨n, false⟩ :: ⟨k, false⟩ :: right) place ↔
      Occupied start (left ++ ⟨n + k, false⟩ :: right) place := by
  have hcons := @occupied_append_cons (start + extent Blk.length left + n) ⟨k, false⟩ place [] right
  simp only [nil_append, extent_nil, Nat.add_zero] at hcons
  rw [occupied_append_cons, occupied_append_cons, hcons]
  simp [Occupied, Nat.add_assoc]

end Lists

section Search

/-- The loop over the blocks runs through their addresses, up to the null pointer. -/
theorem linked_addresses {last : ℕ} (h : Chained m before a blocks 0) (hpos : 0 < a)
    (hlast : lastAddress before a blocks = last) :
    Linked (follow m) (fun b ↦ if b = 0 then some last else some (get m b .prev))
      ((located Blk.length a blocks).map Prod.fst ++ [0]) := by
  induction blocks generalizing before a with
  | nil => exact linked_singleton 0
  | cons x blocks ih =>
    obtain ⟨hheader, hrest⟩ := h
    have hfollow : follow m a = some (headAddress (a + x.length) blocks 0) := by
      rw [follow, if_neg (by omega), hheader.next]
    cases blocks with
    | nil =>
      refine linked_cons_cons.mpr ⟨⟨hfollow, ?_⟩, linked_singleton 0⟩
      rw [if_pos rfl, ← hlast]
      rfl
    | cons y blocks =>
      refine linked_cons_cons.mpr ⟨⟨hfollow, ?_⟩, ih hrest (by omega) hlast⟩
      simp only
      rw [if_neg (by omega), hrest.1.prev]

theorem mem_addresses_iff : a ∈ (located Blk.length start blocks).map Prod.fst ↔
    ∃ left x right, blocks = left ++ x :: right ∧ a = start + extent Blk.length left := by
  constructor
  · intro ha
    obtain ⟨place, hplace, rfl⟩ := mem_map.mp ha
    obtain ⟨left, right, hblocks, haddress⟩ := exists_split_of_mem_located hplace
    exact ⟨left, place.2, right, hblocks, haddress⟩
  · rintro ⟨left, x, right, rfl, rfl⟩
    rw [located_append, located_cons]
    exact mem_map.mpr ⟨_, mem_append_right _ mem_cons_self, rfl⟩

theorem Header.fits {prev next : ℕ} (h : Header m a prev next x) :
    fits m len a = true ↔ x.used = false ∧ len ≤ x.length := by
  rw [SimpleHeap.fits, Bool.and_eq_true, decide_eq_true_eq, decide_eq_true_eq, h.signature,
    h.length]
  cases x.used
  · simp
  · simp [busy, free]

/-- The loop ends, and finds a free block that is long enough if there is one. -/
theorem search_blocks {fuel : ℕ} (h : Chained m 0 start blocks 0) (len : ℕ) (hpos : 0 < start)
    (hne : blocks ≠ []) (hfuel : blocks.length < fuel) :
    (search (follow m) (fits m len) fuel start = some none ∧
      ∀ x ∈ blocks, ¬ (x.used = false ∧ len ≤ x.length)) ∨
    ∃ left n right, blocks = left ++ ⟨n, false⟩ :: right ∧ len ≤ n ∧
      search (follow m) (fits m len) fuel start = some (some (start + extent Blk.length left)) := by
  have hlinked := linked_addresses h hpos rfl
  have hfirst : ((located Blk.length start blocks).map Prod.fst ++ [0]).head? = some start := by
    cases blocks with
    | nil => exact absurd rfl hne
    | cons x blocks => rfl
  have hlength : ((located Blk.length start blocks).map Prod.fst).length < fuel := by
    rw [length_map, length_located]
    exact hfuel
  have hsearch : search (follow m) (fits m len) fuel start =
      some (((located Blk.length start blocks).map Prod.fst).find? (fits m len)) :=
    search_linked (by rw [follow, if_pos rfl]) _ fuel hlength start hfirst hlinked
  rw [hsearch]
  cases hfind : ((located Blk.length start blocks).map Prod.fst).find? (fits m len) with
  | none =>
    refine .inl ⟨rfl, fun x hx hfits ↦ ?_⟩
    obtain ⟨left, right, rfl⟩ := append_of_mem hx
    have haddress := find?_eq_none.mp hfind _ (mem_addresses_iff.mpr ⟨left, x, right, rfl, rfl⟩)
    exact haddress ((chained_append_cons.mp h).2.1.fits.mpr hfits)
  | some ptr =>
    obtain ⟨left, x, right, rfl, rfl⟩ := mem_addresses_iff.mp (mem_of_find?_eq_some hfind)
    obtain ⟨hfree, hlen⟩ := (chained_append_cons.mp h).2.1.fits.mp (find?_some hfind)
    refine .inr ⟨left, x.length, right, ?_, hlen, rfl⟩
    rw [← hfree]

end Search

section Release

theorem headerByte_of_mem (h : place ∈ located Blk.length start blocks) (hlow : place.1 ≤ i)
    (hhigh : i < place.1 + headerSize) : HeaderByte start blocks i := ⟨place, h, hlow, hhigh⟩

theorem headerByte_here (hlow : start + extent Blk.length left ≤ i)
    (hhigh : i < start + extent Blk.length left + headerSize) :
    HeaderByte start (left ++ x :: right) i := by
  refine ⟨(start + extent Blk.length left, x), ?_, hlow, hhigh⟩
  rw [located_append, located_cons]
  exact mem_append_right _ mem_cons_self

theorem absorb_of_apart {b next : ℕ} (hab : a + headerSize ≤ b) (hnext : get m b .next = next)
    (ha : i < a ∨ a + headerSize ≤ i) (hi : next = 0 ∨ i < next ∨ next + headerSize ≤ i) :
    absorb m a b i = m i := by
  have hget : get (set m a .length (get m a .length + get m b .length)) b .next = next := by
    rw [get_set_of_apart (.inr hab), hnext]
  rw [absorb]
  simp only [hget]
  rw [linkPrev_of_apart hi, set_of_apart ha, set_of_apart ha]

/-- A merge of neighbours writes to their headers and to the header after them. -/
theorem Chained.absorb_of_not_header {p : ℕ}
    (h : Chained m p start (left ++ ⟨n, false⟩ :: y :: right) 0)
    (ha : start + extent Blk.length left = a)
    (hi : ¬ HeaderByte start (left ++ ⟨n, false⟩ :: y :: right) i) :
    SimpleHeap.absorb m a (a + n) i = m i := by
  obtain ⟨-, hx, hy, hright⟩ := chained_append_cons.mp h
  rw [ha] at hx hy
  have hroom : headerSize ≤ n := hx.room
  refine absorb_of_apart (by omega) hy.next ?_ ?_
  · by_contra hin
    exact hi (headerByte_here (by omega) (by omega))
  · cases right with
    | nil => exact .inl rfl
    | cons z right =>
      rw [headAddress_cons]
      by_contra hin
      simp only at hin
      have hplace := @headerByte_here start i z (left ++ [⟨n, false⟩, y]) right
      simp only [extent_append, extent_cons, extent_nil, Nat.add_zero, append_assoc,
        cons_append, nil_append] at hplace
      exact hi (hplace (by omega) (by omega))

theorem headerByte_merge (h : HeaderByte start (left ++ ⟨n + k, false⟩ :: right) i) :
    HeaderByte start (left ++ ⟨n, false⟩ :: ⟨k, false⟩ :: right) i := by
  obtain ⟨place, hplace, hlow, hhigh⟩ := h
  rw [located_append, located_cons] at hplace
  rcases mem_append.mp hplace with hleft | hplace
  · refine headerByte_of_mem ?_ hlow hhigh
    rw [located_append]
    exact mem_append_left _ hleft
  · rcases mem_cons.mp hplace with rfl | hright
    · exact headerByte_here hlow hhigh
    · refine headerByte_of_mem ?_ hlow hhigh
      rw [located_append, located_cons, located_cons]
      simp only [Nat.add_assoc] at hright ⊢
      exact mem_append_right _ (mem_cons_of_mem _ (mem_cons_of_mem _ hright))

/-- Headers lie where they lie whether their blocks are in use or not. -/
theorem headerByte_relabel {used used' : Bool}
    (h : HeaderByte start (left ++ ⟨n, used⟩ :: right) i) :
    HeaderByte start (left ++ ⟨n, used'⟩ :: right) i := by
  obtain ⟨place, hplace, hlow, hhigh⟩ := h
  rw [located_append, located_cons] at hplace
  rcases mem_append.mp hplace with hleft | hplace
  · refine headerByte_of_mem ?_ hlow hhigh
    rw [located_append]
    exact mem_append_left _ hleft
  · rcases mem_cons.mp hplace with rfl | hright
    · exact headerByte_here hlow hhigh
    · refine headerByte_of_mem ?_ hlow hhigh
      rw [located_append, located_cons]
      exact mem_append_right _ (mem_cons_of_mem _ hright)

/-- The memory `m'` describes the blocks `blocks'`, which are the blocks `blocks` of `m` with free
neighbours merged. -/
structure Merged (m m' : Memory) (start : ℕ) (blocks blocks' : List Blk) : Prop where
  chained : Chained m' 0 start blocks' 0
  occupied : ∀ place, Occupied start blocks' place ↔ Occupied start blocks place
  extent_eq : extent Blk.length blocks' = extent Blk.length blocks
  bytes : ∀ i, ¬ HeaderByte start blocks i → m' i = m i
  headers : ∀ i, HeaderByte start blocks' i → HeaderByte start blocks i
  words : WordLengths blocks → WordLengths blocks'

theorem Merged.refl (h : Chained m 0 start blocks 0) : Merged m m start blocks blocks :=
  ⟨h, fun _ ↦ Iff.rfl, rfl, fun _ _ ↦ rfl, fun _ ↦ id, id⟩

theorem Merged.trans {m'' : Memory} {blocks' blocks'' : List Blk}
    (h : Merged m m' start blocks blocks') (h' : Merged m' m'' start blocks' blocks'') :
    Merged m m'' start blocks blocks'' := by
  refine ⟨h'.chained, fun place ↦ (h'.occupied place).trans (h.occupied place),
    h'.extent_eq.trans h.extent_eq, fun i hi ↦ ?_, fun i hi ↦ h.headers i (h'.headers i hi),
    fun hwords ↦ h'.words (h.words hwords)⟩
  rw [h'.bytes i fun hheader ↦ hi (h.headers i hheader), h.bytes i hi]

theorem Chained.merged (h : Chained m 0 start (left ++ ⟨n, false⟩ :: ⟨k, false⟩ :: right) 0)
    (hpos : 0 < start) (ha : start + extent Blk.length left = a)
    (hbound : start + extent Blk.length (left ++ ⟨n, false⟩ :: ⟨k, false⟩ :: right) ≤ 2 ^ 32) :
    Merged m (SimpleHeap.absorb m a (a + n)) start (left ++ ⟨n, false⟩ :: ⟨k, false⟩ :: right)
      (left ++ ⟨n + k, false⟩ :: right) := by
  simp only [extent_append, extent_cons] at hbound
  refine ⟨h.absorb ha (by omega) (by omega), fun place ↦ occupied_merge.symm, ?_,
    fun i hi ↦ h.absorb_of_not_header ha hi, fun i hi ↦ headerByte_merge hi, fun hwords ↦ ?_⟩
  · simp only [extent_append, extent_cons]
    omega
  · rw [wordLengths_append_cons, wordLengths_cons] at hwords
    obtain ⟨hleft, hn, hk, hright⟩ := hwords
    simp only at hn hk
    exact wordLengths_append_cons.mpr ⟨hleft, by simp only; omega, hright⟩

section

variable (h : Chained m 0 start (left ++ ⟨n, false⟩ :: right) 0)

include h

/-- The first merge of `release`, with the following block. -/
theorem Chained.merge_next (hpos : 0 < start) (ha : start + extent Blk.length left = a)
    (hbound : start + extent Blk.length (left ++ ⟨n, false⟩ :: right) ≤ 2 ^ 32)
    (hcoalesced : Coalesced right) :
    ∃ k right', Merged m
      (if get m a .next ≠ 0 ∧ get m (get m a .next) .signature = free then
        SimpleHeap.absorb m a (get m a .next) else m)
      start (left ++ ⟨n, false⟩ :: right) (left ++ ⟨n + k, false⟩ :: right') ∧
      Coalesced right' ∧ ∀ y ∈ right'.head?, y.used = true := by
  obtain ⟨-, hx, hright⟩ := chained_append_cons.mp h
  rw [ha] at hx hright
  cases right with
  | nil =>
    have hnext : get m a .next = 0 := hx.next
    rw [if_neg fun hfree ↦ hfree.1 hnext]
    exact ⟨0, [], Merged.refl h, List.IsChain.nil, by simp⟩
  | cons y right =>
    have hnext : get m a .next = a + n := hx.next
    have hsignature := hright.1.signature
    obtain ⟨k, used⟩ := y
    cases used with
    | true =>
      have hused : get m (a + n) .signature = busy := hsignature
      rw [hnext, if_neg fun hfree ↦ absurd (hused.symm.trans hfree.2) (by decide)]
      exact ⟨0, _, Merged.refl h, hcoalesced, by simp⟩
    | false =>
      have hfree : get m (a + n) .signature = free := hsignature
      rw [hnext, if_pos ⟨by omega, hfree⟩]
      obtain ⟨-, hrest, -, hhead⟩ := (@coalesced_append_cons ⟨k, false⟩ [] right).mp hcoalesced
      exact ⟨k, right, h.merged hpos ha hbound, hrest, fun y hy ↦ by simpa using hhead y hy⟩

/-- The second merge of `release`, with the preceding block. -/
theorem Chained.merge_prev (hpos : 0 < start) (ha : start + extent Blk.length left = a)
    (hbound : start + extent Blk.length (left ++ ⟨n, false⟩ :: right) ≤ 2 ^ 32)
    (hcoalesced : Coalesced left) :
    ∃ k left', Merged m
      (if get m a .prev ≠ 0 ∧ get m (get m a .prev) .signature = free then
        SimpleHeap.absorb m (get m a .prev) a else m)
      start (left ++ ⟨n, false⟩ :: right) (left' ++ ⟨k, false⟩ :: right) ∧
      Coalesced left' ∧ ∀ y ∈ left'.getLast?, y.used = true := by
  obtain ⟨hleft, hx, -⟩ := chained_append_cons.mp h
  rw [ha] at hx
  rcases eq_nil_or_concat left with rfl | ⟨left, ⟨k, used⟩, rfl⟩
  · have hprev : get m a .prev = 0 := hx.prev
    rw [if_neg fun hfree ↦ hfree.1 hprev]
    exact ⟨n, [], Merged.refl h, List.IsChain.nil, by simp⟩
  · rw [concat_eq_append] at *
    have hlist : left ++ [⟨k, used⟩] ++ ⟨n, false⟩ :: right =
        left ++ ⟨k, used⟩ :: ⟨n, false⟩ :: right := by simp
    rw [extent_append, extent_cons, extent_nil] at ha
    simp only at ha
    have hprev : get m a .prev = start + extent Blk.length left := by
      rw [hx.prev, lastAddress_append_singleton]
    have hlast := (chained_append_cons.mp hleft).2.1
    have hroom : headerSize ≤ k := hlast.room
    obtain ⟨hrest, -, hend, -⟩ := (@coalesced_append_cons ⟨k, used⟩ left []).mp hcoalesced
    cases used with
    | true =>
      have hused : get m (start + extent Blk.length left) .signature = busy := hlast.signature
      rw [hprev, if_neg fun hfree ↦ absurd (hused.symm.trans hfree.2) (by decide)]
      exact ⟨n, _, Merged.refl h, hcoalesced, by simp⟩
    | false =>
      have hfree : get m (start + extent Blk.length left) .signature = free := hlast.signature
      rw [hlist] at h hbound ⊢
      have hmerged := h.merged hpos rfl hbound
      rw [show start + extent Blk.length left + k = a by omega] at hmerged
      rw [hprev, if_pos ⟨by omega, hfree⟩]
      exact ⟨k + n, left, hmerged, hrest, fun y hy ↦ by simpa using hend y hy⟩

/-- `release` merges a block that was just freed with its free neighbours. -/
theorem Chained.merge (hpos : 0 < start) (ha : start + extent Blk.length left = a)
    (hbound : start + extent Blk.length (left ++ ⟨n, false⟩ :: right) ≤ 2 ^ 32)
    (hleft : Coalesced left) (hright : Coalesced right) :
    ∃ blocks', Merged m (merge m a) start (left ++ ⟨n, false⟩ :: right) blocks' ∧
      Coalesced blocks' := by
  obtain ⟨k, right', hnext, hright', hhead⟩ := h.merge_next hpos ha hbound hright
  have hbound' := hbound
  rw [← hnext.extent_eq] at hbound'
  obtain ⟨k', left', hprev, hleft', hlast⟩ := hnext.chained.merge_prev hpos ha hbound' hleft
  refine ⟨left' ++ ⟨k', false⟩ :: right', hnext.trans hprev, ?_⟩
  exact coalesced_append_cons.mpr
    ⟨hleft', hright', fun y hy ↦ .inl (hlast y hy), fun y hy ↦ .inr (hhead y hy)⟩

end

/-- Freeing a block takes it out of the blocks in use, and no other. -/
theorem occupied_free (h : Chained m before start (left ++ ⟨n, true⟩ :: right) 0) :
    Occupied start (left ++ ⟨n, false⟩ :: right) place ↔
      Occupied start (left ++ ⟨n, true⟩ :: right) place ∧
        place.1 ≠ start + extent Blk.length left := by
  have hroom : ∀ x ∈ left ++ ⟨n, true⟩ :: right, headerSize ≤ x.length := fun x hx ↦ h.room hx
  simp only [headerSize] at hroom
  have hn := hroom ⟨n, true⟩ (by simp)
  simp only at hn
  rw [occupied_append_cons, occupied_append_cons]
  constructor
  · rintro (hleft | ⟨-, hused⟩ | hright)
    · have hbounds := bounds_of_mem_located hleft.1
      have hlength := hroom _ (mem_append_left _ (mem_of_mem_located hleft.1))
      exact ⟨.inl hleft, by omega⟩
    · exact absurd hused (by simp)
    · have hbounds := bounds_of_mem_located hright.1
      simp only at hbounds
      exact ⟨.inr (.inr hright), by omega⟩
  · rintro ⟨hleft | ⟨rfl, -⟩ | hright, hne⟩
    · exact .inl hleft
    · exact absurd rfl hne
    · exact .inr (.inr hright)

/-- The heap after the block at `a`, which was in use, was freed and merged. -/
structure Freed (m m' : Memory) (start : ℕ) (blocks blocks' : List Blk) (a : ℕ) : Prop where
  chained : Chained m' 0 start blocks' 0
  coalesced : Coalesced blocks'
  extent_eq : extent Blk.length blocks' = extent Blk.length blocks
  words : WordLengths blocks → WordLengths blocks'
  occupied : ∀ other, Occupied start blocks' other ↔ Occupied start blocks other ∧ other.1 ≠ a
  bytes : ∀ i, ¬ HeaderByte start blocks i → m' i = m i

/-- `release` of a block in use: it is free and merged, and only headers were written to. -/
theorem Chained.release_used (h : Chained m 0 start blocks 0) (hpos : 0 < start)
    (hbound : start + extent Blk.length blocks ≤ 2 ^ 32) (hcoalesced : Coalesced blocks)
    (hplace : Occupied start blocks place) :
    ∃ m' blocks', SimpleHeap.release m (place.1 + headerSize) = some m' ∧
      Freed m m' start blocks blocks' place.1 := by
  obtain ⟨hmem, hused⟩ := hplace
  obtain ⟨left, right, rfl, ha⟩ := exists_split_of_mem_located hmem
  obtain ⟨a, n, used⟩ := place
  obtain rfl : used = true := hused
  simp only at ha h hbound hcoalesced ⊢
  obtain ⟨-, hx, -⟩ := chained_append_cons.mp h
  obtain ⟨hleft, hright, -, -⟩ := coalesced_append_cons.mp hcoalesced
  have hfreed := h.release
  rw [← ha] at hx hfreed
  have hbound' : start + extent Blk.length (left ++ ⟨n, false⟩ :: right) ≤ 2 ^ 32 := by
    simpa using hbound
  obtain ⟨blocks', hmerged, hcoalesced'⟩ := hfreed.merge hpos ha.symm hbound' hleft hright
  refine ⟨SimpleHeap.merge (set m a .signature free) a, blocks', ?_, hmerged.chained, hcoalesced',
    ?_, fun hwords ↦ hmerged.words ?_, fun other ↦ ?_, fun i hi ↦ ?_⟩
  · have hsignature : get m a .signature = busy := hx.signature
    have hhead : get m a .headGuard = guardWord := hx.headGuard rfl
    have htail : loadWord m (tailGuard m a) = guardWord := by
      rw [tailGuard, hx.length]
      exact (hx.tailGuard rfl).2
    rw [SimpleHeap.release, if_neg (by simp [headerSize])]
    simp only [Nat.add_sub_cancel, hsignature, hhead, htail, ne_eq, not_true_eq_false, or_self,
      if_false]
  · rw [hmerged.extent_eq]
    simp
  · rw [wordLengths_append_cons] at hwords ⊢
    exact hwords
  · rw [hmerged.occupied, occupied_free h, ha]
  · have hi' : ¬ HeaderByte start (left ++ ⟨n, false⟩ :: right) i := by
      exact fun hheader ↦ hi (headerByte_relabel hheader)
    rw [hmerged.bytes i hi', set_of_apart]
    by_contra hin
    exact hi (headerByte_here (by omega) (by omega))

end Release

section Allocate

theorem blockLength_mod (len : ℕ) : blockLength len % 4 = 0 := Nat.mul_mod_left _ 4

theorem le_blockLength (h : len + 27 < 2 ^ 32) :
    len + headerSize + guardSize ≤ blockLength len := by
  simp only [blockLength, headerSize, guardSize]
  omega

theorem le_carve (h : len ≤ get m a .length) : a ≤ (carve m a len).1 := by
  unfold carve
  split
  · exact le_rfl
  · simp only [split]
    omega

theorem occupied_use :
    Occupied start (left ++ ⟨n, true⟩ :: right) place ↔
      Occupied start (left ++ ⟨n, false⟩ :: right) place ∨
        place = (start + extent Blk.length left, ⟨n, true⟩) := by
  rw [occupied_append_cons, occupied_append_cons]
  simp only [and_true, Bool.false_eq_true, and_false, false_or]
  tauto

theorem occupied_split {k : ℕ} (hk : k ≤ n) :
    Occupied start (left ++ ⟨n - k, false⟩ :: ⟨k, true⟩ :: right) place ↔
      Occupied start (left ++ ⟨n, false⟩ :: right) place ∨
        place = (start + extent Blk.length left + n - k, ⟨k, true⟩) := by
  have hcons := @occupied_append_cons (start + extent Blk.length left + (n - k)) ⟨k, true⟩ place
    [] right
  have hfirst : start + extent Blk.length left + (n - k) =
      start + extent Blk.length left + n - k := by omega
  have hrest : start + extent Blk.length left + (n - k) + k =
      start + extent Blk.length left + n := by omega
  simp only [nil_append, extent_nil, Nat.add_zero] at hcons
  rw [occupied_append_cons, occupied_append_cons]
  simp only [Bool.false_eq_true, and_false, false_or, hcons, hrest]
  simp only [hfirst, and_true]
  have hnil : ¬ Occupied (start + extent Blk.length left + n - k) [] place := by simp [Occupied]
  tauto

/-- A split writes to the new block and to the headers around it. -/
theorem Chained.split_of_apart {p : ℕ} (h : Chained m p start (left ++ ⟨n, false⟩ :: right) 0)
    (ha : start + extent Blk.length left = a) (hlen : headerSize + guardSize ≤ len)
    (hrest : headerSize + len ≤ n) (hbound : a + n ≤ 2 ^ 32) (hi : i < a + n - len ∨ a + n ≤ i)
    (hheader : ¬ HeaderByte start (left ++ ⟨n, false⟩ :: right) i) :
    SimpleHeap.occupy (SimpleHeap.split m a len).2 (a + n - len) i = m i := by
  obtain ⟨-, hx, -⟩ := chained_append_cons.mp h
  rw [ha] at hx
  simp only at hx
  have hroom : headerSize ≤ len := by omega
  obtain ⟨-, -, -, -, hlength, hlow, hhigh⟩ := hx.split hroom hrest hbound (headAddress_eq _ right)
  rw [occupy_of_apart hlength hlen (by omega)]
  rcases hi with hi | hi
  · refine hlow i hi ?_
    by_contra hin
    exact hheader (headerByte_here (by omega) (by omega))
  · rw [hhigh i hi, linkPrev_of_apart]
    cases right with
    | nil => exact .inl rfl
    | cons y right =>
      rw [headAddress_cons]
      by_contra hin
      have hplace := @headerByte_here start i y (left ++ [⟨n, false⟩]) right
      simp only [extent_append, extent_cons, extent_nil, Nat.add_zero, append_assoc,
        cons_append, nil_append] at hplace
      exact hheader (hplace (by omega) (by omega))

/-- A split makes one new header, that of the new block. -/
theorem headerByte_split {k : ℕ} (hk : k ≤ n) (hroom : headerSize ≤ k)
    (h : HeaderByte start (left ++ ⟨n - k, false⟩ :: ⟨k, true⟩ :: right) i) :
    HeaderByte start (left ++ ⟨n, false⟩ :: right) i ∨
      start + extent Blk.length left + n - k ≤ i ∧ i < start + extent Blk.length left + n := by
  obtain ⟨place, hplace, hlow, hhigh⟩ := h
  rw [located_append, located_cons, located_cons] at hplace
  rcases mem_append.mp hplace with hleft | hplace
  · refine .inl (headerByte_of_mem ?_ hlow hhigh)
    rw [located_append]
    exact mem_append_left _ hleft
  · rcases mem_cons.mp hplace with rfl | hplace
    · exact .inl (headerByte_here hlow hhigh)
    · rcases mem_cons.mp hplace with rfl | hright
      · simp only at hlow hhigh
        exact .inr ⟨by omega, by omega⟩
      · refine .inl (headerByte_of_mem ?_ hlow hhigh)
        simp only [Nat.add_assoc, Nat.sub_add_cancel hk] at hright
        rw [located_append, located_cons]
        simp only [Nat.add_assoc]
        exact mem_append_right _ (mem_cons_of_mem _ hright)

/-- The computation of the block size for `len` bytes wraps around in 32 bits, or would with room
for two headers. -/
def Wraps (len : ℕ) : Prop := 2 ^ 32 ≤ len + 27 ∨ 2 ^ 32 ≤ blockLength len + headerSize * 2

/-- Some free block is long enough for `allocate`. -/
def Available (blocks : List Blk) (len : ℕ) : Prop :=
  ∃ x ∈ blocks, x.used = false ∧ blockLength len ≤ x.length

/-- The heap after the block of `n` bytes at `a`, which was free, was taken into use. -/
structure Taken (m m' : Memory) (start : ℕ) (blocks blocks' : List Blk) (a n : ℕ) : Prop where
  chained : Chained m' 0 start blocks' 0
  coalesced : Coalesced blocks'
  extent_eq : extent Blk.length blocks' = extent Blk.length blocks
  words : WordLengths blocks → WordLengths blocks'
  occupied : ∀ other, Occupied start blocks' other ↔
    Occupied start blocks other ∨ other = (a, ⟨n, true⟩)
  inside : ∃ a₀ n₀, (a₀, ⟨n₀, false⟩) ∈ located Blk.length start blocks ∧ a₀ ≤ a ∧ a + n = a₀ + n₀
  bytes : ∀ i, i < a ∨ a + n ≤ i → ¬ HeaderByte start blocks i → m' i = m i
  headers : ∀ i, HeaderByte start blocks' i → HeaderByte start blocks i ∨ a ≤ i ∧ i < a + n

/-- What `allocate` returns: the null pointer and the heap as it was, or the end of a free block,
which is in use now. -/
theorem Chained.allocate {fuel : ℕ} (h : Chained m 0 start blocks 0) (hpos : 0 < start)
    (hbound : start + extent Blk.length blocks ≤ 2 ^ 32) (hne : blocks ≠ [])
    (hfuel : blocks.length < fuel) (hcoalesced : Coalesced blocks)
    (hsafe : ¬ (Wraps len ∧ Available blocks len)) :
    allocate m start fuel len = some (0, m) ∨
    ∃ a n m' blocks', allocate m start fuel len = some (a + headerSize, m') ∧
      len + headerSize + guardSize ≤ n ∧ Taken m m' start blocks blocks' a n := by
  rcases search_blocks h (blockLength len) hpos hne hfuel with
    ⟨hsearch, -⟩ | ⟨left, n, right, rfl, hlen, hsearch⟩
  · exact .inl (by rw [SimpleHeap.allocate, hsearch])
  · refine .inr ?_
    have havailable : Available (left ++ ⟨n, false⟩ :: right) len :=
      ⟨⟨n, false⟩, by simp, rfl, hlen⟩
    have hwraps : ¬ Wraps len := fun hwraps ↦ hsafe ⟨hwraps, havailable⟩
    simp only [Wraps, not_or, Nat.not_le] at hwraps
    have hsize := le_blockLength hwraps.1
    obtain ⟨-, hx, -⟩ := chained_append_cons.mp h
    obtain ⟨hleft, hright, hlast, hhead⟩ := coalesced_append_cons.mp hcoalesced
    have hn : get m (start + extent Blk.length left) .length = n := hx.length
    have hmem : (start + extent Blk.length left, ⟨n, false⟩) ∈
        located Blk.length start (left ++ ⟨n, false⟩ :: right) := by
      rw [located_append, located_cons]
      exact mem_append_right _ mem_cons_self
    have hbound' := (bounds_of_mem_located hmem).2
    simp only at hbound'
    rw [allocate, hsearch]
    simp only [carve, hn, Nat.mod_eq_of_lt hwraps.2]
    split_ifs with hfit
    · refine ⟨start + extent Blk.length left, n, _, left ++ ⟨n, true⟩ :: right, rfl, by omega,
        h.occupy (by omega), ?_, by simp, fun hwords ↦ ?_, fun other ↦ occupied_use,
        ⟨_, n, hmem, le_rfl, rfl⟩, fun i hi _ ↦ occupy_of_apart hn (by omega) hi,
        fun i hi ↦ .inl (headerByte_relabel hi)⟩
      · exact coalesced_append_cons.mpr ⟨hleft, hright, fun y _ ↦ .inr rfl, fun y _ ↦ .inl rfl⟩
      · rw [wordLengths_append_cons] at hwords ⊢
        exact hwords
    · have hroom : headerSize ≤ blockLength len := by omega
      have hcut := hx.split hroom (by omega) (by omega) (headAddress_eq _ right)
      rw [hcut.1]
      refine ⟨start + extent Blk.length left + n - blockLength len, blockLength len, _,
        left ++ ⟨n - blockLength len, false⟩ :: ⟨blockLength len, true⟩ :: right, rfl, hsize,
        h.split rfl (by omega) (by omega) (by omega), ?_, ?_, fun hwords ↦ ?_,
        fun other ↦ occupied_split hlen, ⟨_, n, hmem, by omega, by omega⟩,
        fun i hi hheader ↦ ?_, fun i hi ↦ ?_⟩
      · refine coalesced_append_cons.mpr ⟨hleft, ?_, fun y hy ↦ ?_, fun y hy ↦ ?_⟩
        · exact (@coalesced_append_cons ⟨_, true⟩ [] right).mpr
            ⟨List.IsChain.nil, hright, by simp, fun y _ ↦ .inl rfl⟩
        · exact .inl (by simpa using hlast y hy)
        · obtain rfl : ⟨blockLength len, true⟩ = y := by simpa using hy
          exact .inr rfl
      · simp only [extent_append, extent_cons]
        omega
      · have hmod := blockLength_mod len
        rw [wordLengths_append_cons] at hwords
        obtain ⟨hl, hw, hr⟩ := hwords
        simp only at hw
        refine wordLengths_append_cons.mpr ⟨hl, by simp only; omega, ?_⟩
        exact wordLengths_cons.mpr ⟨hmod, hr⟩
      · exact h.split_of_apart rfl (by omega) (by omega) (by omega) (by omega) hheader
      · have hheader := headerByte_split hlen hroom hi
        refine hheader.imp_right fun hnew ↦ ?_
        omega

end Allocate

/-!
## The simple heap and its client

A client allocates, reallocates and releases memory, and writes to what it holds.  `live` lists what
it holds: each pointer with the size that was asked for.
-/

/-- The memory given to the heap: it has an address, room for a header, and lies in the address
space. -/
structure Region where
  start : ℕ
  length : ℕ
  start_pos : 0 < start
  header_le : headerSize ≤ length
  bound : start + length ≤ 2 ^ 32

def Region.WordAligned (r : Region) : Prop := r.start % 4 = 0 ∧ r.length % 4 = 0

structure System where
  region : Region
  mem : Memory
  /-- The allocations that the client holds: pointer and requested size, the latest first. -/
  live : List (ℕ × ℕ)

inductive Action
  | allocate (len : ℕ)
  | reAllocate (ptr len : ℕ)
  | release (ptr : ℕ)
  /-- The client writes to the byte `i` of what it holds at `ptr`. -/
  | write (ptr i : ℕ) (v : UInt8)

namespace System

/-- The region was just given to the heap. -/
def Initialized (s : System) : Prop :=
  ∃ region mem, s = ⟨region, initializeHeap mem region.start region.length, []⟩

def liveWithout (s : System) (ptr : ℕ) : List (ℕ × ℕ) := s.live.filter fun e ↦ e.1 ≠ ptr

/-- One call of the client; `none` for a call that stops at a breakpoint or does not return. -/
def step (s : System) : Action → Option System
  | .allocate len =>
    match allocate s.mem s.region.start s.region.length len with
    | none => none
    | some (p, m) => some { s with mem := m, live := if p = 0 then s.live else (p, len) :: s.live }
  | .reAllocate ptr len =>
    match reAllocate s.mem s.region.start s.region.length ptr len with
    | none => none
    | some (p, m) =>
      some { s with mem := m, live := if p = 0 then s.live else (p, len) :: s.liveWithout ptr }
  | .release ptr =>
    match release s.mem ptr with
    | none => none
    | some m => some { s with mem := m, live := s.liveWithout ptr }
  | .write ptr i v => some { s with mem := Function.update s.mem (ptr + i) v }

def Holds (s : System) (ptr : ℕ) : Prop := ∃ len, (ptr, len) ∈ s.live

/-- The client passes sizes of 32 bits and pointers it holds, and writes to what it holds. -/
def Legal (s : System) : Action → Prop
  | .allocate len => len < 2 ^ 32
  | .reAllocate ptr len => len < 2 ^ 32 ∧ (ptr = 0 ∨ s.Holds ptr)
  | .release ptr => ptr = 0 ∨ s.Holds ptr
  | .write ptr i _ => ∃ len, (ptr, len) ∈ s.live ∧ i < len

/-- The block that the header at `a` describes. -/
def blockAt (m : Memory) (a : ℕ) : Blk := ⟨get m a .length, decide (get m a .signature = busy)⟩

def Tiled (s : System) (blocks : List Blk) : Prop :=
  Tiles Blk.length (blockAt s.mem) s.region.start blocks (s.region.start + s.region.length)

/-- The computation of the block size wraps around while a free block is as long as its result. -/
def WrapsAround (s : System) (len : ℕ) : Prop :=
  Wraps len ∧ ∃ blocks, s.Tiled blocks ∧ Available blocks len

/-- A legal call whose size does not wrap around. -/
def Allowed (s : System) (a : Action) : Prop :=
  s.Legal a ∧
    match a with
    | .allocate len => ¬ s.WrapsAround len
    | .reAllocate _ len => ¬ s.WrapsAround len
    | _ => True

/-- What a correct heap promises about a state: the region is tiled by blocks, those in use are what
the client holds, and hold as much as was asked for; nothing overlaps; an idle heap is one free
block. -/
structure Correct (s : System) : Prop where
  disjoint : s.live.Pairwise fun e f ↦ e.1 ≠ f.1 ∧ (e.1 + e.2 ≤ f.1 ∨ f.1 + f.2 ≤ e.1)
  inside : ∀ e ∈ s.live,
    s.region.start ≤ e.1 ∧ e.1 + e.2 ≤ s.region.start + s.region.length
  aligned : s.region.WordAligned → ∀ e ∈ s.live, e.1 % 4 = 0
  tiled : ∃ blocks, s.Tiled blocks ∧
    (∀ place ∈ located Blk.length s.region.start blocks,
      (place.2.used = true ∧ s.Holds (place.1 + headerSize)) ∨
      (place.2.used = false ∧ get s.mem place.1 .signature = free)) ∧
    ∀ e ∈ s.live, ∃ place ∈ located Blk.length s.region.start blocks, place.2.used = true ∧
      e.1 = place.1 + headerSize ∧ e.1 + e.2 ≤ place.1 + place.2.length
  idle : s.live = [] → s.Tiled [⟨s.region.length, false⟩] ∧
    get s.mem s.region.start .next = 0 ∧ get s.mem s.region.start .prev = 0

/-- What a correct heap promises about a call `a` that leads from `s` to `s'`: the bytes outside the
region and what the client holds stay as they are, and a reallocation copies what fits and changes
no byte outside the new block and the headers. -/
structure Faithful (s : System) (a : Action) (s' : System) : Prop where
  outside : ∀ i, i < s.region.start ∨ s.region.start + s.region.length ≤ i → s'.mem i = s.mem i
  kept : (∀ ptr i v, a ≠ .write ptr i v) → ∀ e ∈ s.live, e ∈ s'.live →
    ∀ i < e.2, s'.mem (e.1 + i) = s.mem (e.1 + i)
  copied : ∀ ptr len, a = .reAllocate ptr len →
    s'.mem = s.mem ∧ s'.live = s.live ∨
    ∃ p, s'.live = (p, len) :: s.liveWithout ptr ∧
      (∀ old, (ptr, old) ∈ s.live → ∀ i < min old len, s'.mem (p + i) = s.mem (ptr + i)) ∧
      ∃ blocks blocks' n, s.Tiled blocks ∧ s'.Tiled blocks' ∧
        Occupied s.region.start blocks' (p - headerSize, ⟨n, true⟩) ∧
        p + len + guardSize ≤ p - headerSize + n ∧
        ∀ i, i < p - headerSize ∨ p - headerSize + n ≤ i →
          ¬ HeaderByte s.region.start blocks i → s'.mem i = s.mem i

end System

end MicroFramework.SimpleHeap
