import MicroFramework.SimpleHeap.Operations

/-!
# What every call of the client keeps

The blocks in use are the ones the client holds.  A state with this invariant is correct, and each
call of the allocator keeps it.
-/

namespace MicroFramework.SimpleHeap

open Library List

variable {s s' : System} {m m' : Memory} {start before a after n len i : ℕ} {x : Blk}
  {place : ℕ × Blk} {blocks blocks' : List Blk}

theorem Chained.tiles (h : Chained m before a blocks after) :
    Tiles Blk.length (System.blockAt m) a blocks (a + extent Blk.length blocks) := by
  induction blocks generalizing before a with
  | nil => rfl
  | cons x blocks ih =>
    obtain ⟨hheader, hrest⟩ := h
    have hroom := hheader.room
    simp only [headerSize] at hroom
    refine ⟨?_, by omega, ?_⟩
    · obtain ⟨length, used⟩ := x
      have hsignature := hheader.signature
      have hused : decide (get m a .signature = busy) = used := by
        cases used
        · rw [hsignature]
          rfl
        · rw [hsignature]
          rfl
      rw [System.blockAt, hheader.length, hused]
    · rw [extent_cons, ← Nat.add_assoc]
      exact ih hrest

theorem Chained.length_lt (h : Chained m before a blocks after)
    (hpos : headerSize ≤ extent Blk.length blocks) :
    blocks.length < extent Blk.length blocks := by
  have hle : headerSize * blocks.length ≤ extent Blk.length blocks := by
    clear hpos
    induction blocks generalizing before a with
    | nil => simp
    | cons x blocks ih =>
      have hroom := h.1.room
      have hrest := ih h.2
      rw [length_cons, extent_cons, Nat.mul_succ]
      omega
  simp only [headerSize] at hle hpos
  omega

theorem Chained.header_of_mem (h : Chained m before start blocks after)
    (hplace : place ∈ located Blk.length start blocks) :
    ∃ prev next, Header m place.1 prev next place.2 := by
  obtain ⟨left, right, rfl, ha⟩ := exists_split_of_mem_located hplace
  rw [ha]
  exact ⟨_, _, (chained_append_cons.mp h).2.1⟩

/-- What is written inside the payload of a block in use is not seen by the heap. -/
theorem Chained.payload (h : Chained m before start blocks after)
    (hplace : place ∈ located Blk.length start blocks)
    (hagree : ∀ i, i < place.1 + headerSize ∨ place.1 + place.2.length ≤ i + guardSize →
      m' i = m i) : Chained m' before start blocks after := by
  obtain ⟨left, right, rfl, ha⟩ := exists_split_of_mem_located hplace
  rw [ha] at hagree
  obtain ⟨hleft, hx, hright⟩ := chained_append_cons.mp h
  refine chained_append_cons.mpr ⟨?_, ?_, ?_⟩
  · exact hleft.congr fun i _ hi ↦ hagree i (.inl (by omega))
  · have hget : ∀ field, get m' (start + extent Blk.length left) field =
        get m (start + extent Blk.length left) field :=
      get_congr fun i _ hi ↦ hagree i (.inl hi)
    refine ⟨?_, ?_, ?_, ?_, hx.room, fun hused ↦ ?_, fun hused ↦ ?_⟩
    · rw [hget, hx.next]
    · rw [hget, hx.prev]
    · rw [hget, hx.length]
    · rw [hget, hx.signature]
    · rw [hget, hx.headGuard hused]
    · obtain ⟨hsize, hguard⟩ := hx.tailGuard hused
      refine ⟨hsize, ?_⟩
      rw [loadWord_congr fun i hlow _ ↦ hagree i (.inr (by omega)), hguard]
  · exact hright.congr fun i hi _ ↦ hagree i (.inr (by omega))

theorem Chained.not_headerByte (h : Chained m before start blocks after)
    (hplace : place ∈ located Blk.length start blocks) (hlow : place.1 + headerSize ≤ i)
    (hhigh : i < place.1 + place.2.length) : ¬ HeaderByte start blocks i := by
  rintro ⟨other, hother, hfrom, hto⟩
  have hroom := h.room (mem_of_mem_located hother)
  by_cases heq : place.1 = other.1
  · omega
  · rcases located_apart hplace hother heq with hapart | hapart
    · omega
    · omega

theorem Chained.headerByte_bounds (h : Chained m before start blocks after)
    (hi : HeaderByte start blocks i) : start ≤ i ∧ i < start + extent Blk.length blocks := by
  obtain ⟨other, hother, hfrom, hto⟩ := hi
  have hroom := h.room (mem_of_mem_located hother)
  have hbounds := bounds_of_mem_located hother
  omega

/-- The blocks of the heap, and that those in use are what the client holds. -/
structure Invariant (s : System) (blocks : List Blk) : Prop where
  chained : Chained s.mem 0 s.region.start blocks 0
  extent_eq : extent Blk.length blocks = s.region.length
  coalesced : Coalesced blocks
  words : s.region.WordAligned → WordLengths blocks
  held : ∀ e ∈ s.live, ∃ place, Occupied s.region.start blocks place ∧
    e.1 = place.1 + headerSize ∧ e.1 + e.2 + guardSize ≤ place.1 + place.2.length
  used : ∀ place, Occupied s.region.start blocks place → s.Holds (place.1 + headerSize)
  nodup : (s.live.map Prod.fst).Nodup

namespace Invariant

theorem tiled (h : Invariant s blocks) : s.Tiled blocks := by
  have htiles := h.chained.tiles
  rwa [h.extent_eq] at htiles

theorem ne_nil (h : Invariant s blocks) : blocks ≠ [] := by
  rintro rfl
  have hextent := h.extent_eq
  have hheader := s.region.header_le
  simp only [extent_nil, headerSize] at hextent hheader
  omega

theorem length_lt (h : Invariant s blocks) : blocks.length < s.region.length := by
  rw [← h.extent_eq]
  exact h.chained.length_lt (by rw [h.extent_eq]; exact s.region.header_le)

theorem bound (h : Invariant s blocks) : s.region.start + extent Blk.length blocks ≤ 2 ^ 32 := by
  rw [h.extent_eq]
  exact s.region.bound

/-- One entry of what is live for each pointer. -/
theorem live_unique (h : Invariant s blocks) {p k : ℕ} (hn : (p, n) ∈ s.live)
    (hk : (p, k) ∈ s.live) : n = k := by
  have hinj := inj_on_of_nodup_map h.nodup hn hk rfl
  exact congrArg Prod.snd hinj

theorem of_initialized (h : s.Initialized) : Invariant s [⟨s.region.length, false⟩] := by
  obtain ⟨region, mem, rfl⟩ := h
  have hlength : region.length < 2 ^ 32 := by
    have hpos := region.start_pos
    have hbound := region.bound
    omega
  refine ⟨⟨⟨?_, ?_, ?_, ?_, region.header_le, by simp, by simp⟩, trivial⟩, ?_,
    List.IsChain.singleton _, fun haligned ↦ ?_, by simp, fun place hplace ↦ ?_, nodup_nil⟩
  · simp only [initializeHeap]
    rw [get_set_of_ne (by decide), get_set_of_ne (by decide), get_set_of_ne (by decide),
      get_set_self _ _ _ (by decide)]
    rfl
  · simp only [initializeHeap]
    rw [get_set_of_ne (by decide), get_set_of_ne (by decide), get_set_self _ _ _ (by decide)]
  · simp only [initializeHeap]
    rw [get_set_of_ne (by decide), get_set_of_ne (by decide), get_set_of_ne (by decide),
      get_set_of_ne (by decide), get_set_self _ _ _ hlength]
  · simp only [initializeHeap]
    rw [get_set_of_ne (by decide), get_set_self _ _ _ (by decide)]
    rfl
  · simp
  · rw [wordLengths_cons]
    exact ⟨haligned.2, by simp [WordLengths]⟩
  · obtain ⟨hmem, hused⟩ := hplace
    obtain rfl : place = (region.start, ⟨region.length, false⟩) := by simpa using hmem
    exact absurd hused (by simp)

theorem idle (h : Invariant s blocks) (hlive : s.live = []) :
    blocks = [⟨s.region.length, false⟩] := by
  have hfree : ∀ place ∈ located Blk.length s.region.start blocks, place.2.used = false := by
    intro place hplace
    by_contra hused
    rw [Bool.not_eq_false] at hused
    obtain ⟨len, hlen⟩ := h.used place ⟨hplace, hused⟩
    rw [hlive] at hlen
    exact absurd hlen (by simp)
  have hextent := h.extent_eq
  match blocks, h with
  | [], h => exact absurd rfl h.ne_nil
  | [⟨n, used⟩], h =>
    obtain rfl : used = false := hfree (s.region.start, ⟨n, used⟩) (by simp)
    obtain rfl : n = s.region.length := by simpa using hextent
    rfl
  | x :: y :: rest, h =>
    have hx := hfree (s.region.start, x) (by simp)
    have hy := hfree (s.region.start + x.length, y) (by simp)
    have hneighbours := h.coalesced
    rw [Coalesced, isChain_cons_cons] at hneighbours
    rcases hneighbours.1 with hused | hused
    · exact absurd hused (by rw [hx]; decide)
    · exact absurd hused (by rw [hy]; decide)

theorem correct (h : Invariant s blocks) : s.Correct := by
  refine ⟨?_, fun e he ↦ ?_, fun haligned e he ↦ ?_, ⟨blocks, h.tiled, fun place hplace ↦ ?_,
    fun e he ↦ ?_⟩, fun hlive ↦ ?_⟩
  · have hne : s.live.Pairwise fun e f ↦ e.1 ≠ f.1 := pairwise_map.mp h.nodup
    refine hne.imp_of_mem fun {e f} he hf hne ↦ ⟨hne, ?_⟩
    obtain ⟨p, ⟨hp, -⟩, heq, hle⟩ := h.held e he
    obtain ⟨q, ⟨hq, -⟩, hfeq, hfle⟩ := h.held f hf
    rcases located_apart hp hq (by omega) with hapart | hapart
    · exact .inl (by omega)
    · exact .inr (by omega)
  · obtain ⟨p, ⟨hp, -⟩, heq, hle⟩ := h.held e he
    have hbounds := bounds_of_mem_located hp
    rw [h.extent_eq] at hbounds
    exact ⟨by omega, by omega⟩
  · obtain ⟨p, ⟨hp, -⟩, heq, -⟩ := h.held e he
    have hwords := h.words haligned
    have hdvd : 4 ∣ p.1 := dvd_of_mem_located (Nat.dvd_of_mod_eq_zero haligned.1)
      (fun x hx ↦ Nat.dvd_of_mod_eq_zero (hwords x hx)) hp
    rw [heq, headerSize]
    omega
  · cases hused : place.2.used with
    | true => exact .inl ⟨rfl, h.used place ⟨hplace, hused⟩⟩
    | false =>
      obtain ⟨prev, next, hheader⟩ := h.chained.header_of_mem hplace
      exact .inr ⟨rfl, by rw [hheader.signature, hused]; rfl⟩
  · obtain ⟨p, ⟨hp, hused⟩, heq, hle⟩ := h.held e he
    exact ⟨p, hp, hused, heq, by omega⟩
  · have hblocks := h.idle hlive
    subst hblocks
    exact ⟨h.tiled, h.chained.1.next, h.chained.1.prev⟩

end Invariant

theorem Taken.apart (ht : Taken m m' start blocks blocks' a n)
    (h : Chained m before start blocks after) (hplace : Occupied start blocks place) :
    place.1 + place.2.length ≤ a ∨ a + n ≤ place.1 := by
  obtain ⟨a₀, n₀, hfree, hle, hend⟩ := ht.inside
  have hlength := h.room (mem_of_mem_located hplace.1)
  have hpos : ∀ x ∈ blocks, 1 ≤ x.length := fun x hx ↦ by
    have hx := h.room hx
    simp only [headerSize] at hx
    omega
  by_cases heq : place.1 = a₀
  · have hsame := located_inj hpos hplace.1 hfree heq
    have hused := hplace.2
    rw [hsame] at hused
    exact absurd hused (by simp)
  · rcases located_apart hplace.1 hfree heq with hapart | hapart
    · exact .inl (by omega)
    · exact .inr (by simp only at hapart; omega)

namespace Invariant

theorem take (h : Invariant s blocks) (ht : Taken s.mem m' s.region.start blocks blocks' a n)
    (hlen : len + headerSize + guardSize ≤ n) :
    Invariant { s with mem := m', live := (a + headerSize, len) :: s.live } blocks' := by
  have hn : 0 < n := by
    simp only [headerSize] at hlen
    omega
  refine ⟨ht.chained, ht.extent_eq.trans h.extent_eq, ht.coalesced,
    fun haligned ↦ ht.words (h.words haligned), fun e he ↦ ?_, fun place hplace ↦ ?_, ?_⟩
  · rcases mem_cons.mp he with rfl | he
    · refine ⟨(a, ⟨n, true⟩), (ht.occupied _).mpr (.inr rfl), rfl, ?_⟩
      simp only
      omega
    · obtain ⟨place, hplace, heq, hle⟩ := h.held e he
      exact ⟨place, (ht.occupied _).mpr (.inl hplace), heq, hle⟩
  · rcases (ht.occupied place).mp hplace with hold | rfl
    · obtain ⟨k, hk⟩ := h.used place hold
      exact ⟨k, mem_cons_of_mem _ hk⟩
    · exact ⟨len, mem_cons_self⟩
  · refine nodup_cons.mpr ⟨fun hmem ↦ ?_, h.nodup⟩
    obtain ⟨e, he, heq⟩ := mem_map.mp hmem
    obtain ⟨place, hplace, heq', -⟩ := h.held e he
    have hroom := h.chained.room (mem_of_mem_located hplace.1)
    simp only [headerSize] at hroom
    rcases ht.apart h.chained hplace with hapart | hapart
    · omega
    · omega

/-- The client, or a copy for it, writes to the payload of a block in use. -/
theorem write (h : Invariant s blocks) (hplace : place ∈ located Blk.length s.region.start blocks)
    (hagree : ∀ i, i < place.1 + headerSize ∨ place.1 + place.2.length ≤ i + guardSize →
      m' i = s.mem i) : Invariant { s with mem := m' } blocks :=
  ⟨h.chained.payload hplace hagree, h.extent_eq, h.coalesced, h.words, h.held, h.used, h.nodup⟩

theorem mem_liveWithout {ptr : ℕ} {e : ℕ × ℕ} : e ∈ s.liveWithout ptr ↔ e ∈ s.live ∧ e.1 ≠ ptr := by
  simp [System.liveWithout]

/-- What the client holds is released. -/
theorem free (h : Invariant s blocks) {ptr : ℕ} (hptr : (ptr, n) ∈ s.live) :
    ∃ m' blocks' a, SimpleHeap.release s.mem ptr = some m' ∧ ptr = a + headerSize ∧
      Freed s.mem m' s.region.start blocks blocks' a ∧
      Invariant { s with mem := m', live := s.liveWithout ptr } blocks' := by
  obtain ⟨place, hplace, heq, -⟩ := h.held _ hptr
  simp only at heq
  subst heq
  obtain ⟨m', blocks', hrelease, hfreed⟩ :=
    h.chained.release_used s.region.start_pos h.bound h.coalesced hplace
  refine ⟨m', blocks', place.1, hrelease, rfl, hfreed, hfreed.chained,
    hfreed.extent_eq.trans h.extent_eq, hfreed.coalesced,
    fun haligned ↦ hfreed.words (h.words haligned), fun e he ↦ ?_, fun other hother ↦ ?_, ?_⟩
  · obtain ⟨he, hne⟩ := mem_liveWithout.mp he
    obtain ⟨other, hother, heq, hle⟩ := h.held e he
    exact ⟨other, (hfreed.occupied other).mpr ⟨hother, by omega⟩, heq, hle⟩
  · obtain ⟨hother, hne⟩ := (hfreed.occupied other).mp hother
    obtain ⟨k, hk⟩ := h.used other hother
    exact ⟨k, mem_liveWithout.mpr ⟨hk, by simp only; omega⟩⟩
  · exact h.nodup.sublist (List.filter_sublist.map _)

end Invariant

end MicroFramework.SimpleHeap
