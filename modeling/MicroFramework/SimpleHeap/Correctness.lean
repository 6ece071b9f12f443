import MicroFramework.SimpleHeap.Invariant

/-!
# The simple heap is a correct allocator

Every run of legal calls whose sizes do not wrap around keeps the heap correct, every such call
returns, and none of them disturbs what the client holds.
-/

namespace MicroFramework.SimpleHeap

open Library List SimpleHeap

variable {s s' : System} {m m' : Memory} {start a n len i : ℕ} {place : ℕ × Blk}
  {blocks blocks' : List Blk}

namespace Invariant

section

variable (h : Invariant s blocks)

include h

variable {hi lo ptr : ℕ}

/-- A change of header bytes, and of bytes between `lo` and `hi` that belong to no block in use,
leaves what the client holds. -/
theorem kept (hbytes : ∀ i, i < lo ∨ hi ≤ i → ¬ HeaderByte s.region.start blocks i → m' i = s.mem i)
    {e : ℕ × ℕ} (he : e ∈ s.live)
    (hapart : ∀ place, Occupied s.region.start blocks place → e.1 = place.1 + headerSize →
      place.1 + place.2.length ≤ lo ∨ hi ≤ place.1) :
    ∀ i < e.2, m' (e.1 + i) = s.mem (e.1 + i) := by
  intro i hi'
  obtain ⟨place, hplace, heq, hle⟩ := h.held e he
  have hside := hapart place hplace heq
  exact hbytes _ (by omega) (h.chained.not_headerByte hplace.1 (by omega) (by omega))

theorem outside
    (hbytes : ∀ i, i < lo ∨ hi ≤ i → ¬ HeaderByte s.region.start blocks i → m' i = s.mem i)
    (hlo : s.region.start ≤ lo) (hhi : hi ≤ s.region.start + s.region.length) :
    ∀ i, i < s.region.start ∨ s.region.start + s.region.length ≤ i → m' i = s.mem i := by
  intro i hi'
  refine hbytes i (by omega) fun hheader ↦ ?_
  have hbounds := h.chained.headerByte_bounds hheader
  rw [h.extent_eq] at hbounds
  omega

theorem taken_bounds (ht : Taken s.mem m' s.region.start blocks blocks' a n) :
    s.region.start ≤ a ∧ a + n ≤ s.region.start + s.region.length := by
  obtain ⟨a₀, n₀, hfree, hle, hend⟩ := ht.inside
  have hbounds := bounds_of_mem_located hfree
  rw [h.extent_eq] at hbounds
  simp only at hbounds
  omega

/-- `allocate` called by the client. -/
theorem allocate_cases (hsafe : ¬ s.WrapsAround len) :
    allocate s.mem s.region.start s.region.length len = some (0, s.mem) ∨
    ∃ a n m' blocks',
      allocate s.mem s.region.start s.region.length len = some (a + headerSize, m') ∧
      len + headerSize + guardSize ≤ n ∧
      Taken s.mem m' s.region.start blocks blocks' a n := by
  have havailable : ¬ (Wraps len ∧ Available blocks len) := fun hwraps ↦
    hsafe ⟨hwraps.1, blocks, h.tiled, hwraps.2⟩
  exact h.chained.allocate s.region.start_pos h.bound h.ne_nil h.length_lt h.coalesced havailable

theorem step_allocate (hsafe : ¬ s.WrapsAround len) :
    ∃ s' blocks', s.step (.allocate len) = some s' ∧ Invariant s' blocks' ∧
      s.Faithful (.allocate len) s' := by
  rcases h.allocate_cases hsafe with hnull | ⟨a, n, m', blocks', hallocate, hlen, ht⟩
  · refine ⟨s, blocks, ?_, h, fun i _ ↦ rfl, fun _ e _ _ i _ ↦ rfl, ?_⟩
    · simp only [System.step, hnull, if_true]
    · rintro ptr len ⟨⟩
  · refine ⟨_, blocks', ?_, h.take ht hlen, ?_, fun _ e he _ ↦ ?_, ?_⟩
    · have hne : a + headerSize ≠ 0 := by simp [headerSize]
      simp only [System.step, hallocate, hne, if_false]
    · obtain ⟨hlow, hhigh⟩ := h.taken_bounds ht
      exact h.outside ht.bytes hlow hhigh
    · exact h.kept ht.bytes he fun place hplace _ ↦ ht.apart h.chained hplace
    · rintro ptr len ⟨⟩

theorem step_write {v : UInt8} (hptr : (ptr, len) ∈ s.live) (hi : i < len) :
    ∃ s' blocks', s.step (.write ptr i v) = some s' ∧ Invariant s' blocks' ∧
      s.Faithful (.write ptr i v) s' := by
  obtain ⟨place, hplace, heq, hle⟩ := h.held _ hptr
  simp only at heq hle
  have hbounds := bounds_of_mem_located hplace.1
  rw [h.extent_eq] at hbounds
  have hother : ∀ j, j ≠ ptr + i → Function.update s.mem (ptr + i) v j = s.mem j :=
    fun j hj ↦ Function.update_of_ne hj v s.mem
  refine ⟨_, blocks, rfl, h.write hplace.1 fun j hj ↦ hother j (by omega),
    fun j hj ↦ hother j (by omega), fun hnot ↦ absurd rfl (hnot ptr i v), ?_⟩
  rintro ptr len ⟨⟩

theorem step_release (hptr : ptr = 0 ∨ s.Holds ptr) :
    ∃ s' blocks', s.step (.release ptr) = some s' ∧ Invariant s' blocks' ∧
      s.Faithful (.release ptr) s' := by
  by_cases hzero : ptr = 0
  · subst hzero
    have hlive : s.liveWithout 0 = s.live := by
      refine filter_eq_self.mpr fun e he ↦ ?_
      obtain ⟨place, -, heq, -⟩ := h.held e he
      have hne : e.1 ≠ 0 := by
        rw [heq]
        simp [headerSize]
      simpa using hne
    refine ⟨s, blocks, ?_, h, fun i _ ↦ rfl, fun _ e _ _ i _ ↦ rfl, ?_⟩
    · simp only [System.step, release, if_true, hlive]
    · rintro ptr len ⟨⟩
  · obtain ⟨n, hn⟩ := hptr.resolve_left hzero
    obtain ⟨m', blocks', a, hrelease, -, hfreed, h'⟩ := h.free hn
    have hbytes : ∀ i, i < s.region.start ∨ s.region.start ≤ i →
        ¬ HeaderByte s.region.start blocks i → m' i = s.mem i := fun i _ ↦ hfreed.bytes i
    refine ⟨_, blocks', ?_, h', ?_, fun _ e he _ ↦ ?_, ?_⟩
    · simp only [System.step, hrelease]
    · exact h.outside hbytes le_rfl (Nat.le_add_right _ _)
    · refine h.kept hbytes he fun place hplace _ ↦ ?_
      exact .inr (bounds_of_mem_located hplace.1).1
    · rintro ptr len ⟨⟩

end

theorem copyLength_le (m : Memory) (blk len : ℕ) : copyLength m blk len ≤ len := by
  unfold copyLength
  split <;> omega

variable {ptr : ℕ}

/-- What `reAllocate` goes on with after it took a new block: the copy is the client's, and then the
old block is released. -/
theorem reAllocate_tail (h : Invariant s blocks)
    (ht : Taken s.mem m' s.region.start blocks blocks' a n)
    (hlen : len + headerSize + guardSize ≤ n) {old : ℕ} (hptr : (ptr, old) ∈ s.live) :
    ∃ m₃ blocks₃,
      release (copy m' (a + headerSize) ptr (copyLength m' (ptr - headerSize) len)) ptr = some m₃ ∧
      Invariant { s with mem := m₃, live := (a + headerSize, len) :: s.liveWithout ptr } blocks₃ ∧
      Occupied s.region.start blocks₃ (a, ⟨n, true⟩) ∧
      (∀ i, i < a ∨ a + n ≤ i → ¬ HeaderByte s.region.start blocks i → m₃ i = s.mem i) ∧
      ∀ i < min old len, m₃ (a + headerSize + i) = s.mem (ptr + i) := by
  have hcount := copyLength_le m' (ptr - headerSize) len
  generalize hcopied : copyLength m' (ptr - headerSize) len = count at hcount ⊢
  have htaken := h.take ht hlen
  have hused : Occupied s.region.start blocks' (a, ⟨n, true⟩) := (ht.occupied _).mpr (.inr rfl)
  have hnew := hused.1
  have hcopy : Invariant { s with mem := copy m' (a + headerSize) ptr count,
                                  live := (a + headerSize, len) :: s.live } blocks' :=
    htaken.write hnew fun i hi ↦ copy_of_apart (by simp only at hi; omega)
  obtain ⟨m₃, blocks₃, b, hrelease, hb, hfreed, hfinal⟩ := hcopy.free (mem_cons_of_mem _ hptr)
  have hwritten : ∀ i, ¬ HeaderByte s.region.start blocks' i →
      m₃ i = copy m' (a + headerSize) ptr count i := hfreed.bytes
  have hfresh : a + headerSize ≠ ptr := by
    rintro rfl
    have hnodup := htaken.nodup
    rw [map_cons, nodup_cons] at hnodup
    exact hnodup.1 (mem_map.mpr ⟨_, hptr, rfl⟩)
  have hbytes : ∀ i, i < a ∨ a + n ≤ i → ¬ HeaderByte s.region.start blocks i → m₃ i = s.mem i := by
    intro i hi hheader
    have hheader' : ¬ HeaderByte s.region.start blocks' i := fun hnewer ↦
      (ht.headers i hnewer).elim hheader (by omega)
    rw [hwritten i hheader', copy_of_apart (by omega), ht.bytes i hi hheader]
  refine ⟨m₃, blocks₃, hrelease, ?_, (hfreed.occupied _).mpr ⟨hused, ?_⟩, hbytes, fun i hi ↦ ?_⟩
  · have hlive : System.liveWithout
        { s with mem := copy m' (a + headerSize) ptr count,
                 live := (a + headerSize, len) :: s.live } ptr =
        (a + headerSize, len) :: s.liveWithout ptr := by
      simp [System.liveWithout, hfresh]
    rw [← hlive]
    exact hfinal
  · exact fun hab ↦ hfresh (by rw [hb, ← hab])
  · obtain ⟨place, hplace, heq, hle⟩ := h.held _ hptr
    simp only at heq hle
    have holdmem := ((ht.occupied place).mpr (.inl hplace)).1
    obtain ⟨prev, next, hheader⟩ := htaken.chained.header_of_mem holdmem
    have hlength : get m' (ptr - headerSize) .length = place.2.length := by
      rw [heq, Nat.add_sub_cancel]
      exact hheader.length
    have hlt : i < count := by
      rw [← hcopied, copyLength, hlength]
      split <;> omega
    have hpayload := htaken.chained.not_headerByte hnew
      (show a + headerSize ≤ a + headerSize + i by omega) (by simp only; omega)
    rw [hwritten _ hpayload, copy_apply hlt]
    exact h.kept ht.bytes hptr (fun place hplace _ ↦ ht.apart h.chained hplace) i
      (by simp only; omega)

theorem step_reAllocate (h : Invariant s blocks) (hptr : ptr = 0 ∨ s.Holds ptr)
    (hsafe : ¬ s.WrapsAround len) :
    ∃ s' blocks', s.step (.reAllocate ptr len) = some s' ∧ Invariant s' blocks' ∧
      s.Faithful (.reAllocate ptr len) s' := by
  rcases h.allocate_cases hsafe with hnull | ⟨a, n, m', blocks', hallocate, hlen, ht⟩
  · refine ⟨s, blocks, ?_, h, fun i _ ↦ rfl, fun _ e _ _ i _ ↦ rfl,
      fun ptr len _ ↦ .inl ⟨rfl, rfl⟩⟩
    simp only [System.step, reAllocate, hnull, if_true]
  · have hne : a + headerSize ≠ 0 := by simp [headerSize]
    obtain ⟨hlow, hhigh⟩ := h.taken_bounds ht
    by_cases hzero : ptr = 0
    · subst hzero
      have hnull : ∀ e ∈ s.live, e.1 ≠ 0 := by
        intro e he
        obtain ⟨place, -, heq, -⟩ := h.held e he
        rw [heq]
        simp [headerSize]
      have hlive : s.liveWithout 0 = s.live :=
        filter_eq_self.mpr fun e he ↦ by simpa using hnull e he
      refine ⟨_, blocks', ?_, h.take ht hlen, h.outside ht.bytes hlow hhigh, fun _ e he _ ↦ ?_,
        ?_⟩
      · simp only [System.step, reAllocate, hallocate, hne, if_false, if_true, hlive]
      · exact h.kept ht.bytes he fun place hplace _ ↦ ht.apart h.chained hplace
      · rintro ptr len ⟨⟩
        refine .inr ⟨a + headerSize, by rw [hlive], fun old hold ↦ absurd rfl (hnull _ hold),
          blocks, blocks', n, h.tiled, (h.take ht hlen).tiled, ?_⟩
        rw [Nat.add_sub_cancel]
        exact ⟨(ht.occupied _).mpr (.inr rfl), by omega, ht.bytes⟩
    · obtain ⟨old, hold⟩ := hptr.resolve_left hzero
      obtain ⟨m₃, blocks₃, hrelease, h₃, hused, hbytes, hcopied⟩ :=
        h.reAllocate_tail ht hlen hold
      refine ⟨_, blocks₃, ?_, h₃, h.outside hbytes hlow hhigh, fun _ e he _ ↦ ?_, ?_⟩
      · simp only [System.step, reAllocate, hallocate, hne, hzero, if_false, hrelease]
      · exact h.kept hbytes he fun place hplace _ ↦ ht.apart h.chained hplace
      · rintro ptr len ⟨⟩
        refine .inr ⟨a + headerSize, rfl, fun old' hold' i hi ↦ ?_, blocks, blocks₃, n, h.tiled,
          h₃.tiled, ?_⟩
        · obtain rfl := h.live_unique hold hold'
          exact hcopied i hi
        · rw [Nat.add_sub_cancel]
          exact ⟨hused, by omega, hbytes⟩

/-- Every allowed call returns, keeps the invariant and disturbs nothing. -/
theorem step (h : Invariant s blocks) {action : Action} (ha : s.Allowed action) :
    ∃ s' blocks', s.step action = some s' ∧ Invariant s' blocks' ∧ s.Faithful action s' := by
  obtain ⟨hlegal, hsafe⟩ := ha
  cases action with
  | allocate len => exact h.step_allocate hsafe
  | reAllocate ptr len => exact h.step_reAllocate hlegal.2 hsafe
  | release ptr => exact h.step_release hlegal
  | write ptr i v =>
    obtain ⟨len, hptr, hi⟩ := hlegal
    exact h.step_write hptr hi

end Invariant

namespace System

theorem invariant_of_reachable (h : Reachable step Allowed Initialized s) :
    ∃ blocks, Invariant s blocks := by
  refine h.invariant (I := fun s ↦ ∃ blocks, Invariant s blocks)
    (fun s hs ↦ ⟨_, Invariant.of_initialized hs⟩) fun s a s' hs ha hstep ↦ ?_
  obtain ⟨blocks, hblocks⟩ := hs
  obtain ⟨t, blocks', ht, hinv, -⟩ := hblocks.step ha
  rw [hstep] at ht
  obtain rfl := Option.some.inj ht
  exact ⟨blocks', hinv⟩

/-- The simple heap is correct in every run of allowed calls, and each allowed call returns and is
faithful. -/
theorem simpleHeap_correct (h : Reachable step Allowed Initialized s) :
    s.Correct ∧ ∀ a, s.Allowed a → ∃ s', s.step a = some s' ∧ s.Faithful a s' := by
  obtain ⟨blocks, hblocks⟩ := invariant_of_reachable h
  refine ⟨hblocks.correct, fun a ha ↦ ?_⟩
  obtain ⟨s', -, hstep, -, hfaithful⟩ := hblocks.step ha
  exact ⟨s', hstep, hfaithful⟩

/-- A heap of 256 bytes. -/
def small : System :=
  ⟨⟨4096, 256, by decide, by decide, by decide⟩, initializeHeap (fun _ ↦ 0) 4096 256, []⟩

theorem small_initialized : small.Initialized :=
  ⟨⟨4096, 256, by decide, by decide, by decide⟩, fun _ ↦ 0, rfl⟩

/-- Ten bytes are allocated, moved to a block for twenty and released. -/
theorem simpleHeap_correct_small : ∃ s₁ s₂ s₃, small.step (.allocate 10) = some s₁ ∧
    s₁.step (.reAllocate 4336 20) = some s₂ ∧ s₂.step (.release 4292) = some s₃ ∧
    s₁.Faithful (.reAllocate 4336 20) s₂ ∧ s₃.Correct ∧ s₃.live = [] := by
  have hfits {s : System} {len : ℕ} (hlen : len ≤ 20) : ¬ s.WrapsAround len := fun hwraps ↦ by
    have hsize := hwraps.1
    simp only [Wraps, blockLength, headerSize, guardSize] at hsize
    omega
  have hsmall : Reachable step Allowed Initialized small := .start small_initialized
  have hfirst : (small.step (.allocate 10)).map live = some [(4336, 10)] := by decide +kernel
  obtain ⟨s₁, hstep₁, hlive₁⟩ := Option.map_eq_some_iff.mp hfirst
  have hs₁ := hsmall.step _ ⟨by simp [Legal], hfits (by decide)⟩ hstep₁
  have hsecond : ((small.step (.allocate 10)).bind
      (·.step (.reAllocate 4336 20))).map live = some [(4292, 20)] := by decide +kernel
  rw [hstep₁, Option.bind_some] at hsecond
  obtain ⟨s₂, hstep₂, hlive₂⟩ := Option.map_eq_some_iff.mp hsecond
  have hallowed : s₁.Allowed (.reAllocate 4336 20) :=
    ⟨⟨by decide, .inr ⟨10, by simp [hlive₁]⟩⟩, hfits le_rfl⟩
  have hs₂ := hs₁.step _ hallowed hstep₂
  obtain ⟨t, ht, hfaithful⟩ := (simpleHeap_correct hs₁).2 _ hallowed
  obtain rfl := Option.some.inj (hstep₂.symm.trans ht)
  have hthird : (((small.step (.allocate 10)).bind (·.step (.reAllocate 4336 20))).bind
      (·.step (.release 4292))).map live = some [] := by decide +kernel
  rw [hstep₁, Option.bind_some, hstep₂, Option.bind_some] at hthird
  obtain ⟨s₃, hstep₃, hlive₃⟩ := Option.map_eq_some_iff.mp hthird
  have hrelease : s₂.Allowed (.release 4292) := ⟨Or.inr ⟨20, by simp [hlive₂]⟩, trivial⟩
  have hs₃ := hs₂.step _ hrelease hstep₃
  exact ⟨s₁, s₂, s₃, hstep₁, hstep₂, hstep₃, hfaithful, (simpleHeap_correct hs₃).1, hlive₃⟩

/-- With a size close to 2³² the sum wraps around, and the client is told that it holds what the
region cannot hold. -/
theorem not_correct_of_wraps (h : Invariant s blocks) (hstart : 7 < s.region.start)
    (hwraps : 2 ^ 32 ≤ len + 27) (havailable : Available blocks len) :
    ∃ s', s.step (.allocate len) = some s' ∧ ¬ s'.Correct := by
  obtain ⟨x, hx, hfree, hle⟩ := havailable
  rcases search_blocks h.chained (blockLength len) s.region.start_pos h.ne_nil h.length_lt with
    ⟨-, hnone⟩ | ⟨left, n, right, rfl, hlen, hsearch⟩
  · exact absurd ⟨hfree, hle⟩ (hnone x hx)
  · have hhere := (chained_append_cons.mp h.chained).2.1
    have hlength : get s.mem (s.region.start + extent Blk.length left) .length = n := hhere.length
    obtain ⟨p, m', hallocate, hp⟩ : ∃ p m',
        allocate s.mem s.region.start s.region.length len = some (p, m') ∧
          s.region.start + headerSize ≤ p := by
      rw [allocate, hsearch]
      refine ⟨_, _, rfl, Nat.add_le_add_right ?_ headerSize⟩
      exact (Nat.le_add_right _ _).trans (le_carve (by rw [hlength]; exact hlen))
    simp only [headerSize] at hp
    have hne : p ≠ 0 := by omega
    refine ⟨{ s with mem := m', live := (p, len) :: s.live }, ?_, fun hcorrect ↦ ?_⟩
    · simp only [step, hallocate, hne, if_false]
    · have hinside := (hcorrect.inside _ mem_cons_self).2
      have hbound := s.region.bound
      simp only at hinside
      omega

/-- A legal run makes the heap incorrect: all of memory is asked for. -/
theorem simpleHeap_incorrect : ¬ ∀ s, Reachable step Legal Initialized s → s.Correct := by
  intro hall
  have hsmall : Reachable step Legal Initialized small := .start small_initialized
  have havailable : Available [⟨256, false⟩] (2 ^ 32 - 1) :=
    ⟨_, mem_cons_self, rfl, by simp [blockLength, headerSize, guardSize]⟩
  obtain ⟨s, hstep, hincorrect⟩ := not_correct_of_wraps (Invariant.of_initialized small_initialized)
    (by decide) (by decide) havailable
  refine hincorrect (hall s (.step _ hsmall ?_ hstep))
  simp [Legal]

end System

end MicroFramework.SimpleHeap
