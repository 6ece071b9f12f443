import MicroFramework.Library.Tiling
import MicroFramework.SimpleHeap.Allocator

/-!
# How blocks lie in the simple heap

The blocks of the heap follow one another without gaps, and their headers say so: the length leads
to the next block, and the two pointers link neighbours.  Each edit of the allocator changes the
list of blocks in one place.
-/

namespace MicroFramework.SimpleHeap

open Library SimpleHeap

/-- A block of the heap: how long it is, header included, and whether it is in use. -/
structure Blk where
  length : ℕ
  used : Bool
  deriving DecidableEq

/-- The header at the address `a` describes the block `x` between its neighbours. -/
structure Header (m : Memory) (a prev next : ℕ) (x : Blk) : Prop where
  next : get m a .next = next
  prev : get m a .prev = prev
  length : get m a .length = x.length
  signature : get m a .signature = if x.used then busy else free
  room : headerSize ≤ x.length
  headGuard : x.used = true → get m a .headGuard = guardWord
  tailGuard : x.used = true →
    headerSize + guardSize ≤ x.length ∧ loadWord m (a + x.length - guardSize) = guardWord

/-- The address of the block that the list `blocks` starts with, at `a`; `after` if it is empty. -/
def headAddress (a : ℕ) (blocks : List Blk) (after : ℕ) : ℕ :=
  match blocks with
  | [] => after
  | _ :: _ => a

/-- The address of the last of the blocks that start at `a`; `before` if there is none. -/
def lastAddress (before a : ℕ) : List Blk → ℕ
  | [] => before
  | x :: blocks => lastAddress a (a + x.length) blocks

/-- The headers from `a` on describe the blocks, between a block at `before` and one at `after`. -/
def Chained (m : Memory) : (before a : ℕ) → List Blk → (after : ℕ) → Prop
  | _, _, [], _ => True
  | before, a, x :: blocks, after =>
    Header m a before (headAddress (a + x.length) blocks after) x ∧
      Chained m a (a + x.length) blocks after

variable {m m' : Memory} {before a after prev next i : ℕ} {x y : Blk} {blocks left right : List Blk}

theorem Header.congr (h : Header m a prev next x)
    (hagree : ∀ i, a ≤ i → i < a + x.length → m' i = m i) : Header m' a prev next x := by
  have hroom := h.room
  have hget : ∀ field, get m' a field = get m a field :=
    get_congr fun i hlow hhigh ↦ hagree i hlow (by omega)
  refine ⟨?_, ?_, ?_, ?_, hroom, fun hused ↦ ?_, fun hused ↦ ?_⟩
  · rw [hget, h.next]
  · rw [hget, h.prev]
  · rw [hget, h.length]
  · rw [hget, h.signature]
  · rw [hget, h.headGuard hused]
  · obtain ⟨hsize, hguard⟩ := h.tailGuard hused
    refine ⟨hsize, ?_⟩
    rw [loadWord_congr (fun i hlow hhigh ↦ hagree i ?_ ?_), hguard]
    · simp only [headerSize, guardSize] at *
      omega
    · simp only [headerSize, guardSize] at *
      omega

theorem Chained.congr (h : Chained m before a blocks after)
    (hagree : ∀ i, a ≤ i → i < a + extent Blk.length blocks → m' i = m i) :
    Chained m' before a blocks after := by
  induction blocks generalizing before a with
  | nil => trivial
  | cons x blocks ih =>
    obtain ⟨hheader, hrest⟩ := h
    rw [extent_cons] at hagree
    refine ⟨hheader.congr fun i hlow hhigh ↦ hagree i hlow (by omega), ih hrest ?_⟩
    exact fun i hlow hhigh ↦ hagree i (by omega) (by omega)

@[simp] theorem headAddress_nil (a after : ℕ) : headAddress a [] after = after := rfl

@[simp] theorem headAddress_cons (a after : ℕ) (x : Blk) (blocks : List Blk) :
    headAddress a (x :: blocks) after = a := rfl

theorem headAddress_eq (a : ℕ) (blocks : List Blk) :
    headAddress a blocks 0 = 0 ∨ a = headAddress a blocks 0 := by
  cases blocks <;> simp

theorem lastAddress_append_singleton (before a : ℕ) (blocks : List Blk) (x : Blk) :
    lastAddress before a (blocks ++ [x]) = a + extent Blk.length blocks := by
  induction blocks generalizing before a with
  | nil => rfl
  | cons y blocks ih => rw [List.cons_append, lastAddress, ih, extent_cons, Nat.add_assoc]

/-- The blocks around one of them. -/
theorem chained_append_cons :
    Chained m before a (left ++ x :: right) after ↔
      Chained m before a left (a + extent Blk.length left) ∧
      Header m (a + extent Blk.length left) (lastAddress before a left)
        (headAddress (a + extent Blk.length left + x.length) right after) x ∧
      Chained m (a + extent Blk.length left) (a + extent Blk.length left + x.length) right
        after := by
  induction left generalizing before a with
  | nil => simp [Chained, lastAddress]
  | cons y left ih =>
    have hnext : headAddress (a + y.length) (left ++ x :: right) after =
        headAddress (a + y.length) left (a + (y.length + extent Blk.length left)) := by
      cases left <;> simp
    simp only [List.cons_append, Chained, lastAddress, extent_cons, ih, hnext, Nat.add_assoc,
      and_assoc]

theorem Chained.room (h : Chained m before a blocks after) (hx : x ∈ blocks) :
    headerSize ≤ x.length := by
  induction blocks generalizing before a with
  | nil => simp at hx
  | cons y blocks ih =>
    rcases List.mem_cons.mp hx with rfl | hx
    · exact h.1.room
    · exact ih h.2 hx

/-- The next block is told where its new predecessor lies. -/
theorem Chained.linkPrev (h : Chained m before a blocks 0) (hpos : 0 < a) {v : ℕ}
    (hv : v < 2 ^ 32) : Chained (linkPrev m (headAddress a blocks 0) v) v a blocks 0 := by
  cases blocks with
  | nil => trivial
  | cons x blocks =>
    obtain ⟨hheader, hrest⟩ := h
    have hroom := hheader.room
    have hne : a ≠ 0 := by omega
    simp only [headAddress_cons, linkPrev, hne, if_false]
    refine ⟨⟨?_, get_set_self m a .prev hv, ?_, ?_, hroom, fun hused ↦ ?_, fun hused ↦ ?_⟩, ?_⟩
    · rw [get_set_of_ne (by decide), hheader.next]
    · rw [get_set_of_ne (by decide), hheader.length]
    · rw [get_set_of_ne (by decide), hheader.signature]
    · rw [get_set_of_ne (by decide), hheader.headGuard hused]
    · obtain ⟨hsize, hguard⟩ := hheader.tailGuard hused
      refine ⟨hsize, ?_⟩
      rw [loadWord_congr (fun i hlow _ ↦ set_of_apart ?_), hguard]
      simp only [headerSize, guardSize] at *
      omega
    · exact hrest.congr fun i hlow _ ↦ set_of_apart (by omega)

section Headers

variable {n len : ℕ}

/-- A block of known size and neighbours is marked as used. -/
theorem header_occupy (hnext : get m a .next = next) (hprev : get m a .prev = prev)
    (hlength : get m a .length = n) (hroom : headerSize + guardSize ≤ n) :
    Header (occupy m a) a prev next ⟨n, true⟩ := by
  have htail : occupy m a =
      storeWord (set (set m a .signature busy) a .headGuard guardWord) (a + n - guardSize)
        guardWord := by
    unfold occupy tailGuard
    simp only [get_set_of_ne (show Field.length ≠ .headGuard by decide),
      get_set_of_ne (show Field.length ≠ .signature by decide), hlength]
  have hapart : ∀ field, get (occupy m a) a field =
      get (set (set m a .signature busy) a .headGuard guardWord) a field := by
    rw [htail]
    refine get_congr fun i _ hhigh ↦ storeWord_of_apart ?_
    simp only [headerSize, guardSize] at *
    omega
  refine ⟨?_, ?_, ?_, ?_, ?_, fun _ ↦ ?_, fun _ ↦ ⟨hroom, ?_⟩⟩
  · rw [hapart, get_set_of_ne (by decide), get_set_of_ne (by decide), hnext]
  · rw [hapart, get_set_of_ne (by decide), get_set_of_ne (by decide), hprev]
  · rw [hapart, get_set_of_ne (by decide), get_set_of_ne (by decide), hlength]
  · rw [hapart, get_set_of_ne (by decide), get_set_self _ _ _ (by decide), if_pos rfl]
  · exact Nat.le_of_add_right_le hroom
  · rw [hapart, get_set_self _ _ _ (by decide)]
  · rw [htail]
    exact loadWord_storeWord _ _ (by decide)

/-- Marking a block stays inside of it. -/
theorem occupy_of_apart (hlength : get m a .length = n) (hroom : headerSize + guardSize ≤ n)
    (h : i < a ∨ a + n ≤ i) : occupy m a i = m i := by
  have hsize : get (set (set m a .signature busy) a .headGuard guardWord) a .length = n := by
    rw [get_set_of_ne (by decide), get_set_of_ne (by decide), hlength]
  simp only [headerSize, guardSize] at hroom
  rw [occupy, tailGuard, storeWord_of_apart, set_of_apart, set_of_apart]
  · simp only [headerSize]
    omega
  · simp only [headerSize]
    omega
  · rw [hsize]
    simp only [guardSize]
    omega

theorem Header.release (h : Header m a prev next ⟨n, true⟩) :
    Header (set m a .signature free) a prev next ⟨n, false⟩ := by
  refine ⟨?_, ?_, ?_, ?_, h.room, fun hused ↦ absurd hused (by simp),
    fun hused ↦ absurd hused (by simp)⟩
  · rw [get_set_of_ne (by decide), h.next]
  · rw [get_set_of_ne (by decide), h.prev]
  · rw [get_set_of_ne (by decide), h.length]
  · rw [get_set_self _ _ _ (by decide), if_neg (by simp)]

/-- What a split makes of the block at `a` of `n` bytes: it is cut short, and the new block behind
it has its links and its length; the blocks after it see their new predecessor. -/
theorem Header.split (h : Header m a prev next ⟨n, false⟩) (hlen : headerSize ≤ len)
    (hrest : headerSize + len ≤ n) (hbound : a + n ≤ 2 ^ 32) (hnext : next = 0 ∨ a + n = next) :
    (split m a len).1 = a + n - len ∧
    Header (split m a len).2 a prev (a + n - len) ⟨n - len, false⟩ ∧
    get (split m a len).2 (a + n - len) .next = next ∧
    get (split m a len).2 (a + n - len) .prev = a ∧
    get (split m a len).2 (a + n - len) .length = len ∧
    (∀ i < a + n - len, i < a ∨ a + headerSize ≤ i → (split m a len).2 i = m i) ∧
    ∀ i, a + n ≤ i →
      (split m a len).2 i = linkPrev m next (a + n - len) i := by
  have hlength : get m a .length = n := h.length
  have hlt : next < 2 ^ 32 := h.next ▸ get_lt m a .next
  simp only [headerSize] at hlen hrest
  -- the memory after the links were set, and the two lengths
  generalize hptr : a + n - len = ptr
  have hptra : a + headerSize ≤ ptr := by simp only [headerSize]; omega
  have hptrn : ptr + headerSize ≤ a + n := by simp only [headerSize]; omega
  have hnexta : next = 0 ∨ a + headerSize ≤ next := by simp only [headerSize]; omega
  have hnextp : next = 0 ∨ ptr + headerSize ≤ next := by omega
  generalize hlinks : linkPrev (set (set (set m ptr .next next) ptr .prev a) a .next ptr)
    next ptr = links
  have hgeta : ∀ field, field ≠ .next → get links a field = get m a field := by
    intro field hfield
    rw [← hlinks, get_linkPrev_of_apart (by omega), get_set_of_ne hfield,
      get_set_of_apart (.inl hptra), get_set_of_apart (.inl hptra)]
  have hgetp : ∀ field, get links ptr field =
      get (set (set m ptr .next next) ptr .prev a) ptr field := by
    intro field
    rw [← hlinks, get_linkPrev_of_apart (by omega), get_set_of_apart (.inr hptra)]
  have hsplit : SimpleHeap.split m a len =
      (ptr, set (set links ptr .length len) a .length (n - len)) := by
    simp only [SimpleHeap.split, hlength, h.next, hptr, hlinks]
    rw [get_set_of_apart (.inl hptra), hgeta _ (by decide), hlength]
  have hbytes : ∀ i, i < a ∨ a + headerSize ≤ i → i < ptr ∨ ptr + headerSize ≤ i →
      set (set links ptr .length len) a .length (n - len) i = linkPrev m next ptr i := by
    intro i hi hi'
    rw [set_of_apart hi, set_of_apart hi', ← hlinks]
    refine linkPrev_congr ?_
    rw [set_of_apart hi, set_of_apart hi', set_of_apart hi']
  rw [hsplit]
  refine ⟨rfl, ⟨?_, ?_, ?_, ?_, ?_, fun hused ↦ absurd hused (by simp),
    fun hused ↦ absurd hused (by simp)⟩, ?_, ?_, ?_, fun i hi hia ↦ ?_,
    fun i hi ↦ hbytes i (by omega) (by omega)⟩
  · rw [get_set_of_ne (by decide), get_set_of_apart (.inl hptra), ← hlinks,
      get_linkPrev_of_apart (by omega), get_set_self _ _ _ (by omega)]
  · rw [get_set_of_ne (by decide), get_set_of_apart (.inl hptra), hgeta _ (by decide), h.prev]
  · exact get_set_self _ _ _ (by omega)
  · rw [get_set_of_ne (by decide), get_set_of_apart (.inl hptra), hgeta _ (by decide), h.signature]
  · simp only [headerSize]
    omega
  · rw [get_set_of_apart (.inr hptra), get_set_of_ne (by decide), hgetp,
      get_set_of_ne (by decide), get_set_self _ _ _ hlt]
  · rw [get_set_of_apart (.inr hptra), get_set_of_ne (by decide), hgetp,
      get_set_self _ _ _ (by omega)]
  · rw [get_set_of_apart (.inr hptra), get_set_self _ _ _ (by omega)]
  · exact (hbytes i hia (.inl hi)).trans (linkPrev_of_apart (by omega))

/-- What a merge makes of two neighbours: one block with the links around them; the blocks after it
see their new predecessor. -/
theorem Header.absorb {b : ℕ} (h : Header m a prev b ⟨n, false⟩) (hb : a + n = b)
    (hy : Header m b a next ⟨len, false⟩) (hbound : b + len ≤ 2 ^ 32)
    (hnext : next = 0 ∨ b + len = next) (hpos : 0 < a) :
    Header (absorb m a b) a prev next ⟨n + len, false⟩ ∧
    (∀ i < a, absorb m a b i = m i) ∧
    ∀ i, b + len ≤ i → absorb m a b i = linkPrev m next a i := by
  have hlength : get m a .length = n := h.length
  have hlength' : get m b .length = len := hy.length
  have hlt : next < 2 ^ 32 := hy.next ▸ get_lt m b .next
  have hroom : headerSize ≤ n := h.room
  have hroom' : headerSize ≤ len := hy.room
  simp only [headerSize] at hroom hroom'
  have habsorb : SimpleHeap.absorb m a b =
      SimpleHeap.linkPrev (set (set m a .length (n + len)) a .next next) next a := by
    simp only [SimpleHeap.absorb, hlength, hlength']
    rw [get_set_of_apart (by simp only [headerSize]; omega), hy.next]
  have hnexta : next = 0 ∨ a + headerSize ≤ next := by simp only [headerSize]; omega
  rw [habsorb]
  refine ⟨⟨?_, ?_, ?_, ?_, ?_, fun hused ↦ absurd hused (by simp),
    fun hused ↦ absurd hused (by simp)⟩, fun i hi ↦ ?_, fun i hi ↦ ?_⟩
  · rw [get_linkPrev_of_apart (by omega), get_set_self _ _ _ hlt]
  · rw [get_linkPrev_of_apart (by omega), get_set_of_ne (by decide), get_set_of_ne (by decide),
      h.prev]
  · rw [get_linkPrev_of_apart (by omega), get_set_of_ne (by decide),
      get_set_self _ _ _ (by omega)]
  · rw [get_linkPrev_of_apart (by omega), get_set_of_ne (by decide), get_set_of_ne (by decide),
      h.signature]
  · simp only [headerSize]
    omega
  · rw [linkPrev_of_apart (by omega), set_of_apart (by omega), set_of_apart (by omega)]
  · refine linkPrev_congr ?_
    have hfar : a + headerSize ≤ i := by simp only [headerSize]; omega
    rw [set_of_apart (.inr hfar), set_of_apart (.inr hfar)]

end Headers

/-!
## Edits of the list of blocks

Marking a block, cutting a block in two and merging two blocks replace a part of the list of blocks
and leave the blocks around it, wherever in the list it is.
-/

variable {m m' : Memory} {start before a n len : ℕ} {x y : Blk} {blocks left right : List Blk}

/-- An edit of a block that keeps its length and its links. -/
theorem Chained.replace (h : Chained m before start (left ++ x :: right) 0)
    (hlength : y.length = x.length)
    (hheader : ∀ prev next, Header m (start + extent Blk.length left) prev next x →
      Header m' (start + extent Blk.length left) prev next y)
    (hapart : ∀ i, i < start + extent Blk.length left ∨
      start + extent Blk.length left + x.length ≤ i → m' i = m i) :
    Chained m' before start (left ++ y :: right) 0 := by
  obtain ⟨hleft, hx, hright⟩ := chained_append_cons.mp h
  refine chained_append_cons.mpr ⟨?_, ?_, ?_⟩
  · exact hleft.congr fun i _ hhigh ↦ hapart i (.inl hhigh)
  · rw [hlength]
    exact hheader _ _ hx
  · rw [hlength]
    exact hright.congr fun i hlow _ ↦ hapart i (.inr hlow)

theorem Chained.occupy (h : Chained m before start (left ++ ⟨n, false⟩ :: right) 0)
    (hroom : headerSize + guardSize ≤ n) :
    Chained (occupy m (start + extent Blk.length left)) before start
      (left ++ ⟨n, true⟩ :: right) 0 := by
  obtain ⟨-, hx, -⟩ := chained_append_cons.mp h
  refine h.replace rfl (fun prev next hheader ↦ ?_) fun i hi ↦ ?_
  · exact header_occupy hheader.next hheader.prev hheader.length hroom
  · exact occupy_of_apart hx.length hroom hi

theorem Chained.release (h : Chained m before start (left ++ ⟨n, true⟩ :: right) 0) :
    Chained (set m (start + extent Blk.length left) .signature free) before start
      (left ++ ⟨n, false⟩ :: right) 0 := by
  obtain ⟨-, hx, -⟩ := chained_append_cons.mp h
  have hroom : headerSize ≤ n := hx.room
  refine h.replace rfl (fun prev next hheader ↦ hheader.release) fun i hi ↦ set_of_apart ?_
  rcases hi with hi | hi
  · exact .inl hi
  · exact .inr (by simp only at hi; omega)

/-- The end of a free block is cut off and used. -/
theorem Chained.split (h : Chained m before start (left ++ ⟨n, false⟩ :: right) 0)
    (ha : start + extent Blk.length left = a) (hlen : headerSize + guardSize ≤ len)
    (hrest : headerSize + len ≤ n) (hbound : a + n ≤ 2 ^ 32) :
    Chained (SimpleHeap.occupy (split m a len).2 (a + n - len)) before start
      (left ++ ⟨n - len, false⟩ :: ⟨len, true⟩ :: right) 0 := by
  obtain ⟨hleft, hx, hright⟩ := chained_append_cons.mp h
  rw [ha] at hleft hx hright
  simp only at hx hright
  have hcut := hx.split (by omega) hrest hbound (headAddress_eq _ right)
  obtain ⟨-, hfirst, hnext, hprev, hlength, hlow, hhigh⟩ := hcut
  have hsecond : a + (n - len) = a + n - len := by omega
  have hend : a + n - len + len = a + n := by omega
  have hused := fun i ↦ @occupy_of_apart (SimpleHeap.split m a len).2 (a + n - len) i len hlength hlen
  refine chained_append_cons.mpr ⟨?_, ?_, ?_, ?_⟩
  · rw [ha]
    exact hleft.congr fun i _ hi ↦ (hused i (by omega)).trans (hlow i (by omega) (by omega))
  · rw [ha]
    simp only [headAddress_cons, hsecond]
    exact hfirst.congr fun i _ hi ↦ hused i (.inl (by simp only at hi; omega))
  · rw [ha]
    simp only [hsecond, hend]
    exact header_occupy hnext hprev hlength hlen
  · rw [ha]
    simp only [hsecond, hend]
    simp only [headerSize, guardSize] at hlen hrest
    have hlinked := hright.linkPrev (by omega) (show a + n - len < 2 ^ 32 by omega)
    refine hlinked.congr fun i hi _ ↦ ?_
    rw [hused i (.inr (by omega)), hhigh i hi]

/-- Two free neighbours become one block. -/
theorem Chained.absorb {k : ℕ}
    (h : Chained m before start (left ++ ⟨n, false⟩ :: ⟨k, false⟩ :: right) 0)
    (ha : start + extent Blk.length left = a) (hpos : 0 < a) (hbound : a + n + k ≤ 2 ^ 32) :
    Chained (absorb m a (a + n)) before start (left ++ ⟨n + k, false⟩ :: right) 0 := by
  obtain ⟨hleft, hx, hy, hright⟩ := chained_append_cons.mp h
  rw [ha] at hleft hx hy hright
  simp only [headAddress_cons] at hx hy hright
  obtain ⟨hmerged, hlow, hhigh⟩ := hx.absorb rfl hy hbound (headAddress_eq _ right) hpos
  refine chained_append_cons.mpr ⟨?_, ?_, ?_⟩
  · rw [ha]
    exact hleft.congr fun i _ hi ↦ hlow i (by omega)
  · rw [ha]
    simp only [← Nat.add_assoc]
    exact hmerged
  · rw [ha]
    simp only [← Nat.add_assoc]
    refine (hright.linkPrev (by omega) (show a < 2 ^ 32 by
      have hroom : headerSize ≤ n := hx.room
      simp only [headerSize] at hroom
      omega)).congr fun i hi _ ↦ hhigh i hi

end MicroFramework.SimpleHeap
