import Mathlib.Algebra.BigOperators.Group.List.Basic
import Mathlib.Tactic.Linarith
import Mathlib.Tactic.Ring
import MicroFramework.BlockStorage.Extents

/-!
# Positions of a stream

The ranges of the usage of a stream, one behind the other, are one space of bytes.  A stream is in
one of the ranges, and its position is the number of bytes before it.
-/

namespace MicroFramework.BlockStorage

open Arrays TinyBooter List Option

def extents (devices : List BlockDeviceInfo) (usage : UInt32) : List Extent :=
  (allExtents devices).filter (matchesUsage usage)

def total (es : List Extent) : ℕ := (es.map (·.length)).sum

@[simp] theorem total_nil : total [] = 0 := rfl

@[simp] theorem total_cons (e : Extent) (es : List Extent) :
    total (e :: es) = e.length + total es := rfl

@[simp] theorem total_append (es es' : List Extent) : total (es ++ es') = total es + total es' := by
  unfold total
  rw [map_append, sum_append]

/-- A range consists of blocks, and lies in the address space. -/
structure Extent.Sound (e : Extent) : Prop where
  block_pos : 0 < e.blockLength
  length_pos : 0 < e.length
  blocks : e.blockLength ∣ e.length
  bound : e.address + e.length < 2 ^ 32

theorem Tiles.length_le {first numBlocks : ℕ} {ranges : List BlockRange}
    (h : Tiles first ranges numBlocks) : first + ranges.length ≤ numBlocks := by
  induction ranges generalizing first with
  | nil => exact le_of_eq h
  | cons range ranges ih =>
    obtain ⟨-, hle, hrest⟩ := h
    have := ih hrest
    rw [length_cons]
    omega

theorem extentOf_sound {devices : List BlockDeviceInfo} {d i j : ℕ} {device : BlockDeviceInfo}
    {region : BlockRegionInfo} {range : BlockRange} (h : IsAt devices d i j device region range) :
    (extentOf d device i region j range).Sound := by
  obtain ⟨-, hend, hle⟩ := region.tiles.le_start (mem_of_getElem? h.range_eq)
  have hcount : range.startBlock + range.getBlockCount ≤ region.numBlocks := by
    unfold BlockRange.getBlockCount
    omega
  have hmul := Nat.mul_le_mul_right region.bytesPerBlock hcount
  have hbound := region.bound
  refine ⟨region.pos, Nat.mul_pos (Nat.succ_pos _) region.pos, Nat.dvd_mul_left _ _, ?_⟩
  unfold extentOf BlockRegionInfo.blockAddress
  dsimp only
  rw [Nat.add_mul] at hmul
  omega

theorem IsAt.range_lt {devices : List BlockDeviceInfo} {d i j : ℕ} {device : BlockDeviceInfo}
    {region : BlockRegionInfo} {range : BlockRange} (h : IsAt devices d i j device region range) :
    j + 1 < 2 ^ 32 := by
  have hj := (List.getElem?_eq_some_iff.mp h.range_eq).1
  have hlen := Tiles.length_le region.tiles
  have hbound := region.bound
  have hmul := Nat.le_mul_of_pos_right region.numBlocks region.pos
  omega

theorem sound_of_mem {devices : List BlockDeviceInfo} {usage : UInt32} {e : Extent}
    (h : e ∈ extents devices usage) : e.Sound := by
  obtain ⟨d, i, j, device, region, range, hat, rfl⟩ := mem_allExtents (mem_of_mem_filter h)
  exact extentOf_sound hat

/-! ## Where a stream is -/

/-- The stream describes the range `e`, with the ranges of its usage before and behind it. -/
structure Located (devices : List BlockDeviceInfo) (s : BlockStorageStream) (pre : List Extent)
    (e : Extent) (post : List Extent) : Prop where
  split : extents devices s.usage = pre ++ e :: post
  device_eq : s.device = some e.device
  regionIndex_eq : s.regionIndex = e.region
  rangeIndex_eq : s.rangeIndex = e.range
  baseAddress_eq : s.baseAddress = e.address
  length_eq : s.length = e.length
  blockLength_eq : s.blockLength = e.blockLength
  inside : s.currentIndex ≤ e.length

variable {devices : List BlockDeviceInfo} {s : BlockStorageStream} {pre post : List Extent}
  {e : Extent}

section

variable (h : Located devices s pre e post)

include h

theorem Located.mem : e ∈ extents devices s.usage := by
  rw [h.split]
  exact mem_append_right _ mem_cons_self

theorem Located.sound : e.Sound := sound_of_mem h.mem

/-- The ranges around the one of a stream are those of the usage around its place. -/
theorem Located.place :
    ∃ device region range, IsAt devices e.device e.region e.range device region range ∧
      pre = (before devices e.device device e.region region e.range).filter (matchesUsage s.usage) ∧
      post = (behind devices e.device device e.region region (e.range + 1)).filter
        (matchesUsage s.usage) := by
  obtain ⟨hmem, hmatch⟩ := mem_filter.mp h.mem
  obtain ⟨d, i, j, device, region, range, hat, rfl⟩ := mem_allExtents hmem
  refine ⟨device, region, range, hat, ?_⟩
  have hsplit := h.split
  have hnodup := (nodup_allExtents devices).filter (matchesUsage s.usage)
  unfold extents at hsplit
  rw [hsplit] at hnodup
  rw [allExtents_eq hat, filter_append, filter_cons_of_pos hmatch] at hsplit
  have hapart := nodup_append.mp hnodup
  have hpre : extentOf d device i region j range ∉ pre :=
    fun hin ↦ hapart.2.2 _ hin _ mem_cons_self rfl
  have hpost : extentOf d device i region j range ∉ post := (nodup_cons.mp hapart.2.1).1
  obtain ⟨hb, ha⟩ := (append_cons_inj_of_notMem hpre hpost).mp hsplit.symm
  exact ⟨hb, ha.2⟩

end

/-! ## The next range -/

/-- The stream at the start of a range that was found going forward. -/
def enter (s : BlockStorageStream) (e : Extent) : BlockStorageStream :=
  { s with
    baseAddress := e.address
    currentIndex := 0
    length := e.length
    blockLength := e.blockLength
    regionIndex := e.region
    rangeIndex := e.range
    isXIP := if s.device = some e.device then s.isXIP else e.supportsXIP
    currentUsage := e.usage
    device := some e.device }

theorem nextStream_eq (devices : List BlockDeviceInfo) (s : BlockStorageStream) :
    nextStream devices s =
      match (findDevice s.usage (s.device.getD 0) s.regionIndex
        (if s.device = none then s.rangeIndex else (s.rangeIndex + 1) % 2 ^ 32)
        (devices.drop (s.device.getD 0))).map extentFound with
      | none => (s, false)
      | some e => (enter s e, true) := by
  unfold nextStream
  dsimp only
  split
  · rename_i h
    rw [h]
    rfl
  · rename_i h
    rw [h]
    rfl

theorem located_enter {next : Extent} (h : extents devices s.usage = pre ++ next :: post) :
    Located devices (enter s next) pre next post :=
  ⟨h, rfl, rfl, rfl, rfl, rfl, rfl, Nat.zero_le _⟩

/-- `NextStream` goes to the start of the range behind, if there is one. -/
theorem Located.nextStream (h : Located devices s pre e post) :
    nextStream devices s =
      match post.head? with
      | none => (s, false)
      | some next => (enter s next, true) := by
  obtain ⟨device, region, range, hat, -, hpost⟩ := h.place
  rw [nextStream_eq, h.device_eq, h.regionIndex_eq, h.rangeIndex_eq,
    if_neg (some_ne_none _), Nat.mod_eq_of_lt hat.range_lt]
  dsimp only [getD_some]
  rw [findDevice_eq s.usage hat.device_eq hat.region_eq (e.range + 1), ← head?_filter,
    ← hpost]

theorem Located.next {next : Extent} {rest : List Extent}
    (h : Located devices s pre e (next :: rest)) :
    Located devices (enter s next) (pre ++ [e]) next rest := by
  refine located_enter ?_
  rw [h.split, append_assoc, singleton_append]

/-! ## The previous range -/

/-- The stream at the start of a range that was found going back. -/
def enterBack (s : BlockStorageStream) (e : Extent) : BlockStorageStream :=
  { s with
    baseAddress := e.address
    currentIndex := 0
    length := e.length
    blockLength := e.blockLength
    regionIndex := e.region
    rangeIndex := e.range
    isXIP := e.supportsXIP
    device := some e.device }

theorem prevStream_eq (devices : List BlockDeviceInfo) (s : BlockStorageStream) (d : ℕ)
    (h : s.device = some d) :
    prevStream devices s =
      ((findBack devices s.usage (countRanges devices + 1) d s.regionIndex s.rangeIndex).map
        (Option.map extentBack)).map fun found ↦
          match found with
          | none => (s, false)
          | some e => (enterBack s e, true) := by
  unfold prevStream
  rw [h]
  dsimp only
  cases findBack devices s.usage (countRanges devices + 1) d s.regionIndex s.rangeIndex with
  | none => rfl
  | some found => cases found <;> rfl

theorem located_enterBack {previous : Extent}
    (h : extents devices s.usage = pre ++ previous :: post) :
    Located devices (enterBack s previous) pre previous post :=
  ⟨h, rfl, rfl, rfl, rfl, rfl, rfl, Nat.zero_le _⟩

/-- What the search back finds is of the usage for the search forward, too. -/
theorem find_reverse_filter (usage : UInt32) (es : List Extent) :
    es.reverse.find? (·.usage = usage) =
      (es.filter (matchesUsage usage)).reverse.find? (·.usage = usage) := by
  rw [← filter_reverse, find?_filter]
  congr 1
  funext e
  unfold matchesUsage
  by_cases h : e.usage = usage <;> simp [h]

/-- `PrevStream` goes to the start of the range before, if there is one. -/
theorem Located.prevStream (hall : Inhabited devices) (h : Located devices s pre e post)
    (husage : ∀ previous ∈ pre.getLast?, previous.usage = s.usage) :
    prevStream devices s =
      some (match pre.getLast? with
        | none => (s, false)
        | some previous => (enterBack s previous, true)) := by
  obtain ⟨device, region, range, hat, hpre, -⟩ := h.place
  have hj := (List.getElem?_eq_some_iff.mp hat.range_eq).1
  have hturns : (before devices e.device device e.region region e.range).length <
      countRanges devices + 1 := by
    have hlen := congrArg List.length (allExtents_eq hat)
    rw [length_allExtents, length_append] at hlen
    omega
  rw [prevStream_eq devices s e.device h.device_eq, h.regionIndex_eq,
    h.rangeIndex_eq, findBack_eq hall s.usage _ hat.device_eq hat.region_eq hj.le hturns,
    find_reverse_filter, ← hpre, map_some]
  rcases eq_nil_or_concat pre with rfl | ⟨init, previous, rfl⟩
  · rfl
  · have hlast := husage previous (by simp)
    rw [concat_eq_append, reverse_append, reverse_singleton, singleton_append,
      find?_cons, decide_eq_true hlast, getLast?_concat]

theorem Located.previous {init : List Extent} {previous : Extent}
    (h : Located devices s (init ++ [previous]) e post) :
    Located devices (enterBack s previous) init previous (e :: post) := by
  refine located_enterBack ?_
  rw [h.split, append_assoc, singleton_append]

/-! ## The first range -/

theorem mem_of_findDevice {usage : UInt32} {d : ℕ} (hd : d ≤ devices.length)
    (h : (findDevice usage d 0 0 (devices.drop d)).map extentFound = some e) :
    e ∈ extents devices usage := by
  rw [findDevice_zero] at h
  refine mem_filter.mpr ⟨?_, find?_some h⟩
  rw [allExtents, Library.listing_take_drop hd]
  exact mem_append_right _ (mem_of_find?_eq_some h)

/-- A stream starts in a range of the usage. -/
theorem initializeStream_located {devices : List BlockDeviceInfo} {primary : Bool}
    {usage : UInt32} {device : Option ℕ} {s s' : BlockStorageStream}
    (h : initializeStream devices primary usage device s = (s', true)) :
    s'.usage = usage ∧ ∃ pre e post, Located devices s' pre e post := by
  unfold initializeStream at h
  split at h
  · cases h
  · rw [nextStream_eq] at h
    split at h
    · cases h
    · rename_i e hfound
      obtain rfl := (Prod.mk.inj h).1
      have hmem : e ∈ extents devices usage := by
        cases hdevice : device.filter (· < devices.length) with
        | none =>
          rw [hdevice] at hfound
          exact mem_of_findDevice (Nat.zero_le _) hfound
        | some d =>
          rw [hdevice] at hfound
          dsimp only [getD_some] at hfound
          rw [if_neg (some_ne_none d), if_neg (some_ne_none d),
            show (2 ^ 32 - 1 + 1) % 2 ^ 32 = 0 by norm_num] at hfound
          have hd : d < devices.length := by simpa using (filter_eq_some_iff.mp hdevice).2
          exact mem_of_findDevice hd.le hfound
      obtain ⟨pre, post, hsplit⟩ := append_of_mem hmem
      exact ⟨rfl, pre, e, post, located_enter hsplit⟩

end MicroFramework.BlockStorage
