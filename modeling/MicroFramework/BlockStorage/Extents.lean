import MicroFramework.Library.Listing
import MicroFramework.BlockStorage.Stream

/-!
# The ranges of a usage in order

All ranges of all devices in order, each with its place and where its bytes are.  The next range of
a stream is the first one of the usage behind its place, the previous one the last before it.
-/

namespace MicroFramework.BlockStorage

open TinyBooter Library List Option

/-- A range with its place: the bytes it stands for, in blocks. -/
structure Extent where
  device : ℕ
  region : ℕ
  range : ℕ
  address : ℕ
  length : ℕ
  blockLength : ℕ
  usage : UInt32
  supportsXIP : Bool
  deriving DecidableEq, Repr

def extentOf (d : ℕ) (device : BlockDeviceInfo) (i : ℕ) (region : BlockRegionInfo) (j : ℕ)
    (range : BlockRange) : Extent where
  device := d
  region := i
  range := j
  address := region.blockAddress range.startBlock
  length := range.getBlockCount * region.bytesPerBlock
  blockLength := region.bytesPerBlock
  usage := range.getBlockUsage
  supportsXIP := device.supportsXIP

/-! ## All ranges -/

def rangeExtent (d : ℕ) (device : BlockDeviceInfo) (i : ℕ) (region : BlockRegionInfo) (j : ℕ)
    (range : BlockRange) : List Extent :=
  [extentOf d device i region j range]

def regionExtents (d : ℕ) (device : BlockDeviceInfo) (i : ℕ) (region : BlockRegionInfo) :
    List Extent :=
  listing (rangeExtent d device i region) 0 region.blockRanges

def deviceExtents (d : ℕ) (device : BlockDeviceInfo) : List Extent :=
  listing (regionExtents d device) 0 device.regions

def allExtents (devices : List BlockDeviceInfo) : List Extent := listing deviceExtents 0 devices

variable {e : Extent}

theorem mem_regionExtents {d i : ℕ} {device : BlockDeviceInfo} {region : BlockRegionInfo}
    (h : e ∈ regionExtents d device i region) :
    ∃ j range, region.blockRanges[j]? = some range ∧ e = extentOf d device i region j range := by
  obtain ⟨j, range, hrange, he⟩ := mem_listing h
  exact ⟨j, range, hrange, by rw [mem_singleton.mp he, Nat.zero_add]⟩

theorem mem_deviceExtents {d : ℕ} {device : BlockDeviceInfo} (h : e ∈ deviceExtents d device) :
    ∃ i region j range, device.regions[i]? = some region ∧ region.blockRanges[j]? = some range ∧
      e = extentOf d device i region j range := by
  obtain ⟨i, region, hregion, he⟩ := mem_listing h
  obtain ⟨j, range, hrange, rfl⟩ := mem_regionExtents he
  exact ⟨i, region, j, range, hregion, hrange, by rw [Nat.zero_add]⟩

/-- A range is at its place. -/
structure IsAt (devices : List BlockDeviceInfo) (d i j : ℕ) (device : BlockDeviceInfo)
    (region : BlockRegionInfo) (range : BlockRange) : Prop where
  device_eq : devices[d]? = some device
  region_eq : device.regions[i]? = some region
  range_eq : region.blockRanges[j]? = some range

theorem mem_allExtents {devices : List BlockDeviceInfo} (h : e ∈ allExtents devices) :
    ∃ d i j device region range, IsAt devices d i j device region range ∧
      e = extentOf d device i region j range := by
  obtain ⟨d, device, hdevice, he⟩ := mem_listing h
  obtain ⟨i, region, j, range, hregion, hrange, rfl⟩ := mem_deviceExtents he
  exact ⟨d, i, j, device, region, range, ⟨hdevice, hregion, hrange⟩, by rw [Nat.zero_add]⟩

theorem nodup_allExtents (devices : List BlockDeviceInfo) : (allExtents devices).Nodup := by
  refine nodup_listing Extent.device ?_ (fun d device ↦ ?_) 0 devices
  · intro d device e he
    obtain ⟨i, region, j, range, -, -, rfl⟩ := mem_deviceExtents he
    rfl
  · refine nodup_listing Extent.region ?_ (fun i region ↦ ?_) 0 device.regions
    · intro i region e he
      obtain ⟨j, range, -, rfl⟩ := mem_regionExtents he
      rfl
    · refine nodup_listing Extent.range ?_ (fun j range ↦ nodup_singleton _) 0 _
      intro j range e he
      rw [mem_singleton.mp he]
      rfl

theorem length_allExtents (devices : List BlockDeviceInfo) :
    (allExtents devices).length = countRanges devices := by
  refine length_listing (fun d device ↦ ?_) 0 devices
  refine length_listing (fun i region ↦ ?_) 0 device.regions
  have h := length_listing (f := rangeExtent d device i region) (fun _ _ ↦ rfl) 0 region.blockRanges
  unfold regionExtents
  simpa using h

/-! ## Before and behind a place -/

def before (devices : List BlockDeviceInfo) (d : ℕ) (device : BlockDeviceInfo) (i : ℕ)
    (region : BlockRegionInfo) (j : ℕ) : List Extent :=
  listing deviceExtents 0 (devices.take d) ++
    (listing (regionExtents d device) 0 (device.regions.take i) ++
      listing (rangeExtent d device i region) 0 (region.blockRanges.take j))

def behind (devices : List BlockDeviceInfo) (d : ℕ) (device : BlockDeviceInfo) (i : ℕ)
    (region : BlockRegionInfo) (j : ℕ) : List Extent :=
  listing (rangeExtent d device i region) j (region.blockRanges.drop j) ++
    (listing (regionExtents d device) (i + 1) (device.regions.drop (i + 1)) ++
      listing deviceExtents (d + 1) (devices.drop (d + 1)))

variable {devices : List BlockDeviceInfo} {d i j : ℕ} {device : BlockDeviceInfo}
  {region : BlockRegionInfo} {range : BlockRange}

theorem allExtents_eq (h : IsAt devices d i j device region range) :
    allExtents devices = before devices d device i region j ++
      extentOf d device i region j range :: behind devices d device i region (j + 1) := by
  have hranges := listing_split (f := rangeExtent d device i region) h.range_eq
  have hregions := listing_split (f := regionExtents d device) h.region_eq
  have hdevices := listing_split (f := deviceExtents) h.device_eq
  unfold allExtents before behind
  rw [hdevices, deviceExtents, hregions, regionExtents, hranges, rangeExtent]
  simp only [append_assoc, cons_append, nil_append]

/-! ## Searching on -/

/-- The range is of the usage, as the search forward has it. -/
def matchesUsage (usage : UInt32) (e : Extent) : Bool :=
  e.usage = usage ∨ usage = BlockUsage.ANY

theorem findRange_eq (d : ℕ) (device : BlockDeviceInfo) (i : ℕ) (region : BlockRegionInfo)
    (usage : UInt32) (j : ℕ) (ranges : List BlockRange) :
    (findRange usage j ranges).map (fun found ↦ extentOf d device i region found.1 found.2) =
      (listing (rangeExtent d device i region) j ranges).find? (matchesUsage usage) := by
  induction ranges generalizing j with
  | nil => rfl
  | cons range ranges ih =>
    unfold findRange
    rw [listing_cons, rangeExtent, singleton_append, find?_cons]
    by_cases h : range.getBlockUsage = usage ∨ usage = BlockUsage.ANY
    · rw [if_pos h, show matchesUsage usage (extentOf d device i region j range) = true from
        decide_eq_true h]
      rfl
    · rw [if_neg h, show matchesUsage usage (extentOf d device i region j range) = false from
        decide_eq_false h]
      exact ih (j + 1)

theorem findRegion_zero (d : ℕ) (device : BlockDeviceInfo) (usage : UInt32) (i : ℕ)
    (regions : List BlockRegionInfo) :
    (findRegion usage i 0 regions).map
        (fun found ↦ extentOf d device found.1 found.2.2.1 found.2.1 found.2.2.2) =
      (listing (regionExtents d device) i regions).find? (matchesUsage usage) := by
  induction regions generalizing i with
  | nil => rfl
  | cons region regions ih =>
    have hrange := findRange_eq d device i region usage 0 region.blockRanges
    unfold findRegion
    rw [listing_cons, find?_append, regionExtents, ← hrange, drop_zero, ← ih]
    cases findRange usage 0 region.blockRanges <;> rfl

theorem findRegion_cons (d : ℕ) (device : BlockDeviceInfo) (usage : UInt32) (i j : ℕ)
    (region : BlockRegionInfo) (regions : List BlockRegionInfo) :
    (findRegion usage i j (region :: regions)).map
        (fun found ↦ extentOf d device found.1 found.2.2.1 found.2.1 found.2.2.2) =
      (listing (rangeExtent d device i region) j (region.blockRanges.drop j) ++
        listing (regionExtents d device) (i + 1) regions).find? (matchesUsage usage) := by
  have hrange := findRange_eq d device i region usage j (region.blockRanges.drop j)
  have hregions := findRegion_zero d device usage (i + 1) regions
  unfold findRegion
  rw [find?_append, ← hrange, ← hregions]
  cases findRange usage j (region.blockRanges.drop j) <;> rfl

/-- What a search finds, with its place. -/
def extentFound (found : ℕ × BlockDeviceInfo × ℕ × ℕ × BlockRegionInfo × BlockRange) : Extent :=
  extentOf found.1 found.2.1 found.2.2.1 found.2.2.2.2.1 found.2.2.2.1 found.2.2.2.2.2

theorem findDevice_zero (usage : UInt32) (d : ℕ) (devices : List BlockDeviceInfo) :
    (findDevice usage d 0 0 devices).map extentFound =
      (listing deviceExtents d devices).find? (matchesUsage usage) := by
  induction devices generalizing d with
  | nil => rfl
  | cons device devices ih =>
    have hregion := findRegion_zero d device usage 0 device.regions
    unfold findDevice findNextUsageBlock
    rw [listing_cons, find?_append, deviceExtents, ← hregion, drop_zero, ← ih]
    cases findRegion usage 0 0 device.regions <;> rfl

/-- The search from a place goes over what is behind it. -/
theorem findDevice_eq (usage : UInt32) (hdevice : devices[d]? = some device)
    (hregion : device.regions[i]? = some region) (j : ℕ) :
    (findDevice usage d i j (devices.drop d)).map extentFound =
      (behind devices d device i region j).find? (matchesUsage usage) := by
  obtain ⟨hd, rfl⟩ := List.getElem?_eq_some_iff.mp hdevice
  obtain ⟨hi, rfl⟩ := List.getElem?_eq_some_iff.mp hregion
  have hfirst := findRegion_cons d devices[d] usage i j devices[d].regions[i]
    (devices[d].regions.drop (i + 1))
  have hrest := findDevice_zero usage (d + 1) (devices.drop (d + 1))
  rw [drop_eq_getElem_cons hd]
  unfold findDevice findNextUsageBlock behind
  rw [drop_eq_getElem_cons hi, ← append_assoc, find?_append, ← hfirst, ← hrest]
  cases findRegion usage i j (devices[d].regions[i] :: devices[d].regions.drop (i + 1)) <;> rfl

/-! ## Searching back -/

/-- Every device has a region, and every region a range. -/
def Inhabited (devices : List BlockDeviceInfo) : Prop :=
  ∀ device ∈ devices, device.regions ≠ [] ∧ ∀ region ∈ device.regions, region.blockRanges ≠ []

theorem lookup_eq (h : IsAt devices d i j device region range) :
    lookup devices d i j = some (device, region, range) := by
  unfold lookup
  rw [h.device_eq, bind_eq_bind, bind_some, h.region_eq, bind_eq_bind,
    bind_some, h.range_eq]
  rfl

theorem listing_last {α β : Type} {f : ℕ → α → List β} {xs : List α} (h : xs ≠ []) :
    ∃ x, xs[xs.length - 1]? = some x ∧
      listing f 0 xs = listing f 0 (xs.take (xs.length - 1)) ++ f (xs.length - 1) x := by
  have hpos : 0 < xs.length := length_pos_iff.mpr h
  have hx : xs[xs.length - 1]? = some xs[xs.length - 1] := getElem?_eq_getElem (by omega)
  refine ⟨_, hx, ?_⟩
  rw [← listing_take_succ hx, Nat.sub_add_cancel hpos, take_length]

section

variable (hdevice : devices[d]? = some device)

include hdevice

theorem numBlockRanges_eq (hregion : device.regions[i]? = some region) :
    numBlockRanges devices d i = region.blockRanges.length := by
  unfold numBlockRanges
  rw [hdevice, bind_some, hregion]
  rfl

theorem numRegions_eq : numRegions devices d = device.regions.length := by
  unfold numRegions
  rw [hdevice]
  rfl

theorem before_region (hregion : device.regions[i]? = some region) (h : region.blockRanges ≠ []) :
    ∃ range, IsAt devices d i (numBlockRanges devices d i - 1) device region range ∧
      listing deviceExtents 0 (devices.take d) ++
          (listing (regionExtents d device) 0 (device.regions.take i) ++
            regionExtents d device i region) =
        before devices d device i region (numBlockRanges devices d i - 1) ++
          [extentOf d device i region (numBlockRanges devices d i - 1) range] := by
  obtain ⟨range, hrange, hlast⟩ := listing_last (f := rangeExtent d device i region) h
  rw [numBlockRanges_eq hdevice hregion]
  refine ⟨range, ⟨hdevice, hregion, hrange⟩, ?_⟩
  unfold before
  rw [regionExtents, hlast, rangeExtent, append_assoc, append_assoc]

end

theorem stepBack_spec (hall : Inhabited devices) (hdevice : devices[d]? = some device)
    (hregion : device.regions[i]? = some region) (hj : j ≤ region.blockRanges.length) :
    (stepBack devices d i j = none ∧ before devices d device i region j = []) ∨
      ∃ d' i' j' device' region' range', stepBack devices d i j = some (d', i', j') ∧
        IsAt devices d' i' j' device' region' range' ∧
        before devices d device i region j = before devices d' device' i' region' j' ++
          [extentOf d' device' i' region' j' range'] := by
  unfold stepBack
  cases j with
  | succ j =>
    -- within the region
    have hrange : region.blockRanges[j]? = some region.blockRanges[j] := getElem?_eq_getElem hj
    refine Or.inr ⟨d, i, j, device, region, _, if_pos (Nat.succ_ne_zero j),
      ⟨hdevice, hregion, hrange⟩, ?_⟩
    unfold before
    rw [listing_take_succ hrange, rangeExtent, append_assoc, append_assoc]
  | zero =>
    rw [if_neg (not_not.mpr rfl)]
    cases i with
    | succ i =>
      -- to the last range of the region before
      have hi := (List.getElem?_eq_some_iff.mp hregion).1
      have hregion' : device.regions[i]? = some device.regions[i] := getElem?_eq_getElem (by omega)
      have hne := (hall device (mem_of_getElem? hdevice)).2 _ (mem_of_getElem? hregion')
      obtain ⟨range, hat, hbefore⟩ := before_region hdevice hregion' hne
      refine Or.inr ⟨d, i, _, device, _, range, if_pos (Nat.succ_ne_zero i), hat, ?_⟩
      rw [Nat.add_sub_cancel, ← hbefore, before, listing_take_succ hregion', take_zero,
        listing_nil, append_nil]
    | zero =>
      rw [if_neg (not_not.mpr rfl)]
      cases d with
      | succ d =>
        -- to the last range of the device before
        have hd := (List.getElem?_eq_some_iff.mp hdevice).1
        have hdevice' : devices[d]? = some devices[d] := getElem?_eq_getElem (by omega)
        have hne := hall _ (mem_of_getElem? hdevice')
        obtain ⟨region', hregion', hlast⟩ := listing_last (f := regionExtents d devices[d]) hne.1
        obtain ⟨range, hat, hbefore⟩ := before_region hdevice' hregion'
          (hne.2 _ (mem_of_getElem? hregion'))
        refine Or.inr ⟨d, _, _, devices[d], region', range, ?_, hat, ?_⟩
        · rw [if_pos (Nat.succ_ne_zero d), Nat.add_sub_cancel, numRegions_eq hdevice']
        · rw [← hbefore, before, listing_take_succ hdevice', deviceExtents, hlast, take_zero,
            take_zero, listing_nil, listing_nil, append_nil, append_nil]
      | zero =>
        refine Or.inl ⟨if_neg (not_not.mpr rfl), ?_⟩
        rw [before, take_zero, take_zero, take_zero]
        rfl

/-- What the search back finds, with its place. -/
def extentBack (found : ℕ × ℕ × ℕ × BlockDeviceInfo × BlockRegionInfo × BlockRange) : Extent :=
  extentOf found.1 found.2.2.2.1 found.2.1 found.2.2.2.2.1 found.2.2.1 found.2.2.2.2.2

/-- The search back goes over what is before the place, from its end. -/
theorem findBack_eq (hall : Inhabited devices) (usage : UInt32) (turns : ℕ)
    (hdevice : devices[d]? = some device) (hregion : device.regions[i]? = some region)
    (hj : j ≤ region.blockRanges.length)
    (hturns : (before devices d device i region j).length < turns) :
    (findBack devices usage turns d i j).map (Option.map extentBack) =
      some ((before devices d device i region j).reverse.find? (·.usage = usage)) := by
  induction turns generalizing d i j device region with
  | zero => exact absurd hturns (Nat.not_lt_zero _)
  | succ turns ih =>
    unfold findBack
    obtain ⟨hnone, hempty⟩ | ⟨d', i', j', device', region', range', hstep, hat, hbefore⟩ :=
      stepBack_spec hall hdevice hregion hj
    · rw [hnone, hempty]
      rfl
    · rw [hbefore] at hturns ⊢
      rw [hstep]
      dsimp only
      rw [lookup_eq hat, bind_some, reverse_append, reverse_singleton,
        singleton_append, find?_cons]
      by_cases husage : range'.getBlockUsage = usage
      · rw [if_pos husage, show decide ((extentOf d' device' i' region' j' range').usage = usage) =
          true from decide_eq_true husage]
        rfl
      · rw [if_neg husage, show decide ((extentOf d' device' i' region' j' range').usage = usage) =
          false from decide_eq_false husage]
        have hj' := (List.getElem?_eq_some_iff.mp hat.range_eq).1
        rw [length_append, length_singleton] at hturns
        exact ih hat.device_eq hat.region_eq hj'.le (by omega)

end MicroFramework.BlockStorage
