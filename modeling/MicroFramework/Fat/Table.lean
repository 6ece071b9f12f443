import Mathlib.Data.UInt

/-!
# The file allocation table

The entries of the file allocation table in its two copies on the disk, `ReadFAT`, `WriteFAT` and
the kinds of values that `GetClusType` tells apart.  A sector of the table is read as an array of
entries of two or four bytes.
-/

namespace MicroFramework.Fat

def CLUST_NONE : UInt32 := 0x0
def CLUST_FAT16_BAD : UInt32 := 0xfff7
def CLUST_FAT16_EOFS : UInt32 := 0xfff8
def CLUST_FAT16_EOFE : UInt32 := 0xffff
def CLUST_FAT32_BAD : UInt32 := 0x0ffffff7
def CLUST_FAT32_EOFS : UInt32 := 0x0ffffff8
def CLUST_FAT32_EOFE : UInt32 := 0x0fffffff
def CLUST_EOF : UInt32 := 0x0fffffff
def CLUST_ERROR : UInt32 := 0xFFFFFFFF
def FAT32_MASK : UInt32 := 0x0fffffff

def FSI_Free_Count : UInt32 := 122

inductive ClusType
  | data
  | eos
  | bad
  | error
  deriving DecidableEq, Repr

/-- What a mount of the volume sets once. -/
structure Volume where
  isFAT16 : Bool
  fatBaseSector : Fin 2 → UInt32
  totalClusterCount : UInt32
  entriesPerSector : UInt32
  sectorFSInfo : UInt32
  /-- `GetSector` gives the sector. -/
  available : UInt32 → Bool

/-- What changes while the volume is mounted: the entries of every sector and the counts of free
clusters. -/
structure LogicDisk where
  sectors : UInt32 → UInt32 → UInt32
  freeCount : UInt32
  nextFree : UInt32

namespace Volume

variable (v : Volume)

/-- The value that the bytes of an entry hold. -/
def value (raw : UInt32) : UInt32 :=
  if v.isFAT16 then raw &&& 0xffff else raw &&& FAT32_MASK

def written (raw value : UInt32) : UInt32 :=
  if v.isFAT16 then value &&& 0xffff else (value &&& FAT32_MASK) ||| (raw &&& ~~~FAT32_MASK)

def sectorOf (copy : Fin 2) (clusIndex : UInt32) : UInt32 :=
  v.fatBaseSector copy + clusIndex / v.entriesPerSector

def readFAT (d : LogicDisk) (clusIndex : UInt32) : UInt32 :=
  if clusIndex > v.totalClusterCount + 1 then CLUST_ERROR
  else if !v.available (v.sectorOf 0 clusIndex) then CLUST_ERROR
  else v.value (d.sectors (v.sectorOf 0 clusIndex) (clusIndex % v.entriesPerSector))

/-- One turn of the loop of `WriteFAT`: the old value in this copy of the table. -/
def writeCopy (d : LogicDisk) (copy : Fin 2) (clusIndex value : UInt32) :
    Option (UInt32 × LogicDisk) :=
  let sector := v.sectorOf copy clusIndex
  let dataOffset := clusIndex % v.entriesPerSector
  if v.available sector then
    let raw := d.sectors sector dataOffset
    let entries := Function.update (d.sectors sector) dataOffset (v.written raw value)
    some (v.value raw, { d with sectors := Function.update d.sectors sector entries })
  else none

def updateFreeCount (d : LogicDisk) (clusIndex oldValue value : UInt32) : LogicDisk :=
  let d := if oldValue = CLUST_NONE then { d with freeCount := d.freeCount - 1 } else d
  if value = CLUST_NONE then
    { d with
      nextFree := if clusIndex < d.nextFree then clusIndex else d.nextFree
      freeCount := d.freeCount + 1 }
  else d

/-- The free count is noted in the information sector of a FAT32 volume. -/
def noteFreeCount (d : LogicDisk) : LogicDisk :=
  let entries := Function.update (d.sectors v.sectorFSInfo) FSI_Free_Count d.freeCount
  { d with sectors := Function.update d.sectors v.sectorFSInfo entries }

/-- `WriteFAT`: the old value, which is that of the copy written last, or an error. -/
def writeFAT (d : LogicDisk) (clusIndex value : UInt32) : UInt32 × LogicDisk :=
  if clusIndex > v.totalClusterCount + 1 then (CLUST_ERROR, d)
  else
    let value :=
      if value = CLUST_EOF then
        if v.isFAT16 then CLUST_FAT16_EOFE else CLUST_FAT32_EOFE
      else value
    match v.writeCopy d 0 clusIndex value with
    | none => (CLUST_ERROR, d)
    | some (_, d) =>
      match v.writeCopy d 1 clusIndex value with
      | none => (CLUST_ERROR, d)
      | some (oldValue, d) =>
        let d := updateFreeCount d clusIndex oldValue value
        if v.isFAT16 then (oldValue, d)
        else if v.available v.sectorFSInfo then (oldValue, v.noteFreeCount d)
        else (CLUST_ERROR, d)

def getClusType (data : UInt32) : ClusType :=
  if data = CLUST_ERROR then .error
  else if v.isFAT16 then
    if data ≥ CLUST_FAT16_EOFS then .eos
    else if data = CLUST_FAT16_BAD then .bad
    else .data
  else
    if data ≥ CLUST_FAT32_EOFS then .eos
    else if data = CLUST_FAT32_BAD then .bad
    else .data

def InTable (clusIndex : UInt32) : Prop := clusIndex ≤ v.totalClusterCount + 1

instance (clusIndex : UInt32) : Decidable (v.InTable clusIndex) :=
  inferInstanceAs (Decidable (_ ≤ _))

def entry (d : LogicDisk) (copy : Fin 2) (clusIndex : UInt32) : UInt32 :=
  v.value (d.sectors (v.sectorOf copy clusIndex) (clusIndex % v.entriesPerSector))

/-- What `MountDisk` leaves: two copies of the table behind each other and behind the reserved
sectors, and at least one entry more than there are clusters; and the device serves the sectors. -/
structure WellFormed (fatSz : ℕ) : Prop where
  entriesPerSector : 0 < v.entriesPerSector.toNat
  fatSz_pos : 0 < fatSz
  fatEntriesCount : (v.totalClusterCount + 1).toNat ≤ fatSz * v.entriesPerSector.toNat
  second : (v.fatBaseSector 1).toNat = (v.fatBaseSector 0).toNat + fatSz
  sectors : (v.fatBaseSector 1).toNat +
    (v.totalClusterCount + 1).toNat / v.entriesPerSector.toNat < 2 ^ 32
  reserved : v.sectorFSInfo.toNat < (v.fatBaseSector 0).toNat
  available : ∀ sector, v.available sector = true

/-- The copies of the table have an entry for the cluster.  The last cluster has none where the
table has just one entry more than there are clusters. -/
def HasEntry (fatSz : ℕ) (clusIndex : UInt32) : Prop :=
  v.InTable clusIndex ∧ clusIndex.toNat / v.entriesPerSector.toNat < fatSz

/-- Where `WriteFAT` looks for the entry of a cluster in a copy of the table. -/
def IsPlaceOf (copy : Fin 2) (clusIndex sector offset : UInt32) : Prop :=
  sector = v.sectorOf copy clusIndex ∧ offset = clusIndex % v.entriesPerSector

/-- Where a FAT32 volume notes its free count. -/
def IsPlaceOfFreeCount (sector offset : UInt32) : Prop :=
  v.isFAT16 = false ∧ sector = v.sectorFSInfo ∧ offset = FSI_Free_Count

section Entries

variable {v} {d d' : LogicDisk} {fatSz : ℕ} {c x sector offset : UInt32} {i j : Fin 2}

section

variable (h : v.WellFormed fatSz)

include h

theorem sector_le (hc : v.InTable c) : c.toNat / v.entriesPerSector.toNat ≤
    min fatSz ((v.totalClusterCount + 1).toNat / v.entriesPerSector.toNat) := by
  have hle := Nat.div_le_div_right (c := v.entriesPerSector.toNat) (UInt32.le_iff_toNat_le.mp hc)
  refine le_min (hle.trans ?_) hle
  calc
    (v.totalClusterCount + 1).toNat / v.entriesPerSector.toNat
    _ ≤ fatSz * v.entriesPerSector.toNat / v.entriesPerSector.toNat :=
      Nat.div_le_div_right h.fatEntriesCount
    _ = fatSz := Nat.mul_div_cancel _ h.entriesPerSector

theorem sectorOf_toNat (hc : v.InTable c) :
    (v.sectorOf i c).toNat = (v.fatBaseSector i).toNat + c.toNat / v.entriesPerSector.toNat := by
  have hle := sector_le h hc
  have hsecond := h.second
  have hsectors := h.sectors
  rw [sectorOf, UInt32.toNat_add, UInt32.toNat_div]
  apply Nat.mod_eq_of_lt
  match i with
  | 0 => omega
  | 1 => omega

/-- Two entries in one place of the disk are those of one cluster, if the table has one of them for
the cluster and the other is there or in the second copy. -/
theorem cluster_eq_of_place (hc : v.HasEntry fatSz c) (hx : v.InTable x)
    (hentry : j = 1 ∨ v.HasEntry fatSz x) (hplace : v.IsPlaceOf i c sector offset)
    (hplace' : v.IsPlaceOf j x sector offset) : c = x := by
  have hsector := congrArg UInt32.toNat (hplace.1.symm.trans hplace'.1)
  have hoffset := congrArg UInt32.toNat (hplace.2.symm.trans hplace'.2)
  rw [sectorOf_toNat h hc.1, sectorOf_toNat h hx] at hsector
  rw [UInt32.toNat_mod, UInt32.toNat_mod] at hoffset
  have hlt := hc.2
  have hsecond := h.second
  have hrow : c.toNat / v.entriesPerSector.toNat = x.toNat / v.entriesPerSector.toNat := by
    rcases hentry with rfl | ⟨-, hlt'⟩
    · generalize c.toNat / v.entriesPerSector.toNat = q at hsector hlt
      generalize x.toNat / v.entriesPerSector.toNat = q' at hsector
      match i with
      | 0 => omega
      | 1 => omega
    · generalize c.toNat / v.entriesPerSector.toNat = q at hsector hlt
      generalize x.toNat / v.entriesPerSector.toNat = q' at hsector hlt'
      match i, j with
      | 0, 0 => omega
      | 1, 1 => omega
      | 0, 1 => omega
      | 1, 0 => omega
  apply UInt32.toNat_inj.mp
  calc
    c.toNat = v.entriesPerSector.toNat * (c.toNat / v.entriesPerSector.toNat) +
        c.toNat % v.entriesPerSector.toNat := (Nat.div_add_mod _ _).symm
    _ = v.entriesPerSector.toNat * (x.toNat / v.entriesPerSector.toNat) +
        x.toNat % v.entriesPerSector.toNat := by rw [hrow, hoffset]
    _ = x.toNat := Nat.div_add_mod _ _

theorem not_isPlaceOfFreeCount (hc : v.InTable c) (hplace : v.IsPlaceOf i c sector offset) :
    ¬ v.IsPlaceOfFreeCount sector offset := by
  rintro ⟨-, hinfo, -⟩
  have hsector := congrArg UInt32.toNat (hplace.1.symm.trans hinfo)
  rw [sectorOf_toNat h hc] at hsector
  have hreserved := h.reserved
  have hsecond := h.second
  generalize c.toNat / v.entriesPerSector.toNat = q at hsector
  match i with
  | 0 => omega
  | 1 => omega

end

theorem entry_eq_of_place (hplace : v.IsPlaceOf i c sector offset) :
    v.entry d i c = v.value (d.sectors sector offset) := by
  rw [entry, hplace.1, hplace.2]

theorem isPlaceOf_self : v.IsPlaceOf i c (v.sectorOf i c) (c % v.entriesPerSector) := ⟨rfl, rfl⟩

theorem value_written_none (raw : UInt32) : v.value (v.written raw CLUST_NONE) = CLUST_NONE := by
  unfold value written
  cases v.isFAT16 with
  | true => simp [CLUST_NONE]
  | false =>
    calc
      (0 &&& FAT32_MASK ||| raw &&& ~~~FAT32_MASK) &&& FAT32_MASK
      _ = raw &&& ~~~FAT32_MASK &&& FAT32_MASK := by rw [UInt32.zero_and, UInt32.zero_or]
      _ = raw &&& (~~~FAT32_MASK &&& FAT32_MASK) := UInt32.and_assoc _ _ _
      _ = 0 := UInt32.and_zero

end Entries

end Volume

end MicroFramework.Fat
