import MicroFramework.Streams.Reading

/-!
# What was written is read back

A sequence of writes on a new stream, `ToArray`, and the same sequence of reads on a stream made
for the bytes of the array.
-/

namespace MicroFramework.Streams

open Bits Heap List Option

/-- A value and the number of bits that are written of it. -/
structure Field where
  value : UInt64
  bits : ℕ
  width : bits ≤ 64

def Field.toBits (f : Field) : List Bool := bitsOf f.bits f.value.toNat

/-- The number that these bits spell. -/
def Field.read (f : Field) : ℕ := f.value.toNat % 2 ^ f.bits

def totalBits (fields : List Field) : ℕ := (fields.map Field.bits).sum

/-- The most bytes that fit in the blocks of an array. -/
def largestArray : ℕ := maxSize.toNat * sizeofHeapBlock.toNat - sizeofArray.toNat

namespace MemoryStream

def writeFields (cache : EventCache) : List Field → MemoryStream → Except Failure MemoryStream
  | [], s => .ok s
  | f :: fields, s => do
    let s ← s.writeBits cache f.value f.bits
    writeFields cache fields s

def readFields : List Field → MemoryStream → Except Failure (List ℕ × MemoryStream)
  | [], s => .ok ([], s)
  | f :: fields, s => do
    let (val, s) ← s.readBits f.bits
    let (vals, s) ← readFields fields s
    return (val.toNat :: vals, s)

variable {s : MemoryStream} {cache : EventCache} {sofar : List Bool}

theorem length_toBits (fields : List Field) :
    (fields.flatMap Field.toBits).length = totalBits fields := by
  rw [length_flatMap, totalBits]
  congr 1
  exact map_congr_left fun f _ ↦ length_bitsOf _ _

theorem writeFields_holds (cache : EventCache) {fields : List Field} (h : s.Holds sofar) :
    Wrote cache (sofar ++ fields.flatMap Field.toBits) (writeFields cache fields s) := by
  induction fields generalizing s sofar with
  | nil => exact .inl ⟨s, rfl, by simpa using h⟩
  | cons f fields ih =>
    rw [flatMap_cons, ← append_assoc]
    exact (writeBits_written cache f.value f.width h).bind fun s hs ↦ ih hs

/-- The reads find the fields whose bits come first. -/
theorem readFields_leaves {fields : List Field} {unread : List Bool}
    (h : s.Leaves (fields.flatMap Field.toBits ++ unread)) :
    ∃ s', readFields fields s = .ok (fields.map Field.read, s') ∧ s'.Leaves unread := by
  induction fields generalizing s with
  | nil => exact ⟨s, rfl, h⟩
  | cons f fields ih =>
    rw [flatMap_cons, append_assoc] at h
    have hlength : f.toBits.length = f.bits := length_bitsOf _ _
    obtain ⟨val, s₁, hread, hval, hs₁⟩ :=
      (readBits_spec f.width h).2 (by rw [length_append, hlength]; omega)
    rw [take_left' hlength, Field.toBits, ofBits_bitsOf] at hval
    rw [drop_left' hlength] at hs₁
    obtain ⟨s₂, hrest, hs₂⟩ := ih hs₁
    refine ⟨s₂, ?_, hs₂⟩
    rw [readFields, hread]
    change (readFields fields s₁ >>= _) = _
    rw [hrest, map_cons, Field.read, ← hval]
    rfl

/-! ## Arrays -/

section ToArray

variable {engine : Engine} {heap : ClusterHeap} {uint8 : ReflectionDef}

theorem toArray_created {creation : Creation} (h : s.Holds sofar)
    (hcreate : Heap.createInstance engine heap (UInt32.ofNat s.bytes.length) uint8 =
      some creation) (hok : creation.hr = .ok) :
    ∃ array, s.toArray engine heap uint8 = some (.ok, some (array, s.bytes)) ∧
      array.numOfElements = UInt32.ofNat s.bytes.length := by
  obtain ⟨hlengths, copies, hcopies, hflatten⟩ := h.copies
  obtain ⟨dt, helement⟩ : ∃ dt, elementType engine uint8 = some dt := by
    apply ne_none_iff_exists'.mp
    intro hnone
    unfold Heap.createInstance at hcreate
    rw [hnone] at hcreate
    split_ifs at hcreate <;>
    · cases hcreate
      cases hok
  obtain ⟨array, heap', hreference, -, hextract, -⟩ := createInstance_ok helement hcreate hok
  refine ⟨array, ?_, (extractHeapBlocksForArray_spec hextract).2.2.1⟩
  unfold toArray
  simp only [hlengths, hcreate, hok, hreference, hcopies, hflatten, bind_eq_bind,
    bind_some, ne_eq, not_true_eq_false, if_false]
  rfl

/-- No array is created for more bytes than fit in its blocks. -/
theorem createInstance_large {length : UInt32} (hlarge : largestArray < length.toNat)
    (hword : length.toNat < 2 ^ 24) :
    ∃ creation, Heap.createInstance engine heap length uint8 = some creation ∧
      creation.hr ≠ .ok := by
  unfold Heap.createInstance
  split_ifs
  · exact ⟨_, rfl, by simp⟩
  · split
    · exact ⟨_, rfl, by simp⟩
    · next dt helement =>
      split_ifs with hsize
      · exact ⟨_, rfl, by simp⟩
      · have hblocks := @convertFromSizeToHeapBlocks_needed dt length
        have hmax : convertFromSizeToHeapBlocks
            (sizeofArray + length * (dataTypeLookup dt).sizeInBytes.toUInt32) > maxSize := by
          apply UInt32.lt_iff_toNat_lt.mpr
          rw [hblocks, neededBytes]
          have hpos : 0 < (dataTypeLookup dt).sizeInBytes.toNat :=
            Nat.pos_of_ne_zero fun hzero ↦ hsize (UInt8.toNat_inj.mp hzero)
          have hbyte := (dataTypeLookup dt).sizeInBytes.toNat_lt
          generalize (dataTypeLookup dt).sizeInBytes.toNat = size at hpos hbyte
          have hlow : length.toNat * 1 ≤ length.toNat * size := Nat.mul_le_mul_left _ hpos
          have hhigh : length.toNat * size ≤ length.toNat * 255 :=
            Nat.mul_le_mul_left _ (Nat.le_of_lt_succ hbyte)
          have hlargest : largestArray = 786400 := rfl
          have hheader : sizeofArray.toNat = 20 := rfl
          have hmaxSize : maxSize.toNat = 65535 := rfl
          omega
        refine ⟨⟨.outOfMemory, none, [], heap⟩, ?_, by simp⟩
        unfold extractHeapBlocksForArray
        rw [if_pos hmax]
        rfl

end ToArray

/-! ## The round trip -/

/-- Fields written to a new stream are counted, copied to an array of as many bytes as they need
and read back from its bytes.  The array must have at most `largestArray` bytes and the heap must
have room for it; `BitsWritten` and `BitsAvailable` count up to `2 ^ 31` bits. -/
theorem fields_roundTrip (fields : List Field) (hcache : cache.Serves (totalBits fields)) :
    ∃ s₀ s, createInstance cache none = .ok s₀ ∧ writeFields cache fields s₀ = .ok s ∧
      (totalBits fields < 2 ^ 31 → s.bitsWritten = totalBits fields) ∧
      ((totalBits fields + 7) / 8 ≤ largestArray → ∀ engine heap uint8 creation,
        Heap.createInstance engine heap (UInt32.ofNat ((totalBits fields + 7) / 8)) uint8 =
          some creation → creation.hr = .ok →
        ∃ array bytes, s.toArray engine heap uint8 = some (.ok, some (array, bytes)) ∧
          array.numOfElements.toNat = (totalBits fields + 7) / 8 ∧
          bytes.length = (totalBits fields + 7) / 8 ∧
          ∀ cache' reader, createInstance cache' (some bytes) = .ok reader →
            ∀ done, done <+: fields →
              ∃ s', readFields done reader = .ok (done.map Field.read, s') ∧
                s'.bitsAvailable = 8 * bytes.length - totalBits done ∧
                ∀ n : ℕ, n ≤ 64 → s'.bitsAvailable < n → s'.readBits n = .error .outOfRange) := by
  obtain ⟨s₀, hnew, hs₀⟩ :=
    (createInstance_holds cache).ok fun k hk ↦
      hcache k (hk.imp_right fun h ↦ absurd h (Nat.not_lt_zero _))
  obtain ⟨s, hwrite, hs⟩ :=
    (@writeFields_holds s₀ [] cache fields hs₀).ok (by rwa [nil_append, length_toBits])
  rw [nil_append] at hs
  have hlength := hs.length_bytes
  rw [length_toBits] at hlength
  refine ⟨s₀, s, hnew, hwrite, ?_, ?_⟩
  · intro hsmall
    rw [hs.bitsWritten (by rwa [length_toBits]), length_toBits]
  · intro hsize engine heap uint8 creation hcreate hok
    have hlargest : largestArray = 786400 := rfl
    rw [← hlength] at hcreate
    obtain ⟨array, harray, helements⟩ := toArray_created hs hcreate hok
    refine ⟨array, s.bytes, harray, ?_, hlength, ?_⟩
    · rw [helements, UInt32.toNat_ofNat', hlength]
      exact Nat.mod_eq_of_lt (by omega)
    · rintro cache' reader hreader done ⟨after, rfl⟩
      have hleaves := createInstance_leaves hreader
      rw [← hs.bits, flatMap_append, append_assoc] at hleaves
      obtain ⟨s', hread, hs'⟩ := readFields_leaves hleaves
      have hbits := congrArg List.length hs.bits
      have hleft : ((after.flatMap Field.toBits ++ replicate s.avail false).length : ℤ) =
          8 * s.bytes.length - totalBits done := by
        rw [flatMap_append, append_assoc, length_append, length_toBits,
          length_bitsOfBytes] at hbits
        omega
      have havailable : s'.bitsAvailable =
          (after.flatMap Field.toBits ++ replicate s.avail false).length :=
        hs'.bitsAvailable (by omega)
      refine ⟨s', hread, havailable.trans hleft, ?_⟩
      intro n hn hlt
      rw [havailable] at hlt
      exact (readBits_spec hn hs').1 (by exact_mod_cast hlt)

def clearCache : EventCache := fun _ ↦ some (Vector.replicate payloadSize 0)

def threeFields : List Field :=
  [⟨5, 3, by decide⟩, ⟨0x8000000000000000, 64, by decide⟩, ⟨1000, 10, by decide⟩]

/-- Fields of 3, 64 and 10 bits on a heap with room for their ten bytes. -/
theorem fields_roundTrip_threeFields :
    ∃ s₀ s array bytes reader s', createInstance clearCache none = .ok s₀ ∧
      writeFields clearCache threeFields s₀ = .ok s ∧
      s.bitsWritten = 77 ∧
      s.toArray (permissiveEngine fun _ ↦ some .u1) freeHeap ⟨true, 1, 0⟩ =
        some (.ok, some (array, bytes)) ∧
      bytes.length = 10 ∧
      createInstance clearCache (some bytes) = .ok reader ∧
      readFields threeFields reader = .ok ([5, 2 ^ 63, 1000], s') ∧
      s'.bitsAvailable = 3 ∧ s'.readBits 4 = .error .outOfRange := by
  obtain ⟨s₀, s, hnew, hwrite, hwritten, harray⟩ := @fields_roundTrip clearCache
    threeFields fun _ _ ↦ rfl
  obtain ⟨creation, hcreate, hok⟩ := @createInstance_freeHeap .u1 10 (by decide) (by decide)
  obtain ⟨array, bytes, htoArray, -, hbytes, hread⟩ :=
    harray (by decide) _ _ ⟨true, 1, 0⟩ creation hcreate hok
  obtain ⟨s', hread, havailable, hend⟩ := hread clearCache _ rfl _ prefix_rfl
  have hthree : s'.bitsAvailable = 3 := by
    rw [havailable, hbytes]
    rfl
  exact ⟨s₀, s, array, bytes, _, s', hnew, hwrite, hwritten (by decide), htoArray, hbytes, rfl,
    hread, hthree, hend 4 (by decide) (by rw [hthree]; decide)⟩

/-- The 786408 bytes of these words can be written, and `ToArray` has no array for them. -/
theorem toArray_words_fails :
    ∃ s₀ s, createInstance clearCache none = .ok s₀ ∧
      writeFields clearCache (replicate 98301 ⟨0, 64, le_rfl⟩) s₀ = .ok s ∧
      s.bitsWritten = 98301 * 64 ∧
      ∀ engine heap uint8, ∃ hr, s.toArray engine heap uint8 = some (hr, none) ∧ hr ≠ .ok := by
  have htotal : totalBits (replicate 98301 ⟨0, 64, le_rfl⟩) = 98301 * 64 := by
    rw [totalBits, map_replicate, sum_replicate_nat]
  obtain ⟨s₀, hnew, hs₀⟩ := (createInstance_holds clearCache).ok fun _ _ ↦ rfl
  obtain ⟨s, hwrite, hs⟩ := (@writeFields_holds s₀ [] clearCache
    (replicate 98301 ⟨0, 64, le_rfl⟩) hs₀).ok fun _ _ ↦ rfl
  rw [nil_append] at hs
  have hlength := hs.length_bytes
  rw [length_toBits, htotal] at hlength
  refine ⟨s₀, s, hnew, hwrite, ?_, ?_⟩
  · rw [hs.bitsWritten (by rw [length_toBits, htotal]; decide), length_toBits, htotal]
    rfl
  · intro engine heap uint8
    obtain ⟨creation, hcreate, hfail⟩ :=
      @createInstance_large engine heap uint8 (UInt32.ofNat s.bytes.length)
        (by rw [hlength]; decide) (by rw [hlength]; decide)
    refine ⟨creation.hr, ?_, hfail⟩
    unfold toArray
    simp only [hs.copies.1, hcreate, bind_eq_bind, bind_some]
    rw [if_pos hfail]
    rfl

end MemoryStream

end MicroFramework.Streams
