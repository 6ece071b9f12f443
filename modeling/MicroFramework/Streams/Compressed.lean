import MicroFramework.Streams.RoundTrip

/-!
# Compressed unsigned integers

The first two bits of a compressed integer tell how many bytes follow; a byte `0xFF` alone stands
for `0xFFFFFFFF`.
-/

namespace MicroFramework.Streams.MemoryStream

open Bits List

/-- The word that is written for a value and the number of its bits. -/
def compressed (val : UInt32) : Except Failure (UInt32 × ℕ) :=
  if val = 0xFFFFFFFF then .ok (val, 8)
  else if val < 0x80 then .ok (val, 8)
  else if val < 0x3F00 then .ok (val ||| 0x8000, 16)
  else if val < 0x3F000000 then .ok (val ||| 0xC0000000, 32)
  else .error .outOfRange

def writeCompressedUnsigned (cache : EventCache) (val : UInt32) (s : MemoryStream) :
    Except Failure MemoryStream := do
  let (val, bits) ← compressed val
  s.writeBits32 cache val bits

/-- How many bits follow the first byte. -/
def extraBits (val : UInt32) : ℕ :=
  if val &&& 0xC0 = 0x80 then 8 else if val &&& 0xC0 = 0xC0 then 24 else 0

def readCompressedUnsigned (s : MemoryStream) : Except Failure (UInt32 × MemoryStream) :=
  match s.readBits32 8 with
  | .error e => .error e
  | .ok (val, s) =>
    if val = 0xFF then .ok (0xFFFFFFFF, s)
    else if extraBits val = 0 then .ok (val, s)
    else
      match s.readBits32 (extraBits val) with
      | .error e => .error e
      | .ok (extra, s) => .ok ((val &&& ~~~0xC0) <<< UInt32.ofNat (extraBits val) ||| extra, s)

def writeAll (cache : EventCache) : List UInt32 → MemoryStream → Except Failure MemoryStream
  | [], s => .ok s
  | val :: vals, s => do
    let s ← s.writeCompressedUnsigned cache val
    writeAll cache vals s

def readAll : ℕ → MemoryStream → Except Failure (List UInt32 × MemoryStream)
  | 0, s => .ok ([], s)
  | n + 1, s => do
    let (val, s) ← s.readCompressedUnsigned
    let (vals, s) ← readAll n s
    return (val :: vals, s)

/-- The values that have a compressed form. -/
def Accepted (val : UInt32) : Prop := val = 0xFFFFFFFF ∨ val < 0x3F000000

def codeBits (val : UInt32) : List Bool :=
  match compressed val with
  | .ok (word, bits) => bitsOf bits word.toNat
  | .error _ => []

variable {s : MemoryStream} {cache : EventCache} {sofar unread : List Bool} {val : UInt32} {mark k : ℕ}

/-! ## Writing -/

theorem writeCompressedUnsigned_refused (h : ¬Accepted val) :
    s.writeCompressedUnsigned cache val = .error .outOfRange := by
  obtain ⟨hnull, hlarge⟩ := not_or.mp h
  have hle : (0x3F000000 : UInt32) ≤ val := UInt32.not_lt.mp hlarge
  have htwo : ¬val < 0x3F00 := UInt32.not_lt.mpr (UInt32.le_trans (by decide) hle)
  have hone : ¬val < 0x80 := UInt32.not_lt.mpr (UInt32.le_trans (by decide) hle)
  rw [writeCompressedUnsigned, compressed, if_neg hnull, if_neg hone, if_neg htwo, if_neg hlarge]
  rfl

theorem writeCompressedUnsigned_holds (cache : EventCache) (haccept : Accepted val)
    (h : s.Holds sofar) :
    Wrote cache (sofar ++ codeBits val) (s.writeCompressedUnsigned cache val) := by
  unfold writeCompressedUnsigned codeBits compressed
  split_ifs with hnull hone htwo hfour
  · exact writeBits32_written cache _ (by decide) h
  · exact writeBits32_written cache _ (by decide) h
  · exact writeBits32_written cache _ (by decide) h
  · exact writeBits32_written cache _ (by decide) h
  · exact absurd haccept (not_or.mpr ⟨hnull, hfour⟩)

variable {vals : List UInt32}

theorem writeAll_holds (cache : EventCache) (haccept : ∀ val ∈ vals, Accepted val)
    (h : s.Holds sofar) : Wrote cache (sofar ++ vals.flatMap codeBits) (writeAll cache vals s) := by
  induction vals generalizing s sofar with
  | nil => exact .inl ⟨s, rfl, by simpa using h⟩
  | cons val vals ih =>
    obtain ⟨hval, hvals⟩ := forall_mem_cons.mp haccept
    rw [flatMap_cons, ← append_assoc]
    exact (writeCompressedUnsigned_holds cache hval h).bind fun s hs ↦ ih hvals hs

/-! ## Reading -/

theorem readBits32_next {bits v : ℕ} (hbits : bits ≤ 32) (h : s.Leaves (bitsOf bits v ++ unread)) :
    ∃ val s', s.readBits32 bits = .ok (val, s') ∧ val.toNat = v % 2 ^ bits ∧ s'.Leaves unread := by
  obtain ⟨val, s', hread, hval, hs'⟩ :=
    (readBits32_spec hbits h).2 (by rw [length_append, length_bitsOf]; omega)
  rw [take_left' (length_bitsOf _ _), ofBits_bitsOf] at hval
  rw [drop_left' (length_bitsOf _ _)] at hs'
  exact ⟨val, s', hread, hval, hs'⟩

/-- The first byte of a longer form tells its length and holds the six highest bits. -/
theorem first_byte {q : ℕ} {first : UInt32}
    (hform : (mark, k) = (0x80, 8) ∨ (mark, k) = (0xC0, 24)) (hq : q < 63)
    (hfirst : first.toNat = mark + q) :
    first ≠ 0xFF ∧ extraBits first = k ∧ first &&& ~~~0xC0 = UInt32.ofNat q := by
  obtain rfl : first = UInt32.ofNat (mark + q) := by rw [← hfirst, UInt32.ofNat_toNat]
  clear hfirst
  obtain hform | hform := hform
  · cases hform
    revert q
    decide
  · cases hform
    revert q
    decide

theorem readCompressedUnsigned_long
    (hform : (mark, k) = (0x80, 8) ∨ (mark, k) = (0xC0, 24)) (hval : val.toNat < 63 * 2 ^ k)
    (h : s.Leaves (bitsOf (8 + k) (mark * 2 ^ k + val.toNat) ++ unread)) :
    ∃ s', s.readCompressedUnsigned = .ok (val, s') ∧ s'.Leaves unread := by
  have hk : 8 + k ≤ 32 ∧ k ≠ 0 ∧ mark + 63 ≤ 256 := by
    obtain hform | hform := hform <;> cases hform <;> decide
  have hq : val.toNat / 2 ^ k < 63 := Nat.div_lt_of_lt_mul (by rwa [Nat.mul_comm])
  have hhead : (mark * 2 ^ k + val.toNat) / 2 ^ k = mark + val.toNat / 2 ^ k := by
    rw [Nat.mul_comm, Nat.mul_add_div (Nat.two_pow_pos k)]
  rw [bitsOf_add, hhead, append_assoc] at h
  obtain ⟨first, s₁, hread, hfirst, hs₁⟩ := readBits32_next (by decide) h
  rw [Nat.mod_eq_of_lt (by omega)] at hfirst
  obtain ⟨hnull, hextra, hhigh⟩ := first_byte hform hq hfirst
  obtain ⟨extra, s₂, hread₂, hlow, hs₂⟩ := readBits32_next (by omega) hs₁
  rw [Nat.mul_comm, Nat.mul_add_mod] at hlow
  have hjoin : UInt32.ofNat (val.toNat / 2 ^ k) <<< UInt32.ofNat k ||| extra = val := by
    apply UInt32.toNat_inj.mp
    have hdiv := Nat.div_add_mod val.toNat (2 ^ k)
    have hword := val.toNat_lt
    have hlt : extra.toNat < 2 ^ k := hlow ▸ Nat.mod_lt _ (Nat.two_pow_pos k)
    rw [UInt32.toNat_or, UInt32.toNat_shiftLeft, UInt32.toNat_ofNat_of_lt' (hq.trans (by decide)),
      toNat_ofNat_of_lt (by omega), Nat.shiftLeft_eq, Nat.mul_comm,
      Nat.mod_eq_of_lt (by omega), ← Nat.two_pow_add_eq_or_of_lt hlt, hlow, hdiv]
  refine ⟨s₂, ?_, hs₂⟩
  simp only [readCompressedUnsigned, hread, if_neg hnull, hextra, if_neg hk.2.1, hread₂, hhigh,
    hjoin]

theorem readCompressedUnsigned_leaves (haccept : Accepted val)
    (h : s.Leaves (codeBits val ++ unread)) :
    ∃ s', s.readCompressedUnsigned = .ok (val, s') ∧ s'.Leaves unread := by
  unfold codeBits compressed at h
  split_ifs at h with hnull hone htwo hfour
  · subst hnull
    obtain ⟨first, s₁, hread, hfirst, hs₁⟩ := readBits32_next (by decide) h
    obtain rfl : first = 0xFF := UInt32.toNat_inj.mp hfirst
    exact ⟨s₁, by rw [readCompressedUnsigned, hread]; rfl, hs₁⟩
  · have hlt : val.toNat < 128 := hone
    obtain ⟨first, s₁, hread, hfirst, hs₁⟩ := readBits32_next (by decide) h
    obtain rfl : first = val :=
      UInt32.toNat_inj.mp (hfirst.trans (Nat.mod_eq_of_lt (by omega)))
    have hshort : ∀ q < 128, UInt32.ofNat q ≠ 0xFF ∧ extraBits (UInt32.ofNat q) = 0 := by decide
    obtain ⟨hne, hextra⟩ := hshort _ hlt
    rw [UInt32.ofNat_toNat] at hne hextra
    refine ⟨s₁, ?_, hs₁⟩
    simp only [readCompressedUnsigned, hread, if_neg hne, hextra, if_true]
  · have hlt : val.toNat < 0x3F00 := htwo
    have hword : (val ||| 0x8000).toNat = 0x80 * 2 ^ 8 + val.toNat := by
      rw [UInt32.or_comm]
      exact (@Nat.two_pow_add_eq_or_of_lt 15 _ (hlt.trans (by decide)) 1).symm
    dsimp only at h
    rw [hword] at h
    exact readCompressedUnsigned_long (.inl rfl) hlt h
  · have hlt : val.toNat < 0x3F000000 := hfour
    have hword : (val ||| 0xC0000000).toNat = 0xC0 * 2 ^ 24 + val.toNat := by
      rw [UInt32.or_comm]
      exact (@Nat.two_pow_add_eq_or_of_lt 30 _ (hlt.trans (by decide)) 3).symm
    dsimp only at h
    rw [hword] at h
    exact readCompressedUnsigned_long (.inr rfl) hlt h
  · exact absurd haccept (not_or.mpr ⟨hnull, hfour⟩)

theorem readAll_leaves (haccept : ∀ val ∈ vals, Accepted val)
    (h : s.Leaves (vals.flatMap codeBits ++ unread)) :
    ∃ s', readAll vals.length s = .ok (vals, s') ∧ s'.Leaves unread := by
  induction vals generalizing s with
  | nil => exact ⟨s, rfl, h⟩
  | cons val vals ih =>
    obtain ⟨hval, hvals⟩ := forall_mem_cons.mp haccept
    rw [flatMap_cons, append_assoc] at h
    obtain ⟨s₁, hread, hs₁⟩ := readCompressedUnsigned_leaves hval h
    obtain ⟨s₂, hrest, hs₂⟩ := ih hvals hs₁
    refine ⟨s₂, ?_, hs₂⟩
    rw [length_cons, readAll, hread]
    change (readAll vals.length s₁ >>= _) = _
    rw [hrest]
    rfl

/-! ## The round trip -/

/-- Values written after any fields are read back after the same fields, up to the bit at which
the writer stopped; the writes succeed where the event cache has the buffers for their bits; and any
other value is refused. -/
theorem compressed_roundTrip (before : List Field) (vals : List UInt32)
    (haccept : ∀ val ∈ vals, Accepted val) :
    (∀ cache s₀ s₁ s, createInstance cache none = .ok s₀ → writeFields cache before s₀ = .ok s₁ →
      writeAll cache vals s₁ = .ok s →
      ∀ cache' reader, createInstance cache' (some s.bytes) = .ok reader →
        ∃ r₁ r, readFields before reader = .ok (before.map Field.read, r₁) ∧
          readAll vals.length r₁ = .ok (vals, r) ∧ r.bitsAvailable = s.avail ∧
          (8 * s.bytes.length < 2 ^ 31 → s.bitsWritten = 8 * s.bytes.length - r.bitsAvailable)) ∧
      (∀ cache : EventCache, cache.Serves (totalBits before + (vals.flatMap codeBits).length) →
        ∃ s₀ s₁ s, createInstance cache none = .ok s₀ ∧ writeFields cache before s₀ = .ok s₁ ∧
          writeAll cache vals s₁ = .ok s) ∧
      ∀ cache val s, ¬Accepted val → writeCompressedUnsigned cache val s = .error .outOfRange := by
  refine ⟨?_, ?_, fun cache val s ↦ writeCompressedUnsigned_refused⟩
  · intro cache s₀ s₁ s hnew hfields hwrite cache' reader hreader
    have hs₀ := (hnew ▸ createInstance_holds cache).holds
    have hs₁ := (hfields ▸ writeFields_holds cache hs₀).holds
    have hs := (hwrite ▸ writeAll_holds cache haccept hs₁).holds
    have hleaves := createInstance_leaves hreader
    rw [← hs.bits, nil_append, append_assoc] at hleaves
    obtain ⟨r₁, hread, hr₁⟩ := readFields_leaves hleaves
    obtain ⟨r, hall, hr⟩ := readAll_leaves haccept hr₁
    have havail : s.avail < 8 := hs.1
    have havailable : r.bitsAvailable = s.avail := by
      rw [hr.bitsAvailable (by rw [length_replicate]; omega), length_replicate]
    refine ⟨r₁, r, hread, hall, havailable, ?_⟩
    intro hsmall
    have hlength := congrArg List.length hs.bits
    rw [length_append, length_replicate, length_bitsOfBytes] at hlength
    rw [hs.bitsWritten (by omega), havailable]
    omega
  · intro cache hcache
    have hserves {n : ℕ} (hn : n ≤ totalBits before + (vals.flatMap codeBits).length) :
        cache.Serves n := fun k hk ↦ hcache k (hk.imp_right fun hlt ↦ hlt.trans_le hn)
    obtain ⟨s₀, hnew, hs₀⟩ := (createInstance_holds cache).ok (hserves (Nat.zero_le _))
    obtain ⟨s₁, hfields, hs₁⟩ := (@writeFields_holds s₀ [] cache before hs₀).ok
      (hserves (by rw [nil_append, length_toBits]; exact Nat.le_add_right _ _))
    obtain ⟨s, hwrite, -⟩ := (writeAll_holds cache haccept hs₁).ok
      (hserves (by rw [nil_append, length_append, length_toBits]))
    exact ⟨s₀, s₁, s, hnew, hfields, hwrite⟩

/-- Null and a value of each length, at bit 3. -/
theorem compressed_roundTrip_null :
    ∃ s₀ s₁ s reader r₁ r, createInstance clearCache none = .ok s₀ ∧
      writeFields clearCache [⟨5, 3, by decide⟩] s₀ = .ok s₁ ∧
      writeAll clearCache [0xFFFFFFFF, 0x7F, 0x3EFF, 0x3F00] s₁ = .ok s ∧
      createInstance clearCache (some s.bytes) = .ok reader ∧
      readFields [⟨5, 3, by decide⟩] reader = .ok ([5], r₁) ∧
      readAll 4 r₁ = .ok ([0xFFFFFFFF, 0x7F, 0x3EFF, 0x3F00], r) := by
  obtain ⟨hread, hwrites, -⟩ := compressed_roundTrip [⟨5, 3, by decide⟩]
    [0xFFFFFFFF, 0x7F, 0x3EFF, 0x3F00] (by simp [Accepted])
  obtain ⟨s₀, s₁, s, hnew, hfields, hwrite⟩ := hwrites clearCache fun _ _ ↦ rfl
  obtain ⟨r₁, r, hbefore, hall, -⟩ := hread clearCache s₀ s₁ s hnew hfields hwrite clearCache _ rfl
  exact ⟨s₀, s₁, s, _, r₁, r, hnew, hfields, hwrite, rfl, hbefore, hall⟩

end MicroFramework.Streams.MemoryStream
