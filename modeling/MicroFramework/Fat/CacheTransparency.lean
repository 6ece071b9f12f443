import MicroFramework.Fat.CacheCoherence
import MicroFramework.Library.Runs

/-!
# The sector cache is transparent

What a use of the cache does to a dirty line, and what holds in every run: the buffers that are
returned and, after a flush, the device hold the latest contents, and no dirty line is dropped
before it was written.
-/

namespace MicroFramework.Fat

open Option

namespace SectorCache

variable {lines : ℕ} {g : CacheGeometry} {s s' : SectorCache lines} {latest : Contents}
  {i j : Fin lines} {line : CacheLine} {sectorIndex : ℕ} {forWrite : Bool} {env : Environment}

/-! ## Dirty lines -/

/-- A dirty line is still dirty, or the device has its bytes. -/
def Kept (g : CacheGeometry) (line : CacheLine) (s' : SectorCache lines) (i : Fin lines) : Prop :=
  (s'.cacheLines i).dirty = true ∧ (s'.cacheLines i).begin = line.begin ∧
      (s'.cacheLines i).buffer.isSome = true ∨
    ∀ buffer, line.buffer = some buffer →
      ∀ o < g.lineSize, s'.device (line.bsByteAddress + o) = buffer o

theorem kept_flushLine (hdirty : (s.cacheLines j).dirty = true)
    (hbuffer : (s.cacheLines j).buffer.isSome = true) :
    Kept g (s.cacheLines j) (flushLine g s i .performed) j := by
  by_cases hj : j = i
  · subst hj
    right
    intro buffer hbuffer' o ho
    simp [flushLine, hbuffer', hdirty, ho, WriteAnswer.bytes]
  · left
    rw [flushLine_cacheLines]
    simp [hj, hdirty, hbuffer]

/-- What is kept stays kept where only other lines change, or flags in favour of the line. -/
theorem Kept.mono {s₁ s₂ : SectorCache lines} (h : Kept g line s₁ i)
    (hdevice : s₂.device = s₁.device)
    (hline : (s₁.cacheLines i).dirty = true → (s₁.cacheLines i).begin = line.begin →
      (s₁.cacheLines i).buffer.isSome = true →
        (s₂.cacheLines i).dirty = true ∧ (s₂.cacheLines i).begin = line.begin ∧
          (s₂.cacheLines i).buffer.isSome = true) : Kept g line s₂ i := by
  rcases h with ⟨hdirty, hbegin, hbuffer⟩ | hwritten
  · exact .inl (hline hdirty hbegin hbuffer)
  · right
    rw [hdevice]
    exact hwritten

theorem useLine_device : (useLine g s i sectorIndex forWrite).1.device = s.device := by
  obtain ⟨counter, lruCounter, hused⟩ := @useLine_eq lines g s i sectorIndex forWrite
  rw [hused]
  rfl

theorem kept_useLine (h : Kept g line s j) :
    Kept g line (useLine g s i sectorIndex forWrite).1 j := by
  apply h.mono useLine_device
  intro hdirty hbegin hbuffer
  obtain ⟨counter, lruCounter, hused⟩ := @useLine_eq lines g s i sectorIndex forWrite
  rw [hused]
  by_cases hj : j = i
  · subst hj
    simp [hdirty, hbegin, hbuffer]
  · dsimp only
    rw [setLine_cacheLines_ne hj]
    exact ⟨hdirty, hbegin, hbuffer⟩

theorem fillLine_device : (fillLine g s i sectorIndex env).2.device = s.device := by
  unfold fillLine
  split_ifs <;> rfl

theorem fillLine_cacheLines_ne (hj : j ≠ i) :
    (fillLine g s i sectorIndex env).2.cacheLines j = s.cacheLines j := by
  unfold fillLine
  split_ifs
  · rfl
  · exact setLine_cacheLines_ne hj
  · exact setLine_cacheLines_ne hj

/-- The line that is reused for another sector was written back before. -/
theorem kept_fillLine (hdirty : (s.cacheLines j).dirty = true)
    (hbuffer : (s.cacheLines j).buffer.isSome = true) :
    Kept g (s.cacheLines j) (fillLine g (flushLine g s i .performed) i sectorIndex env).2 j := by
  by_cases hj : j = i
  · subst hj
    right
    intro buffer hbuffer' o ho
    rw [fillLine_device]
    simp [flushLine, hbuffer', hdirty, ho, WriteAnswer.bytes]
  · apply (kept_flushLine hdirty hbuffer).mono fillLine_device
    rw [fillLine_cacheLines_ne hj]
    exact fun hdirty' hbegin hbuffer' ↦ ⟨hdirty', hbegin, hbuffer'⟩

theorem kept_getSector {r : Option (Pointer lines)} (hdirty : (s.cacheLines j).dirty = true)
    (hbuffer : (s.cacheLines j).buffer.isSome = true) (hwrite : env.write = .performed)
    (hget : getSector g s sectorIndex forWrite env = some (s', r)) :
    Kept g (s.cacheLines j) s' j := by
  have hsame : Kept g (s.cacheLines j) s j := .inl ⟨hdirty, rfl, hbuffer⟩
  unfold getSector at hget
  split_ifs at hget
  · cases hget
    exact hsame
  · cases hline : getCacheLine g s sectorIndex with
    | some i =>
      simp only [hline, Option.some.injEq] at hget
      cases hget
      exact kept_useLine hsame
    | none =>
      cases hunused : unusedLoop s (List.finRange lines) 0x7FFFFFFF none with
      | none => simp [hline, getUnusedCacheLine, hunused] at hget
      | some i =>
        simp only [hline, getUnusedCacheLine, hunused, map_some, hwrite] at hget
        split_ifs at hget
        · cases hget
          exact kept_useLine (kept_fillLine hdirty hbuffer)
        · cases hget
          exact kept_fillLine hdirty hbuffer

variable {stores : ℕ → Option UInt8}

theorem kept_store {p : Pointer lines} (h : Kept g line s j) :
    Kept g line (store g s p stores) j := by
  refine h.mono ?_ ?_
  · rfl
  intro hdirty hbegin hbuffer
  by_cases hj : j = p.line
  · subst hj
    simp [store, hdirty, hbegin, hbuffer]
  · rw [store, setLine_cacheLines_ne hj]
    exact ⟨hdirty, hbegin, hbuffer⟩

theorem kept_flushAll {answers : ℕ → WriteAnswer} (h : Coherent g s latest)
    (hwrite : ∀ i, answers i = .performed) :
    Kept g (s.cacheLines j) (flushAll g s answers) j := by
  right
  intro buffer hbuffer o ho
  have hline := h.line j buffer hbuffer
  have hmod := Nat.mod_lt o g.bytesPerSector_pos
  have hdiv : o / g.bytesPerSector < g.sectorsPerLine :=
    (Nat.div_lt_iff_lt_mul g.bytesPerSector_pos).mpr ho
  have hsplit := Nat.div_add_mod' o g.bytesPerSector
  have haddress : (s.cacheLines j).bsByteAddress + o = g.baseByteAddress +
      ((s.cacheLines j).begin + o / g.bytesPerSector) * g.bytesPerSector +
        o % g.bytesPerSector := by
    rw [hline.address, Nat.add_mul]
    omega
  rw [haddress, h.flushAll_device hwrite hmod, ← hline.cached _ hdiv _ hmod, hsplit]

/-! ## Runs -/

/-- The uses in which the code does not follow a null pointer and the device performs what it is
given to write. -/
def Clean (g : CacheGeometry) (state : SectorCache lines × Contents) : Use → Prop
  | .read sectorIndex env | .write sectorIndex _ env | .erase sectorIndex env =>
    Servable g state.1 sectorIndex ∧ env.write = .performed
  | .markSectorDirty _ => True
  | .flushSector _ answer => answer = .performed
  | .flushAll answers => ∀ i, answers i = .performed

/-- The cache as `Initialize` leaves it; the latest contents are those of the device. -/
def Initial (g : CacheGeometry) (device : ℕ → UInt8) (state : SectorCache lines × Contents) :
    Prop :=
  state.1 = empty device ∧
    state.2 = fun sector o ↦ device (g.baseByteAddress + sector * g.bytesPerSector + o)

variable {latest' : Contents}

theorem coherent_writeSector (h : Coherent g s latest) (hwrite : env.write = .performed)
    (hstep : writeSector g (s, latest) sectorIndex stores env = some (s', latest')) :
    Coherent g s' latest' := by
  obtain ⟨⟨s₁, r⟩, hget, heq⟩ := map_eq_some_iff.mp hstep
  obtain ⟨hcoherent, hpointer⟩ := getSector_spec h hwrite hget
  cases r with
  | none =>
    cases heq
    exact hcoherent
  | some p =>
    cases heq
    obtain ⟨hpoints, hdirty⟩ := hpointer p rfl
    exact hcoherent.store hpoints (hdirty rfl) stores

variable {use : Use}

theorem coherent_step (h : Coherent g s latest) (hclean : Clean g (s, latest) use)
    (hstep : step g (s, latest) use = some (s', latest')) : Coherent g s' latest' := by
  cases use with
  | read sectorIndex env =>
    obtain ⟨⟨s₁, r⟩, hget, heq⟩ := map_eq_some_iff.mp hstep
    cases heq
    exact (getSector_spec h hclean.2 hget).1
  | write sectorIndex stores env | erase sectorIndex env =>
    exact coherent_writeSector h hclean.2 hstep
  | markSectorDirty sectorIndex =>
    cases hstep
    exact h.markSectorDirty sectorIndex
  | flushSector sectorIndex answer =>
    cases hclean
    cases hstep
    exact h.flushSector sectorIndex
  | flushAll answers =>
    cases hstep
    exact h.flushAll hclean

theorem kept_writeSector (hwrite : env.write = .performed)
    (hdirty : (s.cacheLines j).dirty = true) (hbuffer : (s.cacheLines j).buffer.isSome = true)
    (hstep : writeSector g (s, latest) sectorIndex stores env = some (s', latest')) :
    Kept g (s.cacheLines j) s' j := by
  obtain ⟨⟨s₁, r⟩, hget, heq⟩ := map_eq_some_iff.mp hstep
  cases r with
  | none =>
    cases heq
    exact kept_getSector hdirty hbuffer hwrite hget
  | some p =>
    cases heq
    exact kept_store (kept_getSector hdirty hbuffer hwrite hget)

theorem kept_step (h : Coherent g s latest) (hclean : Clean g (s, latest) use)
    (hdirty : (s.cacheLines j).dirty = true) (hbuffer : (s.cacheLines j).buffer.isSome = true)
    (hstep : step g (s, latest) use = some (s', latest')) : Kept g (s.cacheLines j) s' j := by
  have hsame : Kept g (s.cacheLines j) s j := .inl ⟨hdirty, rfl, hbuffer⟩
  cases use with
  | read sectorIndex env =>
    obtain ⟨⟨s₁, r⟩, hget, heq⟩ := map_eq_some_iff.mp hstep
    cases heq
    exact kept_getSector hdirty hbuffer hclean.2 hget
  | write sectorIndex stores env => exact kept_writeSector hclean.2 hdirty hbuffer hstep
  | erase sectorIndex env => exact kept_writeSector hclean.2 hdirty hbuffer hstep
  | markSectorDirty sectorIndex =>
    cases hstep
    unfold SectorCache.markSectorDirty
    split
    · next i hline =>
      refine hsame.mono ?_ ?_
      · rfl
      intro _ _ _
      by_cases hj : j = i
      · subst hj
        simp [hbuffer]
      · rw [setLine_cacheLines_ne hj]
        exact ⟨hdirty, rfl, hbuffer⟩
    · exact hsame
  | flushSector sectorIndex answer =>
    cases hclean
    cases hstep
    unfold SectorCache.flushSector
    split
    · exact kept_flushLine hdirty hbuffer
    · exact hsame
  | flushAll answers =>
    cases hstep
    exact kept_flushAll h hclean

theorem step_of_clean (hclean : Clean g (s, latest) use) :
    ∃ state, step g (s, latest) use = some state := by
  have hget : ∀ sectorIndex forWrite env, Servable g s sectorIndex →
      ∃ got, getSector g s sectorIndex forWrite env = some got := by
    intro sectorIndex forWrite env hservable
    apply ne_none_iff_exists'.mp
    rw [Ne, getSector_eq_none, not_not]
    exact hservable
  cases use with
  | read sectorIndex env =>
    obtain ⟨got, hgot⟩ := hget sectorIndex false env hclean.1
    exact ⟨_, by rw [step, hgot, map_some]⟩
  | write sectorIndex stores env | erase sectorIndex env =>
    obtain ⟨got, hgot⟩ := hget sectorIndex true env hclean.1
    exact ⟨_, by rw [step, writeSector, hgot, map_some]⟩
  | markSectorDirty sectorIndex | flushSector sectorIndex answer | flushAll answers =>
    exact ⟨_, rfl⟩

theorem coherent_initial {device : ℕ → UInt8} (h : Initial g device (s, latest)) :
    Coherent g s latest := by
  obtain ⟨rfl, rfl⟩ := h
  constructor
  · intro i buffer hbuffer
    cases hbuffer
  · intro i j hi
    cases hi
  · exact fun sector o ho hclean ↦ rfl

/-- In every run in which a line can be reused whenever one is needed and the device performs the
writes: a buffer that `GetSector` returns holds the latest contents of its sector, after `FlushAll`
the device holds those of every sector, and the next such use is carried out without a dirty line
being dropped unwritten. -/
theorem cache_transparent {device : ℕ → UInt8}
    (h : Library.Reachable (step g) (Clean g) (Initial g device) (s, latest)) :
    (∀ sectorIndex forWrite env s' p, env.write = .performed →
      getSector g s sectorIndex forWrite env = some (s', some p) →
        ∀ o < g.bytesPerSector, load s' p o = some (latest sectorIndex o)) ∧
    (∀ answers : ℕ → WriteAnswer, (∀ i, answers i = .performed) →
      ∀ sector, ∀ o < g.bytesPerSector,
        (flushAll g s answers).device (g.baseByteAddress + sector * g.bytesPerSector + o) =
          latest sector o) ∧
    ∀ use, Clean g (s, latest) use →
      ∃ s' latest', step g (s, latest) use = some (s', latest') ∧
        ∀ i, (s.cacheLines i).dirty = true → (s.cacheLines i).buffer.isSome = true →
          Kept g (s.cacheLines i) s' i := by
  have hcoherent : Coherent g s latest := h.invariant
    (I := fun state : SectorCache lines × Contents ↦ Coherent g state.1 state.2)
    (fun _ hstart ↦ coherent_initial hstart)
    (fun _ _ _ hkept hclean hstep ↦ coherent_step hkept hclean hstep)
  refine ⟨?_, ?_, ?_⟩
  · intro sectorIndex forWrite env s' p hwrite hget o ho
    obtain ⟨hcoherent', hpointer⟩ := getSector_spec hcoherent hwrite hget
    exact (hpointer p rfl).1.load hcoherent' ho
  · exact fun answers hwrite sector o ho ↦ hcoherent.flushAll_device hwrite ho
  · intro use hclean
    obtain ⟨⟨s', latest'⟩, hstep⟩ := step_of_clean hclean
    exact ⟨s', latest', hstep, fun i hdirty hbuffer ↦
      kept_step hcoherent hclean hdirty hbuffer hstep⟩

/-! ## A cache of one line -/

def eightSectors : CacheGeometry where
  bytesPerSector := 512
  sectorsPerLine := 4
  baseByteAddress := 0
  sectorCount := 8
  bytesPerSector_pos := by decide
  sectorsPerLine_pos := by decide
  reached := by decide

/-- Stores of one byte at the beginning of a sector. -/
def firstByte (value : UInt8) (o : ℕ) : Option UInt8 := if o = 0 then some value else none

/-- One line holds sector 0 and then sector 4, so the first sector is written back for the second. -/
theorem cache_transparent_eightSectors :
    ∃ (s : SectorCache 1) (latest : Contents), latest 0 0 = 7 ∧ latest 4 0 = 8 ∧
      (s.cacheLines 0).dirty = true ∧ (s.cacheLines 0).begin = 4 ∧
      (∀ sectorIndex forWrite env s' p, env.write = .performed →
        getSector eightSectors s sectorIndex forWrite env = some (s', some p) →
          ∀ o < 512, load s' p o = some (latest sectorIndex o)) ∧
      (∀ answers : ℕ → WriteAnswer, (∀ i, answers i = .performed) →
        ∀ sector, ∀ o < 512,
          (flushAll eightSectors s answers).device (0 + sector * 512 + o) = latest sector o) ∧
      ∀ use, Clean eightSectors (s, latest) use →
        ∃ s' latest', step eightSectors (s, latest) use = some (s', latest') ∧
          ∀ i, (s.cacheLines i).dirty = true → (s.cacheLines i).buffer.isSome = true →
            Kept eightSectors (s.cacheLines i) s' i := by
  have hstart : Library.Reachable (step eightSectors) (Clean eightSectors)
      (Initial eightSectors fun _ ↦ 0) ((empty fun _ ↦ 0 : SectorCache 1), fun _ _ ↦ 0) :=
    .start ⟨rfl, rfl⟩
  have hfirst := hstart.step (Use.write 0 (firstByte 7) ⟨true, true, .performed⟩)
    ⟨.inr (.inr ⟨0, .inl rfl⟩), rfl⟩ rfl
  have hsecond := hfirst.step (Use.write 4 (firstByte 8) ⟨true, true, .performed⟩)
    ⟨.inr (.inr ⟨0, .inr (by decide)⟩), rfl⟩ rfl
  exact ⟨_, _, by decide, by decide, by decide, by decide, cache_transparent hsecond⟩

theorem miss_oneLine {s : SectorCache 1} (hbuffer : (s.cacheLines 0).buffer.isSome = true)
    (hlru : (s.cacheLines 0).lruCounter < 0x7FFFFFFF) (hcounter : s.lruCounter ≠ 0)
    (hrange : ¬ sectorIndex > g.sectorCount)
    (hmiss : covers g (s.cacheLines 0) sectorIndex = false) :
    ∃ s' r, getSector g s sectorIndex false ⟨true, true, .performed⟩ = some (s', r) ∧
      s'.lruCounter = s.lruCounter + 1 ∧
      (s'.cacheLines 0).lruCounter = (s.lruCounter + 1) &&& lruCounterMask ∧
      (s'.cacheLines 0).buffer.isSome = true ∧
      (s'.cacheLines 0).begin = sectorIndex - sectorIndex % g.sectorsPerLine := by
  have hline : getCacheLine g s sectorIndex = none :=
    getCacheLine_eq_none.mpr fun i ↦ by rw [Subsingleton.elim i 0, hmiss]
  have hused : (s.cacheLines 0).buffer.isNone = false := by simpa using hbuffer
  have hunused : unusedLoop s (List.finRange 1) 0x7FFFFFFF none = some 0 := by
    simp [List.finRange_succ, unusedLoop, hused, hlru]
  have hcount : (flushLine g s 0 .performed).lruCounter = s.lruCounter := by
    dsimp only [flushLine]
    split
    · split_ifs <;> rfl
    · rfl
  have hne : ¬ (0 : UInt32) = s.lruCounter := Ne.symm hcounter
  unfold getSector
  rw [if_neg hrange, hline]
  simp only [getUnusedCacheLine, hunused, map_some, fillLine, Bool.not_true, Bool.and_false,
    Bool.false_eq_true, if_false, if_true, useLine, setLine_cacheLines_same, setLine_lruCounter,
    hcount, hne, ne_eq, not_false_eq_true]
  refine ⟨_, _, rfl, rfl, ?_, ?_, ?_⟩ <;> simp

theorem and_lruCounterMask {counter : UInt32} (h : counter.toNat < 2 ^ 31) :
    counter &&& lruCounterMask = counter := by
  apply UInt32.toNat_inj.mp
  rw [UInt32.toNat_and]
  exact (Nat.and_two_pow_sub_one_eq_mod counter.toNat 31).trans (Nat.mod_eq_of_lt h)

/-- Reads of two lines in turn count up to any value that the mask can hold. -/
theorem reachable_oneLine (n : ℕ) (hn : n + 2 < 2 ^ 31) :
    ∃ s latest, Library.Reachable (step eightSectors) (fun _ _ ↦ True)
        (Initial eightSectors fun _ ↦ 0) ((s : SectorCache 1), latest) ∧
      s.lruCounter.toNat = n + 2 ∧ (s.cacheLines 0).lruCounter.toNat = n + 2 ∧
      (s.cacheLines 0).buffer.isSome = true ∧
      ((s.cacheLines 0).begin = 0 ∨ (s.cacheLines 0).begin = 4) := by
  induction n with
  | zero =>
    have hstart : Library.Reachable (step eightSectors) (fun _ _ ↦ True)
        (Initial eightSectors fun _ ↦ 0) ((empty fun _ ↦ 0 : SectorCache 1), fun _ _ ↦ 0) :=
      .start ⟨rfl, rfl⟩
    refine ⟨_, _, .step (.read 0 ⟨true, true, .performed⟩) hstart trivial rfl, rfl, rfl, rfl, .inl rfl⟩
  | succ n ih =>
    obtain ⟨s, latest, hreach, hcounter, hlru, hbuffer, hbegin⟩ := ih (by omega)
    have hlt : (s.cacheLines 0).lruCounter < 0x7FFFFFFF := by
      rw [UInt32.lt_iff_toNat_lt, hlru]
      change n + 2 < 2147483647
      omega
    have hne : s.lruCounter ≠ 0 := by
      intro hzero
      rw [hzero] at hcounter
      cases hcounter
    have hnext : (s.lruCounter + 1).toNat = n + 1 + 2 := by
      rw [UInt32.toNat_add, hcounter, show (1 : UInt32).toNat = 1 from rfl]
      exact Nat.mod_eq_of_lt (by omega)
    have hmiss : ∃ sectorIndex, ¬ sectorIndex > eightSectors.sectorCount ∧
        covers eightSectors (s.cacheLines 0) sectorIndex = false ∧
        (sectorIndex - sectorIndex % 4 = 0 ∨ sectorIndex - sectorIndex % 4 = 4) := by
      rcases hbegin with hbegin | hbegin
      · exact ⟨4, by decide, by simp [covers, hbegin, eightSectors], .inr rfl⟩
      · exact ⟨0, by decide, by simp [covers, hbegin], .inl rfl⟩
    obtain ⟨sectorIndex, hrange, hmiss, hfirst⟩ := hmiss
    obtain ⟨s', r, hget, hcounter', hlru', hbuffer', hbegin'⟩ :=
      miss_oneLine hbuffer hlt hne hrange hmiss
    refine ⟨s', latest, .step (.read sectorIndex ⟨true, true, .performed⟩) hreach trivial ?_, ?_,
      ?_, hbuffer', ?_⟩
    · rw [step, hget, map_some]
    · rw [hcounter', hnext]
    · rw [hlru', and_lruCounterMask (by omega), hnext]
    · rw [hbegin']
      exact hfirst

/-- In a cache of one line, reads of two lines in turn come to a read that finds no line to
reuse. -/
theorem cache_oneLine_stuck :
    ∃ s latest sectorIndex, Library.Reachable (step eightSectors) (fun _ _ ↦ True)
        (Initial eightSectors fun _ ↦ 0) ((s : SectorCache 1), latest) ∧
      sectorIndex ≤ eightSectors.sectorCount ∧
      step eightSectors (s, latest) (.read sectorIndex ⟨true, true, .performed⟩) = none := by
  obtain ⟨s, latest, hreach, -, hlru, hbuffer, hbegin⟩ := reachable_oneLine 2147483645 (by omega)
  have hmiss : ∃ sectorIndex ≤ eightSectors.sectorCount,
      covers eightSectors (s.cacheLines 0) sectorIndex = false := by
    rcases hbegin with hbegin | hbegin
    · exact ⟨4, by decide, by simp [covers, hbegin, eightSectors]⟩
    · exact ⟨0, by decide, by simp [covers, hbegin]⟩
  obtain ⟨sectorIndex, hrange, hmiss⟩ := hmiss
  refine ⟨s, latest, sectorIndex, hreach, hrange, ?_⟩
  have hstuck : ¬ Servable eightSectors s sectorIndex := by
    rintro (hgt | ⟨i, hcovers⟩ | ⟨i, hnone | hlt⟩)
    · exact Nat.not_lt.mpr hrange hgt
    · rw [Subsingleton.elim i 0, hmiss] at hcovers
      cases hcovers
    · rw [Subsingleton.elim i 0] at hnone
      rw [hnone] at hbuffer
      cases hbuffer
    · rw [Subsingleton.elim i 0, UInt32.lt_iff_toNat_lt, hlru] at hlt
      exact absurd hlt (by decide)
  rw [step, getSector_eq_none.mpr hstuck, map_none]

end SectorCache

end MicroFramework.Fat
