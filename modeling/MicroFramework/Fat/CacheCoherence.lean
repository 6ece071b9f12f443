import Mathlib.Algebra.Order.Group.Nat
import MicroFramework.Fat.SectorCache

/-!
# Coherence of the sector cache

A coherent cache holds, in each line with a buffer, the latest contents of the sectors of the line,
and the device holds those of every sector that no dirty line has.  Every use of the cache keeps it
coherent, as long as the search for a line to reuse finds one and the device performs the writes.
-/

namespace MicroFramework.Fat

open Nat Option List

namespace SectorCache

variable {lines : ℕ} {g : CacheGeometry} {s s' : SectorCache lines} {latest : Contents}
  {i j : Fin lines} {line : CacheLine} {buffer : ℕ → UInt8} {sector sectorIndex o : ℕ}
  {forWrite : Bool} {env : Environment} {answer : WriteAnswer}

/-! ## Addresses -/

theorem address_eq (h : sector ≤ g.sectorCount) :
    g.address sector = g.baseByteAddress + sector * g.bytesPerSector := by
  apply mod_eq_of_lt
  have hlt : sector * g.bytesPerSector < (g.sectorCount + g.sectorsPerLine) * g.bytesPerSector :=
    Nat.mul_lt_mul_of_pos_right (lt_add_of_le_of_pos h g.sectorsPerLine_pos) g.bytesPerSector_pos
  have := g.reached
  omega

theorem div_bytesPerSector (ho : o < g.bytesPerSector) :
    (sector * g.bytesPerSector + o) / g.bytesPerSector = sector := by
  rw [Nat.add_comm, add_mul_div_right _ _ g.bytesPerSector_pos, div_eq_of_lt ho,
    Nat.zero_add]

theorem mem_line_iff {first : ℕ} (ho : o < g.bytesPerSector) :
    (g.baseByteAddress + first * g.bytesPerSector ≤
        g.baseByteAddress + sector * g.bytesPerSector + o ∧
      g.baseByteAddress + sector * g.bytesPerSector + o <
        g.baseByteAddress + first * g.bytesPerSector + g.lineSize) ↔
      first ≤ sector ∧ sector < first + g.sectorsPerLine := by
  have hpos := g.bytesPerSector_pos
  have hdiv := @div_bytesPerSector g sector o ho
  have hlow : first ≤ sector ↔
      first * g.bytesPerSector ≤ sector * g.bytesPerSector + o := by
    rw [← le_div_iff_mul_le hpos, hdiv]
  have hhigh : sector < first + g.sectorsPerLine ↔
      sector * g.bytesPerSector + o < (first + g.sectorsPerLine) * g.bytesPerSector := by
    rw [← div_lt_iff_lt_mul hpos, hdiv]
  have hline : (first + g.sectorsPerLine) * g.bytesPerSector =
      first * g.bytesPerSector + g.lineSize := Nat.add_mul _ _ _
  rw [hlow, hhigh, hline]
  omega

@[simp] theorem setLine_cacheLines_same : (s.setLine i line).cacheLines i = line := by
  simp [setLine]

theorem setLine_cacheLines_ne (h : j ≠ i) : (s.setLine i line).cacheLines j = s.cacheLines j := by
  simp [setLine, h]

@[simp] theorem setLine_device : (s.setLine i line).device = s.device := rfl

@[simp] theorem setLine_lruCounter : (s.setLine i line).lruCounter = s.lruCounter := rfl

theorem covers_iff : covers g line sector = true ↔
    line.buffer.isSome = true ∧ line.begin ≤ sector ∧
      sector < line.begin + g.sectorsPerLine := by
  simp [covers, and_assoc]

/-! ## Coherence -/

/-- The buffer of a line holds the latest contents of the sectors from its first one on. -/
structure LineCoherent (g : CacheGeometry) (latest : Contents) (line : CacheLine)
    (buffer : ℕ → UInt8) : Prop where
  aligned : g.sectorsPerLine ∣ line.begin
  begin_le : line.begin ≤ g.sectorCount
  address : line.bsByteAddress = g.baseByteAddress + line.begin * g.bytesPerSector
  cached : ∀ k < g.sectorsPerLine, ∀ o < g.bytesPerSector,
    buffer (k * g.bytesPerSector + o) = latest (line.begin + k) o

structure Coherent (g : CacheGeometry) (s : SectorCache lines) (latest : Contents) : Prop where
  line : ∀ i buffer, (s.cacheLines i).buffer = some buffer →
    LineCoherent g latest (s.cacheLines i) buffer
  distinct : ∀ i j, (s.cacheLines i).buffer.isSome = true →
    (s.cacheLines j).buffer.isSome = true →
      (s.cacheLines i).begin = (s.cacheLines j).begin → i = j
  stored : ∀ sector o, o < g.bytesPerSector →
    (∀ i, (s.cacheLines i).dirty = true → covers g (s.cacheLines i) sector = false) →
      s.device (g.baseByteAddress + sector * g.bytesPerSector + o) = latest sector o

theorem begin_eq_of_mem {first second : ℕ} (hfirst : g.sectorsPerLine ∣ first)
    (hsecond : g.sectorsPerLine ∣ second) (h : first ≤ sector ∧ sector < first + g.sectorsPerLine)
    (h' : second ≤ sector ∧ sector < second + g.sectorsPerLine) : first = second := by
  obtain ⟨a, rfl⟩ := hfirst
  obtain ⟨b, rfl⟩ := hsecond
  have hpos := g.sectorsPerLine_pos
  have hquotient : ∀ c, g.sectorsPerLine * c ≤ sector →
      sector < g.sectorsPerLine * c + g.sectorsPerLine → sector / g.sectorsPerLine = c := by
    intro c hle hlt
    apply Nat.div_eq_of_lt_le
    · rwa [Nat.mul_comm]
    · rwa [succ_mul, Nat.mul_comm]
  rw [← hquotient a h.1 h.2, ← hquotient b h'.1 h'.2]

theorem Coherent.eq_of_covers (h : Coherent g s latest) (hi : covers g (s.cacheLines i) sector)
    (hj : covers g (s.cacheLines j) sector) : i = j := by
  obtain ⟨hsome, hmem⟩ := covers_iff.mp hi
  obtain ⟨hsome', hmem'⟩ := covers_iff.mp hj
  obtain ⟨buffer, hbuffer⟩ := isSome_iff_exists.mp hsome
  obtain ⟨buffer', hbuffer'⟩ := isSome_iff_exists.mp hsome'
  exact h.distinct i j hsome hsome'
    (begin_eq_of_mem (h.line i buffer hbuffer).aligned (h.line j buffer' hbuffer').aligned
      hmem hmem')

theorem LineCoherent.load (h : LineCoherent g latest line buffer)
    (hmem : line.begin ≤ sector ∧ sector < line.begin + g.sectorsPerLine)
    (ho : o < g.bytesPerSector) :
    buffer ((sector - line.begin) * g.bytesPerSector + o) = latest sector o := by
  rw [h.cached (sector - line.begin) (by omega) o ho, Nat.add_sub_cancel' hmem.1]

/-- A line can be replaced by a coherent line of sectors that no other line has, if nothing that
only the old line held is lost. -/
theorem Coherent.setLine (h : Coherent g s latest)
    (hline : ∀ buffer, line.buffer = some buffer → LineCoherent g latest line buffer)
    (hdistinct : line.buffer.isSome = true → ∀ j, j ≠ i →
      (s.cacheLines j).buffer.isSome = true → (s.cacheLines j).begin ≠ line.begin)
    (hdirty : ∀ sector, (s.cacheLines i).dirty = true →
      covers g (s.cacheLines i) sector = true →
        line.dirty = true ∧ covers g line sector = true) :
    Coherent g (s.setLine i line) latest := by
  constructor
  · intro j buffer hbuffer
    by_cases hj : j = i
    · subst hj
      rw [setLine_cacheLines_same] at hbuffer ⊢
      exact hline buffer hbuffer
    · rw [setLine_cacheLines_ne hj] at hbuffer ⊢
      exact h.line j buffer hbuffer
  · intro j k hj hk hbegin
    by_cases hji : j = i <;> by_cases hki : k = i
    · rw [hji, hki]
    · subst hji
      rw [setLine_cacheLines_same] at hj hbegin
      rw [setLine_cacheLines_ne hki] at hk hbegin
      exact absurd hbegin.symm (hdistinct hj k hki hk)
    · subst hki
      rw [setLine_cacheLines_same] at hk hbegin
      rw [setLine_cacheLines_ne hji] at hj hbegin
      exact absurd hbegin (hdistinct hk j hji hj)
    · rw [setLine_cacheLines_ne hji] at hj hbegin
      rw [setLine_cacheLines_ne hki] at hk hbegin
      exact h.distinct j k hj hk hbegin
  · intro sector o ho hclean
    rw [setLine_device]
    apply h.stored sector o ho
    intro j hj
    by_cases hji : j = i
    · subst hji
      by_contra hcovers
      rw [Bool.not_eq_false] at hcovers
      obtain ⟨hdirty', hcovers'⟩ := hdirty sector hj hcovers
      have hnot := hclean j
      rw [setLine_cacheLines_same] at hnot
      rw [hnot hdirty'] at hcovers'
      cases hcovers'
    · have hnot := hclean j
      rw [setLine_cacheLines_ne hji] at hnot
      exact hnot hj

/-! ## Writing back -/

/-- A line that is written back keeps all but its dirty flag. -/
theorem flushLine_cacheLines (j : Fin lines) :
    (flushLine g s i answer).cacheLines j =
      { s.cacheLines j with
        dirty := (s.cacheLines j).dirty && !(decide (j = i) && (s.cacheLines i).buffer.isSome) } := by
  by_cases hj : j = i
  · subst hj
    cases hbuffer : (s.cacheLines j).buffer with
    | none =>
      simp only [flushLine, hbuffer, decide_true, isSome_none, Bool.and_false, Bool.not_false,
        Bool.and_true]
      rw [← hbuffer]
    | some buffer =>
      cases hdirty : (s.cacheLines j).dirty with
      | false =>
        simp only [flushLine, hbuffer, hdirty, Bool.false_eq_true, if_false, Bool.false_and]
        rw [← hbuffer, ← hdirty]
      | true => simp [flushLine, hbuffer, hdirty, setLine]
  · cases hbuffer : (s.cacheLines i).buffer with
    | none => simp [flushLine, hbuffer]
    | some buffer =>
      cases hdirty : (s.cacheLines i).dirty with
      | false => simp [flushLine, hbuffer, hdirty, hj]
      | true => simp [flushLine, hbuffer, hdirty, setLine, hj]

theorem flushLine_device (h : Coherent g s latest) (ho : o < g.bytesPerSector) :
    (flushLine g s i .performed).device (g.baseByteAddress + sector * g.bytesPerSector + o) =
      if (s.cacheLines i).dirty = true ∧ covers g (s.cacheLines i) sector = true then
        latest sector o
      else s.device (g.baseByteAddress + sector * g.bytesPerSector + o) := by
  cases hbuffer : (s.cacheLines i).buffer with
  | none => simp [flushLine, hbuffer, covers]
  | some buffer =>
    cases hdirty : (s.cacheLines i).dirty with
    | false => simp [flushLine, hbuffer, hdirty]
    | true =>
      have hline := h.line i buffer hbuffer
      have hmem := @mem_line_iff g sector o (s.cacheLines i).begin ho
      have hcovers : covers g (s.cacheLines i) sector = true ↔
          (s.cacheLines i).begin ≤ sector ∧
            sector < (s.cacheLines i).begin + g.sectorsPerLine := by
        simp [covers_iff, hbuffer]
      simp only [flushLine, hbuffer, hdirty, if_true, true_and, hline.address, hmem, hcovers,
        WriteAnswer.bytes]
      split_ifs with hin
      · rw [← hline.load hin ho]
        congr 1
        have hsplit : sector * g.bytesPerSector = (s.cacheLines i).begin * g.bytesPerSector +
            (sector - (s.cacheLines i).begin) * g.bytesPerSector := by
          rw [← Nat.add_mul, Nat.add_sub_cancel' hin.1]
        omega
      · rfl

theorem LineCoherent.congr {line' : CacheLine} (h : LineCoherent g latest line buffer)
    (hbegin : line'.begin = line.begin) (haddress : line'.bsByteAddress = line.bsByteAddress) :
    LineCoherent g latest line' buffer where
  aligned := hbegin ▸ h.aligned
  begin_le := hbegin ▸ h.begin_le
  address := by rw [haddress, hbegin, h.address]
  cached := hbegin ▸ h.cached

theorem Coherent.flushLine (h : Coherent g s latest) (i : Fin lines) :
    Coherent g (flushLine g s i .performed) latest := by
  constructor
  · intro j buffer hbuffer
    rw [flushLine_cacheLines] at hbuffer ⊢
    exact (h.line j buffer hbuffer).congr rfl rfl
  · intro j k
    rw [flushLine_cacheLines, flushLine_cacheLines]
    exact h.distinct j k
  · intro sector o ho hclean
    rw [flushLine_device h ho]
    split_ifs with hwritten
    · rfl
    · apply h.stored sector o ho
      intro j hj
      by_cases hji : j = i
      · subst hji
        exact Bool.not_eq_true _ ▸ fun hcovers ↦ hwritten ⟨hj, hcovers⟩
      · have hnot := hclean j
        rw [flushLine_cacheLines] at hnot
        simpa [hji, hj, covers] using hnot

/-! ## Getting a sector -/

structure PointsTo (g : CacheGeometry) (s : SectorCache lines) (p : Pointer lines)
    (sectorIndex : ℕ) : Prop where
  covers : covers g (s.cacheLines p.line) sectorIndex = true
  offset : p.offset = (sectorIndex - (s.cacheLines p.line).begin) * g.bytesPerSector

theorem useLine_eq : ∃ counter lruCounter,
    useLine g s i sectorIndex forWrite =
      ({ s.setLine i
          { s.cacheLines i with
            dirty := (s.cacheLines i).dirty || forWrite
            lruCounter := counter } with
          lruCounter := lruCounter },
        ⟨i, (sectorIndex - (s.cacheLines i).begin) * g.bytesPerSector⟩) := by
  cases forWrite <;>
  · simp only [useLine, Bool.or_false, Bool.or_true, Bool.false_eq_true, if_false, if_true]
    split_ifs
    · exact ⟨_, _, rfl⟩
    · exact ⟨_, _, rfl⟩

theorem Coherent.setCounter (h : Coherent g s latest) (lruCounter : UInt32) :
    Coherent g { s with lruCounter := lruCounter } latest :=
  ⟨h.line, h.distinct, h.stored⟩

theorem Coherent.setFlags (h : Coherent g s latest) (i : Fin lines) {dirty : Bool}
    {counter : UInt32} (hdirty : (s.cacheLines i).dirty = true → dirty = true) :
    Coherent g
      (s.setLine i { s.cacheLines i with dirty := dirty, lruCounter := counter }) latest := by
  apply h.setLine
  · exact fun buffer hbuffer ↦ (h.line i buffer hbuffer).congr rfl rfl
  · exact fun hsome j hj hsome' hbegin ↦ hj (h.distinct j i hsome' hsome hbegin)
  · exact fun sector hd hcovers ↦ ⟨hdirty hd, hcovers⟩

theorem useLine_spec (h : Coherent g s latest)
    (hcovers : covers g (s.cacheLines i) sectorIndex = true) :
    Coherent g (useLine g s i sectorIndex forWrite).1 latest ∧
      PointsTo g (useLine g s i sectorIndex forWrite).1
        (useLine g s i sectorIndex forWrite).2 sectorIndex ∧
      (forWrite = true → ((useLine g s i sectorIndex forWrite).1.cacheLines
        (useLine g s i sectorIndex forWrite).2.line).dirty = true) := by
  obtain ⟨counter, lruCounter, hused⟩ := @useLine_eq lines g s i sectorIndex forWrite
  rw [hused]
  refine ⟨(h.setFlags i ?_).setCounter _, ⟨?_, ?_⟩, ?_⟩
  · intro hdirty
    rw [hdirty, Bool.true_or]
  · simpa [SectorCache.covers] using hcovers
  · simp
  · rintro rfl
    simp

/-- A line to reuse is found unless all lines are in use and none has a counter below the one that
the search starts from. -/
theorem unusedLoop_eq_none {remaining : List (Fin lines)} {minLRUCounter : UInt32}
    {topCandidate : Option (Fin lines)} :
    unusedLoop s remaining minLRUCounter topCandidate = none ↔
      topCandidate = none ∧ ∀ i ∈ remaining, (s.cacheLines i).buffer.isNone = false ∧
        ¬ (s.cacheLines i).lruCounter < minLRUCounter := by
  induction remaining generalizing minLRUCounter topCandidate with
  | nil => simp [unusedLoop]
  | cons i rest ih =>
    simp only [unusedLoop]
    split_ifs with hnone hlt
    · simp [hnone]
    · simp [ih, hlt]
    · have hused : (s.cacheLines i).buffer.isNone = false := Bool.eq_false_iff.mpr hnone
      simp only [ih, forall_mem_cons, hused, hlt, not_false_eq_true, and_self, true_and]

/-- The state in which a sector can be got, or is refused: it is in the cache, or a line can be
reused for it. -/
def Servable (g : CacheGeometry) (s : SectorCache lines) (sectorIndex : ℕ) : Prop :=
  sectorIndex > g.sectorCount ∨ (∃ i, covers g (s.cacheLines i) sectorIndex = true) ∨
    ∃ i, (s.cacheLines i).buffer = none ∨ (s.cacheLines i).lruCounter < 0x7FFFFFFF

theorem getCacheLine_eq_none :
    getCacheLine g s sectorIndex = none ↔
      ∀ i, covers g (s.cacheLines i) sectorIndex = false := by
  simp [getCacheLine, find?_eq_none]

theorem covers_of_getCacheLine (hline : getCacheLine g s sectorIndex = some i) :
    covers g (s.cacheLines i) sectorIndex = true :=
  @List.find?_some _ (fun i ↦ covers g (s.cacheLines i) sectorIndex) _ _ hline

/-- The code follows a null pointer exactly where the sector is not servable. -/
theorem getSector_eq_none :
    getSector g s sectorIndex forWrite env = none ↔ ¬ Servable g s sectorIndex := by
  unfold getSector
  split_ifs with hrange
  · simp [Servable, hrange]
  · cases hline : getCacheLine g s sectorIndex with
    | some i =>
      simp only [reduceCtorEq, false_iff, not_not]
      exact .inr (.inl ⟨i, covers_of_getCacheLine hline⟩)
    | none =>
      have hmiss := getCacheLine_eq_none.mp hline
      cases hunused : unusedLoop s (List.finRange lines) 0x7FFFFFFF none with
      | none =>
        have hall := (unusedLoop_eq_none.mp hunused).2
        simp only [getUnusedCacheLine, hunused, map_none, true_iff]
        rintro (hgt | ⟨i, hcovers⟩ | ⟨i, hfree | hlt⟩)
        · exact hrange hgt
        · rw [hmiss i] at hcovers
          cases hcovers
        · have hsome := (hall i (mem_finRange i)).1
          simp [hfree] at hsome
        · exact (hall i (mem_finRange i)).2 hlt
      | some i =>
        have hsome : unusedLoop s (List.finRange lines) 0x7FFFFFFF none ≠ none := by simp [hunused]
        rw [Ne, unusedLoop_eq_none] at hsome
        have hservable : Servable g s sectorIndex := by
          by_contra hnot
          simp only [Servable, not_or, not_exists] at hnot
          apply hsome
          refine ⟨rfl, fun j _ ↦ ⟨?_, (hnot.2.2 j).2⟩⟩
          simpa [isSome_iff_ne_none] using (hnot.2.2 j).1
        simp only [getUnusedCacheLine, hunused, map_some, hservable, not_true, iff_false]
        split <;> simp

theorem covers_flushLine (j : Fin lines) :
    covers g ((flushLine g s i answer).cacheLines j) sector = covers g (s.cacheLines j) sector := by
  rw [flushLine_cacheLines]
  rfl

/-- Nothing is lost with a line that was written back. -/
theorem flushLine_clean (hcovers : covers g ((flushLine g s i answer).cacheLines i) sector = true) :
    ((flushLine g s i answer).cacheLines i).dirty = false := by
  rw [covers_flushLine] at hcovers
  rw [flushLine_cacheLines]
  simp [(covers_iff.mp hcovers).1]

/-- The bytes read into a line for a sector that is not in the cache are the latest contents. -/
theorem lineCoherent_read (h : Coherent g s latest) (hrange : sectorIndex ≤ g.sectorCount)
    (hmiss : ∀ j, covers g (s.cacheLines j) sectorIndex = false)
    (hbegin : line.begin = sectorIndex - sectorIndex % g.sectorsPerLine)
    (haddress : line.bsByteAddress = g.address line.begin) :
    LineCoherent g latest line fun o ↦ s.device (line.bsByteAddress + o) := by
  have hpos := g.sectorsPerLine_pos
  have hmod := mod_lt sectorIndex hpos
  have hmodle := mod_le sectorIndex g.sectorsPerLine
  have hle : line.begin ≤ g.sectorCount := by omega
  have hdvd : g.sectorsPerLine ∣ line.begin := hbegin ▸ dvd_sub_mod sectorIndex
  rw [address_eq hle] at haddress
  refine ⟨hdvd, hle, haddress, fun k hk o ho ↦ ?_⟩
  have hsector : line.bsByteAddress + (k * g.bytesPerSector + o) =
      g.baseByteAddress + (line.begin + k) * g.bytesPerSector + o := by
    rw [haddress, Nat.add_mul]
    omega
  rw [hsector]
  apply h.stored _ o ho
  intro j hj
  by_contra hcovers
  rw [Bool.not_eq_false] at hcovers
  obtain ⟨hsome, hmem⟩ := covers_iff.mp hcovers
  obtain ⟨buffer, hbuffer⟩ := isSome_iff_exists.mp hsome
  -- a line with one of these sectors is aligned like the new one, so it has the sector asked for
  have hsame : (s.cacheLines j).begin = line.begin :=
    begin_eq_of_mem (h.line j buffer hbuffer).aligned hdvd hmem (by omega)
  have hhit : covers g (s.cacheLines j) sectorIndex = true :=
    covers_iff.mpr ⟨hsome, by omega, by omega⟩
  rw [hmiss j] at hhit
  cases hhit

theorem fillLine_spec (h : Coherent g s latest) (hrange : sectorIndex ≤ g.sectorCount)
    (hmiss : ∀ j, covers g (s.cacheLines j) sectorIndex = false)
    (hclean : ∀ sector, covers g (s.cacheLines i) sector = true →
      (s.cacheLines i).dirty = false) :
    Coherent g (fillLine g s i sectorIndex env).2 latest ∧
      ((fillLine g s i sectorIndex env).1 = true →
        covers g ((fillLine g s i sectorIndex env).2.cacheLines i) sectorIndex = true) := by
  have hmod := mod_lt sectorIndex g.sectorsPerLine_pos
  have hmodle := mod_le sectorIndex g.sectorsPerLine
  have hlost : ∀ sector, (s.cacheLines i).dirty = true →
      covers g (s.cacheLines i) sector = true → False := by
    intro sector hdirty hcovers
    rw [hclean sector hcovers] at hdirty
    cases hdirty
  unfold fillLine
  split_ifs with hmalloc hread
  · exact ⟨h, False.elim⟩
  · constructor
    · apply h.setLine
      · intro buffer hbuffer
        obtain rfl := some.inj hbuffer
        exact lineCoherent_read h hrange hmiss rfl rfl
      · intro _ j hj hsome hbegin
        have hhit : covers g (s.cacheLines j) sectorIndex = true := by
          rw [covers_iff, hbegin]
          exact ⟨hsome, by dsimp only; omega, by dsimp only; omega⟩
        rw [hmiss j] at hhit
        cases hhit
      · exact fun sector hdirty hcovers ↦ (hlost sector hdirty hcovers).elim
    · intro _
      rw [setLine_cacheLines_same, covers_iff]
      exact ⟨rfl, by dsimp only; omega, by dsimp only; omega⟩
  · refine ⟨?_, False.elim⟩
    apply h.setLine
    · intro buffer hbuffer
      cases hbuffer
    · intro hsome
      cases hsome
    · exact fun sector hdirty hcovers ↦ (hlost sector hdirty hcovers).elim

theorem getSector_spec {r : Option (Pointer lines)} (h : Coherent g s latest)
    (hwrite : env.write = .performed)
    (hget : getSector g s sectorIndex forWrite env = some (s', r)) :
    Coherent g s' latest ∧ ∀ p, r = some p → PointsTo g s' p sectorIndex ∧
      (forWrite = true → (s'.cacheLines p.line).dirty = true) := by
  unfold getSector at hget
  split_ifs at hget with hrange
  · cases hget
    exact ⟨h, fun p hp ↦ by cases hp⟩
  · cases hline : getCacheLine g s sectorIndex with
    | some i =>
      simp only [hline, Option.some.injEq] at hget
      cases hget
      obtain ⟨hcoherent, hpoints, hdirty⟩ :=
        @useLine_spec lines g s latest i sectorIndex forWrite h (covers_of_getCacheLine hline)
      refine ⟨hcoherent, fun p hp ↦ ?_⟩
      cases hp
      exact ⟨hpoints, hdirty⟩
    | none =>
      have hmiss := getCacheLine_eq_none.mp hline
      cases hunused : unusedLoop s (List.finRange lines) 0x7FFFFFFF none with
      | none => simp [hline, getUnusedCacheLine, hunused] at hget
      | some i =>
        simp only [hline, getUnusedCacheLine, hunused, map_some, hwrite] at hget
        have hmiss' : ∀ j, covers g ((flushLine g s i .performed).cacheLines j) sectorIndex = false :=
          fun j ↦ by rw [covers_flushLine, hmiss j]
        obtain ⟨hfilled, hcovers⟩ := @fillLine_spec lines g
          (flushLine g s i .performed) latest i sectorIndex
          env (h.flushLine i) (Nat.not_lt.mp hrange) hmiss' fun sector ↦ flushLine_clean
        split_ifs at hget with hfill
        · obtain ⟨hcoherent, hpoints, hdirty⟩ :=
            @useLine_spec lines g _ latest i sectorIndex forWrite hfilled (hcovers hfill)
          cases hget
          refine ⟨hcoherent, fun p hp ↦ ?_⟩
          cases hp
          exact ⟨hpoints, hdirty⟩
        · cases hget
          exact ⟨hfilled, fun p hp ↦ by cases hp⟩

theorem PointsTo.load {p : Pointer lines} (hp : PointsTo g s p sectorIndex)
    (h : Coherent g s latest) (ho : o < g.bytesPerSector) :
    load s p o = some (latest sectorIndex o) := by
  obtain ⟨hsome, hmem⟩ := covers_iff.mp hp.covers
  obtain ⟨buffer, hbuffer⟩ := isSome_iff_exists.mp hsome
  rw [SectorCache.load, hbuffer, map_some, hp.offset,
    (h.line p.line buffer hbuffer).load hmem ho]

/-! ## Stores -/

/-- Stores into a sector of a dirty line become its latest contents. -/
theorem Coherent.store {p : Pointer lines} (h : Coherent g s latest)
    (hp : PointsTo g s p sectorIndex) (hdirty : (s.cacheLines p.line).dirty = true)
    (stores : ℕ → Option UInt8) :
    Coherent g (store g s p stores) (latest.stored sectorIndex stores) := by
  obtain ⟨hsome, hmem⟩ := covers_iff.mp hp.covers
  obtain ⟨old, hold⟩ := isSome_iff_exists.mp hsome
  have hsame : ∀ sector o, sector ≠ sectorIndex →
      latest.stored sectorIndex stores sector o = latest sector o := by
    intro sector o hne
    rw [Contents.stored, Function.update_of_ne hne]
  -- the lines are those of before, but for the bytes of the sector
  have hfields : ∀ j, ((SectorCache.store g s p stores).cacheLines j).begin =
        (s.cacheLines j).begin ∧
      ((SectorCache.store g s p stores).cacheLines j).dirty = (s.cacheLines j).dirty ∧
      ((SectorCache.store g s p stores).cacheLines j).buffer.isSome =
        (s.cacheLines j).buffer.isSome := by
    intro j
    by_cases hj : j = p.line
    · subst hj
      simp [SectorCache.store]
    · simp [SectorCache.store, setLine_cacheLines_ne hj]
  constructor
  · intro j buffer hbuffer
    by_cases hj : j = p.line
    · subst hj
      have hline := h.line p.line old hold
      simp only [SectorCache.store, setLine_cacheLines_same, hold, map_some,
        Option.some.injEq] at hbuffer ⊢
      subst hbuffer
      refine ⟨hline.aligned, hline.begin_le, hline.address, fun k hk o ho ↦ ?_⟩
      dsimp only
      rw [hp.offset, hline.cached k hk o ho]
      by_cases hk' : (s.cacheLines p.line).begin + k = sectorIndex
      · have hoffset : sectorIndex - (s.cacheLines p.line).begin = k := by omega
        rw [hoffset, if_pos ⟨le_add_right _ _, Nat.add_lt_add_left ho _⟩,
          Nat.add_sub_cancel_left, hk', Contents.stored, Function.update_self]
      · rw [if_neg, hsame _ _ hk']
        rintro ⟨hlow, hhigh⟩
        rw [← le_div_iff_mul_le g.bytesPerSector_pos, div_bytesPerSector ho] at hlow
        rw [← succ_mul, ← div_lt_iff_lt_mul g.bytesPerSector_pos,
          div_bytesPerSector ho] at hhigh
        omega
    · rw [SectorCache.store, setLine_cacheLines_ne hj] at hbuffer ⊢
      have hline := h.line j buffer hbuffer
      refine ⟨hline.aligned, hline.begin_le, hline.address, fun k hk o ho ↦ ?_⟩
      rw [hline.cached k hk o ho, hsame]
      intro hsector
      apply hj
      apply h.eq_of_covers _ hp.covers
      rw [covers_iff, hbuffer, ← hsector]
      exact ⟨rfl, by omega, by omega⟩
  · intro j k hj hk hbegin
    rw [(hfields j).2.2] at hj
    rw [(hfields k).2.2] at hk
    rw [(hfields j).1, (hfields k).1] at hbegin
    exact h.distinct j k hj hk hbegin
  · intro sector o ho hclean
    have hcovers : ∀ j, covers g ((SectorCache.store g s p stores).cacheLines j) sector =
        covers g (s.cacheLines j) sector := by
      intro j
      rw [covers, covers, (hfields j).1, (hfields j).2.2]
    have hne : sector ≠ sectorIndex := by
      rintro rfl
      have hnot := hclean p.line (by rw [(hfields _).2.1, hdirty])
      rw [hcovers, hp.covers] at hnot
      cases hnot
    rw [hsame sector o hne]
    apply h.stored sector o ho
    intro j hj
    rw [← hcovers j]
    exact hclean j (by rw [(hfields j).2.1, hj])

/-! ## Flushes and marks -/

theorem flushAll_performed {answers : ℕ → WriteAnswer} (h : ∀ i, answers i = .performed) :
    flushAll g s answers =
      (List.finRange lines).foldl (fun s i ↦ flushLine g s i .performed) s := by
  rw [flushAll, funext h]

variable {answers : ℕ → WriteAnswer}

theorem Coherent.flushAll (h : Coherent g s latest) (hwrite : ∀ i, answers i = .performed) :
    Coherent g (flushAll g s answers) latest := by
  rw [flushAll_performed hwrite]
  generalize List.finRange lines = remaining
  induction remaining generalizing s with
  | nil => exact h
  | cons i rest ih => exact ih (h.flushLine i)

theorem foldl_flushLine_clean (remaining : List (Fin lines)) (i : Fin lines)
    (hbuffer : (s.cacheLines i).buffer.isSome = true)
    (hi : i ∈ remaining ∨ (s.cacheLines i).dirty = false) :
    ((remaining.foldl (fun s i ↦ flushLine g s i .performed) s).cacheLines i).dirty = false := by
  induction remaining generalizing s with
  | nil => simpa using hi
  | cons j rest ih =>
    apply ih
    · rw [flushLine_cacheLines]
      exact hbuffer
    · rw [flushLine_cacheLines]
      rcases hi with hi | hclean
      · rcases mem_cons.mp hi with rfl | hi
        · right
          simp [hbuffer]
        · exact .inl hi
      · right
        simp [hclean]

theorem covers_foldl_flushLine (remaining : List (Fin lines)) (i : Fin lines) :
    covers g ((remaining.foldl (fun s i ↦ flushLine g s i .performed) s).cacheLines i) sector =
      covers g (s.cacheLines i) sector := by
  induction remaining generalizing s with
  | nil => rfl
  | cons j rest ih => rw [foldl_cons, ih, covers_flushLine]

/-- After everything is flushed the device holds the latest contents of every sector. -/
theorem Coherent.flushAll_device (h : Coherent g s latest) (hwrite : ∀ i, answers i = .performed)
    (ho : o < g.bytesPerSector) :
    (SectorCache.flushAll g s answers).device
        (g.baseByteAddress + sector * g.bytesPerSector + o) = latest sector o := by
  apply (h.flushAll hwrite).stored sector o ho
  intro i hdirty
  by_contra hcovers
  rw [Bool.not_eq_false, flushAll_performed hwrite, covers_foldl_flushLine] at hcovers
  have hclean := @foldl_flushLine_clean lines g s (List.finRange lines) i
    (covers_iff.mp hcovers).1 (.inl (mem_finRange i))
  rw [flushAll_performed hwrite, hclean] at hdirty
  cases hdirty

theorem Coherent.flushSector (h : Coherent g s latest) (sectorIndex : ℕ) :
    Coherent g (flushSector g s sectorIndex .performed) latest := by
  unfold SectorCache.flushSector
  split
  · exact h.flushLine _
  · exact h

theorem Coherent.markSectorDirty (h : Coherent g s latest) (sectorIndex : ℕ) :
    Coherent g (markSectorDirty g s sectorIndex) latest := by
  unfold SectorCache.markSectorDirty
  split
  · exact h.setFlags _ fun _ ↦ rfl
  · exact h

end SectorCache

end MicroFramework.Fat
