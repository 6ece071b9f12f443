import MicroFramework.Compression.Replay

/-!
# Reading ahead

The compressor stands at an index of the text when its window shows the text up to there.  A search
that starts at an index reads ahead of it; `oldchars` holds the bytes that putting the window back
takes.
-/

namespace MicroFramework.Compression

open Library

def textLength (infile : List UInt8) : ℕ :=
  winSize + infile.length

namespace Compressor

/-- The byte at the index `i` of the text is the last one read. -/
structure At (infile : List UInt8) (s : Compressor) (i : ℕ) : Prop where
  low : winSize - 1 ≤ i
  high : i < textLength infile
  currPos : s.currPos = i % winSize
  infilePos : s.infilePos + (winSize - 1) = i
  window : Shows winSize s.window (text infile) i

variable {infile : List UInt8} {s : Compressor} {i : ℕ}

theorem At.read (h : s.At infile i) {j : ℕ} (hle : j ≤ i) (hnear : i < j + winSize) :
    s.window (j % winSize) = text infile j :=
  h.window j hle hnear

theorem At.nextOld (h : s.At infile i) : s.nextOld = text infile (i + 1 - winSize) := by
  have hlow := h.low
  rw [Compressor.nextOld, h.currPos, addIndex_mod]
  exact h.window.displaced (by omega) (by decide)

theorem At.getNextChar_none (h : s.At infile i) (hend : i + 1 = textLength infile) :
    s.getNextChar infile = (none, s) := by
  have hpos := h.infilePos
  have hout : infile[s.infilePos]? = none := by
    rw [List.getElem?_eq_none_iff]
    unfold textLength winSize at *
    omega
  rw [getNextChar, hout]

theorem At.getNextChar_some (h : s.At infile i) (hroom : i + 1 < textLength infile) :
    ∃ s', s.getNextChar infile = (some (text infile (i + 1)), s') ∧ s'.At infile (i + 1) ∧
      s'.out = s.out := by
  have hpos := h.infilePos
  have hlow := h.low
  have hlt : s.infilePos < infile.length := by
    unfold textLength winSize at *
    omega
  have hindex : i + 1 = winSize + s.infilePos := by
    unfold winSize at *
    omega
  have hget : infile[s.infilePos]? = some (text infile (i + 1)) := by
    rw [hindex, text_add hlt, List.getElem?_eq_getElem hlt]
  have hcell : addIndex s.currPos = (i + 1) % winSize := by rw [h.currPos, addIndex_mod]
  refine ⟨{ s with
      infilePos := s.infilePos + 1
      currPos := addIndex s.currPos
      window := Function.update s.window (addIndex s.currPos) (text infile (i + 1)) },
    by rw [getNextChar, hget], ⟨by omega, hroom, hcell, ?_, ?_⟩, rfl⟩
  · show s.infilePos + 1 + (winSize - 1) = i + 1
    omega
  · rw [hcell]
    exact h.window.write

theorem At.unreadChar (h : s.At infile (i + 1)) (hlow : winSize - 1 ≤ i) :
    (s.unreadChar (text infile (i + 1 - winSize))).At infile i := by
  have hhigh := h.high
  have hpos := h.infilePos
  refine ⟨hlow, by omega, ?_, ?_, ?_⟩
  · show dropIndex s.currPos = i % winSize
    rw [h.currPos, dropIndex_succ_mod]
  · show s.infilePos - 1 + (winSize - 1) = i
    unfold winSize at *
    omega
  · have hwindow := h.window.unwrite (by unfold winSize at *; omega)
    rw [← h.currPos] at hwindow
    exact hwindow

/-- The nearest place before with the same byte, if it is in the window. -/
theorem At.findPrevious (h : s.At infile i) (hlow : winSize ≤ i) {count : ℕ} (hpos : 1 ≤ count)
    (hle : count ≤ winSize) (hnone : ∀ d, 1 ≤ d → d < count → text infile (i - d) ≠ text infile i) :
    ∃ d, s.findPrevious count ((i - count) % winSize) = (d, (i - d) % winSize) ∧ 1 ≤ d ∧
      d ≤ winSize ∧ (∀ d', 1 ≤ d' → d' < d → text infile (i - d') ≠ text infile i) ∧
      (d < winSize → text infile (i - d) = text infile i) := by
  induction hn : winSize - count generalizing count with
  | zero =>
    have hcount : count = winSize := by omega
    refine ⟨count, ?_, hpos, hle, hnone, fun hlt ↦ by omega⟩
    rw [Compressor.findPrevious, if_neg (by omega)]
  | succ n ih =>
    have hlt : count < winSize := by omega
    have hhere : s.window s.currPos = text infile i := by
      rw [h.currPos]
      exact h.read (Nat.le_refl i) (by unfold winSize; omega)
    have hthere : s.window ((i - count) % winSize) = text infile (i - count) :=
      h.read (by omega) (by omega)
    rw [Compressor.findPrevious, hhere, hthere]
    by_cases heq : text infile (i - count) = text infile i
    · rw [if_neg (by simp [heq])]
      exact ⟨count, rfl, hpos, hle, hnone, fun _ ↦ heq⟩
    · rw [if_pos ⟨heq, hlt⟩]
      have hdrop : dropIndex ((i - count) % winSize) = (i - (count + 1)) % winSize := by
        have hsucc : i - count = i - (count + 1) + 1 := by omega
        rw [hsucc, dropIndex_succ_mod]
      rw [hdrop]
      refine ih (by omega) hlt (fun d hd hd' ↦ ?_) (by omega)
      by_cases hcase : d = count
      · rw [hcase]
        exact heq
      · exact hnone d hd (by omega)

end Compressor

namespace Search

/-- What a search that starts at the index `p` knows once `k` bytes are read. -/
structure Knows (infile : List UInt8) (out : Output) (p k : ℕ) (S : Search) : Prop where
  low : winSize ≤ p
  room : p + 3 ≤ textLength infile
  out : S.comp.out = out
  savePos : S.savePos = p % winSize
  oldchars0 : S.oldchars0 = text infile (p + 1 - winSize)
  oldchars1 : 2 ≤ k → S.oldchars1 = text infile (p + 2 - winSize)
  oldchars2 : S.oldchars2 = text infile (p + k - winSize)

/-- The search stands at the last of the `k` bytes. -/
structure Settled (infile : List UInt8) (out : Output) (p k : ℕ) (S : Search) : Prop
    extends Knows infile out p k S where
  pos : 1 ≤ k
  comp : S.comp.At infile (p + k - 1)
  ch : S.ch = none ↔ p + k = textLength infile

/-- The search has read one byte more. -/
structure Peeked (infile : List UInt8) (out : Output) (p k : ℕ) (S : Search) : Prop
    extends Knows infile out p k S where
  pos : 1 ≤ k
  comp : S.comp.At infile (p + k)
  ch : S.ch = some (text infile (p + k))

variable {infile : List UInt8} {out : Output} {p k : ℕ} {S : Search}

/-- Reading on from a byte that is not the last one. -/
theorem Settled.readNext (h : S.Settled infile out p k) (hch : S.ch ≠ none) :
    (S.readNext infile).Peeked infile out p k := by
  have hpos := h.pos
  have hindex : p + k - 1 + 1 = p + k := by omega
  have hroom : p + k - 1 + 1 < textLength infile := by
    have hhigh := h.comp.high
    have hne : p + k ≠ textLength infile := fun heq ↦ hch (h.ch.mpr heq)
    omega
  obtain ⟨s', hget, hat, hout⟩ := h.comp.getNextChar_some hroom
  rw [hindex] at hget hat
  refine ⟨⟨h.low, h.room, ?_, h.savePos, h.oldchars0, h.oldchars1, h.oldchars2⟩, hpos, ?_, ?_⟩
  · rw [Search.readNext, hget]
    exact hout.trans h.out
  · rw [Search.readNext, hget]
    exact hat
  · rw [Search.readNext, hget]

theorem Peeked.unread (h : S.Peeked infile out p k) : S.unread.Settled infile out p k := by
  have hpos := h.pos
  have hlow := h.low
  have hcomp := h.comp
  have hindex : p + k - 1 + 1 = p + k := by omega
  rw [← hindex] at hcomp
  have hback := hcomp.unreadChar (by omega)
  rw [hindex, ← h.oldchars2] at hback
  refine ⟨⟨h.low, h.room, h.out, h.savePos, h.oldchars0, h.oldchars1, h.oldchars2⟩, hpos, hback, ?_⟩
  have hhigh := h.comp.high
  show S.ch = none ↔ _
  rw [h.ch]
  constructor
  · intro hnone
    exact absurd hnone (Option.some_ne_none _)
  · intro heq
    omega

/-- With the byte read ahead taken as known, the search reads on. -/
theorem Peeked.advance (h : S.Peeked infile out p k) {S' : Search} (hcomp : S'.comp = S.comp)
    (hsave : S'.savePos = S.savePos) (hold0 : S'.oldchars0 = S.oldchars0)
    (hold1 : S'.oldchars1 = if k = 1 then S.comp.nextOld else S.oldchars1)
    (hold2 : S'.oldchars2 = S.comp.nextOld) : S'.Knows infile out p (k + 1) := by
  have hpos := h.pos
  have hlow := h.low
  have hnext := h.comp.nextOld
  refine ⟨h.low, h.room, hcomp ▸ h.out, hsave.trans h.savePos, hold0.trans h.oldchars0,
    fun htwo ↦ ?_, hold2.trans hnext⟩
  rw [hold1]
  by_cases hone : k = 1
  · rw [if_pos hone, hnext, hone]
  · rw [if_neg hone]
    exact h.oldchars1 (by omega)

end Search

end MicroFramework.Compression
