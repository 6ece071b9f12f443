import MicroFramework.Compression.Lookahead

/-!
# The search for the best match

Whatever candidates the search looks at, it leaves the window and the input as its best match
needs them.  The best match repeats the text as long as the candidates come from the part of the
window that has not been read over.
-/

namespace MicroFramework.Compression

open Library

namespace Search

structure Searching (infile : List UInt8) (out : Output) (p : ℕ) (S : Search) : Prop
    extends Settled infile out p S.bestcount S where
  bestcount : S.bestcount ≤ maxLen
  bestoffset : S.bestoffset < winSize
  shifter : S.shifter < winSize

/-- The best match repeats the text. -/
def Valid (infile : List UInt8) (p : ℕ) (S : Search) : Prop :=
  Repeats infile (source (p - winSize) S.bestoffset) p S.bestcount

variable {infile : List UInt8} {out : Output} {p q k : ℕ} {S : Search}

theorem source_eq (hlow : winSize ≤ p) (hlt : q < p) (hnear : p ≤ q + winSize) :
    source (p - winSize) (q % winSize) = q := by
  unfold source winSize at *
  omega

theorem repeats_concat {i j n : ℕ} (h : Repeats infile i j n)
    (hnext : text infile (i + n) = text infile (j + n)) : Repeats infile i j (n + 1) := by
  intro c hc
  by_cases hlast : c = n
  · rw [hlast]
    exact hnext
  · exact h c (by omega)

section First

/-- Where the loop that extends the first match ends: at the end of the input, or with one byte
read that the match does not have. -/
structure Extended (infile : List UInt8) (out : Output) (p q offset : ℕ) (S : Search) : Prop where
  offset : S.offset = offset
  count : S.count ≤ maxLen
  repeats : Repeats infile q p S.count
  ending : S.Settled infile out p S.count ∧ S.ch = none ∨
    S.Peeked infile out p S.count ∧
      (S.ch ≠ some (S.comp.window S.shifter) ∨ S.count = maxLen) ∧
      (text infile (q + S.count) ≠ text infile (p + S.count) ∨ S.count = maxLen)

theorem extendLoop_spec (hq : q < p) (hnear : p < q + winSize)
    (hknows : S.Knows infile out p S.count) (hpos : 1 ≤ S.count) (hcount : S.count ≤ maxLen)
    (hcomp : S.comp.At infile (p + S.count - 1)) (hshifter : S.shifter = (q + S.count) % winSize)
    (hrepeats : Repeats infile q p S.count) :
    (S.extendLoop infile).Extended infile out p q S.offset := by
  induction hn : maxLen - S.count using Nat.strong_induction_on generalizing S with
  | _ n ih =>
    have hindex : p + S.count - 1 + 1 = p + S.count := by omega
    by_cases hend : p + S.count = textLength infile
    · -- the input ends here
      have hget := hcomp.getNextChar_none (hindex.trans hend)
      have hread : S.readNext infile = { S with ch := none } := by rw [readNext, hget]
      rw [extendLoop, hread, if_neg (by simp)]
      exact ⟨rfl, hcount, hrepeats, .inl ⟨⟨⟨hknows.low, hknows.room, hknows.out, hknows.savePos,
        hknows.oldchars0, hknows.oldchars1, hknows.oldchars2⟩, hpos, hcomp, by simp [hend]⟩, rfl⟩⟩
    · have hhigh := hcomp.high
      obtain ⟨s', hget, hat, hout⟩ := hcomp.getNextChar_some (by omega)
      rw [hindex] at hget hat
      have hread : S.readNext infile =
          { S with ch := some (text infile (p + S.count)), comp := s' } := by
        rw [readNext, hget]
      have hpeeked : (S.readNext infile).Peeked infile out p S.count := by
        rw [hread]
        exact ⟨⟨hknows.low, hknows.room, hout.trans hknows.out, hknows.savePos, hknows.oldchars0,
          hknows.oldchars1, hknows.oldchars2⟩, hpos, hat, rfl⟩
      have hwindow : s'.window S.shifter = text infile (q + S.count) := by
        rw [hshifter]
        exact hat.read (by omega) (by omega)
      rw [extendLoop]
      by_cases hsame : text infile (q + S.count) = text infile (p + S.count) ∧ S.count < maxLen
      · rw [if_pos ⟨by rw [hread, hwindow, hsame.1], hsame.2⟩]
        have hbody : (S.readNext infile).extendBody.Knows infile out p (S.count + 1) := by
          refine hpeeked.advance rfl rfl rfl ?_ rfl
          rw [hread]
          show (if S.count + 1 = 2 then _ else _) = if S.count = 1 then _ else _
          by_cases hone : S.count = 1
          · rw [if_pos hone, if_pos (by omega)]
          · rw [if_neg hone, if_neg (by omega)]
        have hcount' : (S.readNext infile).extendBody.count = S.count + 1 := rfl
        refine ih (maxLen - (S.count + 1)) (by omega) (S := (S.readNext infile).extendBody) ?_ ?_ ?_ ?_
          ?_ ?_ rfl
        · exact hbody
        · exact Nat.succ_pos _
        · exact hsame.2
        · rw [hcount', hread]
          exact hat
        · rw [hcount', ← Nat.add_assoc, ← addIndex_mod, ← hshifter]
          rfl
        · exact repeats_concat hrepeats hsame.1
      · rw [if_neg (by rw [hread, hwindow, Option.some_inj]; exact fun h ↦ hsame ⟨h.1.symm, h.2⟩)]
        have hstop : text infile (q + S.count) ≠ text infile (p + S.count) ∨ S.count = maxLen := by
          by_cases heq : text infile (q + S.count) = text infile (p + S.count)
          · refine .inr ?_
            have hnot : ¬ S.count < maxLen := fun hlt ↦ hsame ⟨heq, hlt⟩
            omega
          · exact .inl heq
        have hcount' : (S.readNext infile).count = S.count := by rw [hread]
        refine ⟨by rw [hread], by rw [hcount']; exact hcount, by rw [hcount']; exact hrepeats, .inr ?_⟩
        rw [hcount']
        refine ⟨hpeeked, hstop.imp (fun hne ↦ ?_) id, hstop⟩
        rw [hread]
        show some _ ≠ some (s'.window S.shifter)
        rw [hwindow, Ne, Option.some_inj]
        exact hne.symm

/-- The first match is the longest one at its place, and the search goes on below it. -/
theorem firstMatch_spec {s : Compressor} (hat : s.At infile p) (hlow : winSize ≤ p)
    (hroom : p + 3 ≤ textLength infile) (hq : q < p) (hnear : p < q + winSize)
    (hsame : text infile q = text infile p) (hout : s.out = out) (ch : Option UInt8) :
    ∃ S, firstMatch infile s ch (q % winSize) = S ∧ S.Searching infile out p ∧
      S.Valid infile p ∧ S.shifter = dropIndex (q % winSize) ∧ S.bestoffset = q % winSize ∧
      (p + S.bestcount = textLength infile ∨
        text infile (q + S.bestcount) ≠ text infile (p + S.bestcount) ∨ S.bestcount = maxLen) := by
  refine ⟨_, rfl, ?_⟩
  have hmod : q % winSize < winSize := Nat.mod_lt _ (by decide)
  have hold := hat.nextOld
  have hone : Repeats infile q p 1 := repeats_concat (repeats_zero infile q p) hsame
  set S₀ : Search :=
    { comp := s
      ch := ch
      oldchars0 := s.nextOld
      oldchars1 := 0
      oldchars2 := s.nextOld
      savePos := s.currPos
      count := 1
      offset := q % winSize
      shifter := addIndex (q % winSize)
      newPos := 0
      bestcount := 0
      bestoffset := 0 } with hS₀
  have hextended : (S₀.extendLoop infile).Extended infile out p q (q % winSize) := by
    refine extendLoop_spec (S := S₀) hq hnear ⟨hlow, hroom, hout, hat.currPos, hold, fun h ↦ ?_, hold⟩
      (Nat.le_refl 1) (by decide : 1 ≤ maxLen) hat addIndex_mod hone
    have h' : 2 ≤ 1 := h
    omega
  have hfirst : firstMatch infile s ch (q % winSize) =
      { (if (S₀.extendLoop infile).ch ≠ none ∧ ((S₀.extendLoop infile).ch ≠
            some ((S₀.extendLoop infile).comp.window (S₀.extendLoop infile).shifter) ∨
              (S₀.extendLoop infile).count = maxLen) then
          ({ S₀.extendLoop infile with
            bestcount := (S₀.extendLoop infile).count
            bestoffset := (S₀.extendLoop infile).offset } : Search).unread
        else
          { S₀.extendLoop infile with
            bestcount := (S₀.extendLoop infile).count
            bestoffset := (S₀.extendLoop infile).offset }) with
        shifter := dropIndex (S₀.extendLoop infile).offset } := by
    rw [firstMatch]
    split <;> rfl
  rw [hfirst]
  generalize S₀.extendLoop infile = R at hextended
  obtain ⟨hoffset, hcount, hrepeats, hending⟩ := hextended
  rw [hoffset]
  have hsource : source (p - winSize) (q % winSize) = q := source_eq hlow hq (by omega)
  rcases hending with ⟨hsettled, hnone⟩ | ⟨hpeeked, hcell, hstop⟩
  · rw [if_neg (by simp [hnone])]
    refine ⟨⟨⟨⟨hlow, hroom, hsettled.out, hsettled.savePos, hsettled.oldchars0, hsettled.oldchars1,
      hsettled.oldchars2⟩, hsettled.pos, hsettled.comp, hsettled.ch⟩, hcount, hmod,
      dropIndex_lt hmod⟩, ?_, rfl, rfl, .inl (hsettled.ch.mp hnone)⟩
    rw [Valid, hsource]
    exact hrepeats
  · have hsettled := hpeeked.unread
    rw [if_pos ⟨by simp [hpeeked.ch], hcell⟩]
    refine ⟨⟨⟨⟨hlow, hroom, hsettled.out, hsettled.savePos, hsettled.oldchars0, hsettled.oldchars1,
      hsettled.oldchars2⟩, hsettled.pos, hsettled.comp, hsettled.ch⟩, hcount, hmod,
      dropIndex_lt hmod⟩, ?_, rfl, rfl, .inr hstop⟩
    show Repeats infile (source (p - winSize) (q % winSize)) p R.count
    rw [hsource]
    exact hrepeats

end First

section Candidate

inductive Comparing (infile : List UInt8) (out : Output) (p : ℕ) (S : Search) : Prop
  | inside (hlt : S.count < S.bestcount) (h : S.Settled infile out p S.bestcount)
  | beyond (hle : S.bestcount ≤ S.count) (h : S.Peeked infile out p S.count)
  | atEnd (hlt : S.bestcount < S.count) (h : S.Settled infile out p S.count) (hnone : S.ch = none)

/-- What comparing leaves alone, and what it says about a candidate that is not read over. -/
structure Compared (infile : List UInt8) (out : Output) (p : ℕ) (S R : Search) : Prop where
  comparing : R.Comparing infile out p
  count : R.count ≤ maxLen
  bestcount : R.bestcount = S.bestcount
  bestoffset : R.bestoffset = S.bestoffset
  offset : R.offset = S.offset
  ending : R.ch = none ∨ R.comp.window R.shifter ≠ R.comp.window R.newPos ∨ R.count = maxLen
  repeats : ∀ q, q < p → p + S.bestcount ≤ q + winSize → S.shifter = (q + S.count) % winSize →
    Repeats infile q p S.count → Repeats infile q p R.count
  self : S.shifter = S.newPos → S.ch ≠ none → R.ch = none ∨ R.count = maxLen

theorem Comparing.at (h : S.Comparing infile out p) (hch : S.ch ≠ none) :
    ∃ i, S.comp.At infile i ∧ p + S.count ≤ i ∧ (i < p + S.bestcount ∨ i = p + S.count) := by
  cases h with
  | inside hlt h =>
    have hpos := h.pos
    exact ⟨_, h.comp, by omega, by omega⟩
  | beyond hle h => exact ⟨_, h.comp, Nat.le_refl _, .inr rfl⟩
  | atEnd hlt h hnone => exact absurd hnone hch

/-- One byte more is equal. -/
theorem Comparing.body (h : S.Comparing infile out p) (hch : S.ch ≠ none) (hpos : 1 ≤ S.bestcount) :
    (S.compareBody infile).Comparing infile out p := by
  unfold compareBody
  cases h with
  | inside hlt h =>
    by_cases hread : S.bestcount - 1 ≤ S.count
    · -- the best match's bytes are used up
      simp only [if_pos hread]
      have hindex : p + S.bestcount - 1 + 1 - winSize = p + S.bestcount - winSize := by omega
      have hnext : S.comp.nextOld = text infile (p + S.bestcount - winSize) := by
        rw [h.comp.nextOld, hindex]
      set S₁ : Search :=
        { S with
          oldchars1 := if S.count = 1 then S.comp.nextOld else S.oldchars1
          oldchars2 := S.comp.nextOld } with hS₁
      have hsettled : S₁.Settled infile out p S.bestcount := by
        refine ⟨⟨h.low, h.room, h.out, h.savePos, h.oldchars0, fun htwo ↦ ?_, hnext⟩, h.pos, h.comp,
          h.ch⟩
        show (if S.count = 1 then S.comp.nextOld else S.oldchars1) = _
        by_cases hone : S.count = 1
        · have htwo' : S.bestcount = 2 := by omega
          rw [if_pos hone, hnext, htwo']
        · rw [if_neg hone]
          exact h.oldchars1 htwo
      have hpeeked := hsettled.readNext hch
      have hcount : S.count + 1 = S.bestcount := by omega
      refine .beyond (by show S.bestcount ≤ S.count + 1; omega) ?_
      show Search.Peeked infile out p (S.count + 1) _
      rw [hcount]
      exact ⟨⟨h.low, h.room, hpeeked.out, h.savePos, h.oldchars0, hpeeked.oldchars1,
        hpeeked.oldchars2⟩, h.pos, hpeeked.comp, hpeeked.ch⟩
    · simp only [if_neg hread]
      refine .inside (by show S.count + 1 < S.bestcount; omega) ?_
      exact ⟨⟨h.low, h.room, h.out, h.savePos, h.oldchars0, h.oldchars1, h.oldchars2⟩, h.pos, h.comp,
        h.ch⟩
  | beyond hle h =>
    have hread : S.bestcount - 1 ≤ S.count := by omega
    simp only [if_pos hread]
    set S₁ : Search :=
      { S with
        oldchars1 := if S.count = 1 then S.comp.nextOld else S.oldchars1
        oldchars2 := S.comp.nextOld } with hS₁
    have hknows : S₁.Knows infile out p (S.count + 1) := h.advance rfl rfl rfl rfl rfl
    have hhigh := h.comp.high
    by_cases hend : p + S.count + 1 = textLength infile
    · have hget : S₁.comp.getNextChar infile = (none, S₁.comp) := h.comp.getNextChar_none hend
      have hnext : S₁.readNext infile = { S₁ with ch := none } := by rw [readNext, hget]
      rw [hnext]
      refine .atEnd (by show S.bestcount < S.count + 1; omega) ?_ rfl
      exact ⟨⟨h.low, h.room, h.out, h.savePos, h.oldchars0, hknows.oldchars1, hknows.oldchars2⟩,
        Nat.succ_pos _, h.comp, iff_of_true rfl hend⟩
    · obtain ⟨s', hget, hat, hout⟩ := h.comp.getNextChar_some (by omega)
      have hget' : S₁.comp.getNextChar infile = (some (text infile (p + S.count + 1)), s') := hget
      have hnext : S₁.readNext infile =
          { S₁ with ch := some (text infile (p + S.count + 1)), comp := s' } := by
        rw [readNext, hget']
      rw [hnext]
      refine .beyond (by show S.bestcount ≤ S.count + 1; omega) ?_
      exact ⟨⟨h.low, h.room, hout.trans h.out, h.savePos, h.oldchars0, hknows.oldchars1,
        hknows.oldchars2⟩, Nat.succ_pos _, hat, rfl⟩
  | atEnd hlt h hnone => exact absurd hnone hch

theorem compareBody_fields (S : Search) : (S.compareBody infile).count = S.count + 1 ∧
    (S.compareBody infile).bestcount = S.bestcount ∧
    (S.compareBody infile).bestoffset = S.bestoffset ∧ (S.compareBody infile).offset = S.offset ∧
    (S.compareBody infile).shifter = addIndex S.shifter ∧
    (S.compareBody infile).newPos = addIndex S.newPos := by
  unfold compareBody
  split
  · exact ⟨rfl, rfl, rfl, rfl, rfl, rfl⟩
  · exact ⟨rfl, rfl, rfl, rfl, rfl, rfl⟩

theorem compareLoop_spec (h : S.Comparing infile out p) (hpos : 1 ≤ S.bestcount)
    (hcount : S.count ≤ maxLen) (hnew : S.newPos = (p + S.count) % winSize) :
    S.Compared infile out p (S.compareLoop infile) := by
  induction hn : maxLen - S.count using Nat.strong_induction_on generalizing S with
  | _ n ih =>
    rw [compareLoop]
    by_cases hgo : S.ch ≠ none ∧ S.comp.window S.shifter = S.comp.window S.newPos ∧ S.count < maxLen
    · rw [if_pos hgo]
      obtain ⟨hch, hequal, hlt⟩ := hgo
      obtain ⟨hc, hbest, hbestoffset, hoffset, hshifter, hnewPos⟩ := @compareBody_fields infile S
      have hbody := ih (maxLen - (S.count + 1)) (by omega) (h.body hch hpos) (by omega) (by omega)
        (by rw [hnewPos, hc, hnew, addIndex_mod, Nat.add_assoc]) (by rw [hc])
      refine ⟨hbody.comparing, hbody.count, hbody.bestcount.trans hbest,
        hbody.bestoffset.trans hbestoffset, hbody.offset.trans hoffset, hbody.ending,
        fun q hq hfree hshift hrep ↦ ?_, fun hself _ ↦ ?_⟩
      · have hpos' := hpos
        obtain ⟨i, hat, hle, hnear⟩ := h.at hch
        have hthere : S.comp.window S.shifter = text infile (q + S.count) := by
          rw [hshift]
          exact hat.read (by omega) (by omega)
        have hhere : S.comp.window S.newPos = text infile (p + S.count) := by
          rw [hnew]
          refine hat.read hle ?_
          unfold maxLen winSize at *
          omega
        refine hbody.repeats q hq (by rw [hbest]; exact hfree) ?_ ?_
        · rw [hshifter, hc, hshift, addIndex_mod, Nat.add_assoc]
        · rw [hc]
          exact repeats_concat hrep (hthere.symm.trans (hequal.trans hhere))
      · by_cases hnone : (S.compareBody infile).ch = none
        · rw [compareLoop, if_neg fun hgo ↦ hgo.1 hnone]
          exact .inl hnone
        · exact hbody.self (by rw [hshifter, hnewPos, hself]) hnone
    · rw [if_neg hgo]
      refine ⟨h, hcount, rfl, rfl, rfl, ?_, fun q _ _ _ hrep ↦ hrep, fun hself hch ↦ ?_⟩
      · by_cases hch : S.ch = none
        · exact .inl hch
        · by_cases hequal : S.comp.window S.shifter = S.comp.window S.newPos
          · exact .inr (.inr (by
              have hnot : ¬ S.count < maxLen := fun hlt ↦ hgo ⟨hch, hequal, hlt⟩
              omega))
          · exact .inr (.inl hequal)
      · refine .inr ?_
        have hnot : ¬ S.count < maxLen := fun hlt ↦ hgo ⟨hch, by rw [hself], hlt⟩
        omega

theorem Compared.settle {R : Search} (h : S.Compared infile out p R) (hmax : S.bestcount ≤ maxLen) :
    R.settle.Settled infile out p (max S.bestcount R.count) := by
  unfold Search.settle
  have hending := h.ending
  rw [← h.bestcount] at hmax ⊢
  cases h.comparing with
  | inside hlt hsettled =>
    have hbest : max R.bestcount R.count = R.bestcount := by omega
    rw [hbest, if_neg]
    · exact hsettled
    · rintro ⟨-, hfull | ⟨-, hle⟩⟩
      · omega
      · omega
  | beyond hle hpeeked =>
    have hbest : max R.bestcount R.count = R.count := by omega
    have hcount := h.count
    rw [hbest, if_pos]
    · exact hpeeked.unread
    · have hch : R.ch ≠ none := by simp [hpeeked.ch]
      refine ⟨hch, ?_⟩
      rcases hending with hnone | hdiffer | hfull
      · exact absurd hnone hch
      · exact .inr ⟨hdiffer, hle⟩
      · exact .inl hfull.ge
  | atEnd hlt hsettled hnone =>
    have hbest : max R.bestcount R.count = R.count := by omega
    rw [hbest, if_neg fun hput ↦ hput.1 hnone]
    exact hsettled

theorem settle_fields (S : Search) : S.settle.count = S.count ∧
    S.settle.bestcount = S.bestcount ∧ S.settle.bestoffset = S.bestoffset ∧
    S.settle.offset = S.offset ∧ S.settle.ch = S.ch := by
  unfold Search.settle
  split <;> exact ⟨rfl, rfl, rfl, rfl, rfl⟩

theorem improve_eq (S : Search) : S.improve =
    { S with
      bestcount := max S.bestcount S.count
      bestoffset := if S.bestcount < S.count then S.offset else S.bestoffset } := by
  unfold Search.improve
  by_cases h : S.bestcount < S.count
  · rw [if_pos h, if_pos h, Nat.max_eq_right (Nat.le_of_lt h)]
  · rw [if_neg h, if_neg h, Nat.max_eq_left (by omega)]

/-- A candidate's turn ends with the better of the two matches. -/
theorem candidate_spec (h : S.Searching infile out p) (hroom : S.bestcount < maxLen) :
    (S.candidate infile).Searching infile out p ∧
      (S.candidate infile).shifter = dropIndex S.shifter ∧
      (∀ q, q < p → p + S.bestcount ≤ q + winSize → S.shifter = q % winSize →
        S.Valid infile p → (S.candidate infile).Valid infile p) ∧
      (S.ch = none → (S.candidate infile).ch = none ∧
        (S.candidate infile).comp.currPos = S.comp.currPos) ∧
      (S.shifter = S.savePos → S.ch ≠ none → (S.candidate infile).ch = none ∨
        (S.candidate infile).bestcount = maxLen) ∧
      ((S.candidate infile).bestoffset = S.bestoffset ∨
        (S.candidate infile).bestoffset = S.shifter) := by
  set S₀ : Search := { S with count := 0, offset := S.shifter, newPos := S.savePos } with hS₀
  have hpos := h.pos
  have hcomparing : S₀.Comparing infile out p := by
    refine .inside hpos ?_
    exact ⟨⟨h.low, h.room, h.out, h.savePos, h.oldchars0, h.oldchars1, h.oldchars2⟩, h.pos, h.comp,
      h.ch⟩
  have hcompared := compareLoop_spec hcomparing hpos (Nat.zero_le _) h.savePos
  have hstay : S.ch = none → S₀.compareLoop infile = S₀ := fun hnone ↦ by
    rw [compareLoop, if_neg fun hgo ↦ hgo.1 hnone]
  have hself : S.shifter = S.savePos → S.ch ≠ none → _ := hcompared.self
  set R := S₀.compareLoop infile with hR
  obtain ⟨hcount, hbest, hbestoffset, hoffset, hch⟩ := settle_fields R
  have hbestR : R.bestcount = S.bestcount := hcompared.bestcount
  have hcountR := hcompared.count
  have hsettled := hcompared.settle (Nat.le_of_lt hroom)
  have hoffsetR : R.offset = S.shifter := hcompared.offset
  have hbestoffsetR : R.bestoffset = S.bestoffset := hcompared.bestoffset
  rw [hbestR] at hbest
  rw [hoffsetR] at hoffset
  rw [hbestoffsetR] at hbestoffset
  have hcandidate : S.candidate infile =
      { R.settle with
        bestcount := max S.bestcount R.count
        bestoffset := if S.bestcount < R.count then S.shifter else S.bestoffset
        shifter := dropIndex S.shifter } := by
    rw [candidate, ← hS₀, ← hR, improve_eq]
    simp only [hcount, hbest, hbestoffset, hoffset]
  rw [hcandidate]
  refine ⟨?_, rfl, fun q hq hfree hshift hvalid ↦ ?_, fun hnone ↦ ?_, fun hshift hsome ↦ ?_, ?_⟩
  · refine ⟨⟨⟨h.low, h.room, hsettled.out, hsettled.savePos, hsettled.oldchars0, hsettled.oldchars1,
      hsettled.oldchars2⟩, hsettled.pos, hsettled.comp, hsettled.ch⟩, ?_, ?_, dropIndex_lt h.shifter⟩
    · show max S.bestcount R.count ≤ maxLen
      omega
    · show (if S.bestcount < R.count then S.shifter else S.bestoffset) < winSize
      have hlt := h.shifter
      have hlt' := h.bestoffset
      split <;> omega
  · show Repeats infile (source (p - winSize) (if S.bestcount < R.count then S.shifter else
      S.bestoffset)) p (max S.bestcount R.count)
    by_cases hbetter : S.bestcount < R.count
    · have hrepeats := hcompared.repeats q hq hfree hshift (repeats_zero infile q p)
      rw [if_pos hbetter, Nat.max_eq_right (Nat.le_of_lt hbetter), hshift,
        source_eq h.low hq (by omega)]
      exact hrepeats
    · rw [if_neg hbetter, Nat.max_eq_left (by omega)]
      exact hvalid
  · have hR₀ := hstay hnone
    have hunput : R.settle = R := if_neg fun hput ↦ hput.1 (by rw [hR₀]; exact hnone)
    rw [hunput, hR₀]
    exact ⟨hnone, rfl⟩
  · show R.settle.ch = none ∨ max S.bestcount R.count = maxLen
    rw [hch]
    refine (hself hshift hsome).imp id fun hfull ↦ ?_
    rw [hfull]
    omega
  · show (if S.bestcount < R.count then S.shifter else S.bestoffset) = _ ∨
      (if S.bestcount < R.count then S.shifter else S.bestoffset) = _
    split
    · exact .inr rfl
    · exact .inl rfl

end Candidate

section Skip

/-- How many drops lead from one window index to another. -/
def drops (i j : ℕ) : ℕ :=
  (i + winSize - j) % winSize

theorem drops_dropIndex {i j : ℕ} (hi : i < winSize) (hj : j < winSize) (hne : i ≠ j) :
    drops (dropIndex i) j + 1 = drops i j := by
  unfold drops dropIndex winSize at *
  split <;> omega

theorem drops_eq_zero {i j : ℕ} (hi : i < winSize) (hj : j < winSize) (h : drops i j = 0) :
    i = j := by
  unfold drops winSize at *
  omega

/-- Skipping ends at `m_currPos` or at an equal byte, and passes neither `m_currPos` nor
`savePos`. -/
theorem skip_spec (hcurrent : S.comp.currPos < winSize) (hsave : S.savePos < winSize) {turns r : ℕ}
    (hr : r < winSize) (hturns : drops r S.comp.currPos ≤ turns) :
    S.skip turns r < winSize ∧
      (∃ j, j + drops (S.skip turns r) S.comp.currPos = drops r S.comp.currPos ∧
        j + drops (S.skip turns r) S.savePos = drops r S.savePos) ∧
      (S.skip turns r = S.comp.currPos ∨
        S.comp.window (S.skip turns r) = S.comp.window S.savePos) := by
  induction turns generalizing r with
  | zero =>
    rw [skip]
    exact ⟨hr, ⟨0, Nat.zero_add _, Nat.zero_add _⟩,
      .inl (drops_eq_zero hr hcurrent (Nat.le_zero.mp hturns))⟩
  | succ turns ih =>
    rw [skip]
    by_cases hgo : r ≠ S.comp.currPos ∧ S.comp.window r ≠ S.comp.window S.savePos
    · rw [if_pos hgo]
      have hdrop := drops_dropIndex hr hcurrent hgo.1
      have hdropSave := drops_dropIndex hr hsave fun heq ↦ hgo.2 (by rw [heq])
      obtain ⟨hlt, ⟨j, hj, hjSave⟩, hend⟩ := ih (dropIndex_lt hr) (by omega)
      exact ⟨hlt, ⟨j + 1, by omega, by omega⟩, hend⟩
    · rw [if_neg hgo]
      refine ⟨hr, ⟨0, Nat.zero_add _, Nat.zero_add _⟩, ?_⟩
      by_cases heq : r = S.comp.currPos
      · exact .inl heq
      · refine .inr ?_
        by_contra hne
        exact hgo ⟨heq, hne⟩

end Skip

section Finish

/-- The main loop goes on at the index `i` of the text. -/
def ReadsAt (infile : List UInt8) (i : ℕ) (ch : Option UInt8) (s : Compressor) : Prop :=
  (ch = some (text infile i) ∧ s.At infile i) ∨ (ch = none ∧ i = textLength infile)

theorem readsAt_next {s : Compressor} {i : ℕ} (h : s.At infile i) :
    ReadsAt infile (i + 1) (s.getNextChar infile).1 (s.getNextChar infile).2 ∧
      (s.getNextChar infile).2.out = s.out := by
  have hhigh := h.high
  by_cases hend : i + 1 = textLength infile
  · rw [h.getNextChar_none hend]
    exact ⟨.inr ⟨rfl, hend⟩, rfl⟩
  · obtain ⟨s', hget, hat, hout⟩ := h.getNextChar_some (by omega)
    rw [hget]
    exact ⟨.inl ⟨rfl, hat⟩, hout⟩

/-- A single byte is written, and the compressor stands at the start of the search again. -/
theorem writeByte_spec (h : S.Peeked infile out p S.bestcount) (hshort : S.bestcount < 3) :
    S.writeByte.At infile p ∧ S.writeByte.out = out.saveUncompByte (text infile p) := by
  have hlow := h.low
  have hroom := h.room
  have hpos := h.pos
  have hcomp := h.comp
  have hcurrent := hcomp.currPos
  have hinfile := hcomp.infilePos
  have hout := h.out
  have hread : S.comp.window S.savePos = text infile p := by
    rw [h.savePos]
    exact hcomp.read (by omega) (by unfold winSize; omega)
  have hadd : addIndex S.savePos = (p + 1) % winSize := by rw [h.savePos, addIndex_mod]
  by_cases htwo : S.bestcount = 2
  · rw [htwo] at hcomp hcurrent hinfile
    have hadd' : addIndex (addIndex S.savePos) = (p + 2) % winSize := by rw [hadd, addIndex_mod]
    have hdrop : dropIndex (dropIndex S.comp.currPos) = p % winSize := by
      rw [hcurrent, dropIndex_succ_mod, dropIndex_succ_mod]
    rw [writeByte, if_pos htwo]
    refine ⟨⟨by omega, by omega, hdrop, ?_, ?_⟩, by rw [← hout, ← hread]⟩
    · show S.comp.infilePos - S.bestcount + (winSize - 1) = p
      unfold winSize at *
      omega
    · show Shows winSize (Function.update (Function.update S.comp.window (addIndex S.savePos)
        S.oldchars0) (addIndex (addIndex S.savePos)) S.oldchars1) (text infile) p
      have hne : (p + 1) % winSize ≠ (p + 2) % winSize := cell_ne (by omega) (by unfold winSize; omega)
      have hback := (hcomp.window.unwrite (by omega)).unwrite (by omega)
      rw [hadd', hadd, h.oldchars0, h.oldchars1 (by omega), Function.update_comm hne]
      exact hback
  · have hone : S.bestcount = 1 := by omega
    rw [hone] at hcomp hcurrent hinfile
    have hdrop : dropIndex S.comp.currPos = p % winSize := by rw [hcurrent, dropIndex_succ_mod]
    rw [writeByte, if_neg htwo]
    refine ⟨⟨by omega, by omega, hdrop, ?_, ?_⟩, by rw [← hout, ← hread]⟩
    · show S.comp.infilePos - S.bestcount + (winSize - 1) = p
      unfold winSize at *
      omega
    · show Shows winSize (Function.update S.comp.window (addIndex S.savePos) S.oldchars0)
        (text infile) p
      rw [hadd, h.oldchars0]
      exact hcomp.window.unwrite (by omega)

def result (infile : List UInt8) (p : ℕ) (S : Search) : Item :=
  if S.bestcount < 3 then .byte (text infile p) else .code S.bestcount S.bestoffset

theorem result_fits (h : S.Searching infile out p) : (S.result infile p).Fits := by
  unfold result
  split
  · exact trivial
  · exact ⟨by omega, h.bestcount, h.bestoffset⟩

theorem finish_spec (h : S.Searching infile out p) {items : List Item} (hwrites : out.Writes items) :
    ReadsAt infile (p + (S.result infile p).length) (S.finish infile).1 (S.finish infile).2 ∧
      (S.finish infile).2.out.Writes (items ++ [S.result infile p]) := by
  have hroom := h.room
  by_cases hch : S.ch = none
  · -- the match reaches the end of the input
    have hend := h.ch.mp hch
    have hlong : ¬ S.bestcount < 3 := by omega
    have hfinish : S.finish infile = (none, S.writeMatch) := by simp [finish, hch, hlong]
    have hmatch : S.writeMatch =
        { S.comp with out := S.comp.out.saveCode S.bestcount S.bestoffset } := by
      simp [writeMatch, hch]
    rw [hfinish, hmatch, result, if_neg hlong, h.out]
    exact ⟨.inr ⟨rfl, hend⟩, hwrites.code S.bestcount S.bestoffset⟩
  · have hpeeked := h.readNext hch
    have hsome : (S.readNext infile).ch ≠ none := by simp [hpeeked.ch]
    have hbest : (S.readNext infile).bestcount = S.bestcount := rfl
    have hfinish : S.finish infile = (if S.bestcount < 3 then (S.readNext infile).writeByte
        else (S.readNext infile).writeMatch).getNextChar infile := by
      simp only [finish, if_pos hch, hbest, if_pos (show (S.readNext infile).ch ≠ none ∧
        S.bestcount ≤ maxLen from ⟨hsome, h.bestcount⟩)]
    rw [hfinish, result]
    by_cases hshort : S.bestcount < 3
    · obtain ⟨hat, hout⟩ := writeByte_spec (S := S.readNext infile) hpeeked hshort
      obtain ⟨hreads, hsame⟩ := readsAt_next hat
      rw [if_pos hshort, if_pos hshort, hsame, hout]
      exact ⟨hreads, hwrites.byte _⟩
    · have hback := hpeeked.unread.comp
      have hmatch : (S.readNext infile).writeMatch =
          { (S.readNext infile).unread.comp with
            out := out.saveCode S.bestcount S.bestoffset } := by
        rw [writeMatch, if_pos hsome, hpeeked.out]
        rfl
      have hat : ((S.readNext infile).writeMatch).At infile (p + S.bestcount - 1) := by
        rw [hmatch]
        exact ⟨hback.low, hback.high, hback.currPos, hback.infilePos, hback.window⟩
      obtain ⟨hreads, hsame⟩ := readsAt_next hat
      have hpos := h.pos
      have hindex : p + S.bestcount - 1 + 1 = p + S.bestcount := by omega
      rw [if_neg hshort, if_neg hshort, hsame, hmatch]
      rw [hmatch, hindex] at hreads
      exact ⟨hreads, hwrites.code S.bestcount S.bestoffset⟩

end Finish

end Search

end MicroFramework.Compression
