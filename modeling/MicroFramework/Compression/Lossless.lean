import MicroFramework.Compression.MatchSearch
import Mathlib.Data.Prod.Lex
import Mathlib.Order.WellFounded

/-!
# When the compression is lossless

Every run of the compressor ends.  Its output gives the input back if and only if no search ends
with a match that does not repeat the text, and such a match takes a search that goes on into the
bytes it has read ahead: `InBetween` does not see an index below `m_currPos` once that has wrapped.
-/

namespace MicroFramework.Compression

open Library Execution List Nat

namespace Search

def start (S : Search) : ℕ :=
  S.comp.infilePos - S.bestcount + winSize

def Ended (S : Search) : Prop :=
  S.goesOn → S.skip winSize S.shifter = S.comp.currPos

/-- The search goes on at an index it has read over: `m_currPos` has wrapped, and the index is
below it. -/
def Lapped (S : Search) : Prop :=
  S.goesOn ∧ S.comp.currPos < S.savePos ∧ S.shifter < S.comp.currPos

variable {infile : List UInt8} {out : Output} {p : ℕ} {S : Search}

theorem Searching.start_eq (h : S.Searching infile out p) : S.start = p := by
  have hpos := h.pos
  have hlow := h.low
  have hinfile := h.comp.infilePos
  unfold start winSize
  unfold winSize at hinfile hlow
  omega

/-- From outside the bytes read ahead, dropping meets `m_currPos` before `savePos`. -/
theorem drops_outside {current save shifter : ℕ} (hcurrent : current < winSize)
    (hsave : save < winSize) (hshifter : shifter < winSize)
    (hbetween : ¬ inBetween save current shifter) (hnot : ¬ (current < save ∧ shifter < current)) :
    drops shifter save = drops shifter current + drops current save := by
  unfold inBetween at hbetween
  unfold drops winSize at *
  by_cases hwrap : current < save
  · rw [if_pos hwrap] at hbetween
    omega
  · rw [if_neg hwrap] at hbetween
    omega

/-- A candidate that a search finds where it has not read over the window. -/
theorem candidate_free (h : S.Searching infile out p) (hgo : S.goesOn) (hlapped : ¬ S.Lapped)
    (hfound : S.skip winSize S.shifter ≠ S.comp.currPos) :
    ∃ q, q < p ∧ p + S.bestcount ≤ q + winSize ∧ S.skip winSize S.shifter = q % winSize := by
  obtain ⟨hne, hlt, hbetween⟩ := hgo
  have hcurrent := h.comp.currPos
  have hsave := h.savePos
  have hcurrentLt : S.comp.currPos < winSize := hcurrent ▸ mod_lt _ (by decide)
  have hsaveLt : S.savePos < winSize := hsave ▸ mod_lt _ (by decide)
  have hturns : drops S.shifter S.comp.currPos ≤ winSize := Nat.le_of_lt (mod_lt _ (by decide))
  obtain ⟨hr, ⟨j, hj, hjSave⟩, -⟩ := skip_spec hcurrentLt hsaveLt h.shifter hturns
  set r := S.skip winSize S.shifter
  have hnot : ¬ (S.comp.currPos < S.savePos ∧ S.shifter < S.comp.currPos) :=
    fun hlap ↦ hlapped ⟨⟨hne, hlt, hbetween⟩, hlap⟩
  have hstay : drops r S.comp.currPos ≠ 0 := fun hzero ↦ hfound (drops_eq_zero hr hcurrentLt hzero)
  have houtside := drops_outside hcurrentLt hsaveLt h.shifter hbetween hnot
  have hpos := h.pos
  have hlow := h.low
  have hahead : drops S.comp.currPos S.savePos = S.bestcount - 1 := by
    rw [hcurrent, hsave]
    unfold drops
    unfold winSize maxLen at *
    omega
  refine ⟨p - winSize + drops r S.savePos, ?_, by omega, ?_⟩
  · have hless : drops r S.savePos < winSize := mod_lt _ (by decide)
    omega
  · rw [hsave]
    unfold drops
    unfold winSize at *
    omega

/-- How far a search is from its end: at the end of the input it goes down to `m_currPos`, and
before that it goes down to `savePos`, where every byte is equal. -/
def rank (S : Search) : ℕ :=
  if S.goesOn then
    if S.ch = none then 1 + drops S.shifter S.comp.currPos
    else 1 + winSize + drops S.shifter S.savePos
  else 0

theorem rank_le (S : Search) : S.rank ≤ 2 * winSize := by
  have hcurrent : drops S.shifter S.comp.currPos < winSize := mod_lt _ (by decide)
  have hsave : drops S.shifter S.savePos < winSize := mod_lt _ (by decide)
  unfold rank
  split
  · split <;> omega
  · omega

theorem turn_spec (h : S.Searching infile out p) (hgo : S.goesOn)
    (hfound : S.skip winSize S.shifter ≠ S.comp.currPos) :
    ({ S with shifter := S.skip winSize S.shifter }.candidate infile).Searching infile out p ∧
      (S.Valid infile p → ¬ S.Lapped →
        ({ S with shifter := S.skip winSize S.shifter }.candidate infile).Valid infile p) ∧
      ({ S with shifter := S.skip winSize S.shifter }.candidate infile).rank < S.rank := by
  have hcurrentLt : S.comp.currPos < winSize := h.comp.currPos ▸ mod_lt _ (by decide)
  have hsaveLt : S.savePos < winSize := h.savePos ▸ mod_lt _ (by decide)
  have hturns : drops S.shifter S.comp.currPos ≤ winSize := Nat.le_of_lt (mod_lt _ (by decide))
  obtain ⟨hr, ⟨j, hj, hjSave⟩, -⟩ := skip_spec hcurrentLt hsaveLt h.shifter hturns
  have hfree := candidate_free h hgo
  set r := S.skip winSize S.shifter
  have hsearching : ({ S with shifter := r } : Search).Searching infile out p :=
    ⟨⟨⟨h.low, h.room, h.out, h.savePos, h.oldchars0, h.oldchars1, h.oldchars2⟩, h.pos, h.comp, h.ch⟩,
      h.bestcount, h.bestoffset, hr⟩
  obtain ⟨hnext, hshifter, hvalid, hnone, hself, -⟩ := candidate_spec hsearching hgo.2.1
  set S' := ({ S with shifter := r } : Search).candidate infile
  refine ⟨hnext, fun hold hlapped ↦ ?_, ?_⟩
  · obtain ⟨q, hq, hroom, heq⟩ := hfree hlapped hfound
    exact hvalid q hq hroom heq hold
  · have hshifter' : S'.shifter = dropIndex r := hshifter
    have hsave' : S'.savePos = S.savePos := hnext.savePos.trans h.savePos.symm
    by_cases hch : S.ch = none
    · obtain ⟨hch', hcurrent'⟩ := hnone hch
      have hcurrent : S'.comp.currPos = S.comp.currPos := hcurrent'
      have hdrop := drops_dropIndex hr hcurrentLt hfound
      have hold : S.rank = 1 + drops S.shifter S.comp.currPos := by
        rw [rank, if_pos hgo, if_pos hch]
      rw [hold, rank, if_pos hch', hshifter', hcurrent]
      split <;> omega
    · have hold : S.rank = 1 + winSize + drops S.shifter S.savePos := by
        rw [rank, if_pos hgo, if_neg hch]
      have hlast : drops S'.shifter S'.comp.currPos < winSize := mod_lt _ (by decide)
      rw [hold, rank]
      by_cases hgo' : S'.goesOn
      · rw [if_pos hgo']
        by_cases hch' : S'.ch = none
        · rw [if_pos hch']
          omega
        · have hr' : r ≠ S.savePos := by
            intro heq
            rcases hself heq hch with hend | hfull
            · exact hch' hend
            · have hlt := hgo'.2.1
              omega
          have hdrop := drops_dropIndex hr hsaveLt hr'
          rw [if_neg hch', hsave', hshifter']
          omega
      · rw [if_neg hgo']
        omega

end Search

namespace Execution

/-- The search has ended with a match that does not repeat the text. -/
def Stale (infile : List UInt8) : Execution → Prop
  | .reading _ _ => False
  | .searching S => S.Ended ∧ 3 ≤ S.bestcount ∧ ¬ S.Valid infile S.start

/-- The search goes on at an index it has read over. -/
def Lapped : Execution → Prop
  | .reading _ _ => False
  | .searching S => S.Lapped

/-- The best match so far repeats the text. -/
def Sound (infile : List UInt8) : Execution → Prop
  | .reading _ _ => True
  | .searching S => S.Valid infile S.start

/-- The compressor stands at the index `p` of the text and has written `items`. -/
def Holds (infile : List UInt8) (items : List Item) (p : ℕ) : Execution → Prop
  | .reading ch s => Search.ReadsAt infile p ch s ∧ s.out.Writes items
  | .searching S => S.Searching infile S.comp.out p ∧ S.comp.out.Writes items

/-- How far a state is from its next item. -/
def rank : Execution → ℕ
  | .reading _ _ => 2 * winSize + 1
  | .searching S => S.rank

variable {infile : List UInt8} {items : List Item} {p : ℕ} {e : Execution}

/-- What a step does: it leaves the main loop, it searches, or it writes an item. -/
inductive Move (infile : List UInt8) (items : List Item) (p : ℕ) (e : Execution) : Prop
  | done (hstep : e.step infile = none) (hend : p = textLength infile) (hfresh : ¬ e.Stale infile)
  | search (S : Search) (hstep : e.step infile = some (.searching S))
      (hnext : (searching S).Holds infile items p) (hfresh : ¬ e.Stale infile)
      (hsound : e.Sound infile → ¬ e.Lapped → S.Valid infile p) (hrank : S.rank < e.rank)
  | write (ch : Option UInt8) (s : Compressor) (i : Item) (hstep : e.step infile = some (.reading ch s))
      (hnext : (reading ch s).Holds infile (items ++ [i]) (p + i.length)) (hfits : i.Fits)
      (hfaithful : i.Faithful infile (p - winSize) ↔ ¬ e.Stale infile)

theorem move_byte {s : Compressor} (hat : s.At infile p) (hlow : winSize ≤ p)
    (hwrites : s.out.Writes items)
    (hstep : (reading (some (text infile p)) s).step infile = some (.reading
      ({ s with out := s.out.saveUncompByte (text infile p) }.getNextChar infile).1
      ({ s with out := s.out.saveUncompByte (text infile p) }.getNextChar infile).2)) :
    Move infile items p (.reading (some (text infile p)) s) := by
  have hat' : ({ s with out := s.out.saveUncompByte (text infile p) } : Compressor).At infile p :=
    ⟨hat.low, hat.high, hat.currPos, hat.infilePos, hat.window⟩
  obtain ⟨hreads, hout⟩ := Search.readsAt_next hat'
  refine .write _ _ (.byte (text infile p)) hstep ⟨hreads, ?_⟩ trivial ?_
  · rw [hout]
    exact hwrites.byte _
  · have hindex : winSize + (p - winSize) = p := by omega
    rw [Item.Faithful, hindex]
    exact iff_of_true rfl id

theorem move_reading {ch : Option UInt8} {s : Compressor} (h : (reading ch s).Holds infile items p)
    (hlow : winSize ≤ p) : Move infile items p (.reading ch s) := by
  obtain ⟨hreads, hwrites⟩ := h
  rcases hreads with ⟨rfl, hat⟩ | ⟨rfl, hend⟩
  · have hinfile := hat.infilePos
    by_cases hshort : infile.length - s.infilePos < 2
    · refine move_byte hat hlow hwrites ?_
      rw [step, if_pos hshort]
    · have hroom : p + 3 ≤ textLength infile := by
        unfold textLength winSize at *
        omega
      have hdrop : dropIndex s.currPos = (p - 1) % winSize := by
        have hsucc : p = p - 1 + 1 := by
          unfold winSize at hlow
          omega
        rw [hat.currPos, hsucc, dropIndex_succ_mod]
        rfl
      obtain ⟨d, hfind, hd, hdle, hnear, hsame⟩ := hat.findPrevious hlow (Nat.le_refl 1)
        (by decide : 1 ≤ winSize) (fun d hd hd' ↦ by omega)
      rw [← hdrop] at hfind
      by_cases hnone : d = winSize
      · refine move_byte hat hlow hwrites ?_
        rw [step, if_neg hshort, hfind]
        exact if_pos hnone
      · have hq : p - d < p := by
          unfold winSize at hlow
          omega
        obtain ⟨S, hfirst, hsearching, hvalid, -⟩ := Search.firstMatch_spec hat hlow hroom hq
          (by omega) (hsame (by omega)) rfl (some (text infile p))
        have hout : S.comp.out = s.out := hsearching.out
        refine .search S ?_ ⟨?_, ?_⟩ id (fun _ _ ↦ hvalid) ?_
        · rw [step, if_neg hshort, hfind]
          exact (if_neg hnone).trans (by rw [← hfirst])
        · rw [hout]
          exact hsearching
        · rw [hout]
          exact hwrites
        · have hrank := S.rank_le
          show S.rank < 2 * winSize + 1
          omega
  · exact .done rfl hend id

theorem move_searching {S : Search} (h : (searching S).Holds infile items p) :
    Move infile items p (.searching S) := by
  obtain ⟨hsearching, hwrites⟩ := h
  have hstart := hsearching.start_eq
  by_cases hended : S.Ended
  · -- the search is over
    obtain ⟨hreads, hout⟩ := Search.finish_spec hsearching hwrites
    refine .write _ _ (S.result infile p) ?_ ⟨hreads, hout⟩ (Search.result_fits hsearching) ?_
    · rw [step]
      by_cases hgo : S.goesOn
      · rw [if_pos hgo]
        exact if_pos (hended hgo)
      · rw [if_neg hgo]
    · have hlow := hsearching.low
      have hindex : winSize + (p - winSize) = p := by omega
      show _ ↔ ¬ (S.Ended ∧ 3 ≤ S.bestcount ∧ ¬ S.Valid infile S.start)
      rw [hstart, Search.result]
      by_cases hshort : S.bestcount < 3
      · rw [if_pos hshort, Item.Faithful, hindex]
        refine iff_of_true rfl ?_
        rintro ⟨-, hlong, -⟩
        omega
      · rw [if_neg hshort, Item.Faithful, hindex]
        constructor
        · rintro hrepeats ⟨-, -, hstale⟩
          exact hstale hrepeats
        · intro hfresh
          by_contra hstale
          exact hfresh ⟨hended, by omega, hstale⟩
  · have hgo : S.goesOn := by
      by_contra hnot
      exact hended fun hgo ↦ absurd hgo hnot
    have hfound : S.skip winSize S.shifter ≠ S.comp.currPos := fun heq ↦ hended fun _ ↦ heq
    obtain ⟨hnext, hvalid, hrank⟩ := Search.turn_spec hsearching hgo hfound
    have hout := hnext.out
    refine .search _ ?_ ⟨?_, ?_⟩ (fun hstale ↦ hended hstale.1) (fun hsound hlapped ↦ ?_) hrank
    · rw [step, if_pos hgo]
      exact if_neg hfound
    · rw [hout]
      exact hnext
    · rw [hout]
      exact hwrites
    · have hsound' : S.Valid infile S.start := hsound
      rw [hstart] at hsound'
      exact hvalid hsound' hlapped

theorem move (h : e.Holds infile items p) (hlow : winSize ≤ p) : Move infile items p e := by
  cases e with
  | reading ch s => exact move_reading h hlow
  | searching S => exact move_searching h

theorem create_holds (infile : List UInt8) : (create infile).Holds infile [] winSize := by
  have hat : (⟨fun _ ↦ space, dropIndex 0, 0, ⟨0, [], 0, []⟩⟩ : Compressor).At infile
      (winSize - 1) := by
    refine ⟨Nat.le_refl _, ?_, by decide, rfl, fun i hi _ ↦ ?_⟩
    · unfold textLength winSize
      omega
    · have hi' : i < winSize := by
        unfold winSize at *
        omega
      rw [text, if_pos hi']
  obtain ⟨hreads, hout⟩ := Search.readsAt_next hat
  refine ⟨hreads, ?_⟩
  rw [hout]
  exact Output.writes_nil

theorem after_succ_of_step {n : ℕ} {e' : Execution} (h : (after infile n).step infile = some e') :
    after infile (n + 1) = e' := by
  rw [after, h, Option.getD_some]

theorem after_succ_of_stop {n : ℕ} (h : (after infile n).step infile = none) :
    after infile (n + 1) = after infile n := by
  rw [after, h, Option.getD_none]

/-- What a run has written, and that it is faithful unless a search has gone stale. -/
theorem after_holds (infile : List UInt8) (n : ℕ) : ∃ items p, (after infile n).Holds infile items p ∧
    p = winSize + span items ∧ (∀ i ∈ items, i.Fits) ∧
    (Faithful infile 0 items ↔ ∀ k < n, ¬ (after infile k).Stale infile) := by
  induction n with
  | zero =>
    refine ⟨[], winSize, create_holds infile, rfl, by simp, iff_of_true trivial fun k hk ↦ ?_⟩
    exact absurd hk (not_lt_zero k)
  | succ n ih =>
    obtain ⟨items, p, hholds, hp, hfits, hfaithful⟩ := ih
    have hlast : (∀ k < n + 1, ¬ (after infile k).Stale infile) ↔
        (∀ k < n, ¬ (after infile k).Stale infile) ∧ ¬ (after infile n).Stale infile := by
      constructor
      · intro hall
        exact ⟨fun k hk ↦ hall k (by omega), hall n (lt_succ_self n)⟩
      · rintro ⟨hall, hn⟩ k hk
        by_cases heq : k = n
        · rw [heq]
          exact hn
        · exact hall k (by omega)
    rw [hlast]
    cases move hholds (by omega) with
    | done hstep hend hfresh =>
      rw [after_succ_of_stop hstep]
      exact ⟨items, p, hholds, hp, hfits, by rw [hfaithful]; exact ⟨fun h ↦ ⟨h, hfresh⟩, And.left⟩⟩
    | search S hstep hnext hfresh hsound hrank =>
      rw [after_succ_of_step hstep]
      exact ⟨items, p, hnext, hp, hfits, by rw [hfaithful]; exact ⟨fun h ↦ ⟨h, hfresh⟩, And.left⟩⟩
    | write ch s i hstep hnext hi hitem =>
      rw [after_succ_of_step hstep]
      refine ⟨items ++ [i], p + i.length, hnext, ?_, fun j hj ↦ ?_, ?_⟩
      · rw [hp, span_append, span_cons, span_nil]
        omega
      · rcases mem_append.mp hj with hj | hj
        · exact hfits j hj
        · rw [mem_singleton.mp hj]
          exact hi
      · have hindex : 0 + span items = p - winSize := by omega
        rw [faithful_concat, hfaithful, hindex, hitem]

/-- A run in which no search goes on where it has read over has a sound best match. -/
theorem after_sound (infile : List UInt8) (n : ℕ)
    (hlapped : ∀ k < n, ¬ (after infile k).Lapped) : (after infile n).Sound infile := by
  induction n with
  | zero => exact trivial
  | succ n ih =>
    obtain ⟨items, p, hholds, hp, -⟩ := after_holds infile n
    have hn := ih fun k hk ↦ hlapped k (lt_succ_of_lt hk)
    cases move hholds (by omega) with
    | done hstep hend hfresh =>
      rw [after_succ_of_stop hstep]
      exact hn
    | search S hstep hnext hfresh hsound hrank =>
      rw [after_succ_of_step hstep]
      show S.Valid infile S.start
      rw [hnext.1.start_eq]
      exact hsound hn (hlapped n (lt_succ_self n))
    | write ch s i hstep hnext hi hitem =>
      rw [after_succ_of_step hstep]
      exact trivial

theorem exists_stop (infile : List UInt8) : ∃ n, (after infile n).step infile = none := by
  suffices hall : ∀ (r : ℕ ×ₗ ℕ) (n p : ℕ) (items : List Item),
      (after infile n).Holds infile items p → winSize ≤ p →
      r = toLex (textLength infile - p, (after infile n).rank) →
      ∃ k, (after infile k).step infile = none by
    exact hall _ 0 winSize [] (create_holds infile) (Nat.le_refl _) rfl
  intro r
  induction r using WellFoundedLT.induction with
  | ind r ih =>
    intro n p items hholds hlow hr
    cases move hholds hlow with
    | done hstep hend hfresh => exact ⟨n, hstep⟩
    | search S hstep hnext hfresh hsound hrank =>
      rw [← after_succ_of_step hstep] at hnext
      refine ih _ ?_ (n + 1) p items hnext hlow rfl
      rw [hr, Prod.Lex.toLex_lt_toLex, after_succ_of_step hstep]
      exact .inr ⟨rfl, hrank⟩
    | write ch s i hstep hnext hi hitem =>
      have hpos := hi.length_pos
      have hend : p + i.length ≤ textLength infile := by
        rcases hnext.1 with ⟨-, hat⟩ | ⟨-, heq⟩
        · exact Nat.le_of_lt hat.high
        · exact heq.le
      rw [← after_succ_of_step hstep] at hnext
      refine ih _ ?_ (n + 1) (p + i.length) (items ++ [i]) hnext (by omega) rfl
      rw [hr, Prod.Lex.toLex_lt_toLex]
      exact .inl (by show _ - _ < _ - _; omega)

/-- What the decompressor makes of the output of a finished run. -/
theorem decompress_outfile {n : ℕ} (hstop : (after infile n).step infile = none) :
    decompress (after infile n).outfile infile.length = some infile ↔
      ∀ k < n, ¬ (after infile k).Stale infile := by
  obtain ⟨items, p, hholds, hp, hfits, hfaithful⟩ := after_holds infile n
  have hend : p = textLength infile := by
    cases move hholds (by omega) with
    | done hstep hend hfresh => exact hend
    | search S hstep | write ch s i hstep => simp [hstop] at hstep
  have hwrites : (after infile n).comp.out.Writes items := by
    cases he : after infile n with
    | reading ch s | searching S =>
      rw [he] at hholds
      exact hholds.2
  obtain ⟨blocks, hblocks⟩ := hwrites.finished
  rw [← hfaithful]
  refine decompress_eq_iff hblocks hfits ?_
  unfold textLength at hend
  omega

/-- Nothing comes after a run has stopped. -/
theorem lt_of_stale {k n : ℕ} (hstop : (after infile n).step infile = none)
    (hstale : (after infile k).Stale infile) : k < n := by
  by_contra hle
  have hsame : after infile k = after infile n := by
    obtain ⟨j, rfl⟩ := Nat.exists_eq_add_of_le (Nat.le_of_not_lt hle)
    clear hstale hle
    induction j with
    | zero => rfl
    | succ j ih => rw [← Nat.add_assoc, after_succ_of_stop (by rw [ih]; exact hstop), ih]
  obtain ⟨items, p, hholds, hp, -⟩ := after_holds infile n
  rw [hsame] at hstale
  cases move hholds (by omega) with
  | done hstep hend hfresh => exact hfresh hstale
  | search S hstep | write ch s i hstep => simp [hstop] at hstep

/-- The output of a finished run gives the input back if and only if no search went stale. -/
theorem decompress_iff {n : ℕ} (hstop : (after infile n).step infile = none) :
    decompress (after infile n).outfile infile.length = some infile ↔
      ∀ k, ¬ (after infile k).Stale infile := by
  rw [decompress_outfile hstop]
  constructor
  · intro hall k hstale
    exact hall k (lt_of_stale hstop hstale) hstale
  · intro hall k _
    exact hall k

end Execution

/-- The compressor stops on every input.  Decompressing its output gives the input if and only if
no search ends with a match of other bytes than those that stood at its place, and none does as
long as no search goes on at an index it has read over. -/
theorem lossless_iff (infile : List UInt8) :
    (∃ n, (after infile n).step infile = none) ∧
      ((∀ n, (after infile n).step infile = none →
          decompress (after infile n).outfile infile.length = some infile) ↔
        ∀ n, ¬ (after infile n).Stale infile) ∧
      ((∀ n, ¬ (after infile n).Lapped) →
        ∀ n, ¬ (after infile n).Stale infile) := by
  have hstops := exists_stop infile
  refine ⟨hstops, ?_, fun hlapped n hstale ↦ ?_⟩
  · constructor
    · intro hall
      obtain ⟨n, hstop⟩ := hstops
      exact (decompress_iff hstop).mp (hall n hstop)
    · intro hall n hstop
      exact (decompress_iff hstop).mpr hall
  · have hsound := after_sound infile n fun k _ ↦ hlapped k
    cases he : after infile n with
    | reading ch s =>
      rw [he] at hstale
      exact hstale
    | searching S =>
      rw [he] at hstale hsound
      exact hstale.2.2 hsound

section Lapping

/-- Six bytes, `n` zeros, and most of the six bytes again. -/
def repeatedInput (n : ℕ) : List UInt8 :=
  [1, 2, 3, 4, 5, 6] ++ (replicate n 0 ++ ([2, 3, 4, 5, 6] ++ replicate 14 7))

variable {n i : ℕ}

theorem textLength_repeated (n : ℕ) : textLength (repeatedInput n) = winSize + n + 25 := by
  simp only [textLength, repeatedInput, length_append, length_cons, length_nil,
    length_replicate]
  omega

theorem text_repeated (n i : ℕ) :
    text (repeatedInput n) (winSize + i) = ((repeatedInput n)[i]?).getD 0 := by
  rw [text, if_neg (by omega), Nat.add_sub_cancel_left, getD_eq_getElem?_getD]

theorem text_repeated_first (hi : i < 6) :
    text (repeatedInput n) (winSize + i) = UInt8.ofNat (i + 1) := by
  have hlist : ∀ i < 6, ([1, 2, 3, 4, 5, 6] : List UInt8)[i]?.getD 0 = UInt8.ofNat (i + 1) := by
    decide
  rw [text_repeated, repeatedInput, getElem?_append_left hi]
  exact hlist i hi

theorem text_repeated_zero (hlow : 6 ≤ i) (hi : i < 6 + n) :
    text (repeatedInput n) (winSize + i) = 0 := by
  have hright : ([1, 2, 3, 4, 5, 6] : List UInt8).length ≤ i := hlow
  have hin : i - 6 < n := by omega
  rw [text_repeated, repeatedInput, getElem?_append_right hright,
    getElem?_append_left (by rw [length_replicate]; exact hin), getElem?_replicate]
  exact congrArg (Option.getD · 0) (if_pos hin)

theorem text_repeated_second (hi : i < 5) :
    text (repeatedInput n) (winSize + (6 + n + i)) = UInt8.ofNat (i + 2) := by
  have hlist : ∀ i < 5, ([2, 3, 4, 5, 6] : List UInt8)[i]?.getD 0 = UInt8.ofNat (i + 2) := by decide
  have hright : ([1, 2, 3, 4, 5, 6] : List UInt8).length ≤ 6 + n + i := by
    show 6 ≤ 6 + n + i
    omega
  have hindex : 6 + n + i - 6 - (replicate n (0 : UInt8)).length = i := by
    rw [length_replicate]
    omega
  rw [text_repeated, repeatedInput, getElem?_append_right hright,
    getElem?_append_right (by rw [length_replicate]; show n ≤ 6 + n + i - 6; omega),
    show 6 + n + i - ([1, 2, 3, 4, 5, 6] : List UInt8).length -
      (replicate n (0 : UInt8)).length = i from hindex, getElem?_append_left hi]
  exact hlist i hi

theorem text_repeated_last : text (repeatedInput n) (winSize + (6 + n + 5)) = 7 := by
  have hindex : 6 + n + 5 - 6 - (replicate n (0 : UInt8)).length = 5 := by
    rw [length_replicate]
    omega
  rw [text_repeated, repeatedInput,
    getElem?_append_right (by show 6 ≤ 6 + n + 5; omega),
    getElem?_append_right (by rw [length_replicate]; show n ≤ 6 + n + 5 - 6; omega),
    show 6 + n + 5 - ([1, 2, 3, 4, 5, 6] : List UInt8).length -
      (replicate n (0 : UInt8)).length = 5 from hindex]
  rfl

theorem text_spaces (infile : List UInt8) (hi : i < winSize) : text infile i = space := if_pos hi

/-- A run comes to the main loop with the byte at the index `p`. -/
def Comes (infile : List UInt8) (p : ℕ) : Prop :=
  ∃ k s, after infile k = .reading (some (text infile p)) s ∧ s.At infile p

variable {infile : List UInt8} {p : ℕ}

theorem comes_of_readsAt {k : ℕ} {ch : Option UInt8} {s : Compressor}
    (h : after infile k = .reading ch s) (hreads : Search.ReadsAt infile p ch s)
    (hp : p < textLength infile) : Comes infile p := by
  rcases hreads with ⟨rfl, hat⟩ | ⟨-, hend⟩
  · exact ⟨k, s, h, hat⟩
  · omega

/-- A byte that is not in the window is written as it is. -/
theorem Comes.byte (h : Comes infile p) (hlow : winSize ≤ p) (hp : p + 1 < textLength infile)
    (hnew : ∀ d, 1 ≤ d → d < winSize → text infile (p - d) ≠ text infile p) :
    Comes infile (p + 1) := by
  obtain ⟨k, s, hk, hat⟩ := h
  have hat' : ({ s with out := s.out.saveUncompByte (text infile p) } : Compressor).At infile p :=
    ⟨hat.low, hat.high, hat.currPos, hat.infilePos, hat.window⟩
  obtain ⟨hreads, -⟩ := Search.readsAt_next hat'
  have hstep : (after infile k).step infile = some (.reading
      ({ s with out := s.out.saveUncompByte (text infile p) }.getNextChar infile).1
      ({ s with out := s.out.saveUncompByte (text infile p) }.getNextChar infile).2) := by
    have hdrop : dropIndex s.currPos = (p - 1) % winSize := by
      have hsucc : p = p - 1 + 1 := by
        unfold winSize at hlow
        omega
      rw [hat.currPos, hsucc, dropIndex_succ_mod]
      rfl
    obtain ⟨d, hfind, hd, hdle, -, hsame⟩ := hat.findPrevious hlow (Nat.le_refl 1)
      (by decide : 1 ≤ winSize) (fun d hd hd' ↦ by omega)
    have hnone : d = winSize := by
      by_contra hne
      exact hnew d hd (by omega) (hsame (by omega))
    rw [← hdrop] at hfind
    rw [hk, step]
    split
    · rfl
    · rw [hfind]
      exact if_pos hnone
  exact comes_of_readsAt (after_succ_of_step hstep) hreads hp

/-- The search for a byte starts with its nearest place before. -/
theorem Comes.search (h : Comes infile p) (hlow : winSize ≤ p) (hp : p + 3 ≤ textLength infile)
    {d : ℕ} (hd : 1 ≤ d) (hdle : d < winSize) (hsame : text infile (p - d) = text infile p)
    (hnew : ∀ d', 1 ≤ d' → d' < d → text infile (p - d') ≠ text infile p) :
    ∃ k S, after infile k = .searching S ∧ S.Searching infile S.comp.out p ∧
      S.shifter = dropIndex ((p - d) % winSize) ∧ S.bestoffset = (p - d) % winSize ∧
      (p + S.bestcount = textLength infile ∨
        text infile (p - d + S.bestcount) ≠ text infile (p + S.bestcount) ∨
        S.bestcount = maxLen) ∧ S.Valid infile p := by
  obtain ⟨k, s, hk, hat⟩ := h
  have hdrop : dropIndex s.currPos = (p - 1) % winSize := by
    have hsucc : p = p - 1 + 1 := by
      unfold winSize at hlow
      omega
    rw [hat.currPos, hsucc, dropIndex_succ_mod]
    rfl
  obtain ⟨d', hfind, hd', hdle', hfar, hsame'⟩ := hat.findPrevious hlow (Nat.le_refl 1)
    (by decide : 1 ≤ winSize) (fun d hd hd' ↦ by omega)
  have heq : d' = d := by
    rcases Nat.lt_trichotomy d' d with hlt | heq | hlt
    · exact absurd (hsame' (by omega)) (hnew d' hd' hlt)
    · exact heq
    · exact absurd hsame (hfar d hd hlt)
  subst heq
  have hlong : ¬ infile.length - s.infilePos < 2 := by
    have hinfile := hat.infilePos
    unfold textLength winSize at *
    omega
  have hq : p - d' < p := by
    unfold winSize at hlow
    omega
  obtain ⟨S, hfirst, hsearching, hvalid, hshifter, hoffset, hend⟩ := Search.firstMatch_spec hat hlow
    hp hq (by omega) hsame rfl (some (text infile p))
  have hout : S.comp.out = s.out := hsearching.out
  rw [← hdrop] at hfind
  refine ⟨k + 1, S, after_succ_of_step ?_, hout ▸ hsearching, hshifter, hoffset, hend,
    hvalid⟩
  rw [hk, step, if_neg hlong, hfind]
  exact (if_neg (by omega)).trans (by rw [← hfirst])

/-- A byte that repeats the one before eighteen times is written as one match. -/
theorem Comes.run (h : Comes infile p) (hlow : winSize ≤ p) (hp : p + maxLen < textLength infile)
    (hsame : ∀ c ≤ maxLen, text infile (p - 1 + c) = text infile p) : Comes infile (p + maxLen) := by
  have hbefore : text infile (p - 1) = text infile p := hsame 0 (zero_le _)
  obtain ⟨k, S, hk, hsearching, -, -, hend, -⟩ := h.search hlow
    (by unfold maxLen at hp; omega) (Nat.le_refl 1) (by decide) hbefore (fun d hd hd' ↦ by omega)
  have hmax := hsearching.bestcount
  have hfull : S.bestcount = maxLen := by
    rcases hend with hend | hdiffer | hfull
    · omega
    · by_contra hne
      have hindex : p + S.bestcount = p - 1 + (S.bestcount + 1) := by
        unfold winSize at hlow
        omega
      refine hdiffer ?_
      rw [hsame S.bestcount hmax, hindex, hsame (S.bestcount + 1) (by omega)]
    · exact hfull
  obtain ⟨items, p', hholds, -⟩ := after_holds infile k
  rw [hk] at hholds
  obtain ⟨hreads, -⟩ := Search.finish_spec hsearching hholds.2
  have hlength : (S.result infile p).length = maxLen := by
    rw [Search.result, hfull, if_neg (by decide)]
    rfl
  rw [hlength] at hreads
  have hstep : (after infile k).step infile =
      some (.reading (S.finish infile).1 (S.finish infile).2) := by
    have hnot : ¬ S.goesOn := by
      rintro ⟨-, hlt, -⟩
      omega
    rw [hk, step, if_neg hnot]
  exact comes_of_readsAt (after_succ_of_step hstep) hreads hp

/-- The six bytes are new, and so is the first zero. -/
theorem comes_zeros (hn : 1 ≤ n) (hi : i ≤ 7) : Comes (repeatedInput n) (winSize + i) := by
  have hlength := textLength_repeated n
  have hbytes : ∀ i < 7, ∀ j < i, (if j < 6 then UInt8.ofNat (j + 1) else 0) ≠
      (if i < 6 then UInt8.ofNat (i + 1) else 0) := by decide
  have hspace : ∀ i < 7, space ≠ (if i < 6 then UInt8.ofNat (i + 1) else 0) := by decide
  have htext (i : ℕ) (hi : i < 7) : text (repeatedInput n) (winSize + i) =
      if i < 6 then UInt8.ofNat (i + 1) else 0 := by
    by_cases hfirst : i < 6
    · rw [if_pos hfirst, text_repeated_first hfirst]
    · rw [if_neg hfirst, text_repeated_zero (by omega) (by omega)]
  induction i with
  | zero =>
    obtain ⟨hreads, -⟩ := create_holds (repeatedInput n)
    exact comes_of_readsAt (k := 0) rfl hreads (by omega)
  | succ i ih =>
    refine (ih (by omega)).byte (by omega) (by omega) fun d hd hd' ↦ ?_
    rw [htext i (by omega)]
    by_cases hbefore : d ≤ i
    · have hindex : winSize + i - d = winSize + (i - d) := by omega
      rw [hindex, htext (i - d) (by omega)]
      exact hbytes i (by omega) (i - d) (by omega)
    · rw [text_spaces _ (by omega)]
      exact hspace i (by omega)

/-- The zeros after the first are written eighteen at a time. -/
theorem comes_runs {m : ℕ} (hm : 7 + 18 * m ≤ 6 + n) :
    Comes (repeatedInput n) (winSize + (7 + 18 * m)) := by
  have hlength := textLength_repeated n
  induction m with
  | zero => exact comes_zeros (by omega) (Nat.le_refl 7)
  | succ m ih =>
    have hrun := (ih (by omega)).run (by omega) (by unfold maxLen; omega) fun c hc ↦ ?_
    · have hindex : winSize + (7 + 18 * m) + maxLen = winSize + (7 + 18 * (m + 1)) := by
        unfold maxLen
        omega
      rw [hindex] at hrun
      exact hrun
    · have hindex : winSize + (7 + 18 * m) - 1 + c = winSize + (6 + 18 * m + c) := by
        unfold winSize
        omega
      unfold maxLen at hc
      rw [hindex, text_repeated_zero (by omega) (by omega), text_repeated_zero (by omega) (by omega)]

theorem skip_succ {S : Search} {turns r : ℕ} (hne : r ≠ S.comp.currPos)
    (hdiffer : S.comp.window r ≠ S.comp.window S.savePos) :
    S.skip (turns + 1) r = S.skip turns (dropIndex r) := by
  rw [Search.skip, if_pos ⟨hne, hdiffer⟩]

/-- The last search goes on at an index it has read over and comes to its own start. -/
theorem stale_repeated : ∃ k, (after (repeatedInput 4087) k).Stale (repeatedInput 4087) := by
  set infile := repeatedInput 4087 with hinfile
  have hlength : textLength infile = 8208 := textLength_repeated 4087
  have hfirst (i : ℕ) (hi : i < 6) : text infile (4096 + i) = UInt8.ofNat (i + 1) :=
    text_repeated_first hi
  have hzero (i : ℕ) (hlow : 6 ≤ i) (hi : i < 4093) : text infile (4096 + i) = 0 :=
    text_repeated_zero hlow hi
  have hsecond (i : ℕ) (hi : i < 5) : text infile (8189 + i) = UInt8.ofNat (i + 2) := by
    have h := @text_repeated_second 4087 i hi
    rw [show winSize + (6 + 4087 + i) = 8189 + i by unfold winSize; omega] at h
    exact h
  have hlast : text infile 8194 = 7 := @text_repeated_last 4087
  have hcomes : Comes infile 8189 := @comes_runs 4087 227 (by decide)
  have hstart : text infile 8189 = 2 := hsecond 0 (by decide)
  have hnew (d : ℕ) (hd : 1 ≤ d) (hd' : d < 4092) : text infile (8189 - d) ≠ text infile 8189 := by
    have hbytes : ∀ i < 6, 1 < i → UInt8.ofNat (i + 1) ≠ 2 := by decide
    have hindex : 8189 - d = 4096 + (4093 - d) := by omega
    rw [hstart, hindex]
    by_cases hsmall : 4093 - d < 6
    · rw [hfirst _ hsmall]
      exact hbytes _ hsmall (by omega)
    · rw [hzero _ (by omega) (by omega)]
      decide
  obtain ⟨k, S, hk, hS, hshifter, hoffset, hend, hvalid⟩ := hcomes.search (by decide)
    (by rw [hlength]; decide) (show 1 ≤ 4092 by decide) (by decide)
    (by rw [hstart]; exact hfirst 1 (by decide)) hnew
  have hlow := hS.pos
  have hhigh := hS.bestcount
  unfold maxLen at hhigh
  -- the first match is the five bytes at the index 1
  have hbest : S.bestcount = 5 := by
    have hle : S.bestcount ≤ 5 := by
      by_contra hlong
      have hfive := hvalid 5 (by omega)
      rw [hoffset] at hfive
      have hsix : text infile (4096 + 6) = text infile 8194 := hfive
      rw [hzero 6 (by decide) (by decide), hlast] at hsix
      exact absurd hsix (by decide)
    rcases hend with hend | hdiffer | hfull
    · omega
    · by_contra hne
      have hlt : S.bestcount < 5 := by omega
      refine hdiffer ?_
      rw [hsecond _ hlt]
      have hindex : 8189 - 4092 + S.bestcount = 4096 + (S.bestcount + 1) := by omega
      rw [hindex, hfirst _ (by omega)]
    · unfold maxLen at hfull
      omega
  have hcurrent : S.comp.currPos = 1 := by
    rw [hS.comp.currPos, hbest]
    rfl
  have hsave : S.savePos = 4093 := hS.savePos
  have hshift : S.shifter = 0 := by rw [hshifter]; decide
  have hat : S.comp.At infile 8193 := by
    have h := hS.comp
    rw [hbest] at h
    exact h
  have hwindow (i : ℕ) (hi : i < 5) : S.comp.window ((8189 + i) % winSize) = UInt8.ofNat (i + 2) := by
    rw [hat.read (by omega) (by unfold winSize; omega), hsecond i hi]
  have hfound : S.skip winSize S.shifter = 4093 := by
    have h0 : S.comp.window 4093 = 2 := hwindow 0 (by decide)
    have h1 : S.comp.window 4094 = 3 := hwindow 1 (by decide)
    have h2 : S.comp.window 4095 = 4 := hwindow 2 (by decide)
    have h3 : S.comp.window 0 = 5 := hwindow 3 (by decide)
    rw [hshift, show winSize = 4092 + 1 + 1 + 1 + 1 from rfl,
      skip_succ (by rw [hcurrent]; decide) (by rw [hsave, h0, h3]; decide),
      show dropIndex 0 = 4095 from rfl,
      skip_succ (by rw [hcurrent]; decide) (by rw [hsave, h0, h2]; decide),
      show dropIndex 4095 = 4094 from rfl,
      skip_succ (by rw [hcurrent]; decide) (by rw [hsave, h0, h1]; decide),
      show dropIndex 4094 = 4093 from rfl, Search.skip, if_neg fun hgo ↦ hgo.2 (by rw [hsave])]
  have hgo : S.goesOn := by
    rw [Search.goesOn, hshift, hcurrent, hsave, hbest]
    decide
  have hsearching : ({ S with shifter := 4093 } : Search).Searching infile S.comp.out 8189 :=
    ⟨⟨⟨hS.low, hS.room, hS.out, hS.savePos, hS.oldchars0, hS.oldchars1, hS.oldchars2⟩, hS.pos,
      hS.comp, hS.ch⟩, hS.bestcount, hS.bestoffset, (by decide : 4093 < winSize)⟩
  obtain ⟨hnext, -, -, -, hself, hplace⟩ := Search.candidate_spec hsearching hgo.2.1
  set S' := ({ S with shifter := 4093 } : Search).candidate infile with hS'
  have hstep : (after infile k).step infile = some (.searching S') := by
    rw [hk, step, if_pos hgo, hfound, if_neg (by rw [hcurrent]; decide)]
  have hch : S.ch ≠ none := fun hnone ↦ by
    have h := hS.ch.mp hnone
    omega
  have hfull : S'.bestcount = maxLen := by
    rcases hself hsave.symm hch with hnone | hfull
    · have h := hnext.ch.mp hnone
      have hmax := hnext.bestcount
      unfold maxLen at hmax
      omega
    · exact hfull
  refine ⟨k + 1, ?_⟩
  rw [after_succ_of_step hstep]
  refine ⟨fun hgo' ↦ ?_, by rw [hfull]; decide, fun hrepeats ↦ ?_⟩
  · have h := hgo'.2.1
    omega
  · rw [hnext.start_eq, Search.Valid, hfull] at hrepeats
    rcases hplace with hplace | hplace
    · have hold : S'.bestoffset = 1 := hplace.trans hoffset
      have hfive := hrepeats 5 (by decide)
      rw [hold] at hfive
      have hsix : text infile (4096 + 6) = text infile 8194 := hfive
      rw [hzero 6 (by decide) (by decide), hlast] at hsix
      exact absurd hsix (by decide)
    · have hold : S'.bestoffset = 4093 := hplace
      have hzeroth := hrepeats 0 (by decide)
      rw [hold] at hzeroth
      have hspace : text infile 4093 = text infile 8189 := hzeroth
      rw [text_spaces infile (by decide), hstart] at hspace
      exact absurd hspace (by decide)

/-- Six bytes, 4087 zeros and most of the six bytes again do not come back. -/
theorem repeatedInput_lost : ¬ ∀ n,
    (after (repeatedInput 4087) n).step (repeatedInput 4087) = none →
      decompress (after (repeatedInput 4087) n).outfile (repeatedInput 4087).length =
        some (repeatedInput 4087) := by
  intro hall
  obtain ⟨n, hstop⟩ := exists_stop (repeatedInput 4087)
  obtain ⟨k, hstale⟩ := stale_repeated
  exact (decompress_iff hstop).mp (hall n hstop) k hstale

end Lapping

end MicroFramework.Compression
