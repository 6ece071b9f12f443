import Mathlib.Data.List.Nodup
import Mathlib.Data.Nat.Bitwise
import MicroFramework.Library.Simulation
import MicroFramework.Mesh.SequenceNumbers

/-!
# The filter of broadcasts

`CheckBroadcastSeqNo` over whole runs of messages of one origin.  The numbers of one byte stand for
integers near the newest one; the window of 32 bits tells which of the 32 numbers before the newest
one were accepted.  Numbers run from 255 to 4, so a number below 4 behind one above 4 tells that the
origin has started again, and everything is forgotten.
-/

namespace MicroFramework.Mesh

open Library List Nat Table

/-! ## The window -/

section Window

variable (window : UInt32) {k j : ℕ}

/-- The window after the newest number has moved on by `d`. -/
theorem testBit_advance {d : ℕ} (hd : 1 ≤ d) (hd' : d ≤ 32) (hk : k < 32) :
    ((window <<< 1 ||| 1) <<< UInt32.ofNat (d - 1)).toNat.testBit k =
      if k + 1 < d then false else if k + 1 = d then true else window.toNat.testBit (k - d) := by
  have hshift : (UInt32.ofNat (d - 1)).toNat % 32 = d - 1 := by
    rw [UInt32.toNat_ofNat']
    omega
  have hlow : ((window <<< 1 ||| 1).toNat) = window.toNat <<< 1 % 2 ^ 32 ||| 1 := by
    rw [UInt32.toNat_or, UInt32.toNat_shiftLeft]
    rfl
  rw [UInt32.toNat_shiftLeft, hshift, hlow, testBit_mod_two_pow, testBit_shiftLeft,
    testBit_or, testBit_mod_two_pow, testBit_shiftLeft]
  have hone : Nat.testBit 1 (k - (d - 1)) = decide (k - (d - 1) = 0) := by
    have hpow := testBit_two_pow (n := 0) (m := k - (d - 1))
    simpa [eq_comm] using hpow
  rw [hone]
  by_cases hbefore : k + 1 < d
  · rw [if_pos hbefore, decide_eq_false (by omega : ¬ d - 1 ≤ k)]
    simp
  · rw [if_neg hbefore, decide_eq_true (by omega : d - 1 ≤ k)]
    by_cases hat : k + 1 = d
    · rw [if_pos hat, decide_eq_true (by omega : k - (d - 1) = 0)]
      simp [hk]
    · have hindex : k - (d - 1) - 1 = k - d := by omega
      rw [if_neg hat, decide_eq_false (by omega : ¬ k - (d - 1) = 0),
        decide_eq_true (by omega : 1 ≤ k - (d - 1)),
        decide_eq_true (by omega : k - (d - 1) < 32), hindex]
      simp [hk]

theorem toNat_toggle (hj : j < 32) : ((1 : UInt32) <<< UInt32.ofNat j).toNat = 2 ^ j := by
  have hshift : (UInt32.ofNat j).toNat % 32 = j := by
    rw [UInt32.toNat_ofNat']
    omega
  have hlt : 2 ^ j < 2 ^ 32 := Nat.pow_lt_pow_right (by decide) hj
  rw [UInt32.toNat_shiftLeft, hshift, shiftLeft_eq]
  show 1 * 2 ^ j % 2 ^ 32 = _
  rw [Nat.one_mul, mod_eq_of_lt hlt]

theorem and_toggle_pos (hj : j < 32) :
    window &&& ((1 : UInt32) <<< UInt32.ofNat j) > 0 ↔ window.toNat.testBit j = true := by
  rw [gt_iff_lt, UInt32.lt_iff_toNat_lt, UInt32.toNat_and, toNat_toggle hj, and_two_pow]
  have hpos : 0 < 2 ^ j := Nat.two_pow_pos j
  cases window.toNat.testBit j <;> simp [hpos]

theorem testBit_or_toggle (hj : j < 32) :
    (window ||| ((1 : UInt32) <<< UInt32.ofNat j)).toNat.testBit k =
      (window.toNat.testBit k || decide (k = j)) := by
  rw [UInt32.toNat_or, toNat_toggle hj, testBit_or, testBit_two_pow]
  simp [eq_comm]

end Window

/-! ## What was heard -/

/-- What an origin was heard to send since it started: the newest number, the numbers accepted, and
the last number that was more than 32 ahead of all before it. -/
structure Heard where
  newest : ℤ
  accepted : List ℤ
  jumpedTo : Option ℤ
deriving DecidableEq

namespace Heard

/-- The first message after a start. -/
def start (seqNo : UInt8) : Heard := ⟨seqNo.toNat, [(seqNo.toNat : ℤ)], none⟩

variable (h : Heard) (seqNo : UInt8)

/-- How far the number is ahead of the newest one: the byte stands for the integer nearest to it. -/
def ahead : ℤ := ((seqNo.toNat : ℤ) - h.newest).bmod 256

/-- The number the byte stands for. -/
def number : ℤ := h.newest + h.ahead seqNo

/-- The origin has started again. -/
def Restarts : Prop := seqNo.toNat < 4 ∧ 4 < h.newest % 256

def newer : Heard :=
  ⟨h.number seqNo, h.number seqNo :: h.accepted,
    if 32 < h.ahead seqNo then some (h.number seqNo) else h.jumpedTo⟩

def late : Heard := { h with accepted := h.number seqNo :: h.accepted }

/-- The number was jumped over, together with at least 32 others. -/
def JumpedOver (n : ℤ) : Prop := ∃ j, h.jumpedTo = some j ∧ n < j

/-- What the filter may answer: a newer number is accepted, an older one if it is one of the 32
before the newest one and was not accepted yet.  It may be refused if it was jumped over. -/
inductive Allows : Option Heard → UInt8 → Bool → Option Heard → Prop
  | first (seqNo : UInt8) : Allows none seqNo true (some (start seqNo))
  | restart {h : Heard} {seqNo : UInt8} :
      h.Restarts seqNo → Allows (some h) seqNo true (some (start seqNo))
  | newer {h : Heard} {seqNo : UInt8} :
      ¬ h.Restarts seqNo → 0 < h.ahead seqNo → Allows (some h) seqNo true (some (h.newer seqNo))
  | late {h : Heard} {seqNo : UInt8} :
      ¬ h.Restarts seqNo → h.ahead seqNo < 0 → -32 ≤ h.ahead seqNo →
        h.number seqNo ∉ h.accepted → Allows (some h) seqNo true (some (h.late seqNo))
  | lost {h : Heard} {seqNo : UInt8} :
      ¬ h.Restarts seqNo → h.ahead seqNo < 0 → h.JumpedOver (h.number seqNo) →
        Allows (some h) seqNo false (some h)
  | known {h : Heard} {seqNo : UInt8} :
      ¬ h.Restarts seqNo → h.number seqNo ∈ h.accepted → Allows (some h) seqNo false (some h)
  | old {h : Heard} {seqNo : UInt8} :
      ¬ h.Restarts seqNo → h.ahead seqNo < -32 → Allows (some h) seqNo false (some h)

/-- Nothing was accepted twice, and nothing is ahead of the newest number. -/
structure Sound : Prop where
  nodup : h.accepted.Nodup
  newest_mem : h.newest ∈ h.accepted
  le_newest : ∀ n ∈ h.accepted, n ≤ h.newest

theorem sound_start : (start seqNo).Sound where
  nodup := by
    rw [start]
    exact pairwise_singleton _ _
  newest_mem := mem_singleton_self _
  le_newest := by
    intro n hn
    rw [mem_singleton.mp hn]
    exact le_refl _

variable {h seqNo}

theorem Sound.newer (hs : h.Sound) (hahead : 0 < h.ahead seqNo) : (h.newer seqNo).Sound where
  nodup := by
    apply nodup_cons.mpr ⟨_, hs.nodup⟩
    intro hmem
    have hle := hs.le_newest _ hmem
    rw [number] at hle
    omega
  newest_mem := mem_cons_self
  le_newest := by
    intro n hn
    rcases mem_cons.mp hn with rfl | hold
    · exact le_refl _
    · have hle := hs.le_newest n hold
      show n ≤ h.newest + h.ahead seqNo
      omega

theorem Sound.late (hs : h.Sound) (hahead : h.ahead seqNo < 0)
    (hfresh : h.number seqNo ∉ h.accepted) : (h.late seqNo).Sound where
  nodup := nodup_cons.mpr ⟨hfresh, hs.nodup⟩
  newest_mem := mem_cons_of_mem _ hs.newest_mem
  le_newest := by
    intro n hn
    rcases mem_cons.mp hn with rfl | hold
    · show h.newest + h.ahead seqNo ≤ h.newest
      omega
    · exact hs.le_newest n hold

def SoundIfAny (heard : Option Heard) : Prop := ∀ h, heard = some h → h.Sound

variable {heard heard' : Option Heard}

theorem soundIfAny_step {usefull : Bool}
    (hstep : Allows heard seqNo usefull heard') (hheard : SoundIfAny heard) : SoundIfAny heard' := by
  rintro h' rfl
  cases hstep with
  | first | restart => exact sound_start seqNo
  | newer _ hahead => exact (hheard _ rfl).newer hahead
  | late _ hahead _ hfresh => exact (hheard _ rfl).late hahead hfresh
  | lost | known | old => exact hheard _ rfl

theorem soundIfAny_run {seqNos : List UInt8} {answers : List Bool}
    (hrun : Follows Allows heard seqNos answers heard') (hheard : SoundIfAny heard) :
    SoundIfAny heard' := by
  induction hrun with
  | nil => exact hheard
  | cons hstep _ ih => exact ih (soundIfAny_step hstep hheard)

end Heard

/-! ## The entry of the origin -/

/-- The entry remembers what was heard: each of the 32 numbers before the newest one that was
accepted is marked, and a mark stands for an accepted number unless it was jumped over. -/
structure Remembers (entry : Entry) (h : Heard) : Prop where
  valid : entry.broadcastSeqNoValid = true
  newest : (entry.broadcastSeqNo.toNat : ℤ) = h.newest % 256
  sound : h.Sound
  marked : ∀ k : ℕ, k < 32 → h.newest - 1 - k ∈ h.accepted →
    entry.broadcastWindow.toNat.testBit k = true
  mark : ∀ k : ℕ, k < 32 → entry.broadcastWindow.toNat.testBit k = true →
    h.newest - 1 - k ∈ h.accepted ∨ h.JumpedOver (h.newest - 1 - k)

/-- The entry before the first message of the origin, and after it. -/
def Recalls (entry : Entry) : Option Heard → Prop
  | none => entry.broadcastSeqNoValid = false
  | some h => Remembers entry h

section Entries

variable {entry : Entry} {h : Heard} {seqNo : UInt8}

theorem Remembers.offset (hr : Remembers entry h) :
    seqOffset seqNo entry.broadcastSeqNo = h.ahead seqNo := by
  rw [seqOffset_eq_bmod, hr.newest, Heard.ahead]
  exact Int.sub_emod_bmod ..

theorem Remembers.restarts_iff (hr : Remembers entry h) :
    (seqNo < cSeqNoWraparound && entry.broadcastSeqNo > cSeqNoWraparound) = true ↔
      h.Restarts seqNo := by
  have hnewest := hr.newest
  rw [Bool.and_eq_true, decide_eq_true_iff, decide_eq_true_iff, gt_iff_lt, UInt8.lt_iff_toNat_lt,
    UInt8.lt_iff_toNat_lt, Heard.Restarts, ← hnewest]
  show seqNo.toNat < 4 ∧ 4 < entry.broadcastSeqNo.toNat ↔ _
  omega

variable {entry' : Entry}

/-- The number of a start, with an empty window. -/
theorem remembers_start (hvalid : entry'.broadcastSeqNoValid = true)
    (hseqNo : entry'.broadcastSeqNo = seqNo) (hwindow : entry'.broadcastWindow = 0) :
    Remembers entry' (Heard.start seqNo) where
  valid := hvalid
  newest := by
    have hmax := seqNo.toNat_lt
    rw [hseqNo]
    show (seqNo.toNat : ℤ) = (seqNo.toNat : ℤ) % 256
    omega
  sound := Heard.sound_start seqNo
  marked := by
    intro k _ hmem
    have heq : (seqNo.toNat : ℤ) - 1 - (k : ℤ) = seqNo.toNat := mem_singleton.mp hmem
    omega
  mark := by
    intro k _ hbit
    rw [hwindow] at hbit
    simp at hbit

theorem number_emod : h.number seqNo % 256 = seqNo.toNat := by
  have hdvd := Int.dvd_self_sub_bmod (x := (seqNo.toNat : ℤ) - h.newest) (m := 256)
  have hmax := seqNo.toNat_lt
  rw [Heard.number, Heard.ahead]
  omega

/-- A newer number moves the window on. -/
theorem remembers_newer (hr : Remembers entry h) (hahead : 0 < h.ahead seqNo)
    (hvalid : entry'.broadcastSeqNoValid = true) (hseqNo : entry'.broadcastSeqNo = seqNo)
    (hwindow : entry'.broadcastWindow =
      (entry.broadcastWindow <<< 1 ||| 1) <<< UInt32.ofNat (h.ahead seqNo - 1).toNat) :
    Remembers entry' (h.newer seqNo) where
  valid := hvalid
  newest := by
    rw [hseqNo]
    exact number_emod.symm
  sound := hr.sound.newer hahead
  marked := by
    intro k hk hmem
    change h.number seqNo - 1 - k ∈ h.number seqNo :: h.accepted at hmem
    have hold : h.number seqNo - 1 - k ∈ h.accepted := by
      rcases mem_cons.mp hmem with heq | hold
      · omega
      · exact hold
    have hle := hr.sound.le_newest _ hold
    have hnumber : h.number seqNo = h.newest + h.ahead seqNo := rfl
    obtain ⟨d, hd⟩ : ∃ d : ℕ, h.ahead seqNo = d := ⟨(h.ahead seqNo).toNat, by omega⟩
    have hshift : (h.ahead seqNo - 1).toNat = d - 1 := by omega
    rw [hwindow, hshift, testBit_advance _ (by omega) (by omega) hk, if_neg (by omega)]
    by_cases hat : k + 1 = d
    · exact if_pos hat
    · rw [if_neg hat]
      apply hr.marked (k - d) (by omega)
      have heq : h.newest - 1 - ((k - d : ℕ) : ℤ) = h.number seqNo - 1 - k := by omega
      rw [heq]
      exact hold
  mark := by
    intro k hk hbit
    have hnumber : h.number seqNo = h.newest + h.ahead seqNo := rfl
    show h.number seqNo - 1 - k ∈ h.number seqNo :: h.accepted ∨ _
    by_cases hjump : 32 < h.ahead seqNo
    · right
      exact ⟨h.number seqNo, if_pos hjump, by show h.number seqNo - 1 - k < _; omega⟩
    · obtain ⟨d, hd⟩ : ∃ d : ℕ, h.ahead seqNo = d := ⟨(h.ahead seqNo).toNat, by omega⟩
      have hshift : (h.ahead seqNo - 1).toNat = d - 1 := by omega
      rw [hwindow, hshift, testBit_advance _ (by omega) (by omega) hk] at hbit
      split at hbit
      · exact absurd hbit (by decide)
      · split at hbit
        · left
          have heq : h.number seqNo - 1 - (k : ℤ) = h.newest := by omega
          rw [heq]
          exact mem_cons_of_mem _ hr.sound.newest_mem
        · have heq : h.newest - 1 - ((k - d : ℕ) : ℤ) = h.number seqNo - 1 - k := by omega
          have hmark := hr.mark (k - d) (by omega) hbit
          rw [heq] at hmark
          rcases hmark with hmem | ⟨j, hj, hlt⟩
          · left
            exact mem_cons_of_mem _ hmem
          · right
            exact ⟨j, (if_neg hjump).trans hj, hlt⟩

/-- A number between older ones is marked. -/
theorem remembers_late {k : ℕ} (hr : Remembers entry h) (hk : k < 32)
    (hahead : h.ahead seqNo = -1 - k) (hfresh : h.number seqNo ∉ h.accepted)
    (hvalid : entry'.broadcastSeqNoValid = true)
    (hseqNo : entry'.broadcastSeqNo = entry.broadcastSeqNo)
    (hwindow : entry'.broadcastWindow = entry.broadcastWindow ||| 1 <<< UInt32.ofNat k) :
    Remembers entry' (h.late seqNo) where
  valid := hvalid
  newest := by
    rw [hseqNo]
    exact hr.newest
  sound := hr.sound.late (by omega) hfresh
  marked := by
    intro j hj hmem
    rw [hwindow, testBit_or_toggle _ hk, Bool.or_eq_true, decide_eq_true_iff]
    rcases mem_cons.mp hmem with heq | hold
    · right
      change h.newest - 1 - (j : ℤ) = h.newest + h.ahead seqNo at heq
      omega
    · left
      exact hr.marked j hj hold
  mark := by
    intro j hj hbit
    rw [hwindow, testBit_or_toggle _ hk, Bool.or_eq_true, decide_eq_true_iff] at hbit
    rcases hbit with hbit | rfl
    · rcases hr.mark j hj hbit with hmem | hjumped
      · left
        exact mem_cons_of_mem _ hmem
      · right
        exact hjumped
    · left
      have heq : h.newest - 1 - (j : ℤ) = h.number seqNo := by
        rw [Heard.number]
        omega
      show h.newest - 1 - (j : ℤ) ∈ h.number seqNo :: h.accepted
      rw [heq]
      exact mem_cons_self

theorem checkBroadcast_allowed (seqNo : UInt8) {heard : Option Heard} (hrecalls : Recalls entry heard) :
    ∃ heard', Heard.Allows heard seqNo (checkBroadcast entry seqNo).2 heard' ∧
      Recalls (checkBroadcast entry seqNo).1 heard' := by
  cases heard with
  | none =>
    have hinvalid : (!entry.broadcastSeqNoValid) = true := by
      rw [show entry.broadcastSeqNoValid = false from hrecalls]
      rfl
    rw [checkBroadcast, if_pos hinvalid]
    exact ⟨_, .first seqNo, remembers_start rfl rfl rfl⟩
  | some h =>
    have hr : Remembers entry h := hrecalls
    have hvalid : ¬ (!entry.broadcastSeqNoValid) = true := by
      rw [hr.valid]
      decide
    rw [checkBroadcast, if_neg hvalid]
    by_cases hrestarts : h.Restarts seqNo
    · rw [if_pos (hr.restarts_iff.mpr hrestarts)]
      exact ⟨_, .restart hrestarts, remembers_start hr.valid rfl rfl⟩
    rw [if_neg (fun hreset ↦ hrestarts (hr.restarts_iff.mp hreset))]
    simp only [hr.offset]
    rcases lt_trichotomy (h.ahead seqNo) 0 with hbehind | hzero | hahead
    · rw [if_neg (by omega), if_pos hbehind]
      by_cases hwindow : h.ahead seqNo ≥ -32
      · rw [if_pos hwindow]
        obtain ⟨k, hk⟩ : ∃ k : ℕ, h.ahead seqNo = -1 - k := ⟨(-1 - h.ahead seqNo).toNat, by omega⟩
        have hindex : (-1 - h.ahead seqNo).toNat = k := by omega
        have hnumber : h.newest - 1 - (k : ℤ) = h.number seqNo := by
          rw [Heard.number]
          omega
        rw [hindex]
        by_cases hmarked : entry.broadcastWindow.toNat.testBit k = true
        · rw [if_pos ((and_toggle_pos _ (by omega)).mpr hmarked)]
          have hmark := hr.mark k (by omega) hmarked
          rw [hnumber] at hmark
          rcases hmark with hmem | hjumped
          · exact ⟨_, .known hrestarts hmem, hr⟩
          · exact ⟨_, .lost hrestarts hbehind hjumped, hr⟩
        · have hfresh : h.number seqNo ∉ h.accepted := by
            intro hmem
            apply hmarked
            apply hr.marked k (by omega)
            rw [hnumber]
            exact hmem
          rw [if_neg (fun hpos ↦ hmarked ((and_toggle_pos _ (by omega)).mp hpos))]
          exact ⟨_, .late hrestarts hbehind hwindow hfresh,
            remembers_late hr (by omega) hk hfresh hr.valid rfl rfl⟩
      · rw [if_neg hwindow]
        exact ⟨_, .old hrestarts (by omega), hr⟩
    · rw [if_pos hzero]
      have hnumber : h.number seqNo = h.newest := by rw [Heard.number, hzero, add_zero]
      have hmem : h.number seqNo ∈ h.accepted := by
        rw [hnumber]
        exact hr.sound.newest_mem
      exact ⟨_, .known hrestarts hmem, hr⟩
    · rw [if_neg (by omega), if_neg (by omega)]
      exact ⟨_, .newer hrestarts hahead, remembers_newer hr hahead hr.valid rfl rfl⟩

end Entries

/-! ## Runs -/

section Runs

def Hears (origin : Address) (table : Table) (heard : Option Heard) : Prop :=
  Recalls ((table.findTargetAddr origin).getD (newEntry origin)) heard

/-- A call for the origin, as a machine that never gets stuck. -/
def broadcastStep (origin : Address) (table : Table) (seqNo : UInt8) : Option (Table × Bool) :=
  some (table.checkBroadcastSeqNo origin seqNo)

theorem checkBroadcast_targetAddr (entry : Entry) (seqNo : UInt8) :
    (checkBroadcast entry seqNo).1.targetAddr = entry.targetAddr := by
  unfold checkBroadcast
  split
  · rfl
  · split
    · rfl
    · simp only
      split
      · rfl
      · split
        · split
          · split <;> rfl
          · rfl
        · rfl

theorem broadcast_simulates (origin : Address) :
    Simulates (broadcastStep origin) (fun _ _ ↦ True) Heard.Allows (Hears origin) := by
  intro table heard seqNo hhears _
  obtain ⟨heard', hallows, hrecalls⟩ := checkBroadcast_allowed seqNo hhears
  refine ⟨(table.checkBroadcastSeqNo origin seqNo).1, (table.checkBroadcastSeqNo origin seqNo).2,
    heard', rfl, hallows, ?_⟩
  have htarget : ((table.findTargetAddr origin).getD (newEntry origin)).targetAddr = origin := by
    cases hfind : table.findTargetAddr origin with
    | none => rfl
    | some entry => exact targetAddr_of_find hfind
  have hfound : (table.checkBroadcastSeqNo origin seqNo).1.findTargetAddr origin = some _ :=
    findTargetAddr_put.trans (if_pos ((checkBroadcast_targetAddr _ _).trans htarget).symm)
  rw [Hears, hfound]
  exact hrecalls

/-- From the first message of an origin on, for every sequence of calls: newer numbers are accepted,
older ones exactly if they are within the window and not accepted yet (or jumped over), a restart is
accepted; between restarts no number is accepted twice. -/
theorem broadcast_filters (table : Table) (origin : Address) (seqNos : List UInt8)
    (hfirst : ∀ entry, table.findTargetAddr origin = some entry →
      entry.broadcastSeqNoValid = false) :
    ∃ table' answers heard, runOps (broadcastStep origin) table seqNos = some (table', answers) ∧
      Follows Heard.Allows none seqNos answers heard ∧ Heard.SoundIfAny heard := by
  have hhears : Hears origin table none := by
    show ((table.findTargetAddr origin).getD (newEntry origin)).broadcastSeqNoValid = false
    cases hfind : table.findTargetAddr origin with
    | none => rfl
    | some entry => exact hfirst entry hfind
  obtain ⟨table', answers, heard, hrun, hfollows, -⟩ :=
    (broadcast_simulates origin).refines table none hhears seqNos
      (cleanRun_of_forall (fun _ _ ↦ trivial) seqNos)
  have hnone : Heard.SoundIfAny none := by
    intro h hh
    cases hh
  exact ⟨table', answers, heard, hrun, hfollows, Heard.soundIfAny_run hfollows hnone⟩

/-- A run over the wrap, through a gap and into the window. -/
theorem broadcast_filters_wrap :
    ∃ table' answers heard,
      runOps (broadcastStep 7) [] [250, 255, 253, 253, 30, 10] = some (table', answers) ∧
        Follows Heard.Allows none [250, 255, 253, 253, 30, 10] answers heard ∧
          Heard.SoundIfAny heard :=
  broadcast_filters [] 7 [250, 255, 253, 253, 30, 10] (by intro entry h; cases h)

/-- A filter that knows no restarts and forgets nothing of the window. -/
def plainFilter : Option Heard → List UInt8 → List Bool
  | _, [] => []
  | none, seqNo :: seqNos => true :: plainFilter (some (Heard.start seqNo)) seqNos
  | some h, seqNo :: seqNos =>
    if 0 < h.ahead seqNo then true :: plainFilter (some (h.newer seqNo)) seqNos
    else if -32 ≤ h.ahead seqNo ∧ h.number seqNo ∉ h.accepted then
      true :: plainFilter (some (h.late seqNo)) seqNos
    else false :: plainFilter (some h) seqNos

/-- Number 3 after 255 is taken for a restart, and number 255 is accepted once more. -/
theorem restart_forgets :
    ¬ ∀ (table : Table) (origin : Address) (seqNos : List UInt8),
      (∀ entry, table.findTargetAddr origin = some entry → entry.broadcastSeqNoValid = false) →
        ∃ table', runOps (broadcastStep origin) table seqNos =
          some (table', plainFilter none seqNos) := by
  intro h
  obtain ⟨table', hrun⟩ := h [] 7 [255, 3, 255] (by intro entry h; cases h)
  have hanswers : [true, true, true] = plainFilter none [255, 3, 255] :=
    Option.some.inj (congrArg (Option.map Prod.snd) hrun)
  exact absurd hanswers (by decide)

end Runs

end MicroFramework.Mesh
