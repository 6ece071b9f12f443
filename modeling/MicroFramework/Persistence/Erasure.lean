import MicroFramework.Library.Runs
import MicroFramework.Persistence.Bank

/-!
# The other bank is erased before objects are copied to it

The states of the persistence manager, with the banks they write.  Copying starts as soon as one
block of the other bank was erased, so that the whole bank is erased exactly when it has one block.
-/

namespace MicroFramework.Persistence

open Library Option

inductive State
  | flushNextObject
  | idle
  | erase
  | eraseSector
  | copyToOtherBank
  | copyBackToRam
  | switchBank
  deriving DecidableEq, Repr

/-- The manager with its banks; `erasedBlocks` are the blocks of bank B that were erased since
`STATE_Erase` was last entered. -/
structure Manager where
  bankA : Bank
  bankB : Bank
  state : State
  eraseIndex : ℕ
  erasedBlocks : List ℕ

/-- The turns of `AdvanceState` for which there is time, and `InvalidateEntry`.  Which object is
written where is up to the run; objects are written and deleted by writes to words of a bank. -/
inductive Action
  | flush (writes : List (ℕ × Word))
  | triggerCopy
  | synchronized
  | erase
  | eraseSector (faults : ℕ → Option ℕ)
  | copy (writes : List (ℕ × Word))
  | copied
  | copyBack (writes : List (ℕ × Word))
  | outOfMemory
  | copiedBack
  | switchBank (succeeds : Bool)
  | invalidateEntry (writesA writesB : List (ℕ × Word))

def Bank.writeAll (b : Bank) (writes : List (ℕ × Word)) : Bank :=
  writes.foldl (fun b w ↦ b.writeWords w.1 [w.2]) b

namespace Manager

variable (m : Manager)

def startErase : Manager := { m with state := .erase, erasedBlocks := [] }

def eraseSector (faults : ℕ → Option ℕ) : Manager :=
  let erasedBlocks :=
    if m.eraseIndex < m.bankB.blocks then m.eraseIndex :: m.erasedBlocks else m.erasedBlocks
  match m.bankB.erase m.eraseIndex with
  | (true, bankB, eraseIndex) =>
    { m with
      bankB := bankB.format faults
      eraseIndex := eraseIndex
      erasedBlocks := erasedBlocks
      state := .copyToOtherBank }
  | (false, bankB, eraseIndex) =>
    { m with bankB := bankB, eraseIndex := eraseIndex, erasedBlocks := erasedBlocks }

def switchBank (succeeds : Bool) : Manager :=
  let sequenceNumber : Word :=
    match m.bankA.header with
    | some header => m.bankA.words (header + 2) + 1
    | none => 1
  { m with
    bankA := m.bankB.setSequence sequenceNumber succeeds
    bankB := m.bankA
    state := .flushNextObject }

def invalidateEntry (writesA writesB : List (ℕ × Word)) : Manager :=
  let m := { m with bankA := m.bankA.writeAll writesA, bankB := m.bankB.writeAll writesB }
  match m.state with
  | .flushNextObject => m
  | .idle => { m with state := .flushNextObject }
  | .erase => m
  | .eraseSector => m
  | .copyToOtherBank => m.startErase
  | .copyBackToRam => m.startErase
  | .switchBank => m.startErase

def step : Action → Option Manager
  | .flush writes =>
    if m.state = .flushNextObject then some { m with bankA := m.bankA.writeAll writes } else none
  | .triggerCopy => if m.state = .flushNextObject then some m.startErase else none
  | .synchronized => if m.state = .flushNextObject then some { m with state := .idle } else none
  | .erase =>
    if m.state = .erase then some { m with eraseIndex := 0, state := .eraseSector } else none
  | .eraseSector faults => if m.state = .eraseSector then some (m.eraseSector faults) else none
  | .copy writes =>
    if m.state = .copyToOtherBank then some { m with bankB := m.bankB.writeAll writes } else none
  | .copied =>
    if m.state = .copyToOtherBank then some { m with state := .copyBackToRam } else none
  | .copyBack writes =>
    if m.state = .copyBackToRam then some { m with bankA := m.bankA.writeAll writes } else none
  | .outOfMemory => if m.state = .copyBackToRam then some m.startErase else none
  | .copiedBack => if m.state = .copyBackToRam then some { m with state := .switchBank } else none
  | .switchBank succeeds => if m.state = .switchBank then some (m.switchBank succeeds) else none
  | .invalidateEntry writesA writesB => some (m.invalidateEntry writesA writesB)

/-- Some turns of `AdvanceState`, as long as the state is `STATE_EraseSector`. -/
def eraseTurns (faults : ℕ → Option ℕ) : ℕ → Manager → Manager
  | 0, m => m
  | turns + 1, m =>
    if m.state = .eraseSector then eraseTurns faults turns (m.eraseSector faults) else m

/-- Every block of bank B was erased, and behind its new header all words are erased. -/
def Prepared : Prop := (∀ i, i < m.bankB.blocks → i ∈ m.erasedBlocks) ∧ m.bankB.Fresh

/-- The manager leaves `STATE_EraseSector`, and then bank B is prepared. -/
def Completes (faults : ℕ → Option ℕ) : Prop :=
  ∃ turns, (eraseTurns faults turns m).state = .copyToOtherBank ∧
    (eraseTurns faults turns m).Prepared

end Manager

/-- After `Initialize`, on any contents of the banks. -/
structure Started (m : Manager) : Prop where
  state : m.state = .flushNextObject

variable {m m' : Manager} {faults : ℕ → Option ℕ}

section Erase

@[simp] theorem format_blocks (b : Bank) : (b.format faults).blocks = b.blocks := by
  have hwords : ∀ words (b : Bank) at', (b.writeWords at' words).blocks = b.blocks := by
    intro words
    induction words with
    | nil => exact fun _ _ ↦ rfl
    | cons word words ih => exact fun b at' ↦ ih _ _
  have hloop : ∀ turns (b : Bank) at', (Bank.formatLoop faults turns at' b).blocks = b.blocks := by
    intro turns
    induction turns with
    | zero => exact fun _ _ ↦ rfl
    | succ turns ih =>
      intro b at'
      rw [Bank.formatLoop]
      cases faults at' with
      | none => exact hwords _ b at'
      | some written => exact (ih _ _).trans (hwords _ b at')
  exact hloop _ b 0

theorem eraseBlock_one {b : Bank} (hblocks : b.blocks = 1) {i : ℕ} (hi : i < b.size) :
    (b.eraseBlock 0).words i = erasedWord := by
  have hsize : b.size = b.blockWords := by rw [Bank.size, hblocks, Nat.one_mul]
  have hcond : 0 * b.blockWords ≤ i ∧ i < (0 + 1) * b.blockWords := by omega
  exact if_pos hcond

/-- The first turn leaves the state when there is a block to erase, and does nothing otherwise. -/
theorem eraseSector_eq (hindex : m.eraseIndex = 0) (herased : m.erasedBlocks = []) :
    m.eraseSector faults =
      if m.bankB.blocks = 0 then m
      else
        { m with
          bankB := (m.bankB.eraseBlock 0).format faults
          eraseIndex := 1
          erasedBlocks := [0]
          state := .copyToOtherBank } := by
  split_ifs with hblocks
  · simp only [Manager.eraseSector, Bank.erase, hindex, hblocks, Nat.le_refl, if_true,
      Nat.lt_irrefl, if_false]
    cases m
    simp_all
  · have hle : ¬ m.bankB.blocks ≤ 0 := by omega
    have hpos : 0 < m.bankB.blocks := by omega
    simp only [Manager.eraseSector, Bank.erase, hindex, hle, hpos, herased, if_true, if_false]

theorem eraseTurns_succ (hstate : m.state = .eraseSector) (hindex : m.eraseIndex = 0)
    (herased : m.erasedBlocks = []) (hblocks : m.bankB.blocks ≠ 0) (turns : ℕ) :
    Manager.eraseTurns faults (turns + 1) m = m.eraseSector faults := by
  have hleft : (m.eraseSector faults).state = .copyToOtherBank := by
    rw [eraseSector_eq hindex herased, if_neg hblocks]
  rw [Manager.eraseTurns, if_pos hstate]
  cases turns with
  | zero => rfl
  | succ turns =>
    rw [Manager.eraseTurns, hleft]
    rfl

theorem eraseTurns_of_no_block (hstate : m.state = .eraseSector) (hindex : m.eraseIndex = 0)
    (herased : m.erasedBlocks = []) (hblocks : m.bankB.blocks = 0) (turns : ℕ) :
    Manager.eraseTurns faults turns m = m := by
  induction turns with
  | zero => rfl
  | succ turns ih =>
    rw [Manager.eraseTurns, if_pos hstate, eraseSector_eq hindex herased, if_pos hblocks]
    exact ih

/-- After the turn that leaves the state, bank B is prepared exactly when it has one block. -/
theorem prepared_eraseSector_iff (hindex : m.eraseIndex = 0) (herased : m.erasedBlocks = [])
    (hblocks : m.bankB.blocks ≠ 0) :
    (m.eraseSector faults).Prepared ↔ m.bankB.blocks = 1 := by
  have hsame : ((m.bankB.eraseBlock 0).format faults).blocks = m.bankB.blocks := format_blocks _
  rw [eraseSector_eq hindex herased, if_neg hblocks]
  constructor
  · rintro ⟨hall, -⟩
    by_contra hne
    have hmem : (1 : ℕ) ∈ [0] := hall 1 (by
      change 1 < ((m.bankB.eraseBlock 0).format faults).blocks
      rw [hsame]
      omega)
    simp at hmem
  · intro hone
    refine ⟨fun i hi ↦ ?_, Bank.format_fresh fun i hi ↦ eraseBlock_one hone hi⟩
    have hlt : i < ((m.bankB.eraseBlock 0).format faults).blocks := hi
    rw [hsame, hone] at hlt
    simp [Nat.lt_one_iff.mp hlt]

theorem completes_iff (hstate : m.state = .eraseSector) (hindex : m.eraseIndex = 0)
    (herased : m.erasedBlocks = []) : m.Completes faults ↔ m.bankB.blocks = 1 := by
  by_cases hblocks : m.bankB.blocks = 0
  · refine iff_of_false ?_ (by omega)
    rintro ⟨turns, hleft, -⟩
    rw [eraseTurns_of_no_block hstate hindex herased hblocks, hstate] at hleft
    cases hleft
  · rw [← @prepared_eraseSector_iff m faults hindex herased hblocks]
    constructor
    · rintro ⟨turns, hleft, hprepared⟩
      cases turns with
      | zero =>
        rw [Manager.eraseTurns, hstate] at hleft
        cases hleft
      | succ turns => rwa [eraseTurns_succ hstate hindex herased hblocks] at hprepared
    · intro hprepared
      refine ⟨1, ?_, ?_⟩
      · rw [eraseTurns_succ hstate hindex herased hblocks, eraseSector_eq hindex herased,
          if_neg hblocks]
      · rwa [eraseTurns_succ hstate hindex herased hblocks]

end Erase

/-- Before the first block is erased, none is. -/
structure Invariant (m : Manager) : Prop where
  erase : m.state = .erase → m.erasedBlocks = []
  eraseSector : m.state = .eraseSector → m.eraseIndex = 0 ∧ m.erasedBlocks = []

theorem Invariant.of_started (h : Started m) : Invariant m :=
  ⟨fun hstate ↦ by simp [h.state] at hstate, fun hstate ↦ by simp [h.state] at hstate⟩

theorem Invariant.startErase (m : Manager) : Invariant m.startErase :=
  ⟨fun _ ↦ rfl, fun hstate ↦ nomatch hstate⟩

theorem Invariant.of_ne (herase : m.state ≠ .erase) (hsector : m.state ≠ .eraseSector) :
    Invariant m :=
  ⟨fun hstate ↦ absurd hstate herase, fun hstate ↦ absurd hstate hsector⟩

theorem Invariant.step {a : Action} (h : Invariant m) (hstep : m.step a = some m') :
    Invariant m' := by
  cases a with
  | invalidateEntry writesA writesB =>
    obtain rfl := some.inj hstep
    simp only [Manager.invalidateEntry]
    split
    next hstate => exact .of_ne (by simp [hstate]) (by simp [hstate])
    next => exact .of_ne (by simp) (by simp)
    next => exact ⟨h.erase, h.eraseSector⟩
    next => exact ⟨h.erase, h.eraseSector⟩
    next => exact .startErase _
    next => exact .startErase _
    next => exact .startErase _
  | eraseSector faults =>
    simp only [Manager.step] at hstep
    split_ifs at hstep with hstate
    obtain rfl := some.inj hstep
    obtain ⟨hindex, herased⟩ := h.eraseSector hstate
    rw [eraseSector_eq hindex herased]
    split_ifs
    · exact h
    · exact .of_ne (by simp) (by simp)
  | erase =>
    simp only [Manager.step] at hstep
    split_ifs at hstep with hstate
    obtain rfl := some.inj hstep
    exact ⟨fun hstate' ↦ (nomatch hstate'), fun _ ↦ ⟨rfl, h.erase hstate⟩⟩
  | triggerCopy | outOfMemory =>
    simp only [Manager.step] at hstep
    split_ifs at hstep
    exact some.inj hstep ▸ .startErase m
  | flush writes | synchronized | copy writes | copied | copyBack writes | copiedBack
    | switchBank succeeds =>
    simp only [Manager.step] at hstep
    split_ifs at hstep with hstate
    obtain rfl := some.inj hstep
    exact .of_ne (by simp [hstate, Manager.switchBank]) (by simp [hstate, Manager.switchBank])

theorem invariant_of_reachable
    (h : Reachable Manager.step (fun _ _ ↦ True) Started m) : Invariant m :=
  h.invariant (fun _ ↦ Invariant.of_started) fun _ _ _ hm _ hstep ↦ hm.step hstep

/-- In every state of a run in which bank B is being erased, the erasure comes to an end with bank B
prepared exactly when the bank has one block; and so does every turn that starts to copy. -/
theorem copying_starts_erased_iff (h : Reachable Manager.step (fun _ _ ↦ True) Started m)
    (hstate : m.state = .eraseSector) (faults : ℕ → Option ℕ) :
    (m.Completes faults ↔ m.bankB.blocks = 1) ∧
      ∀ a m', m.step a = some m' → m'.state = .copyToOtherBank →
        (m'.Prepared ↔ m.bankB.blocks = 1) := by
  obtain ⟨hindex, herased⟩ := (invariant_of_reachable h).eraseSector hstate
  refine ⟨completes_iff hstate hindex herased, fun a m' hstep hleft ↦ ?_⟩
  cases a with
  | eraseSector faults =>
    rw [Manager.step, if_pos hstate] at hstep
    obtain rfl := some.inj hstep
    have hblocks : m.bankB.blocks ≠ 0 := by
      intro hblocks
      rw [eraseSector_eq hindex herased, if_pos hblocks, hstate] at hleft
      cases hleft
    exact prepared_eraseSector_iff hindex herased hblocks
  | invalidateEntry writesA writesB =>
    obtain rfl := some.inj hstep
    simp [Manager.invalidateEntry, hstate] at hleft
  | flush | triggerCopy | synchronized | erase | copy | copied | copyBack | outOfMemory
    | copiedBack | switchBank =>
    simp [Manager.step, hstate] at hstep

def staleBanks (blocks : ℕ) : Manager where
  bankA := ⟨1, 8, fun _ ↦ 0, none⟩
  bankB := ⟨blocks, 8, fun _ ↦ 0, none⟩
  state := .flushNextObject
  eraseIndex := 0
  erasedBlocks := []

/-- The manager of these banks, when it is about to erase the first block. -/
def erasing (blocks : ℕ) : Manager :=
  { staleBanks blocks with state := .eraseSector }

theorem erasing_reachable (blocks : ℕ) :
    Reachable Manager.step (fun _ _ ↦ True) Started (erasing blocks) := by
  have hstarted : Reachable Manager.step (fun _ _ ↦ True) Started (staleBanks blocks) :=
    .start ⟨rfl⟩
  exact (hstarted.step Action.triggerCopy trivial rfl).step Action.erase trivial rfl

/-- A bank of one block. -/
theorem copying_starts_erased_one : (erasing 1).Completes fun _ ↦ none :=
  (copying_starts_erased_iff (erasing_reachable 1) rfl fun _ ↦ none).1.mpr rfl

/-- With two blocks, copying starts before the second one is erased. -/
theorem copying_starts_stale :
    ¬ ∀ m, Reachable Manager.step (fun _ _ ↦ True) Started m → m.state = .eraseSector →
      ∀ faults, m.Completes faults := by
  intro hall
  have hcompletes := hall (erasing 2) (erasing_reachable 2) rfl fun _ ↦ none
  rw [completes_iff rfl rfl rfl] at hcompletes
  exact absurd hcompletes (by decide)

end MicroFramework.Persistence
