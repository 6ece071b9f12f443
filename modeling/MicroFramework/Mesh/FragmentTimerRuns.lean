import MicroFramework.Mesh.FragmentTimer

/-!
# Items in time order

In every run whose steps are clean, the list of the timer is sorted, the engine's timer is armed for
the first item unless `HandleTimeout` is about to look at the list, and every item that was added is
in the list, was removed, or was handled once and not before its time; once nothing is due, all items
that are left are still to come.

A step is clean if the added item belongs in front or has a later item in the list; if the time of
the item that the timer is armed for is in reach of an `int`, and not past where the first item was
removed; and if `HandleTimeout` finds the first item expired, or the timer armed for it.
-/

namespace MicroFramework.Mesh

open Library TimerRun FragmentTimer List Option Int
open Timers (Timer Clock int64 ticksPerMillisecond timeoutInfinite horizon)

/-! ## Arming -/

/-- The timer is enabled, less than a millisecond before the item, and not after it unless it is due
already. -/
structure ArmedFor (offset now : ℤ) (item : TimerItem) (t : Timer) : Prop where
  enabled : t.enabledTimer = true
  not_early : item.timeoutTicks - ticksPerMillisecond < t.timeExpire + offset
  not_late : t.timeExpire + offset ≤ max item.timeoutTicks (now + offset)

theorem ArmedFor.later {offset now now' : ℤ} {item : TimerItem} {t : Timer}
    (h : ArmedFor offset now item t) (hnow : now ≤ now') : ArmedFor offset now' item t where
  enabled := h.enabled
  not_early := h.not_early
  not_late := h.not_late.trans (max_le_max (le_refl _) (by omega))

/-- The timer is one of relative times, fires once, and knows no changes of the clock. -/
structure OneShot (t : Timer) : Prop where
  anyChange : t.anyChange = 0
  relative : t.absoluteTimer = false
  once : t.recurring = false

/-- The milliseconds up to the item, in exact arithmetic. -/
def TimerItem.millisecondsLeft (item : TimerItem) (c : Clock) : ℤ :=
  (item.timeoutTicks - c.localTime).tdiv ticksPerMillisecond

/-- The milliseconds up to the item are a value of type `int`, and the engine's clock is in range. -/
def InReach (item : TimerItem) (c : Clock) : Prop :=
  -2 ^ 31 ≤ item.millisecondsLeft c ∧ item.millisecondsLeft c < 2 ^ 31 ∧
    -horizon ≤ c.machineTime ∧ c.machineTime < horizon

instance (item : TimerItem) (c : Clock) : Decidable (InReach item c) :=
  inferInstanceAs (Decidable (_ ∧ _ ∧ _ ∧ _))

section Arming

variable {item : TimerItem} {c : Clock} {t : Timer} {offset now dueTime period : ℤ}

theorem millisecondsLeft_spec (item : TimerItem) (c : Clock) :
    ∃ part, item.timeoutTicks - c.localTime = 10000 * item.millisecondsLeft c + part ∧
      -10000 < part ∧ part < 10000 ∧ (c.localTime ≤ item.timeoutTicks → 0 ≤ part) := by
  refine ⟨(item.timeoutTicks - c.localTime).tmod 10000, ?_, ?_, ?_, ?_⟩
  · exact (mul_tdiv_add_tmod _ _).symm
  · exact lt_tmod_of_pos _ (by decide)
  · exact tmod_lt_of_pos _ (by decide)
  · intro hleft
    exact tmod_nonneg _ (by omega)

theorem dueTime_eq (h : InReach item c) : item.dueTime c = item.millisecondsLeft c := by
  obtain ⟨part, hpart, hlow, hhigh, -⟩ := millisecondsLeft_spec item c
  have hleft := h.1
  have hright := h.2.1
  have hexact : int64 (item.timeoutTicks - c.localTime) = item.timeoutTicks - c.localTime := by
    rw [int64]
    apply bmod_eq_of_le <;> omega
  rw [TimerItem.dueTime, hexact]
  exact bmod_eq_of_le hleft hright

/-- The times of `Change` are stored first. -/
theorem setTimes_int32 (ht : OneShot t) (dueTime period : ℤ) :
    t.setTimes ⟨.int32, some dueTime, some period⟩ =
      ({ t with
          timeExpire := Timers.Kind.int32.toTime dueTime
          timeFrequency := Timers.Kind.int32.toTime period }, none) := by
  have hkind : ¬ t.absoluteTimer ≠ decide (Timers.Kind.int32 = Timers.Kind.absolute) := by
    rw [ht.relative]
    decide
  rw [Timer.setTimes, if_neg hkind]

/-- `Change` to no period. -/
theorem recur_once (hperiod : t.timeFrequency = 0 ∨ t.timeFrequency = timeoutInfinite) :
    t.recur .int32 = ({ t with recurring := false }, none) := by
  rw [Timer.recur, if_pos hperiod]

theorem change_dueTime (ht : OneShot t) (hdue : 0 ≤ dueTime) (hmax : dueTime < 2 ^ 31)
    (hlow : -horizon ≤ c.machineTime) (hhigh : c.machineTime < horizon)
    (hperiod : period = -1 ∨ period = 0) :
    t.change ⟨.int32, some dueTime, some period⟩ c =
      ({ t with
          timeExpire := c.machineTime + dueTime * ticksPerMillisecond
          timeFrequency := Timers.Kind.int32.toTime period
          enabledTimer := true
          recurring := false }, none) := by
  have hscaled : Timers.Kind.int32.scale dueTime = dueTime * ticksPerMillisecond := by
    rw [Timers.Kind.scale, int64, ticksPerMillisecond]
    exact bmod_eq_of_le (by omega) (by omega)
  have hstored : Timers.Kind.int32.toTime dueTime = dueTime := if_neg (by omega)
  have hfinite : ¬ dueTime = timeoutInfinite := by
    rw [timeoutInfinite]
    omega
  have hrange : Timers.minTime ≤ dueTime * ticksPerMillisecond ∧
      dueTime * ticksPerMillisecond ≤ Timers.maxTime := by
    rw [Timers.minTime, Timers.maxTime, ticksPerMillisecond]
    omega
  have hsum : int64 (dueTime * ticksPerMillisecond + c.machineTime) =
      c.machineTime + dueTime * ticksPerMillisecond := by
    rw [int64, add_comm]
    rw [horizon] at hlow hhigh
    rw [ticksPerMillisecond]
    exact bmod_eq_of_le (by omega) (by omega)
  have hunused : Timers.Kind.int32.toTime period = 0 ∨
      Timers.Kind.int32.toTime period = timeoutInfinite := by
    rcases hperiod with rfl | rfl
    · exact .inr rfl
    · exact .inl rfl
  rw [Timer.change, if_neg (fun h ↦ h ht.anyChange), setTimes_int32 ht, hstored]
  simp only [Timer.enable]
  rw [if_neg hfinite, if_neg (by decide), hscaled, if_pos hrange, hsum]
  exact recur_once hunused

/-- `Change` to no time at all. -/
theorem change_infinite (ht : OneShot t) :
    t.change ⟨.int32, some (-1), some (-1)⟩ c =
      ({ t with
          timeExpire := timeoutInfinite
          timeFrequency := timeoutInfinite
          enabledTimer := false
          recurring := false }, none) := by
  have hstored : Timers.Kind.int32.toTime (-1) = timeoutInfinite := rfl
  rw [Timer.change, if_neg (fun h ↦ h ht.anyChange), setTimes_int32 ht, hstored]
  simp only [Timer.enable]
  rw [if_pos trivial]
  exact recur_once (.inr rfl)

end Arming

/-! ## Inserting -/

/-- Every item is due no later than those behind it. -/
def InOrder (items : List TimerItem) : Prop :=
  items.Pairwise fun first second ↦ first.timeoutTicks ≤ second.timeoutTicks

section Inserting

variable {items : List TimerItem} {item : TimerItem}

/-- Before the first later item, an item is where it belongs. -/
theorem inOrder_insertIdx {index : ℕ} (h : InOrder items)
    (hfind : items.findIdx? (fun current ↦ current.timeoutTicks > item.timeoutTicks) = some index) :
    InOrder (items.insertIdx index item) := by
  induction items generalizing index with
  | nil => cases hfind
  | cons first items ih =>
    obtain ⟨hfirst, hrest⟩ := pairwise_cons.mp h
    rw [findIdx?_cons] at hfind
    by_cases hlater : first.timeoutTicks > item.timeoutTicks
    · rw [if_pos (by simpa using hlater)] at hfind
      obtain rfl := some.inj hfind
      rw [insertIdx_zero]
      apply pairwise_cons.mpr ⟨_, h⟩
      intro other hother
      rcases mem_cons.mp hother with rfl | hmem
      · exact hlater.le
      · exact hlater.le.trans (hfirst other hmem)
    · rw [if_neg (by simpa using hlater)] at hfind
      obtain ⟨k, hk, rfl⟩ := map_eq_some_iff.mp hfind
      rw [insertIdx_succ_cons]
      apply pairwise_cons.mpr ⟨_, ih hrest hk⟩
      intro other hother
      rcases eq_or_mem_of_mem_insertIdx hother with rfl | hmem
      · exact not_lt.mp hlater
      · exact hfirst other hmem

/-- In front of the first item, too. -/
theorem inOrder_cons (h : InOrder items)
    (hfront : ∀ first ∈ items.head?, item.timeoutTicks ≤ first.timeoutTicks) :
    InOrder (item :: items) := by
  apply pairwise_cons.mpr ⟨_, h⟩
  intro other hother
  cases items with
  | nil => cases hother
  | cons first items =>
    have hle := hfront first rfl
    rcases mem_cons.mp hother with rfl | hmem
    · exact hle
    · exact hle.trans ((pairwise_cons.mp h).1 other hmem)

end Inserting

/-! ## The methods -/

/-- The list is in order, and the timer armed for its first item unless `HandleTimeout` is called. -/
structure Ready (offset now : ℤ) (called : Prop) (t : FragmentTimer) : Prop where
  oneShot : OneShot t.timer
  inOrder : InOrder t.timerItems
  armed : ¬ called → ∀ item ∈ t.timerItems.head?, ArmedFor offset now item t.timer

/-- The added item is refused, belongs in front and is in reach, or has a later item in the list. -/
def AddsInOrder (t : FragmentTimer) (item : TimerItem) (c : Clock) : Prop :=
  t.maxItems ≤ t.timerItems.length ∨
    (∀ first ∈ t.timerItems.head?, item.timeoutTicks ≤ first.timeoutTicks) ∧ InReach item c ∨
      (∀ first ∈ t.timerItems.head?, first.timeoutTicks ≤ item.timeoutTicks) ∧
        ∃ later ∈ t.timerItems, item.timeoutTicks < later.timeoutTicks

/-- The item that becomes the first one is in reach and has not passed. -/
def RemovesInTime (t : FragmentTimer) (index : ℕ) (c : Clock) : Prop :=
  index = 0 → ∀ next ∈ t.timerItems[1]?, InReach next c ∧ 0 ≤ next.millisecondsLeft c

/-- The first item has expired, or the timer is armed for it. -/
def HandlesInTime (offset now : ℤ) (t : FragmentTimer) : Prop :=
  ∀ item ∈ t.timerItems.head?,
    item.timeoutTicks ≤ now + offset ∨ ArmedFor offset now item t.timer

section Methods

variable {t : FragmentTimer} {offset now : ℤ} {called : Prop} {item : TimerItem}

theorem change_eq {c : Clock} {dueTime period : ℤ} {timer : Timer}
    (h : t.timer.change ⟨.int32, some dueTime, some period⟩ c = (timer, none)) :
    t.change c dueTime period = ({ t with timer := timer }, none) := by
  rw [change, h]
  rfl

theorem change_armed {dueTime period : ℤ} (ht : OneShot t.timer)
    (hreach : InReach item (clockAt offset now))
    (hdue : dueTime = max (item.millisecondsLeft (clockAt offset now)) 0)
    (hperiod : period = -1 ∨ period = 0) :
    ∃ timer, t.change (clockAt offset now) dueTime period = ({ t with timer := timer }, none) ∧
      OneShot timer ∧ timer.triggered = t.timer.triggered ∧ ArmedFor offset now item timer := by
  obtain ⟨-, hmax, hlow, hhigh⟩ := hreach
  have hchange := change_dueTime ht (by omega : 0 ≤ dueTime) (by omega) hlow hhigh hperiod
  obtain ⟨part, hpart, hpartlow, hparthigh, hsign⟩ :=
    millisecondsLeft_spec item (clockAt offset now)
  generalize item.millisecondsLeft (clockAt offset now) = left at *
  have hlocal : (clockAt offset now).localTime = now + offset := rfl
  have hmachine : (clockAt offset now).machineTime = now := rfl
  rw [hlocal] at hpart hsign
  rw [hmachine] at hchange
  refine ⟨_, change_eq hchange, ⟨ht.anyChange, ht.relative, rfl⟩, rfl,
    rfl, ?_, ?_⟩
  · show item.timeoutTicks - 10000 < now + dueTime * 10000 + offset
    omega
  · show now + dueTime * 10000 + offset ≤ max item.timeoutTicks (now + offset)
    omega

theorem change_off (ht : OneShot t.timer) (c : Clock) :
    ∃ timer, t.change c (-1) (-1) = ({ t with timer := timer }, none) ∧
      OneShot timer ∧ timer.triggered = t.timer.triggered :=
  ⟨_, change_eq (change_infinite ht), ⟨ht.anyChange, ht.relative, rfl⟩, rfl⟩

theorem insertIndex_cases (t : FragmentTimer) (item : TimerItem) :
    t.insertIndex item = 0 ∧
        ((∀ later ∈ t.timerItems, later.timeoutTicks ≤ item.timeoutTicks) ∨
          ∃ first ∈ t.timerItems.head?, item.timeoutTicks < first.timeoutTicks) ∨
      ∃ k, t.insertIndex item = k + 1 ∧ t.timerItems.findIdx?
        (fun current ↦ current.timeoutTicks > item.timeoutTicks) = some (k + 1) := by
  rw [insertIndex]
  cases hfind : t.timerItems.findIdx?
      (fun current ↦ decide (current.timeoutTicks > item.timeoutTicks)) with
  | none =>
    left
    refine ⟨rfl, .inl ?_⟩
    intro later hlater
    simpa using findIdx?_eq_none_iff.mp hfind later hlater
  | some index =>
    cases index with
    | zero =>
      left
      refine ⟨rfl, .inr ?_⟩
      obtain ⟨hlt, hfirst, -⟩ := findIdx?_eq_some_iff_getElem.mp hfind
      refine ⟨t.timerItems[0], ?_, by simpa using hfirst⟩
      rw [head?_eq_getElem?, getElem?_eq_getElem hlt]
      rfl
    | succ k =>
      right
      exact ⟨k, rfl, rfl⟩

/-- The index is one of the list, or 0. -/
theorem insertIndex_le (t : FragmentTimer) (item : TimerItem) :
    t.insertIndex item ≤ t.timerItems.length := by
  rcases insertIndex_cases t item with ⟨hzero, -⟩ | ⟨k, hk, hfind⟩
  · omega
  · have hlt := (findIdx?_eq_some_iff_getElem.mp hfind).1
    omega

theorem change_timerItems (t : FragmentTimer) (c : Clock) (dueTime period : ℤ) :
    (t.change c dueTime period).1.timerItems = t.timerItems :=
  rfl

theorem addItemToList_perm (t : FragmentTimer) (c : Clock) (item : TimerItem) :
    (t.addItemToList c item).1.timerItems.Perm
      (if (t.addItemToList c item).2 = some .argument then t.timerItems
      else item :: t.timerItems) := by
  have hperm := perm_insertIdx item t.timerItems (insertIndex_le t item)
  unfold addItemToList
  split
  · exact List.Perm.refl _
  · simp only
    split
    · rw [change_timerItems, if_neg]
      · exact hperm
      · rw [change]
        simp
    · exact hperm

theorem addItemToList_ready (h : Ready offset now called t)
    (hclean : AddsInOrder t item (clockAt offset now)) :
    Ready offset now called (t.addItemToList (clockAt offset now) item).1 ∧
      (t.addItemToList (clockAt offset now) item).1.timer.triggered =
        t.timer.triggered := by
  rw [addItemToList]
  by_cases hfull : t.maxItems ≤ t.timerItems.length
  · rw [if_pos hfull]
    exact ⟨h, rfl⟩
  rw [if_neg hfull]
  simp only
  rcases insertIndex_cases t item with ⟨hzero, hfront⟩ | ⟨k, hk, hfind⟩
  · rw [if_pos hzero, hzero, insertIdx_zero]
    have hplace : (∀ first ∈ t.timerItems.head?, item.timeoutTicks ≤ first.timeoutTicks) ∧
        InReach item (clockAt offset now) := by
      rcases hclean with hrefused | hfirst | ⟨hfirst, later, hlater, hlt⟩
      · exact absurd hrefused hfull
      · exact hfirst
      · exfalso
        rcases hfront with hnone | ⟨first, hmem, hbefore⟩
        · exact absurd (hnone later hlater) (not_le.mpr hlt)
        · exact absurd (hfirst first hmem) (not_le.mpr hbefore)
    obtain ⟨timer, hchange, honce, htriggered, harmed⟩ := change_armed
      (t := { t with timerItems := item :: t.timerItems }) h.oneShot hplace.2 rfl (.inl rfl)
    have hdue : (if item.dueTime (clockAt offset now) < 0 then 0
        else item.dueTime (clockAt offset now)) =
          max (item.millisecondsLeft (clockAt offset now)) 0 := by
      rw [dueTime_eq hplace.2]
      split <;> omega
    rw [hdue, hchange]
    refine ⟨⟨honce, inOrder_cons h.inOrder hplace.1, ?_⟩, htriggered⟩
    intro _ first hfirst
    obtain rfl := mem_some_iff.mp hfirst
    exact harmed
  · have hlt := (findIdx?_eq_some_iff_getElem.mp hfind).1
    have hhead : (t.timerItems.insertIdx (k + 1) item).head? = t.timerItems.head? := by
      cases hitems : t.timerItems with
      | nil =>
        rw [hitems] at hlt
        exact absurd hlt (Nat.not_lt_zero _)
      | cons first items => rfl
    rw [if_neg (by omega), hk]
    refine ⟨⟨h.oneShot, inOrder_insertIdx h.inOrder hfind, ?_⟩, rfl⟩
    show ¬ called → ∀ first ∈ (t.timerItems.insertIdx (k + 1) item).head?, _
    rw [hhead]
    exact h.armed

theorem removeItemFromList_timerItems (t : FragmentTimer) (c : Clock) (index : ℕ) :
    (t.removeItemFromList c index).1.timerItems = t.timerItems.eraseIdx index := by
  unfold removeItemFromList
  simp only
  split
  · rfl
  · split <;> rfl

theorem removeItemFromList_ready {index : ℕ} (h : Ready offset now called t)
    (hclean : RemovesInTime t index (clockAt offset now)) :
    Ready offset now called (t.removeItemFromList (clockAt offset now) index).1 ∧
      (t.removeItemFromList (clockAt offset now) index).1.timer.triggered =
        t.timer.triggered := by
  have hinOrder : InOrder (t.timerItems.eraseIdx index) := h.inOrder.sublist (eraseIdx_sublist _ _)
  rw [removeItemFromList]
  simp only
  cases herase : t.timerItems.eraseIdx index with
  | nil =>
    obtain ⟨timer, hchange, honce, htriggered⟩ := change_off
      (t := { t with timerItems := [] }) h.oneShot (clockAt offset now)
    simp only
    rw [hchange]
    refine ⟨⟨honce, List.Pairwise.nil, ?_⟩, htriggered⟩
    intro _ item hitem
    cases hitem
  | cons next items =>
    rw [herase] at hinOrder
    simp only
    by_cases hindex : index = 0
    · rw [if_pos hindex]
      have hnext : next ∈ t.timerItems[1]? := by
        have hget := congrArg (fun items ↦ items[0]?) herase
        rw [hindex] at hget
        cases hitems : t.timerItems with
        | nil =>
          rw [hitems] at hget
          cases hget
        | cons first rest =>
          rw [hitems] at hget
          exact hget
      obtain ⟨hreach, hleft⟩ := hclean hindex next hnext
      obtain ⟨timer, hchange, honce, htriggered, harmed⟩ := change_armed
        (t := { t with timerItems := next :: items }) h.oneShot hreach
        (max_eq_left hleft).symm (.inr rfl)
      rw [dueTime_eq hreach, hchange]
      refine ⟨⟨honce, hinOrder, ?_⟩, htriggered⟩
      intro _ first hfirst
      obtain rfl := mem_some_iff.mp hfirst
      exact harmed
    · rw [if_neg hindex]
      refine ⟨⟨h.oneShot, hinOrder, ?_⟩, rfl⟩
      have hhead : (next :: items).head? = t.timerItems.head? := by
        rw [← herase]
        cases hitems : t.timerItems with
        | nil => rfl
        | cons first rest =>
          cases index with
          | zero => exact absurd rfl hindex
          | succ k => rfl
      show ¬ called → ∀ first ∈ (next :: items).head?, _
      rw [hhead]
      exact h.armed

/-- What `HandleTimeout` does: it takes the first item, if its time has come. -/
theorem handleTimeout_cases (h : Ready offset now True t) :
    (∃ item, (t.handleTimeout (clockAt offset now)).2 = some item ∧
        t.timerItems = item :: (t.handleTimeout (clockAt offset now)).1.timerItems ∧
        item.timeoutTicks ≤ now + offset ∧
        Ready offset now True (t.handleTimeout (clockAt offset now)).1) ∨
      t.handleTimeout (clockAt offset now) = (t, none) ∧
        ∀ item ∈ t.timerItems.head?, now + offset < item.timeoutTicks := by
  rw [handleTimeout]
  cases hitems : t.timerItems with
  | nil =>
    right
    refine ⟨rfl, ?_⟩
    intro item hitem
    cases hitem
  | cons item items =>
    have hinOrder := h.inOrder
    rw [hitems] at hinOrder
    simp only
    by_cases hexpired : item.timeoutTicks ≤ (clockAt offset now).localTime
    · left
      rw [if_pos hexpired]
      refine ⟨item, rfl, ?_, hexpired, ?_⟩
      · split <;> rfl
      · simp only
        split
        · obtain ⟨timer, hchange, honce, -⟩ := change_off
            (t := { t with timerItems := items }) h.oneShot (clockAt offset now)
          rw [hchange]
          exact ⟨honce, hinOrder.tail, fun hnot ↦ absurd trivial hnot⟩
        · exact ⟨h.oneShot, hinOrder.tail, fun hnot ↦ absurd trivial hnot⟩
    · right
      rw [if_neg hexpired]
      refine ⟨rfl, ?_⟩
      intro first hfirst
      obtain rfl := mem_some_iff.mp hfirst
      exact not_le.mp hexpired

theorem Ready.later {now' : ℤ} (h : Ready offset now called t) (hnow : now ≤ now') :
    Ready offset now' called t where
  oneShot := h.oneShot
  inOrder := h.inOrder
  armed := fun hnot item hitem ↦ (h.armed hnot item hitem).later hnow

/-- What the engine does with the timer disarms it only to call `HandleTimeout`. -/
theorem Ready.engine {timer : Timer} {called' : Prop} (h : Ready offset now called t)
    (honce : OneShot timer)
    (hsame : ¬ called' → ¬ called ∧ timer.enabledTimer = t.timer.enabledTimer ∧
      timer.timeExpire = t.timer.timeExpire) :
    Ready offset now called' { t with timer := timer } where
  oneShot := honce
  inOrder := h.inOrder
  armed := by
    intro hnot item hitem
    obtain ⟨hcalled, henabled, hexpire⟩ := hsame hnot
    have harmed := h.armed hcalled item hitem
    exact ⟨henabled.trans harmed.enabled, by rw [hexpire]; exact harmed.not_early,
      by rw [hexpire]; exact harmed.not_late⟩

end Methods

/-! ## Runs -/

namespace TimerRun

variable {offset : ℤ} {r r' : TimerRun} {action : TimerEvent × ℤ}

/-- A step that keeps the order of the list and the timer armed. -/
def Clean (offset : ℤ) (r : TimerRun) (action : TimerEvent × ℤ) : Prop :=
  match action.1 with
  | .add item => AddsInOrder r.toFragmentTimer item (clockAt offset action.2)
  | .remove index => RemovesInTime r.toFragmentTimer index (clockAt offset action.2)
  | .handle => HandlesInTime offset action.2 r.toFragmentTimer
  | _ => True

/-- Nothing is due: `HandleTimeout` is not called, and the time of the timer is still to come. -/
structure Settled (r : TimerRun) : Prop where
  idle : r.calling = false
  notTriggered : r.timer.triggered = false
  waiting : r.timer.enabledTimer = true → r.now < r.timer.timeExpire

structure Serves (offset : ℤ) (r : TimerRun) : Prop where
  inOrder : InOrder r.timerItems
  armed : r.calling = false → r.timer.triggered = false →
    ∀ item ∈ r.timerItems.head?, ArmedFor offset r.now item r.timer
  ledger : r.added.Perm (r.timerItems ++ r.removed ++ r.handled.map Prod.fst)
  notEarly : ∀ entry ∈ r.handled, entry.1.timeoutTicks ≤ entry.2
  settled : Settled r → ∀ item ∈ r.timerItems, r.now + offset < item.timeoutTicks

/-- What every clean step keeps. -/
structure Invariant (offset : ℤ) (r : TimerRun) : Prop where
  ready : Ready offset r.now (r.calling = true ∨ r.timer.triggered = true) r.toFragmentTimer
  ledger : r.added.Perm (r.timerItems ++ r.removed ++ r.handled.map Prod.fst)
  notEarly : ∀ entry ∈ r.handled, entry.1.timeoutTicks ≤ entry.2

theorem Invariant.serves (h : Invariant offset r) : Serves offset r where
  inOrder := h.ready.inOrder
  armed := by
    intro hidle htriggered
    apply h.ready.armed
    rw [hidle, htriggered]
    decide
  ledger := h.ledger
  notEarly := h.notEarly
  settled := by
    intro hsettled item hitem
    have hcalled : ¬ (r.calling = true ∨ r.timer.triggered = true) := by
      rw [hsettled.idle, hsettled.notTriggered]
      decide
    have hinOrder := h.ready.inOrder
    have harmed := h.ready.armed hcalled
    cases hitems : r.timerItems with
    | nil =>
      rw [hitems] at hitem
      cases hitem
    | cons first items =>
      rw [hitems] at hitem hinOrder harmed
      have hfirst := harmed first rfl
      have hlate := hfirst.not_late
      have hwaiting := hsettled.waiting hfirst.enabled
      have hle : first.timeoutTicks ≤ item.timeoutTicks := by
        rcases mem_cons.mp hitem with rfl | hmem
        · exact le_refl _
        · exact (pairwise_cons.mp hinOrder).1 item hmem
      omega

theorem invariant_start (offset maxItems now : ℤ) : Invariant offset (start offset maxItems now) := by
  have hcreate : OneShot Timer.createInstance := ⟨rfl, rfl, rfl⟩
  obtain ⟨timer, hchange, honce, -⟩ := change_off (t := ⟨[], maxItems, Timer.createInstance⟩)
    hcreate (clockAt offset now)
  have hself : (start offset maxItems now).toFragmentTimer = ⟨[], maxItems, timer⟩ :=
    congrArg Prod.fst hchange
  refine ⟨?_, ?_, ?_⟩
  · rw [hself]
    refine ⟨honce, List.Pairwise.nil, ?_⟩
    intro _ item hitem
    cases hitem
  · exact List.Perm.refl _
  · intro entry hentry
    cases hentry

theorem now_le_of_step (hstep : step offset r action = some r') : r.now ≤ action.2 := by
  by_contra hlt
  rw [step, if_pos (not_le.mp hlt)] at hstep
  cases hstep

theorem step_add {item : TimerItem} {now : ℤ} (hnow : r.now ≤ now) :
    step offset r (.add item, now) = some { r with
      toFragmentTimer := (r.addItemToList (clockAt offset now) item).1
      now := now
      added := if (r.addItemToList (clockAt offset now) item).2 = some .argument then r.added
        else item :: r.added } :=
  if_neg (not_lt.mpr hnow)

theorem step_spawn {now : ℤ} (hnow : r.now ≤ now) :
    step offset r (.spawn, now) = some { r with
      timer := (r.timer.spawnTimer (clockAt offset now)).1
      now := now
      calling := r.calling || (r.timer.spawnTimer (clockAt offset now)).2 } :=
  if_neg (not_lt.mpr hnow)

theorem step_handle (item : TimerItem) {now : ℤ} (hnow : r.now ≤ now) (hcalling : r.calling = true)
    (hitem : (r.handleTimeout (clockAt offset now)).2 = some item) :
    step offset r (.handle, now) = some { r with
      toFragmentTimer := (r.handleTimeout (clockAt offset now)).1
      now := now
      handled := (item, now + offset) :: r.handled } := by
  rw [step, if_neg (not_lt.mpr hnow)]
  simp only
  rw [if_pos hcalling]
  cases hhandle : r.handleTimeout (clockAt offset now) with
  | mk t handled =>
    rw [hhandle] at hitem
    obtain rfl : handled = some item := hitem
    rfl

section

variable (h : Invariant offset r)

include h

theorem invariant_add {item : TimerItem} {now : ℤ}
    (hclean : Clean offset r (.add item, now)) (hstep : step offset r (.add item, now) = some r') :
    Invariant offset r' := by
  have hnow := now_le_of_step hstep
  rw [step_add hnow] at hstep
  obtain rfl := some.inj hstep
  obtain ⟨hready, htriggered⟩ := addItemToList_ready (h.ready.later hnow) hclean
  refine ⟨?_, ?_, h.notEarly⟩
  · simp only
    rw [htriggered]
    exact hready
  · have hperm := addItemToList_perm r.toFragmentTimer (clockAt offset now) item
    have hledger := h.ledger
    rw [append_assoc] at hledger
    simp only
    rw [append_assoc]
    split at hperm
    · rename_i hrefused
      rw [if_pos hrefused]
      exact hledger.trans (hperm.append_right _).symm
    · rename_i haccepted
      rw [if_neg haccepted]
      exact (hledger.cons item).trans (hperm.append_right _).symm

theorem invariant_remove {index : ℕ} {now : ℤ} (hclean : Clean offset r (.remove index, now))
    (hstep : step offset r (.remove index, now) = some r') : Invariant offset r' := by
  rw [step] at hstep
  split at hstep
  · cases hstep
  · rename_i hnow
    simp only at hstep
    cases hitem : r.timerItems[index]? with
    | none =>
      rw [hitem] at hstep
      cases hstep
    | some item =>
      rw [hitem] at hstep
      obtain rfl := some.inj hstep
      obtain ⟨hready, htriggered⟩ :=
        removeItemFromList_ready (h.ready.later (not_lt.mp hnow)) hclean
      refine ⟨?_, ?_, h.notEarly⟩
      · show Ready offset now (r.calling = true ∨ _ = true) _
        rw [htriggered]
        exact hready
      · obtain ⟨hlt, rfl⟩ := List.getElem?_eq_some_iff.mp hitem
        have hperm := getElem_cons_eraseIdx_perm hlt
        show r.added.Perm ((r.removeItemFromList (clockAt offset now) index).1.timerItems ++
          r.timerItems[index] :: r.removed ++ _)
        rw [removeItemFromList_timerItems]
        have hmove : (r.timerItems ++ (r.removed ++ r.handled.map Prod.fst)).Perm
            (r.timerItems.eraseIdx index ++ r.timerItems[index] :: (r.removed ++ _)) :=
          (hperm.symm.append_right _).trans perm_middle.symm
        have hledger := h.ledger
        rw [append_assoc] at hledger
        rw [append_assoc]
        exact hledger.trans hmove

/-- The locked part of `HandleTimeout`. -/
theorem invariant_handle {now : ℤ}
    (hclean : Clean offset r (.handle, now)) (hstep : step offset r (.handle, now) = some r') :
    Invariant offset r' := by
  have hnow := now_le_of_step hstep
  by_cases hcalling : r.calling = true
  · have hready : Ready offset now True r.toFragmentTimer :=
      { h.ready.later hnow with armed := fun hnot ↦ absurd trivial hnot }
    rcases handleTimeout_cases hready with ⟨item, hitem, hitems, hexpired, hready'⟩ | ⟨hnone, hleft⟩
    · rw [step_handle item hnow hcalling hitem] at hstep
      obtain rfl := some.inj hstep
      refine ⟨{ hready' with armed := fun hnot ↦ absurd (.inl hcalling) hnot }, ?_, ?_⟩
      · have hledger := h.ledger
        rw [hitems] at hledger
        exact hledger.trans perm_middle.symm
      · intro entry hentry
        rcases mem_cons.mp hentry with rfl | hold
        · exact hexpired
        · exact h.notEarly entry hold
    · rw [step, if_neg (not_lt.mpr hnow)] at hstep
      simp only at hstep
      rw [if_pos hcalling, hnone] at hstep
      obtain rfl := some.inj hstep
      refine ⟨⟨h.ready.oneShot, h.ready.inOrder, ?_⟩, h.ledger, h.notEarly⟩
      intro _ item hitem
      rcases hclean item hitem with hexpired | harmed
      · exact absurd hexpired (not_le.mpr (hleft item hitem))
      · exact harmed
  · rw [step, if_neg (not_lt.mpr hnow)] at hstep
    simp only at hstep
    rw [if_neg hcalling] at hstep
    cases hstep

/-- The engine triggers the timer, starts `HandleTimeout`, or ends its thread. -/
theorem invariant_check {now : ℤ}
    (hstep : step offset r (.check, now) = some r') : Invariant offset r' := by
  rw [step] at hstep
  split at hstep
  · cases hstep
  · rename_i hnow
    obtain rfl := some.inj hstep
    have hready := h.ready.later (not_lt.mp hnow)
    refine ⟨?_, h.ledger, h.notEarly⟩
    show Ready offset now (r.calling = true ∨ (r.timer.checkTimer _).triggered = true) _
    rw [Timer.checkTimer, Timer.trigger]
    split
    · split
      · exact hready
      · exact hready.engine ⟨hready.oneShot.anyChange, hready.oneShot.relative,
          hready.oneShot.once⟩ (fun hnot ↦ absurd (.inr rfl) hnot)
    · exact hready

theorem invariant_spawn {now : ℤ}
    (hstep : step offset r (.spawn, now) = some r') : Invariant offset r' := by
  have hnow := now_le_of_step hstep
  rw [step_spawn hnow] at hstep
  obtain rfl := some.inj hstep
  have hready := h.ready.later hnow
  refine ⟨?_, h.ledger, h.notEarly⟩
  simp only [Timer.spawnTimer]
  split
  · exact hready.engine ⟨hready.oneShot.anyChange, hready.oneShot.relative,
      hready.oneShot.once⟩ (fun hnot ↦ absurd (.inl (Bool.or_true _)) hnot)
  · rw [Bool.or_false]
    exact hready

theorem invariant_ended {now : ℤ}
    (hstep : step offset r (.ended, now) = some r') : Invariant offset r' := by
  rw [step] at hstep
  split at hstep
  · cases hstep
  · rename_i hnow
    simp only at hstep
    split at hstep
    · cases hstep
    · obtain rfl := some.inj hstep
      have hready := h.ready.later (not_lt.mp hnow)
      refine ⟨?_, h.ledger, h.notEarly⟩
      show Ready offset now (r.calling = true ∨
        (r.timer.threadTerminationCallback _).triggered = true) _
      rw [Timer.threadTerminationCallback]
      split
      · have honce : (r.timer.recurring && r.timer.enabledTimer) = false := by
          rw [hready.oneShot.once]
          rfl
        rw [Timer.reschedule, if_neg (by simp [honce])]
        exact hready.engine ⟨hready.oneShot.anyChange, hready.oneShot.relative,
          hready.oneShot.once⟩ (fun hnot ↦ ⟨hnot, rfl, rfl⟩)
      · exact hready

theorem invariant_step (hclean : Clean offset r action)
    (hstep : step offset r action = some r') : Invariant offset r' := by
  obtain ⟨event, now⟩ := action
  cases event with
  | add item => exact invariant_add h hclean hstep
  | remove index => exact invariant_remove h hclean hstep
  | check => exact invariant_check h hstep
  | spawn => exact invariant_spawn h hstep
  | handle => exact invariant_handle h hclean hstep
  | ended => exact invariant_ended h hstep

end

/-- In every run of clean steps, every item is served in its time. -/
theorem serves_in_time_order (offset : ℤ)
    (hr : Reachable (step offset) (Clean offset) (IsStart offset) r) : Serves offset r := by
  have hinvariant : Invariant offset r := by
    apply hr.invariant
    · rintro s ⟨maxItems, now, rfl⟩
      exact invariant_start offset maxItems now
    · intro s action s' h hclean hstep
      exact invariant_step h hclean hstep
  exact hinvariant.serves

/-- One item, added and then handled a second later. -/
theorem serves_one_item :
    ∃ r, r.timerItems = [] ∧ r.handled = [(⟨10000000, 1, 7⟩, 10000000)] ∧ Serves 0 r := by
  have hclean : Clean 0 (start 0 50 0) (TimerEvent.add ⟨10000000, 1, 7⟩, 0) := by
    apply Or.inr
    apply Or.inl
    refine ⟨?_, by decide⟩
    intro first hfirst
    cases hfirst
  have hadd : Reachable (step 0) (Clean 0) (IsStart 0) _ :=
    .step _ (.start ⟨50, 0, rfl⟩) hclean (step_add (le_refl 0))
  have hcheck := Reachable.step (TimerEvent.check, (10000000 : ℤ)) hadd trivial rfl
  have hspawn := Reachable.step (TimerEvent.spawn, (10000000 : ℤ)) hcheck trivial
    (step_spawn (le_refl _))
  have hhandle := Reachable.step (TimerEvent.handle, (10000000 : ℤ)) hspawn
    (by intro item hitem; obtain rfl := mem_some_iff.mp hitem; exact .inl (le_refl _))
    (step_handle ⟨10000000, 1, 7⟩ (le_refl _) rfl rfl)
  exact ⟨_, rfl, rfl, serves_in_time_order 0 hhandle⟩

/-- The latest item is put in front of the others. -/
theorem latest_in_front :
    ¬ ∀ r, Reachable (step 0) (fun _ _ ↦ True) (IsStart 0) r → Serves 0 r := by
  intro h
  have hfirst : Reachable (step 0) (fun _ _ ↦ True) (IsStart 0) _ :=
    .step (.add ⟨10000000, 1, 7⟩, 0) (.start ⟨50, 0, rfl⟩) trivial (step_add (le_refl 0))
  have hsecond := Reachable.step (.add ⟨20000000, 2, 8⟩, 0) hfirst trivial (step_add (le_refl 0))
  have hinOrder : InOrder [⟨20000000, 2, 8⟩, ⟨10000000, 1, 7⟩] := (h _ hsecond).inOrder
  have hle := (pairwise_cons.mp hinOrder).1 _ (mem_singleton_self _)
  exact absurd hle (by decide)

end TimerRun

end MicroFramework.Mesh
