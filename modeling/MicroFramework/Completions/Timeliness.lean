import MicroFramework.Completions.Completion

/-!
# The timer in every run

Each operation keeps the invariant as long as no completion is executed ahead of its time and no
wait that began with an empty list ends with a completion on it.  Those two steps break what is
asked of the timer.
-/

namespace MicroFramework.Completions

open Library Function List Option

section InsertBeforeNode

variable {list : List ℕ} {times : ℕ → ℕ} {this t : ℕ}

theorem find?_erase {p : ℕ → Bool} (hthis : p this = false) :
    (list.erase this).find? p = list.find? p := by
  induction list with
  | nil => rfl
  | cons x list ih =>
    by_cases hx : x = this
    · rw [hx, erase_cons_head, find?_cons_of_neg (by simp [hthis])]
    · rw [erase_cons_tail (by simpa using hx), find?_cons, find?_cons, ih]

/-- The node goes between those that are not later and those that are. -/
theorem insertBeforeNode_find? (hnodup : list.Nodup) (hthis : times this = t)
    (hsorted : (list.erase this).Pairwise fun p q ↦ times p ≤ times q) :
    ∃ left right, list.erase this = left ++ right ∧
      insertBeforeNode list (list.find? fun ptr ↦ t < times ptr) this = left ++ this :: right ∧
      (∀ p ∈ left, times p ≤ t) ∧ ∀ p ∈ right, t < times p := by
  have hskips : decide (t < times this) = false := by simp [hthis]
  rw [← find?_erase (p := fun ptr ↦ decide (t < times ptr)) hskips]
  cases hfind : (list.erase this).find? fun ptr ↦ t < times ptr with
  | none =>
    refine ⟨list.erase this, [], (append_nil _).symm, rfl, fun p hp ↦ ?_, by simp⟩
    exact Nat.le_of_not_lt (by simpa using find?_eq_none.mp hfind p hp)
  | some node =>
    obtain ⟨hnode, left, right, heq, hleft⟩ := find?_eq_some_iff_append.mp hfind
    have hne : node ≠ this := by
      rintro rfl
      simp [hthis] at hnode
    have hnotin : ∀ p ∈ left, (p != node) = true := by
      intro p hp
      have hdistinct := hnodup.erase this
      rw [heq, List.nodup_append] at hdistinct
      exact bne_iff_ne.mpr (hdistinct.2.2 p hp node mem_cons_self)
    refine ⟨left, node :: right, heq, ?_, fun p hp ↦ ?_, fun p hp ↦ ?_⟩
    · rw [insertBeforeNode, if_neg hne, heq, takeWhile_append_of_pos hnotin,
        dropWhile_append_of_pos hnotin]
      simp
    · exact Nat.le_of_not_lt (by simpa using hleft p hp)
    · rw [heq] at hsorted
      have hlater := (pairwise_append.mp hsorted).2.1
      rcases mem_cons.mp hp with rfl | hp
      · simpa using hnode
      · exact Nat.lt_of_lt_of_le (by simpa using hnode) (rel_of_pairwise_cons hlater hp)

end InsertBeforeNode

namespace Timer

namespace Invariant

variable {s : Timer} {c t : ℕ}

section

variable (h : Invariant s)

include h

theorem call (hexecuted : Executed c s.now s.log) (hc : c ∉ s.continuations) :
    Invariant { s with log := .called c s.now :: s.log } where
  sorted := h.sorted
  early := h.early
  nodup := h.nodup
  nodupContinuations := h.nodupContinuations
  pending d hd := by
    refine Last.other (h.pending d hd) ?_
    rintro rfl
    exact (h.pending _ hd).not_executed hexecuted
  executed d hd := by
    refine Last.other (h.executed d hd) ?_
    rintro rfl
    exact hc hd
  explained := by
    refine h.explained.cons (fun d now hd ↦ by cases hd) fun d now hd ↦ ?_
    cases hd
    exact hexecuted
  listed d t hd := h.listed d t (Last.of_cons hd (by simp)).2

/-- A completion that was executed is left to the main loop. -/
theorem defer (hexecuted : Executed c s.now s.log) :
    Invariant { s with continuations := insertBeforeNode s.continuations none c } where
  sorted := h.sorted
  early := h.early
  nodup := h.nodup
  nodupContinuations := by
    have herase := h.nodupContinuations.not_mem_erase (a := c)
    refine nodup_append.mpr ⟨h.nodupContinuations.erase c, by simp, fun p hp q hq ↦ ?_⟩
    rintro rfl
    exact herase (mem_singleton.mp hq ▸ hp)
  pending := h.pending
  executed d hd := by
    rcases mem_append.mp hd with hd | hd
    · exact h.executed d (mem_of_mem_erase hd)
    · exact mem_singleton.mp hd ▸ hexecuted
  explained := h.explained
  listed := h.listed

theorem dequeue {rest : List ℕ} (hs : s.completions = c :: rest)
    (hle : s.eventTimeTicks c ≤ s.now) :
    Invariant { s with
      completions := rest
      compare := (rest.head?.map s.eventTimeTicks).getD idleValue
      log := .executed c s.now :: s.log } := by
  have hsorted := h.sorted
  have hnodup := h.nodup
  have hmem : ∀ d ∈ rest, d ∈ s.completions := fun d hd ↦ hs ▸ mem_cons_of_mem c hd
  have hpending := h.pending c (hs ▸ mem_cons_self)
  rw [hs] at hsorted hnodup
  have hrest := (pairwise_cons.mp hsorted).2
  have hc := (nodup_cons.mp hnodup).1
  constructor
  case sorted => exact hrest
  case early =>
    intro d hd
    cases rest with
    | nil => simp at hd
    | cons first rest =>
      rcases mem_cons.mp hd with rfl | hd
      · exact Nat.le_refl _
      · exact rel_of_pairwise_cons hrest hd
  case nodup => exact (nodup_cons.mp hnodup).2
  case nodupContinuations => exact h.nodupContinuations
  case pending =>
    intro d hd
    refine Last.other (h.pending d (hmem d hd)) ?_
    rintro rfl
    exact hc hd
  case executed =>
    intro d hd
    refine Last.other (h.executed d hd) ?_
    rintro rfl
    exact hpending.not_executed (h.executed _ hd)
  case explained =>
    refine h.explained.cons (fun d now hd ↦ ?_) fun d now hd ↦ by cases hd
    cases hd
    exact hpending.due hle
  case listed =>
    intro d t hd
    obtain ⟨hne, hd⟩ := Last.of_cons hd (by simp)
    obtain ⟨hd, ht⟩ := h.listed d t hd
    rw [hs] at hd
    exact ⟨(mem_cons.mp hd).resolve_left fun heq ↦ hne heq.symm, ht⟩

theorem dequeueAndExec (hexpired : ∀ first ∈ s.completions.head?, s.eventTimeTicks first ≤ s.now) :
    Invariant s.dequeueAndExec := by
  cases hs : s.completions with
  | nil => simpa only [Timer.dequeueAndExec, hs] using h
  | cons c rest =>
    have hle := hexpired c (by simp [hs])
    have hpending := h.pending c (hs ▸ mem_cons_self)
    have hdequeued := h.dequeue hs hle
    have hexecuted : Executed c s.now (.executed c s.now :: s.log) := .inl ⟨_, Nat.le_refl _, rfl⟩
    have hc : c ∉ s.continuations := fun hc ↦ hpending.not_executed (h.executed c hc)
    simp only [Timer.dequeueAndExec, hs, execute]
    split_ifs
    · exact hdequeued.call hexecuted hc
    · exact hdequeued
    · exact hdequeued.defer hexecuted
    · exact hdequeued

theorem enqueueTicks (c t : ℕ) : Invariant (s.enqueueTicks c t) := by
  have hkeep : ∀ d, d ≠ c → update s.eventTimeTicks c t d = s.eventTimeTicks d :=
    fun d hd ↦ update_of_ne hd _ _
  have hmem : ∀ d, d ∈ s.completions.erase c ↔ d ≠ c ∧ d ∈ s.completions :=
    fun d ↦ h.nodup.mem_erase_iff
  have hsorted : (s.completions.erase c).Pairwise fun p q ↦
      update s.eventTimeTicks c t p ≤ update s.eventTimeTicks c t q := by
    refine (h.sorted.sublist erase_sublist).imp_of_mem fun hp hq hle ↦ ?_
    rw [hkeep _ ((hmem _).mp hp).1, hkeep _ ((hmem _).mp hq).1]
    exact hle
  obtain ⟨left, right, herase, hinsert, hleft, hright⟩ :=
    insertBeforeNode_find? h.nodup (update_self c t s.eventTimeTicks) hsorted
  have hin : ∀ d, d ∈ left ++ c :: right ↔ d = c ∨ d ≠ c ∧ d ∈ s.completions := by
    intro d
    rw [← hmem, herase]
    simp only [mem_append, mem_cons]
    tauto
  rw [herase] at hsorted
  obtain ⟨hsortedLeft, hsortedRight, hcross⟩ := pairwise_append.mp hsorted
  constructor <;> simp only [Timer.enqueueTicks, hinsert]
  case sorted =>
    refine pairwise_append.mpr ⟨hsortedLeft, pairwise_cons.mpr ⟨?_, hsortedRight⟩, ?_⟩
    · intro p hp
      rw [update_self]
      exact Nat.le_of_lt (hright p hp)
    · intro p hp q hq
      rcases mem_cons.mp hq with rfl | hq
      · rw [update_self]
        exact hleft p hp
      · exact hcross p hp q hq
  case early =>
    intro d hd
    cases left with
    | nil =>
      simp only [nil_append, head?_cons, if_true]
      rcases mem_cons.mp hd with rfl | hd
      · have hself : update s.eventTimeTicks d t d = t :=
          update_self d t s.eventTimeTicks
        exact Nat.le_of_eq hself.symm
      · exact Nat.le_of_lt (hright d hd)
    | cons first left =>
      obtain ⟨hne, hfirst⟩ := (hmem first).mp (by rw [herase]; simp)
      have hearly := h.early first hfirst
      have hle := hleft first mem_cons_self
      rw [hkeep first hne] at hle
      simp only [cons_append, head?_cons, Option.some.injEq, if_neg hne]
      rcases (hin d).mp hd with rfl | ⟨hdc, hd⟩
      · rw [update_self]
        exact Nat.le_trans hearly hle
      · rw [hkeep d hdc]
        exact h.early d hd
  case nodup =>
    have hdistinct := h.nodup.erase c
    have hnotin := h.nodup.not_mem_erase (a := c)
    rw [herase] at hdistinct hnotin
    exact nodup_middle.mpr (nodup_cons.mpr ⟨hnotin, hdistinct⟩)
  case nodupContinuations => exact h.nodupContinuations.erase c
  case pending =>
    intro d hd
    rcases (hin d).mp hd with rfl | ⟨hdc, hd⟩
    · rw [update_self]
      exact .inl rfl
    · rw [hkeep d hdc]
      exact Last.other (h.pending d hd) fun heq ↦ hdc heq.symm
  case executed =>
    intro d hd
    obtain ⟨hdc, hd⟩ := h.nodupContinuations.mem_erase_iff.mp hd
    exact Last.other (h.executed d hd) fun heq ↦ hdc heq.symm
  case explained => exact h.explained.cons (fun d now hd ↦ by cases hd) fun d now hd ↦ by cases hd
  case listed =>
    intro d t' hd
    rw [hin]
    rcases hd with heq | ⟨hne, hd⟩
    · cases heq
      exact ⟨.inl rfl, update_self _ _ _⟩
    · obtain ⟨hd, ht⟩ := h.listed d t' hd
      have hdc : d ≠ c := fun heq ↦ hne heq.symm
      exact ⟨.inr ⟨hdc, hd⟩, (hkeep d hdc).trans ht⟩

theorem abort (c : ℕ) : Invariant (s.abort c) := by
  have hmem : ∀ d, d ∈ s.completions.erase c ↔ d ≠ c ∧ d ∈ s.completions :=
    fun d ↦ h.nodup.mem_erase_iff
  have hsorted := h.sorted.sublist (erase_sublist (a := c))
  constructor <;> simp only [Timer.abort]
  case sorted => exact hsorted
  case early =>
    intro d hd
    split_ifs with hfirst
    · cases herase : s.completions.erase c with
      | nil => simp [herase] at hd
      | cons first rest =>
        rw [herase] at hd hsorted
        rcases mem_cons.mp hd with rfl | hd
        · exact Nat.le_refl _
        · exact rel_of_pairwise_cons hsorted hd
    · exact h.early d ((hmem d).mp hd).2
  case nodup => exact h.nodup.erase c
  case nodupContinuations => exact h.nodupContinuations.erase c
  case pending =>
    intro d hd
    obtain ⟨hdc, hd⟩ := (hmem d).mp hd
    exact Last.other (h.pending d hd) fun heq ↦ hdc heq.symm
  case executed =>
    intro d hd
    obtain ⟨hdc, hd⟩ := h.nodupContinuations.mem_erase_iff.mp hd
    exact Last.other (h.executed d hd) fun heq ↦ hdc heq.symm
  case explained => exact h.explained.cons (fun d now hd ↦ by cases hd) fun d now hd ↦ by cases hd
  case listed =>
    intro d t hd
    obtain ⟨hne, hd⟩ := Last.of_cons hd (by simp)
    obtain ⟨hd, ht⟩ := h.listed d t hd
    exact ⟨(hmem d).mpr ⟨fun heq ↦ hne heq.symm, hd⟩, ht⟩

/-- The compare may be set to anything that no listed completion is earlier than. -/
theorem setCompare {compare : ℕ} (waiting : Option WaitState)
    (hcompare : ∀ c ∈ s.completions, compare ≤ s.eventTimeTicks c) :
    Invariant { s with compare := compare, waiting := waiting } :=
  ⟨h.sorted, hcompare, h.nodup, h.nodupContinuations, h.pending, h.executed, h.explained,
    h.listed⟩

theorem waitForInterrupts (expire : ℕ) : Invariant (s.waitForInterrupts expire) := by
  unfold Timer.waitForInterrupts
  split
  next hs => exact h.setCompare _ (by simp [hs])
  next first rest hs =>
    split_ifs with hlater
    · refine h.setCompare _ fun c hc ↦ Nat.le_trans (Nat.le_of_lt hlater) ?_
      exact h.head_le (by simp [hs]) hc
    · exact h.setCompare _ h.early

theorem wake {state : WaitState} (tailTicks : ℕ)
    (hidle : state = .nilCompare →
      ∀ first ∈ s.completions.head?, idleValue ≤ s.eventTimeTicks first) :
    Invariant (s.wake state tailTicks) := by
  cases state with
  | keepCompare => exact h.setCompare _ h.early
  | resetCompare =>
    refine h.setCompare _ fun c hc ↦ ?_
    obtain ⟨first, hfirst⟩ := isSome_iff_exists.mp (isSome_head?.mpr (ne_nil_of_mem hc))
    simp only [hfirst, map_some, getD_some]
    exact h.head_le hfirst hc
  | nilCompare =>
    refine h.setCompare _ fun c hc ↦ ?_
    obtain ⟨first, hfirst⟩ := isSome_iff_exists.mp (isSome_head?.mpr (ne_nil_of_mem hc))
    exact Nat.le_trans (hidle rfl first hfirst) (h.head_le hfirst hc)

theorem dequeueContinuation : Invariant s.dequeueContinuation := by
  cases hs : s.continuations with
  | nil => simpa only [Timer.dequeueContinuation, hs] using h
  | cons c rest =>
    have hnodup := h.nodupContinuations
    rw [hs] at hnodup
    obtain ⟨hc, hnodup⟩ := nodup_cons.mp hnodup
    have hrest : Invariant { s with continuations := rest } :=
      ⟨h.sorted, h.early, h.nodup, hnodup, h.pending,
        fun d hd ↦ h.executed d (hs ▸ mem_cons_of_mem c hd), h.explained, h.listed⟩
    simp only [Timer.dequeueContinuation, hs]
    exact hrest.call (h.executed c (hs ▸ mem_cons_self)) hc

theorem elapse (ticks : ℕ) : Invariant { s with now := s.now + ticks } where
  sorted := h.sorted
  early := h.early
  nodup := h.nodup
  nodupContinuations := h.nodupContinuations
  pending := h.pending
  executed d hd := by
    refine Since.imp (h.executed d hd) (fun _ hne ↦ hne) fun _ ⟨t, hle, he⟩ ↦ ⟨t, ?_, he⟩
    exact Nat.le_trans hle (Nat.le_add_right _ _)
  explained := h.explained
  listed := h.listed

end

end Invariant

variable {s s' : Timer}

/-- The step neither executes a completion ahead of its time nor ends, with a completion on the
list, a wait that began without one. -/
def Timely (s : Timer) : Action → Prop
  | .compareInterrupt =>
    s.compare ≤ s.now → ∀ first ∈ s.completions.head?, s.eventTimeTicks first ≤ s.now
  | .wake _ =>
    s.waiting = some .nilCompare →
      ∀ first ∈ s.completions.head?, idleValue ≤ s.eventTimeTicks first
  | _ => True

theorem Invariant.step {a : Action} (h : Invariant s) (htimely : s.Timely a)
    (hstep : s.step a = some s') : Invariant s' := by
  cases a with
  | enqueueTicks c t =>
    obtain rfl := some.inj hstep
    exact h.enqueueTicks c t
  | abort c =>
    obtain rfl := some.inj hstep
    exact h.abort c
  | compareInterrupt =>
    obtain rfl := some.inj hstep
    rw [compareInterrupt]
    split_ifs with hreached
    · exact h.dequeueAndExec (htimely hreached)
    · exact h
  | waitForInterrupts expire =>
    simp only [Timer.step] at hstep
    split_ifs at hstep
    obtain rfl := some.inj hstep
    exact h.waitForInterrupts expire
  | wake tailTicks =>
    obtain ⟨state, hstate, rfl⟩ := map_eq_some_iff.mp hstep
    exact h.wake tailTicks fun hnil ↦ htimely (hstate.trans (congrArg some hnil))
  | dequeueContinuation =>
    obtain rfl := some.inj hstep
    exact h.dequeueContinuation
  | elapse ticks =>
    obtain rfl := some.inj hstep
    exact h.elapse ticks

theorem invariant_of_reachable (h : Reachable step Timely Initialized s) : Invariant s :=
  h.invariant (fun _ ↦ Invariant.of_initialized) fun _ _ _ hs htimely hstep ↦ hs.step htimely hstep

/-- Timed completions are neither lost nor early in every run of timely steps. -/
theorem completions_correct (h : Reachable step Timely Initialized s) : s.Correct :=
  (invariant_of_reachable h).correct

def idle : Timer := ⟨0, idleValue, [], [], fun _ ↦ 0, fun _ ↦ true, fun _ ↦ true, none, []⟩

theorem idle_initialized : Initialized idle := ⟨rfl, rfl, rfl, rfl⟩

/-- A completion for time 5 is executed at time 5. -/
theorem completions_correct_once :
    ∃ s, [.enqueueTicks 1 5, .elapse 5, .compareInterrupt].foldlM step idle = some s ∧
      s.Correct := by
  have hidle : Reachable step Timely Initialized idle := .start idle_initialized
  have henqueued := hidle.step (Action.enqueueTicks 1 5) trivial rfl
  have helapsed := henqueued.step (Action.elapse 5) trivial rfl
  have hexecuted := helapsed.step Action.compareInterrupt
    (fun _ first hfirst ↦ by cases hfirst; decide) rfl
  exact ⟨_, rfl, completions_correct hexecuted⟩

/-- A wait begins with nothing on the list, an interrupt handler enqueues a completion for time
100, and the wait ends. -/
def handlerEnqueues : List Action := [.waitForInterrupts 1000, .enqueueTicks 1 100, .wake 0]

/-- In some run the compare is left far behind the time of the first completion. -/
theorem completions_incorrect :
    ¬ ∀ s, Reachable step (fun _ _ ↦ True) Initialized s → s.Correct := by
  intro hall
  have hidle : Reachable step (fun _ _ ↦ True) Initialized idle := .start idle_initialized
  have hrun : ∃ s, handlerEnqueues.foldlM step idle = some s ∧ s.completions = [1] ∧
      s.eventTimeTicks 1 = 100 ∧ s.compare = idleValue := ⟨_, rfl, rfl, rfl, rfl⟩
  obtain ⟨s, hrun, hcompletions, hticks, hcompare⟩ := hrun
  have harmed := (hall s (hidle.foldlM (fun _ _ ↦ trivial) _ hrun)).armed 1 (by simp [hcompletions])
  rw [hticks, hcompare] at harmed
  exact absurd harmed (by decide)

/-- Each step that is not timely breaks what is asked of the timer. -/
theorem Invariant.not_correct {a : Action} (h : Invariant s) (hstep : s.step a = some s')
    (htimely : ¬ s.Timely a) : ¬ s'.Correct := by
  intro hcorrect
  cases a with
  | enqueueTicks c t => exact htimely trivial
  | abort c => exact htimely trivial
  | waitForInterrupts expire => exact htimely trivial
  | dequeueContinuation => exact htimely trivial
  | elapse ticks => exact htimely trivial
  | compareInterrupt =>
    obtain rfl := some.inj hstep
    refine htimely fun hreached first hfirst ↦ ?_
    obtain ⟨rest, hs⟩ := head?_eq_some_iff.mp hfirst
    have hpending := h.pending first (hs ▸ mem_cons_self)
    have hlogged : (.executed first s.now :: s.log) <:+ s.compareInterrupt.log := by
      rw [compareInterrupt, if_pos hreached]
      simp only [Timer.dequeueAndExec, hs, execute]
      split_ifs
      · exact suffix_cons _ _
      · exact suffix_rfl
      · exact suffix_rfl
      · exact suffix_rfl
    exact hpending.le_of_due (hcorrect.explained.executed first s.now s.log hlogged)
  | wake tailTicks =>
    obtain ⟨state, hstate, rfl⟩ := map_eq_some_iff.mp hstep
    refine htimely fun hnil first hfirst ↦ ?_
    obtain rfl : state = .nilCompare := some.inj (hstate.symm.trans hnil)
    exact hcorrect.armed first hfirst

end Timer

end MicroFramework.Completions
