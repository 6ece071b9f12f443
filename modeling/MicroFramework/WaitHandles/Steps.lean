import MicroFramework.WaitHandles.Signals

/-!
# The steps keep the invariant

Every operation changes one thread and puts it in its list.  The two ways in which that happens,
ready and waiting, are treated once; the loop of a Set is an induction over the waiting threads that
are still to be visited.
-/

namespace MicroFramework.WaitHandles

open Function Engine List

variable {s : Engine} {th t n object : ℕ} {exempt exempt' : List ℕ} {x : Thread}
  {signaled : ℕ → Bool} {evs : List Event}

section Lists

variable {list : List ℕ} {stays : ℕ → Bool}

theorem mem_insertRoundRobin :
    t ∈ (list.erase th).takeWhile stays ++ th :: (list.erase th).dropWhile stays ↔
      t = th ∨ t ∈ list.erase th := by
  rw [mem_append, mem_cons, or_left_comm, ← mem_append,
    takeWhile_append_dropWhile]

theorem nodup_insertRoundRobin (h : list.Nodup) :
    ((list.erase th).takeWhile stays ++ th :: (list.erase th).dropWhile stays).Nodup := by
  rw [nodup_middle, takeWhile_append_dropWhile]
  exact nodup_cons.mpr ⟨h.not_mem_erase, h.erase th⟩

theorem nodup_linkAtBack (h : list.Nodup) : (list.erase th ++ [th]).Nodup := by
  refine nodup_append.mpr ⟨h.erase th, by simp, fun p hp q hq ↦ ?_⟩
  rintro rfl
  exact h.not_mem_erase (mem_singleton.mp hq ▸ hp)

end Lists

/-- The engine with a thread and the signals changed, and events added to the log. -/
def Engine.changed (s : Engine) (th : ℕ) (x : Thread) (signaled : ℕ → Bool) (evs : List Event) :
    Engine :=
  { s with
    thread := update s.thread th x
    signaled := signaled
    log := evs ++ s.log }

namespace Invariant

/-- A thread that is made ready goes to the ready list and gives up its wait, or stays among the
waiting threads because it is suspended. -/
theorem putReady (h : Invariant exempt s) (hstatus : x.status = .ready)
    (hwait : x.waitForObject = (s.thread th).waitForObject)
    (hsignaled : ∀ object, signaled object = true → s.signaled object = true)
    (hrecorded : Recorded s.autoReset signaled (evs ++ s.log))
    (hexplained : Explained s.autoReset (evs ++ s.log))
    (hnone : (s.thread th).waitForObject = none → evs = [])
    (hsome : ∀ w, (s.thread th).waitForObject = some w →
      (∀ e ∈ evs, e.serial = some w.serial) ∧ resumptions evs = [] ∧
        satisfactions (events w.serial (evs ++ s.log)) = outcome x.result)
    (hexempt : ∀ t, t ≠ th → t ∉ exempt' → t ∉ exempt) :
    Invariant exempt' ((s.changed th x signaled evs).putInProperList th) := by
  have hevs : ∀ n, (∀ w, (s.thread th).waitForObject = some w → w.serial ≠ n) →
      events n evs = [] := by
    intro n hne
    cases hw : (s.thread th).waitForObject with
    | none => rw [hnone hw, events_nil]
    | some w =>
      refine events_of_forall_ne fun e he heq ↦ hne w hw ?_
      exact Option.some.inj (((hsome w hw).1 e he).symm.trans heq)
  have hkept : ∀ w, (s.thread th).waitForObject = some w →
      resumptions (events w.serial (evs ++ s.log)) = [] := by
    intro w hw
    obtain ⟨hserial, hresumed, -⟩ := hsome w hw
    rw [events_append, events_of_forall hserial, resumptions_append, hresumed, nil_append]
    exact (h.fate w.serial).not_resumed ((h.standing th).wait w hw).1 hw
  by_cases hsuspended : x.suspended = true
  · have hput : (s.changed th x signaled evs).putInProperList th =
        (s.changed th x signaled evs).linkAtBack th := by
      rw [putInProperList, if_neg]
      simp [changed, hsuspended]
    rw [hput]
    constructor
    case standing =>
      intro t
      by_cases ht : t = th
      · subst ht
        refine ⟨fun hready ↦ ?_, fun _ hnot ↦ ?_, fun w hw ↦ ⟨?_, ?_⟩, fun w hw hwaiting ↦ ?_⟩
        · exact absurd hready h.nodupReady.not_mem_erase
        · simp [linkAtBack, changed, hsuspended] at hnot
        · simp only [linkAtBack, changed, update_self, hwait] at hw
          exact ((h.standing t).wait w hw).1
        · exact mem_append_right _ (mem_singleton_self t)
        · simp [linkAtBack, changed, hstatus] at hwaiting
      · refine (h.standing t).mono (update_of_ne ht _ _) ?_ ?_ (Nat.le_refl _) hsignaled
          (hexempt t ht)
        · exact mem_erase_of_ne ht
        · simp [linkAtBack, changed, mem_erase_of_ne ht, ht]
    case unique =>
      have hsame : ∀ t, (((s.changed th x signaled evs).linkAtBack th).thread t).waitForObject =
          (s.thread t).waitForObject := by
        intro t
        by_cases ht : t = th
        · subst ht
          simp [linkAtBack, changed, hwait]
        · simp [linkAtBack, changed, ht]
      intro t t' w w' hw hw'
      rw [hsame] at hw hw'
      exact h.unique t t' w w' hw hw'
    case nodupReady => exact h.nodupReady.erase th
    case nodupWaiting => exact nodup_linkAtBack h.nodupWaiting
    case fate =>
      intro n
      by_cases hn : ∃ w, (s.thread th).waitForObject = some w ∧ w.serial = n
      · obtain ⟨w, hw, rfl⟩ := hn
        have hthread : ((s.changed th x signaled evs).linkAtBack th).thread th = x := update_self ..
        exact .restarted (t := th) (w := w) (by rw [hthread, hwait, hw]) rfl
          (by rw [hthread, hstatus]) (by rw [hthread, hsuspended]) (hkept w hw)
          (by rw [hthread]; exact (hsome w hw).2.2)
      · have hne : ∀ w, (s.thread th).waitForObject = some w → w.serial ≠ n :=
          fun w hw heq ↦ hn ⟨w, hw, heq⟩
        refine (h.fate n).mono ?_ (Nat.le_refl _) id (fun t w hw heq ↦ ?_) fun t w hw heq ↦ ?_
        · exact (events_append ..).trans (by rw [hevs n hne, nil_append])
        · refine update_of_ne ?_ _ _
          rintro rfl
          exact hne w hw heq
        · refine update_of_ne ?_ _ _
          rintro rfl
          simp only [linkAtBack, changed, update_self, hwait] at hw
          exact hne w hw heq
    case recorded => exact hrecorded
    case explained => exact hexplained
  · rw [Bool.not_eq_true] at hsuspended
    have hput : (s.changed th x signaled evs).putInProperList th =
        (s.changed th x signaled evs).insertThreadRoundRobin th := by
      rw [putInProperList, if_pos]
      simp [changed, hsuspended, hstatus]
    rw [hput]
    have hthread : ((s.changed th x signaled evs).insertThreadRoundRobin th).thread th =
        { x with waitForObject := none } := by
      simp [insertThreadRoundRobin, changed, setThread]
    have hother : ∀ t, t ≠ th →
        ((s.changed th x signaled evs).insertThreadRoundRobin th).thread t = s.thread t := by
      intro t ht
      simp [insertThreadRoundRobin, changed, setThread, ht]
    have hlogNone : (s.thread th).waitForObject = none →
        ((s.changed th x signaled evs).insertThreadRoundRobin th).log = evs ++ s.log := by
      intro hw
      simp [insertThreadRoundRobin, changed, hwait, hw]
    have hlogSome : ∀ w, (s.thread th).waitForObject = some w →
        ((s.changed th x signaled evs).insertThreadRoundRobin th).log =
          .resumed w.serial x.result :: (evs ++ s.log) := by
      intro w hw
      simp [insertThreadRoundRobin, changed, hwait, hw]
    constructor
    case standing =>
      intro t
      by_cases ht : t = th
      · subst ht
        refine ⟨fun _ ↦ ⟨h.nodupWaiting.not_mem_erase, ?_, ?_⟩, fun hwaiting ↦ ?_, fun w hw ↦ ?_,
          fun w hw ↦ ?_⟩
        · rw [hthread, hstatus]
        · rw [hthread, hsuspended]
        · exact absurd hwaiting h.nodupWaiting.not_mem_erase
        · rw [hthread] at hw
          cases hw
        · rw [hthread] at hw
          cases hw
      · refine (h.standing t).mono (hother t ht) ?_ (mem_erase_of_ne ht) (Nat.le_refl _)
          hsignaled (hexempt t ht)
        refine mem_insertRoundRobin.trans ?_
        rw [or_iff_right ht]
        exact mem_erase_of_ne ht
    case unique =>
      intro t t' w w' hw hw'
      have ht : t ≠ th := by
        rintro rfl
        rw [hthread] at hw
        cases hw
      have ht' : t' ≠ th := by
        rintro rfl
        rw [hthread] at hw'
        cases hw'
      rw [hother t ht] at hw
      rw [hother t' ht'] at hw'
      exact h.unique t t' w w' hw hw'
    case nodupReady => exact nodup_insertRoundRobin h.nodupReady
    case nodupWaiting => exact h.nodupWaiting.erase th
    case fate =>
      intro n
      by_cases hn : ∃ w, (s.thread th).waitForObject = some w ∧ w.serial = n
      · obtain ⟨w, hw, rfl⟩ := hn
        have hlog := hlogSome w hw
        have hserial : Event.serial (.resumed w.serial x.result) = some w.serial := rfl
        refine @Fate.resumed _ _ x.result ((h.standing th).wait w hw).1 (fun t w' hw' heq ↦ ?_) ?_ ?_
        · by_cases ht : t = th
          · rw [ht, hthread] at hw'
            cases hw'
          · rw [hother t ht] at hw'
            exact ht (h.unique t th w' w hw' hw heq)
        · rw [hlog, events_cons, if_pos hserial]
          exact congrArg (x.result :: ·) (hkept w hw)
        · rw [hlog, events_cons, if_pos hserial]
          exact (hsome w hw).2.2
      · have hne : ∀ w, (s.thread th).waitForObject = some w → w.serial ≠ n :=
          fun w hw heq ↦ hn ⟨w, hw, heq⟩
        refine (h.fate n).mono ?_ (Nat.le_refl _) id (fun t w hw heq ↦ hother t ?_)
          fun t w hw heq ↦ hother t ?_
        · cases hw : (s.thread th).waitForObject with
          | none => rw [hlogNone hw, events_append, hevs n hne, nil_append]
          | some w =>
            have hserial : ¬ Event.serial (.resumed w.serial x.result) = some n :=
              fun heq ↦ hne w hw (Option.some.inj heq)
            rw [hlogSome w hw, events_cons, if_neg hserial, events_append, hevs n hne,
              nil_append]
        · rintro rfl
          exact hne w hw heq
        · rintro rfl
          rw [hthread] at hw
          cases hw
    case recorded =>
      cases hw : (s.thread th).waitForObject with
      | none =>
        rw [hlogNone hw]
        exact hrecorded
      | some w =>
        rw [hlogSome w hw]
        exact hrecorded.cons (by simp) (by simp [Event.Clears])
    case explained =>
      cases hw : (s.thread th).waitForObject with
      | none =>
        rw [hlogNone hw]
        exact hexplained
      | some w =>
        rw [hlogSome w hw]
        exact hexplained.cons (by simp)

theorem putWaiting (h : Invariant exempt s) (hstatus : x.status = .waiting)
    (hsame : (s.thread th).status = .waiting)
    (hwait : x.waitForObject = (s.thread th).waitForObject)
    (hresult : x.result = (s.thread th).result) :
    Invariant exempt ((s.changed th x s.signaled []).putInProperList th) := by
  have hput : (s.changed th x s.signaled []).putInProperList th =
      (s.changed th x s.signaled []).linkAtBack th := by
    rw [putInProperList, if_neg]
    simp [changed, hstatus]
  rw [hput]
  have hthread : ((s.changed th x s.signaled []).linkAtBack th).thread th = x := update_self ..
  have hother : ∀ t, t ≠ th →
      ((s.changed th x s.signaled []).linkAtBack th).thread t = s.thread t :=
    fun t ht ↦ update_of_ne ht _ _
  have hkept : ∀ t, (((s.changed th x s.signaled []).linkAtBack th).thread t).waitForObject =
      (s.thread t).waitForObject := by
    intro t
    by_cases ht : t = th
    · rw [ht, hthread, hwait]
    · rw [hother t ht]
  constructor
  case standing =>
    intro t
    by_cases ht : t = th
    · subst ht
      refine ⟨fun hready ↦ ?_, fun _ _ ↦ ?_, fun w hw ↦ ⟨?_, ?_⟩, fun w hw _ hexempt ↦ ?_⟩
      · exact absurd hready h.nodupReady.not_mem_erase
      · rw [hthread, hstatus]
      · rw [hkept] at hw
        exact ((h.standing t).wait w hw).1
      · exact mem_append_right _ (mem_singleton_self t)
      · rw [hkept] at hw
        exact (h.standing t).blocked w hw hsame hexempt
    · refine (h.standing t).mono (hother t ht) ?_ ?_ (Nat.le_refl _) (fun _ ↦ id) id
      · exact mem_erase_of_ne ht
      · simp [linkAtBack, changed, mem_erase_of_ne ht, ht]
  case unique =>
    intro t t' w w' hw hw'
    rw [hkept] at hw hw'
    exact h.unique t t' w w' hw hw'
  case nodupReady => exact h.nodupReady.erase th
  case nodupWaiting => exact nodup_linkAtBack h.nodupWaiting
  case fate =>
    intro n
    by_cases hn : ∃ w, (s.thread th).waitForObject = some w ∧ w.serial = n
    · obtain ⟨w, hw, rfl⟩ := hn
      obtain ⟨hevents, houtcome⟩ := h.events_eq_nil hw hsame
      exact .blocked (t := th) (w := w) (by rw [hkept, hw]) rfl (by rw [hthread, hstatus])
        (by rw [hthread, hresult, houtcome]) hevents
    · refine (h.fate n).mono rfl (Nat.le_refl _) id (fun t w hw heq ↦ hother t ?_)
        fun t w hw heq ↦ hother t ?_
      · rintro rfl
        exact hn ⟨w, hw, heq⟩
      · rintro rfl
        rw [hkept] at hw
        exact hn ⟨w, hw, heq⟩
  case recorded => exact h.recorded
  case explained => exact h.explained

theorem startWait (h : Invariant exempt s) (hready : th ∈ s.threadsReady) {w : Wait}
    (hserial : w.serial = s.waits)
    (hunsatisfied : ¬ Satisfied s.signaled w.objects w.waitAll) (hstatus : x.status = .waiting)
    (hwait : x.waitForObject = some w) (hresult : outcome x.result = []) :
    Invariant exempt (({ s.changed th x s.signaled [] with waits := s.waits + 1 } :
      Engine).putInProperList th) := by
  set s' : Engine := { s.changed th x s.signaled [] with waits := s.waits + 1 } with hs'
  have hput : s'.putInProperList th = s'.linkAtBack th := by
    rw [putInProperList, if_neg]
    simp [hs', changed, hstatus]
  rw [hput]
  have hthread : (s'.linkAtBack th).thread th = x := update_self ..
  have hother : ∀ t, t ≠ th → (s'.linkAtBack th).thread t = s.thread t :=
    fun t ht ↦ update_of_ne ht _ _
  have hnone : (s.thread th).waitForObject = none := by
    cases hw : (s.thread th).waitForObject with
    | none => rfl
    | some w' => exact absurd ((h.standing th).wait w' hw).2 ((h.standing th).ready hready).1
  have hborn : ∀ t w', (s.thread t).waitForObject = some w' → w'.serial ≠ s.waits :=
    fun t w' hw' ↦ Nat.ne_of_lt ((h.standing t).wait w' hw').1
  constructor
  case standing =>
    intro t
    by_cases ht : t = th
    · subst ht
      refine ⟨fun hready ↦ ?_, fun _ _ ↦ ?_, fun w' hw' ↦ ⟨?_, ?_⟩, fun w' hw' _ _ ↦ ?_⟩
      · exact absurd hready h.nodupReady.not_mem_erase
      · rw [hthread, hstatus]
      · rw [hthread, hwait, Option.some.injEq] at hw'
        rw [← hw', hserial]
        exact Nat.lt_succ_self _
      · exact mem_append_right _ (mem_singleton_self t)
      · rw [hthread, hwait, Option.some.injEq] at hw'
        rw [← hw']
        exact hunsatisfied
    · refine (h.standing t).mono (hother t ht) ?_ ?_ (Nat.le_succ _) (fun _ ↦ id) id
      · exact mem_erase_of_ne ht
      · simp [hs', linkAtBack, changed, mem_erase_of_ne ht, ht]
  case unique =>
    intro t t' w₁ w₂ hw₁ hw₂ heq
    by_cases ht : t = th <;> by_cases ht' : t' = th
    · rw [ht, ht']
    · rw [ht, hthread, hwait, Option.some.injEq] at hw₁
      rw [hother t' ht'] at hw₂
      exact absurd (heq.symm.trans (hw₁ ▸ hserial)) (hborn t' w₂ hw₂)
    · rw [ht', hthread, hwait, Option.some.injEq] at hw₂
      rw [hother t ht] at hw₁
      exact absurd (heq.trans (hw₂ ▸ hserial)) (hborn t w₁ hw₁)
    · rw [hother t ht] at hw₁
      rw [hother t' ht'] at hw₂
      exact h.unique t t' w₁ w₂ hw₁ hw₂ heq
  case nodupReady => exact h.nodupReady.erase th
  case nodupWaiting => exact nodup_linkAtBack h.nodupWaiting
  case fate =>
    intro n
    by_cases hn : n = s.waits
    · have hevents : events n s.log = [] := by
        cases h.fate n with
        | unborn _ hevents => exact hevents
        | blocked hw heq | restarted hw heq => exact absurd (heq.trans hn) (hborn _ _ hw)
        | resumed hlt => exact absurd hn (Nat.ne_of_lt hlt)
      exact .blocked (t := th) (w := w) (by rw [hthread, hwait]) (hserial.trans hn.symm)
        (by rw [hthread, hstatus]) (by rw [hthread, hresult]) hevents
    · refine (h.fate n).mono rfl (Nat.le_succ _) (fun hle ↦ ?_) (fun t w' hw' heq ↦ hother t ?_)
        fun t w' hw' heq ↦ hother t ?_
      · exact Nat.lt_of_le_of_ne hle fun heq ↦ hn heq.symm
      · rintro rfl
        rw [hnone] at hw'
        cases hw'
      · rintro rfl
        rw [hthread, hwait, Option.some.injEq] at hw'
        exact hn (heq.symm.trans (hw' ▸ hserial))
  case recorded => exact h.recorded
  case explained => exact h.explained

end Invariant

end MicroFramework.WaitHandles
