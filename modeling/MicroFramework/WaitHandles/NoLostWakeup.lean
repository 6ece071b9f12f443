import MicroFramework.WaitHandles.Steps

/-!
# No wake-up is lost

A Set, a wait and the operations on threads keep the invariant, as long as a Set does not satisfy
the wait of a thread that was restarted while suspended, or visit a suspended thread twice, and no
such thread times out after it was satisfied.
-/

namespace MicroFramework.WaitHandles

open Library Function List Option Engine

variable {s s' : Engine} {th t n object : ℕ} {exempt exempt' : List ℕ} {x : Thread} {w : Wait}
  {signaled : ℕ → Bool} {evs : List Event} {result : WaitResult}

theorem changed_restart : (s.changed th x signaled evs).restart th =
    (s.changed th { x with status := .ready } signaled evs).putInProperList th := by
  simp [restart, changed, setThread]

theorem tryWaitForSignal_unsatisfied
    (h : ∀ w, (s.thread th).waitForObject = some w → ¬ Satisfied s.signaled w.objects w.waitAll) :
    s.tryWaitForSignal th = s := by
  cases hw : (s.thread th).waitForObject with
  | none => simp only [tryWaitForSignal, hw]
  | some w =>
    have htry : tryWait s.autoReset s.signaled w.objects w.waitAll = none :=
      tryWait_eq_none.mpr (h w hw)
    simp only [tryWaitForSignal, hw, htry]

theorem tryWaitForSignal_satisfied (hw : (s.thread th).waitForObject = some w)
    (htry : tryWait s.autoReset s.signaled w.objects w.waitAll = some (result, signaled)) :
    s.tryWaitForSignal th = (s.changed th { s.thread th with result := result, status := .ready }
      signaled [.satisfied w result]).putInProperList th := by
  unfold tryWaitForSignal
  split
  next hnone => exact absurd (hw.symm.trans hnone) (some_ne_none w)
  next w' hw' =>
    obtain rfl : w = w' := some.inj (hw.symm.trans hw')
    split
    next hnone => exact absurd (htry.symm.trans hnone) (some_ne_none _)
    next result' signaled' hsome =>
      obtain ⟨rfl, rfl⟩ := Prod.mk.inj (some.inj (htry.symm.trans hsome))
      exact @changed_restart s th { s.thread th with result := result } signaled
        [.satisfied w result]

namespace Invariant

theorem satisfied (h : Invariant exempt s) (hw : (s.thread th).waitForObject = some w)
    (hstatus : (s.thread th).status = .waiting)
    (htry : tryWait s.autoReset s.signaled w.objects w.waitAll = some (result, signaled))
    (hexempt : ∀ t, t ≠ th → t ∉ exempt' → t ∉ exempt) :
    Invariant exempt' (s.tryWaitForSignal th) := by
  obtain ⟨hright, hsignaled⟩ := tryWait_eq_some htry
  obtain ⟨hevents, -⟩ := h.events_eq_nil hw hstatus
  rw [tryWaitForSignal_satisfied hw htry]
  refine h.putReady rfl rfl (fun object hobject ↦ ((hsignaled object).mp hobject).1)
    (h.recorded.satisfied hsignaled) (h.explained.satisfied (hright.congr h.recorded) hevents)
    (fun hnone ↦ ?_) (fun w' hw' ↦ ?_) hexempt
  · rw [hw] at hnone
    cases hnone
  · obtain rfl : w = w' := some.inj (hw.symm.trans hw')
    refine ⟨by simp [Event.serial], rfl, ?_⟩
    rw [events_append, hevents, hright.outcome_eq, append_nil,
      events_of_forall (by simp [Event.serial])]
    rfl

section

variable (h : Invariant [] s)

include h

theorem restarted (hevs : ∀ e ∈ evs, (∀ w r, e ≠ .satisfied w r) ∧
      (∀ object, e ≠ .set object) ∧ ∀ object, ¬ e.Clears s.autoReset object)
    (hwait : x.waitForObject = (s.thread th).waitForObject)
    (hnone : (s.thread th).waitForObject = none → evs = [])
    (hsome : ∀ w, (s.thread th).waitForObject = some w →
      (∀ e ∈ evs, e.serial = some w.serial) ∧ resumptions evs = [] ∧ satisfactions evs = [] ∧
        outcome x.result = outcome (s.thread th).result) :
    Invariant [] ((s.changed th x s.signaled evs).restart th) := by
  have hlog : ∀ evs : List Event, (∀ e ∈ evs, (∀ w r, e ≠ .satisfied w r) ∧
      (∀ object, e ≠ .set object) ∧ ∀ object, ¬ e.Clears s.autoReset object) →
      Recorded s.autoReset s.signaled (evs ++ s.log) ∧ Explained s.autoReset (evs ++ s.log) := by
    intro evs hevs
    induction evs with
    | nil => exact ⟨h.recorded, h.explained⟩
    | cons e evs ih =>
      obtain ⟨⟨hsatisfied, hset, hclears⟩, hevs⟩ := forall_mem_cons.mp hevs
      exact ⟨(ih hevs).1.cons hset hclears, (ih hevs).2.cons hsatisfied⟩
  rw [changed_restart]
  refine h.putReady rfl hwait (fun _ ↦ id) (hlog evs hevs).1 (hlog evs hevs).2 hnone
    (fun w hw ↦ ?_) fun _ _ ↦ id
  obtain ⟨hserial, hresumed, hsatisfied, houtcome⟩ := hsome w hw
  refine ⟨hserial, hresumed, ?_⟩
  rw [events_append, events_of_forall hserial, satisfactions_append, hsatisfied, nil_append,
    h.satisfactions_eq hw]
  exact houtcome.symm

theorem suspend (th : ℕ) : Invariant [] (s.suspend th) := by
  rw [Engine.suspend]
  split_ifs
  · cases hstatus : (s.thread th).status with
    | ready =>
      refine @putReady s th [] [] { s.thread th with suspended := true } s.signaled [] h hstatus rfl
        (fun _ ↦ id) h.recorded h.explained (fun _ ↦ rfl) (fun w hw ↦ ?_) fun _ _ ↦ id
      exact ⟨by simp, rfl, h.satisfactions_eq hw⟩
    | waiting =>
      exact h.putWaiting (x := { s.thread th with suspended := true }) hstatus hstatus rfl rfl
  · exact h

theorem resume (th : ℕ) : Invariant [] (s.resume th) := by
  rw [Engine.resume]
  split_ifs
  · cases hstatus : (s.thread th).status with
    | ready =>
      refine @putReady s th [] [] { s.thread th with suspended := false } s.signaled [] h hstatus rfl
        (fun _ ↦ id) h.recorded h.explained (fun _ ↦ rfl) (fun w hw ↦ ?_) fun _ _ ↦ id
      exact ⟨by simp, rfl, h.satisfactions_eq hw⟩
    | waiting =>
      exact h.putWaiting (x := { s.thread th with suspended := false }) hstatus hstatus rfl rfl
  · exact h

theorem abort (th : ℕ) : Invariant [] (s.abort th) := by
  cases hw : (s.thread th).waitForObject with
  | none =>
    have habort : s.abort th =
        (s.changed th { s.thread th with aborted := true } s.signaled []).restart th := by
      simp only [Engine.abort, hw]
      rfl
    rw [habort]
    exact h.restarted (by simp) rfl (fun _ ↦ rfl) fun w' hw' ↦ by simp [hw] at hw'
  | some w =>
    have habort : s.abort th = (s.changed th { s.thread th with aborted := true } s.signaled
        [.aborted w.serial]).restart th := by
      simp only [Engine.abort, hw]
      rfl
    rw [habort]
    refine h.restarted (by simp [Event.Clears]) rfl (fun hnone ↦ by simp [hw] at hnone)
      fun w' hw' ↦ ?_
    obtain rfl : w = w' := some.inj (hw.symm.trans hw')
    exact ⟨by simp [Event.serial], rfl, rfl, rfl⟩

/-- A time-out does not hit a thread whose wait was satisfied. -/
theorem checkThread (th : ℕ)
    (hexpected : s.passesOver th = false → ∀ w, (s.thread th).waitForObject = some w →
      w.timeExpire ≤ s.now → outcome (s.thread th).result = []) :
    Invariant [] (s.checkThread th) := by
  rw [Engine.checkThread]
  split_ifs with hpasses
  · exact h
  · cases hw : (s.thread th).waitForObject with
    | none => simpa only using h
    | some w =>
      simp only
      split_ifs with hexpired
      · refine @restarted s th { s.thread th with result := .timeout } [.timedOut w.serial] h
          (by simp [Event.Clears]) rfl
          (fun hnone ↦ by simp [hw] at hnone) fun w' hw' ↦ ?_
        obtain rfl : w = w' := some.inj (hw.symm.trans hw')
        refine ⟨by simp [Event.serial], rfl, rfl, ?_⟩
        rw [hexpected (by simpa using hpasses) w hw hexpired]
        rfl
      · exact h

theorem debit (th : ℕ) (quantum : ℤ) :
    Invariant [] (s.setThread th { s.thread th with
      executionCounter := (s.thread th).executionCounter - quantum }) := by
  set s' := s.setThread th { s.thread th with
    executionCounter := (s.thread th).executionCounter - quantum } with hs'
  have hfield : ∀ t, (s'.thread t).status = (s.thread t).status ∧
      (s'.thread t).suspended = (s.thread t).suspended ∧
      (s'.thread t).waitForObject = (s.thread t).waitForObject ∧
      (s'.thread t).result = (s.thread t).result := by
    intro t
    by_cases ht : t = th
    · subst ht
      simp [hs', setThread]
    · simp [hs', setThread, ht]
  constructor
  case standing =>
    intro t
    obtain ⟨hstatus, hsuspended, hwait, -⟩ := hfield t
    have hst := h.standing t
    exact ⟨fun hready ↦ by rw [hstatus, hsuspended]; exact hst.ready hready,
      fun hqueued ↦ by rw [hstatus, hsuspended]; exact hst.queued hqueued,
      fun w hw ↦ hst.wait w (hwait ▸ hw),
      fun w hw hwaiting ↦ hst.blocked w (hwait ▸ hw) (hstatus ▸ hwaiting)⟩
  case unique =>
    intro t t' w w' hw hw'
    rw [(hfield t).2.2.1] at hw
    rw [(hfield t').2.2.1] at hw'
    exact h.unique t t' w w' hw hw'
  case nodupReady => exact h.nodupReady
  case nodupWaiting => exact h.nodupWaiting
  case fate =>
    intro n
    cases h.fate n with
    | unborn hle hnone => exact .unborn hle hnone
    | @blocked t w hw hn hstatus hresult hnone =>
      obtain ⟨hstatus', -, hwait', hresult'⟩ := hfield t
      exact .blocked (hwait'.trans hw) hn (hstatus'.trans hstatus) (hresult' ▸ hresult) hnone
    | @restarted t w hw hn hstatus hsuspended hresumed hsatisfied =>
      obtain ⟨hstatus', hsuspended', hwait', hresult'⟩ := hfield t
      exact .restarted (hwait'.trans hw) hn (hstatus'.trans hstatus)
        (hsuspended'.trans hsuspended) hresumed (hresult' ▸ hsatisfied)
    | resumed hborn hfree hresumed hsatisfied =>
      exact .resumed hborn (fun t w hw ↦ hfree t w ((hfield t).2.2.1 ▸ hw)) hresumed hsatisfied
  case recorded => exact h.recorded
  case explained => exact h.explained

theorem satisfiedAtOnce (hready : th ∈ s.threadsReady) (hserial : w.serial = s.waits)
    (htry : tryWait s.autoReset s.signaled w.objects w.waitAll = some (result, signaled)) :
    Invariant [] { s.changed th { s.thread th with result := result } signaled
      [.resumed s.waits result, .satisfied w result] with waits := s.waits + 1 } := by
  obtain ⟨hright, hsignaled⟩ := tryWait_eq_some htry
  set s' : Engine := { s.changed th { s.thread th with result := result } signaled
    [.resumed s.waits result, .satisfied w result] with waits := s.waits + 1 } with hs'
  have hnone : (s.thread th).waitForObject = none := by
    cases hw : (s.thread th).waitForObject with
    | none => rfl
    | some w' => exact absurd ((h.standing th).wait w' hw).2 ((h.standing th).ready hready).1
  have hother : ∀ t, t ≠ th → s'.thread t = s.thread t := fun t ht ↦ update_of_ne ht _ _
  have hthread : s'.thread th = { s.thread th with result := result } := update_self ..
  have hborn : ∀ t w', (s.thread t).waitForObject = some w' → w'.serial ≠ s.waits :=
    fun t w' hw' ↦ Nat.ne_of_lt ((h.standing t).wait w' hw').1
  have hfresh : events s.waits s.log = [] := by
    cases h.fate s.waits with
    | unborn _ hevents => exact hevents
    | blocked hw heq | restarted hw heq => exact absurd heq (hborn _ _ hw)
    | resumed hlt => exact absurd hlt (Nat.lt_irrefl _)
  have hwaits : ∀ t, (s'.thread t).waitForObject = (s.thread t).waitForObject := by
    intro t
    by_cases ht : t = th
    · rw [ht, hthread]
    · rw [hother t ht]
  constructor
  case standing =>
    intro t
    by_cases ht : t = th
    · subst ht
      refine ⟨fun _ ↦ ?_, fun hwaiting ↦ ?_, fun w' hw' ↦ ?_, fun w' hw' ↦ ?_⟩
      · rw [hthread]
        exact (h.standing t).ready hready
      · exact absurd hwaiting ((h.standing t).ready hready).1
      · rw [hwaits, hnone] at hw'
        cases hw'
      · rw [hwaits, hnone] at hw'
        cases hw'
    · exact (h.standing t).mono (hother t ht) Iff.rfl Iff.rfl (Nat.le_succ _)
        (fun object hobject ↦ ((hsignaled object).mp hobject).1) id
  case unique =>
    intro t t' w₁ w₂ hw₁ hw₂
    rw [hwaits] at hw₁ hw₂
    exact h.unique t t' w₁ w₂ hw₁ hw₂
  case nodupReady => exact h.nodupReady
  case nodupWaiting => exact h.nodupWaiting
  case fate =>
    intro n
    by_cases hn : n = s.waits
    · have hevents : events n s'.log = [.resumed s.waits result, .satisfied w result] := by
        refine (@events_append s.log [.resumed s.waits result, .satisfied w result] _).trans ?_
        rw [hn, hfresh, append_nil, events_of_forall (by simp [Event.serial, hserial])]
      refine @Fate.resumed _ _ result ?_ (fun t w' hw' heq ↦ ?_) ?_ ?_
      · rw [hn]
        exact Nat.lt_succ_self _
      · rw [hwaits] at hw'
        exact hborn t w' hw' (heq.trans hn)
      · rw [hevents]
        rfl
      · rw [hevents, hright.outcome_eq]
        rfl
    · have hne : ¬ s.waits = n := fun heq ↦ hn heq.symm
      refine (h.fate n).mono ?_ (Nat.le_succ _) (fun hle ↦ ?_) (fun t w' hw' heq ↦ hother t ?_)
        fun t w' hw' heq ↦ hother t ?_
      · refine (@events_append s.log [.resumed s.waits result, .satisfied w result] _).trans ?_
        rw [events_of_forall_ne (by simp [Event.serial, hserial, hne]), nil_append]
      · exact Nat.lt_of_le_of_ne hle fun heq ↦ hn heq.symm
      · rintro rfl
        rw [hnone] at hw'
        cases hw'
      · rintro rfl
        rw [hwaits, hnone] at hw'
        cases hw'
  case recorded => exact (h.recorded.satisfied hsignaled).cons (by simp) (by simp [Event.Clears])
  case explained =>
    refine (h.explained.satisfied (hright.congr h.recorded) ?_).cons (by simp)
    rw [hserial, hfresh]

theorem waitForSignal (hready : th ∈ s.threadsReady) (objects : List ℕ)
    (waitAll : Bool) (timeExpire : ℕ) :
    Invariant [] (s.waitForSignal th objects waitAll timeExpire) := by
  rw [Engine.waitForSignal]
  split_ifs
  · exact h
  · cases htry : tryWait s.autoReset s.signaled objects waitAll with
    | none =>
      exact h.startWait (x := { s.thread th with
          status := .waiting
          waitForObject := some ⟨s.waits, objects, waitAll, timeExpire⟩
          result := .init }) (w := ⟨s.waits, objects, waitAll, timeExpire⟩) hready rfl
        (tryWait_eq_none.mp htry) rfl rfl rfl
    | some tried =>
      exact @satisfiedAtOnce s th ⟨s.waits, objects, waitAll, timeExpire⟩ tried.2 tried.1 h hready
        rfl htry

theorem reset (object : ℕ) : Invariant [] (s.reset object) where
  standing t := by
    refine (h.standing t).mono rfl Iff.rfl Iff.rfl (Nat.le_refl _) (fun other hother ↦ ?_) id
    by_cases heq : other = object
    · subst heq
      simp [Engine.reset] at hother
    · simpa [Engine.reset, heq] using hother
  unique := h.unique
  nodupReady := h.nodupReady
  nodupWaiting := h.nodupWaiting
  fate n := (h.fate n).mono (events_cons.trans (if_neg (by simp [Event.serial])))
    (Nat.le_refl _) id (fun _ _ _ _ ↦ rfl) fun _ _ _ _ ↦ rfl
  recorded := h.recorded.reset object
  explained := h.explained.cons (by simp)

theorem elapse (ticks : ℕ) : Invariant [] { s with now := s.now + ticks } where
  standing t := (h.standing t).mono rfl Iff.rfl Iff.rfl (Nat.le_refl _) (fun _ ↦ id) id
  unique := h.unique
  nodupReady := h.nodupReady
  nodupWaiting := h.nodupWaiting
  fate n := (h.fate n).mono rfl (Nat.le_refl _) id (fun _ _ _ _ ↦ rfl) fun _ _ _ _ ↦ rfl
  recorded := h.recorded
  explained := h.explained

end

end Invariant

section SignalLoop

variable {rest : List ℕ} {turns : ℕ}

theorem nextWaiting_eq {left : List ℕ} (hlist : s.threadsWaiting = left ++ th :: rest)
    (hnodup : s.threadsWaiting.Nodup) : s.nextWaiting th = rest.head? := by
  have hleft : ∀ p ∈ left, (p != th) = true := by
    intro p hp
    rw [hlist, List.nodup_append] at hnodup
    exact bne_iff_ne.mpr (hnodup.2.2 p hp th mem_cons_self)
  rw [nextWaiting, hlist, dropWhile_append_of_pos hleft]
  simp

/-- What a Set asks of the waiting threads.  An event that resets itself satisfies no thread that was
restarted before, and only waits that consume it; any other event satisfies no suspended thread. -/
structure Settable (s : Engine) (object : ℕ) : Prop where
  auto : s.autoReset object = true →
    (∀ t ∈ s.threadsWaiting, (s.thread t).status = .ready →
      ∀ w, (s.thread t).waitForObject = some w → ¬ Satisfied s.signaled w.objects w.waitAll) ∧
    ∀ t w, (s.thread t).waitForObject = some w → (s.thread t).status = .waiting →
      ¬ Satisfied (update s.signaled object false) w.objects w.waitAll
  manual : s.autoReset object = false → ∀ t ∈ s.threadsWaiting, (s.thread t).suspended = true →
    ∀ w, (s.thread t).waitForObject = some w → ¬ Satisfied s.signaled w.objects w.waitAll

theorem consumed_of_needed (hauto : s.autoReset object = true)
    (htry : tryWait s.autoReset s.signaled w.objects w.waitAll = some (result, signaled))
    (hneeded : ¬ Satisfied (update s.signaled object false) w.objects w.waitAll) :
    signaled object = false := by
  obtain ⟨hright, hsignaled⟩ := tryWait_eq_some htry
  by_contra hstill
  rw [Bool.not_eq_false] at hstill
  refine hneeded ?_
  have hnot := ((hsignaled object).mp hstill).2
  cases result with
  | handle i =>
    obtain ⟨hany, ⟨first, hfirst, hset⟩, -⟩ := hright
    rw [hany, Satisfied, if_neg Bool.false_ne_true]
    have hne : first ≠ object := by
      rintro rfl
      exact hnot ⟨hauto, hfirst⟩
    exact ⟨first, mem_of_getElem? hfirst, by rw [update_of_ne hne]; exact hset⟩
  | handleAll =>
    obtain ⟨hall, hset⟩ := hright
    rw [hall, Satisfied, if_pos rfl]
    intro other hother
    have hne : other ≠ object := by
      rintro rfl
      exact hnot ⟨hauto, hother⟩
    rw [update_of_ne hne]
    exact hset other hother
  | init | timeout => exact hright.elim

theorem Invariant.of_blocked (h : Invariant exempt s)
    (hblocked : ∀ t w, (s.thread t).waitForObject = some w → (s.thread t).status = .waiting →
      t ∉ exempt' → ¬ Satisfied s.signaled w.objects w.waitAll) : Invariant exempt' s :=
  { h with
    standing := fun t ↦ ⟨(h.standing t).ready, (h.standing t).queued, (h.standing t).wait,
      hblocked t⟩ }

theorem putInProperList_thread (ht : t ≠ th) :
    ((s.changed th x signaled evs).putInProperList th).thread t = s.thread t := by
  rw [putInProperList]
  split_ifs
  · simp [insertThreadRoundRobin, setThread, changed, ht]
  · simp [linkAtBack, changed, ht]

theorem putInProperList_status :
    (((s.changed th x signaled evs).putInProperList th).thread th).status = x.status := by
  rw [putInProperList]
  split_ifs
  · simp [insertThreadRoundRobin, setThread, changed]
  · simp [linkAtBack, changed]

theorem putInProperList_signaled :
    ((s.changed th x signaled evs).putInProperList th).signaled = signaled ∧
      ((s.changed th x signaled evs).putInProperList th).autoReset = s.autoReset := by
  rw [putInProperList]
  split_ifs
  · exact ⟨rfl, rfl⟩
  · exact ⟨rfl, rfl⟩

theorem putInProperList_waiting (hstatus : x.status = .ready) (hsuspended : x.suspended = false) :
    ((s.changed th x signaled evs).putInProperList th).threadsWaiting =
      s.threadsWaiting.erase th := by
  rw [putInProperList, if_pos]
  · rfl
  · simp [changed, hstatus, hsuspended]

/-- The visit of a thread whose wait is satisfied: an event that resets itself is consumed, and any
other sends the thread to the ready list. -/
theorem Invariant.satisfied_visit (h : Invariant (th :: rest) s) (hmem : th ∈ s.threadsWaiting)
    (hsettable : Settable s object) (hw : (s.thread th).waitForObject = some w)
    (hsat : Satisfied s.signaled w.objects w.waitAll)
    (htry : tryWait s.autoReset s.signaled w.objects w.waitAll = some (result, signaled)) :
    (s.tryWaitForSignal th).signaled = signaled ∧
      (s.autoReset object = true →
        signaled object = false ∧ Invariant [] (s.tryWaitForSignal th)) ∧
      (s.autoReset object = false → (s.signaled object = true → signaled object = true) ∧
        Invariant rest (s.tryWaitForSignal th) ∧
        (s.tryWaitForSignal th).threadsWaiting = s.threadsWaiting.erase th ∧
        Settable (s.tryWaitForSignal th) object) := by
  have hstatus : (s.thread th).status = .waiting := by
    cases hstatus : (s.thread th).status with
    | waiting => rfl
    | ready =>
      cases hauto : s.autoReset object with
      | true => exact absurd hsat ((hsettable.auto hauto).1 th hmem hstatus w hw)
      | false =>
        have hsuspended : (s.thread th).suspended = true := by
          by_contra hnot
          have hwaiting := (h.standing th).queued hmem (by simpa using hnot)
          rw [hstatus] at hwaiting
          cases hwaiting
        exact absurd hsat (hsettable.manual hauto th hmem hsuspended w hw)
  obtain ⟨hright, hsignaled⟩ := tryWait_eq_some htry
  have hvisit := @Invariant.satisfied s th (th :: rest) rest w signaled result h hw hstatus htry
    fun t ht hnot ↦ by simp [ht, hnot]
  have hsuspended : s.autoReset object = false → (s.thread th).suspended = false := by
    intro hmanual
    by_contra hnot
    exact hsettable.manual hmanual th hmem (by simpa using hnot) w hw hsat
  have hwaiting : s.autoReset object = false →
      (s.tryWaitForSignal th).threadsWaiting = s.threadsWaiting.erase th := by
    intro hmanual
    rw [tryWaitForSignal_satisfied hw htry]
    exact putInProperList_waiting rfl (hsuspended hmanual)
  rw [tryWaitForSignal_satisfied hw htry] at hvisit hwaiting ⊢
  refine ⟨putInProperList_signaled.1, fun hauto ↦ ?_, fun hmanual ↦ ⟨fun hset ↦ ?_, hvisit, ?_, ?_⟩⟩
  · have hcleared := consumed_of_needed hauto htry ((hsettable.auto hauto).2 th w hw hstatus)
    refine ⟨hcleared, hvisit.of_blocked fun t w' hw' hwaiting _ hsat' ↦ ?_⟩
    by_cases ht : t = th
    · subst ht
      rw [putInProperList_status] at hwaiting
      cases hwaiting
    · rw [putInProperList_thread ht] at hw' hwaiting
      rw [putInProperList_signaled.1] at hsat'
      refine (hsettable.auto hauto).2 t w' hw' hwaiting (hsat'.mono fun other hother ↦ ?_)
      have hne : other ≠ object := by
        rintro rfl
        rw [hcleared] at hother
        cases hother
      rw [update_of_ne hne]
      exact ((hsignaled other).mp hother).1
  · refine (hsignaled object).mpr ⟨hset, fun hconsumes ↦ ?_⟩
    cases result with
    | handle i | handleAll => simp [Consumes, hmanual] at hconsumes
    | init | timeout => exact hconsumes
  · exact hwaiting hmanual
  · refine ⟨fun hauto ↦ ?_, fun _ t ht hsuspended' w' hw' hsat' ↦ ?_⟩
    · rw [putInProperList_signaled.2, hmanual] at hauto
      cases hauto
    · rw [hwaiting hmanual, h.nodupWaiting.mem_erase_iff] at ht
      rw [putInProperList_thread ht.1] at hsuspended' hw'
      rw [putInProperList_signaled.1] at hsat'
      exact hsettable.manual hmanual t ht.2 hsuspended' w' hw'
        (hsat'.mono fun other hother ↦ ((hsignaled other).mp hother).1)

/-- The loop of a Set visits each waiting thread once, and ends. -/
theorem signalLoop_spec (h : Invariant rest s) (hlist : ∃ left, s.threadsWaiting = left ++ rest)
    (hset : s.signaled object = true) (hsettable : Settable s object) :
    (∀ s', signalLoop object turns rest.head? s = some s' → Invariant [] s') ∧
      (rest.length < turns → (signalLoop object turns rest.head? s).isSome) := by
  induction rest generalizing turns s with
  | nil =>
    cases turns with
    | zero => simp [signalLoop]
    | succ turns =>
      simp only [head?_nil, signalLoop]
      exact ⟨fun s' hs' ↦ some.inj hs' ▸ h, fun _ ↦ rfl⟩
  | cons th rest ih =>
    obtain ⟨left, hlist⟩ := hlist
    cases turns with
    | zero => simp [signalLoop]
    | succ turns =>
      have hmem : th ∈ s.threadsWaiting := by
        rw [hlist]
        simp
      have hnext := nextWaiting_eq hlist h.nodupWaiting
      by_cases hsat : ∃ w, (s.thread th).waitForObject = some w ∧
          Satisfied s.signaled w.objects w.waitAll
      · obtain ⟨w, hw, hsat⟩ := hsat
        cases htry : tryWait s.autoReset s.signaled w.objects w.waitAll with
        | none => exact absurd hsat (tryWait_eq_none.mp htry)
        | some tried =>
          obtain ⟨result, signaled⟩ := tried
          have hvisited := h.satisfied_visit hmem hsettable hw hsat htry
          obtain ⟨hsignaled, hone, hmany⟩ := hvisited
          by_cases hauto : s.autoReset object = true
          · obtain ⟨hcleared, hdone⟩ := hone hauto
            simp only [head?_cons, signalLoop, hsignaled, hcleared, Bool.false_eq_true,
              if_false]
            exact ⟨fun s' hs' ↦ some.inj hs' ▸ hdone, fun _ ↦ rfl⟩
          · obtain ⟨hkept, hrest, hwaiting, hsettable'⟩ := hmany (by simpa using hauto)
            have hlist' : (s.tryWaitForSignal th).threadsWaiting = left ++ rest := by
              rw [hwaiting, hlist, erase_append_right, erase_cons_head]
              intro hleft
              have hnodup := h.nodupWaiting
              rw [hlist, List.nodup_append] at hnodup
              exact hnodup.2.2 th hleft th mem_cons_self rfl
            simp only [head?_cons, signalLoop, hsignaled, hkept hset, if_true, hnext]
            obtain ⟨hloop, hends⟩ := @ih (s.tryWaitForSignal th) turns hrest ⟨left, hlist'⟩
              (hsignaled.symm ▸ hkept hset) hsettable'
            exact ⟨hloop, fun hturns ↦ hends (by simpa using hturns)⟩
      · have hsame : s.tryWaitForSignal th = s :=
          tryWaitForSignal_unsatisfied fun w hw hsat' ↦ hsat ⟨w, hw, hsat'⟩
        have hrest : Invariant rest s := by
          refine h.of_blocked fun t w hw hstatus ht hsat' ↦ ?_
          by_cases heq : t = th
          · exact hsat ⟨w, heq ▸ hw, hsat'⟩
          · exact (h.standing t).blocked w hw hstatus (by simp [heq, ht]) hsat'
        simp only [head?_cons, signalLoop, hsame, hset, if_true, hnext]
        obtain ⟨hloop, hends⟩ :=
          @ih s turns hrest ⟨left ++ [th], by simpa using hlist⟩ hset hsettable
        exact ⟨hloop, fun hturns ↦ hends (by simpa using hturns)⟩

end SignalLoop

/-- Two suspended threads that wait for a signaled event which does not reset itself. -/
structure Restless (s : Engine) (a b object : ℕ) : Prop where
  waiting : s.threadsWaiting = [a, b]
  distinct : a ≠ b
  suspended : ∀ t ∈ [a, b], (s.thread t).suspended = true
  wait : ∀ t ∈ [a, b], ∃ w, (s.thread t).waitForObject = some w ∧ w.objects = [object] ∧
    w.waitAll = false
  signaled : s.signaled object = true
  manual : s.autoReset object = false

/-- The visit of the first of the two threads puts it behind the other. -/
theorem Restless.visit {a b : ℕ} (h : Restless s a b object) :
    Restless (s.tryWaitForSignal a) b a object := by
  obtain ⟨w, hw, hobjects, hany⟩ := h.wait a (by simp)
  have htry : tryWait s.autoReset s.signaled w.objects w.waitAll =
      some (.handle 0, s.signaled) := by
    simp [tryWait, hobjects, hany, firstSignaled, h.signaled, h.manual]
  have hsuspended := h.suspended a (by simp)
  rw [tryWaitForSignal_satisfied hw htry, putInProperList, if_neg (by simp [changed, hsuspended])]
  have hkept : ∀ t ∈ [b, a], ∀ x, x.suspended = (s.thread a).suspended →
      x.waitForObject = (s.thread a).waitForObject →
      (update s.thread a x t).suspended = true ∧
        ∃ w, (update s.thread a x t).waitForObject = some w ∧ w.objects = [object] ∧
          w.waitAll = false := by
    intro t ht x hx hx'
    by_cases heq : t = a
    · subst heq
      rw [update_self, hx, hx']
      exact ⟨hsuspended, h.wait t (by simp)⟩
    · rw [update_of_ne heq]
      have ht' : t ∈ [a, b] := by simpa [or_comm] using ht
      exact ⟨h.suspended t ht', h.wait t ht'⟩
  have hrestarted := fun t ht ↦
    hkept t ht { s.thread a with result := .handle 0, status := .ready } rfl rfl
  exact ⟨by simp [linkAtBack, changed, h.waiting], h.distinct.symm,
    fun t ht ↦ (hrestarted t ht).1, fun t ht ↦ (hrestarted t ht).2, h.signaled, h.manual⟩

/-- The loop of the Set goes back and forth between the two threads and never ends. -/
theorem Restless.signalLoop_eq_none {a b : ℕ} (h : Restless s a b object) (turns : ℕ) :
    signalLoop object turns (some a) s = none := by
  induction turns generalizing s a b with
  | zero => rfl
  | succ turns ih =>
    have hnext : s.nextWaiting a = some b := by simp [nextWaiting, h.waiting]
    rw [signalLoop, if_pos h.visit.signaled, hnext]
    exact ih h.visit

/-- A Set satisfies no suspended thread; an event that resets itself may do so once, while the
thread was not restarted.  A time-out hits no thread whose wait was satisfied. -/
def Engine.Expected (s : Engine) : Action → Prop
  | .set object _ => ∀ t ∈ s.threadsWaiting, (s.thread t).suspended = true →
      (s.autoReset object = true → (s.thread t).status = .ready) →
      ∀ w ∈ (s.thread t).waitForObject,
        ¬ Satisfied (update s.signaled object true) w.objects w.waitAll
  | .checkThread th => s.passesOver th = false → ∀ w ∈ (s.thread th).waitForObject,
      w.timeExpire ≤ s.now → outcome (s.thread th).result = []
  | _ => True

theorem Invariant.signalObject (h : Invariant [] s) {turns : ℕ}
    (hexpected : s.Expected (.set object turns)) :
    (∀ s', s.signalObject object turns = some s' → Invariant [] s') ∧
      (s.threadsWaiting.length < turns → (s.signalObject object turns).isSome) := by
  have hset : Invariant s.threadsWaiting { s with
      signaled := update s.signaled object true
      log := .set object :: s.log } :=
    { standing := fun t ↦ ⟨(h.standing t).ready, (h.standing t).queued, (h.standing t).wait,
        fun w hw _ ht ↦ absurd ((h.standing t).wait w hw).2 ht⟩
      unique := h.unique
      nodupReady := h.nodupReady
      nodupWaiting := h.nodupWaiting
      fate := fun n ↦ (h.fate n).mono (events_cons.trans (if_neg (by simp [Event.serial])))
        (Nat.le_refl _) id (fun _ _ _ _ ↦ rfl) fun _ _ _ _ ↦ rfl
      recorded := h.recorded.set object
      explained := h.explained.cons (by simp) }
  refine signalLoop_spec hset ⟨[], rfl⟩ (update_self ..) ⟨fun hauto ↦ ⟨?_, ?_⟩, ?_⟩
  · intro t ht hstatus w hw
    have hsuspended : (s.thread t).suspended = true := by
      by_contra hnot
      have hwaiting := (h.standing t).queued ht (by simpa using hnot)
      exact absurd (hwaiting.symm.trans hstatus) (by simp)
    exact hexpected t ht hsuspended (fun _ ↦ hstatus) w hw
  · intro t w hw hstatus hsat
    refine (h.standing t).blocked w hw hstatus (by simp) (hsat.mono fun other hother ↦ ?_)
    have hne : other ≠ object := by
      rintro rfl
      simp at hother
    simpa [hne] using hother
  · intro hmanual t ht hsuspended w hw
    refine hexpected t ht hsuspended (fun hauto ↦ ?_) w hw
    exact absurd (hmanual.symm.trans hauto) (by simp)

theorem Invariant.step {a : Action} (h : Invariant [] s) (hexpected : s.Expected a)
    (hstep : s.step a = some s') : Invariant [] s' := by
  cases a with
  | waitForSignal th objects waitAll timeExpire =>
    simp only [Engine.step] at hstep
    split_ifs at hstep with hready
    exact some.inj hstep ▸ h.waitForSignal hready objects waitAll timeExpire
  | set object turns => exact (h.signalObject hexpected).1 s' hstep
  | reset object => exact some.inj hstep ▸ h.reset object
  | suspend th =>
    simp only [Engine.step] at hstep
    split_ifs at hstep
    exact some.inj hstep ▸ h.suspend th
  | resume th =>
    simp only [Engine.step] at hstep
    split_ifs at hstep
    exact some.inj hstep ▸ h.resume th
  | abort th =>
    simp only [Engine.step] at hstep
    split_ifs at hstep
    exact some.inj hstep ▸ h.abort th
  | checkThread th =>
    simp only [Engine.step] at hstep
    split_ifs at hstep
    exact some.inj hstep ▸ h.checkThread th hexpected
  | debit th quantum => exact some.inj hstep ▸ h.debit th quantum
  | elapse ticks => exact some.inj hstep ▸ h.elapse ticks

theorem invariant_of_reachable (h : Reachable step Engine.Expected Started s) : Invariant [] s :=
  h.invariant (fun _ ↦ Invariant.of_started) fun _ _ _ hs hexpected hstep ↦ hs.step hexpected hstep

/-- In every run of expected steps no wake-up is lost, and every Set that is expected ends. -/
theorem no_lost_wakeup (h : Reachable step Engine.Expected Started s) :
    s.Correct ∧ ∀ object turns, s.Expected (.set object turns) →
      s.threadsWaiting.length < turns → (s.step (.set object turns)).isSome :=
  ⟨(invariant_of_reachable h).correct,
    fun _ _ hexpected ↦ ((invariant_of_reachable h).signalObject hexpected).2⟩

def twoThreads : Engine where
  sourceLevelDebugging := true
  thread _ := ⟨.ready, false, false, 0, none, .init⟩
  threadsReady := [1, 2]
  threadsWaiting := []
  signaled _ := false
  autoReset _ := true
  now := 0
  waits := 0
  log := []

theorem twoThreads_started : Started twoThreads :=
  ⟨fun _ _ ↦ ⟨rfl, rfl⟩, by decide, rfl, fun _ ↦ rfl, fun _ ↦ rfl, rfl, rfl⟩

/-- A thread waits for an event, and the event is set. -/
theorem no_lost_wakeup_once :
    ∃ s, [.waitForSignal 1 [0] false 1000, .set 0 5].foldlM step twoThreads = some s ∧
      s.Correct := by
  have hstarted : Reachable step Engine.Expected Started twoThreads :=
    .start twoThreads_started
  have hwaits := hstarted.step (Action.waitForSignal 1 [0] false 1000) trivial rfl
  have hset := hwaits.step (Action.set 0 5) (fun t ht hsuspended ↦ by
    obtain rfl : t = 1 := mem_singleton.mp ht
    exact absurd hsuspended (by decide)) rfl
  exact ⟨_, rfl, (no_lost_wakeup hset).1⟩

/-- A thread that waits for an event is suspended, and the event is set twice. -/
def suspendedWait : List Action :=
  [.waitForSignal 1 [0] false 1000, .suspend 1, .set 0 5, .set 0 5]

/-- In some run a single wait consumes two Sets. -/
theorem lost_wakeup : ¬ ∀ s, Reachable step (fun _ _ ↦ True) Started s → s.Correct := by
  intro hall
  have hstarted : Reachable step (fun _ _ ↦ True) Started twoThreads :=
    .start twoThreads_started
  have hrun : ∃ s, suspendedWait.foldlM step twoThreads = some s ∧
      satisfactions (events 0 s.log) = [.handle 0, .handle 0] := ⟨_, rfl, rfl⟩
  obtain ⟨s, hrun, hsatisfied⟩ := hrun
  have honce := (hall s (hstarted.foldlM (fun _ _ ↦ trivial) _ hrun)).satisfiedOnce 0
  rw [hsatisfied] at honce
  exact absurd honce (by decide)

end MicroFramework.WaitHandles
