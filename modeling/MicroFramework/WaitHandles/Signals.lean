import Mathlib.Data.List.Nodup
import MicroFramework.Library.Runs
import MicroFramework.WaitHandles.Engine

/-!
# Signals, waits and what the log says of them

When a wait is satisfied, which result it has and which events it resets; and which events are
signaled as far as the log tells: those that were set and not reset or consumed since.
-/

namespace MicroFramework.WaitHandles

open Library List

variable {autoReset signaled signaled' : ℕ → Bool} {objects : List ℕ} {waitAll : Bool}
  {result : WaitResult} {object : ℕ} {w : Wait} {e : Event} {log evs : List Event} {n : ℕ}

section TryWait

def Satisfied (signaled : ℕ → Bool) (objects : List ℕ) (waitAll : Bool) : Prop :=
  if waitAll = true then ∀ object ∈ objects, signaled object = true
  else ∃ object ∈ objects, signaled object = true

/-- The result of a wait whose condition holds: the first object that is signaled, or all. -/
def Right (objects : List ℕ) (waitAll : Bool) (signaled : ℕ → Prop) : WaitResult → Prop
  | .handle i =>
    waitAll = false ∧ (∃ object, objects[i]? = some object ∧ signaled object) ∧
      ∀ j < i, ∀ object, objects[j]? = some object → ¬ signaled object
  | .handleAll => waitAll = true ∧ ∀ object ∈ objects, signaled object
  | .init => False
  | .timeout => False

def Consumes (autoReset : ℕ → Bool) (objects : List ℕ) (object : ℕ) : WaitResult → Prop
  | .handle i => autoReset object = true ∧ objects[i]? = some object
  | .handleAll => autoReset object = true ∧ object ∈ objects
  | .init => False
  | .timeout => False

/-- What the log has to say of a result. -/
def outcome : WaitResult → List WaitResult
  | .handle i => [.handle i]
  | .handleAll => [.handleAll]
  | .init => []
  | .timeout => []

theorem Satisfied.mono (h : Satisfied signaled objects waitAll)
    (hmono : ∀ object, signaled object = true → signaled' object = true) :
    Satisfied signaled' objects waitAll := by
  rw [Satisfied] at h ⊢
  split_ifs at h ⊢
  · exact fun object hobject ↦ hmono object (h object hobject)
  · obtain ⟨object, hobject, hsignaled⟩ := h
    exact ⟨object, hobject, hmono object hsignaled⟩

theorem Right.congr {p q : ℕ → Prop} (h : Right objects waitAll p result)
    (hiff : ∀ object, p object ↔ q object) : Right objects waitAll q result := by
  have heq : p = q := funext fun object ↦ propext (hiff object)
  exact heq ▸ h

theorem Right.outcome_eq {p : ℕ → Prop} (h : Right objects waitAll p result) :
    outcome result = [result] := by
  cases result with
  | handle i | handleAll => rfl
  | init | timeout => exact h.elim

theorem firstSignaled_eq_none {i : ℕ} :
    firstSignaled signaled i objects = none ↔ ∀ object ∈ objects, signaled object = false := by
  induction objects generalizing i with
  | nil => simp [firstSignaled]
  | cons o objects ih =>
    by_cases ho : signaled o = true
    · simp [firstSignaled, ho]
    · simp only [firstSignaled, ho, if_false, ih, forall_mem_cons, Bool.false_eq_true]
      simp

theorem firstSignaled_eq_some {i k : ℕ} (h : firstSignaled signaled i objects = some (k, object)) :
    ∃ j, k = i + j ∧ objects[j]? = some object ∧ signaled object = true ∧
      ∀ j' < j, ∀ o, objects[j']? = some o → ¬ signaled o = true := by
  induction objects generalizing i with
  | nil => simp [firstSignaled] at h
  | cons o objects ih =>
    rw [firstSignaled] at h
    split_ifs at h with ho
    · obtain ⟨rfl, rfl⟩ := Prod.mk.inj (Option.some.inj h)
      exact ⟨0, rfl, rfl, ho, fun j' hj' ↦ absurd hj' (Nat.not_lt_zero _)⟩
    · obtain ⟨j, rfl, hget, hsignaled, hfirst⟩ := ih h
      refine ⟨j + 1, by omega, by simpa using hget, hsignaled, fun j' hj' o' ho' ↦ ?_⟩
      cases j' with
      | zero =>
        obtain rfl : o = o' := by simpa using ho'
        exact ho
      | succ j' => exact hfirst j' (by omega) o' (by simpa using ho')

theorem resetAll_eq_true : resetAll autoReset objects signaled object = true ↔
    signaled object = true ∧ ¬ (autoReset object = true ∧ object ∈ objects) := by
  induction objects generalizing signaled with
  | nil => simp [resetAll]
  | cons o objects ih =>
    have hcons : resetAll autoReset (o :: objects) signaled = resetAll autoReset objects
        (if autoReset o then Function.update signaled o false else signaled) := rfl
    rw [hcons, ih]
    by_cases ho : object = o
    · subst ho
      by_cases hauto : autoReset object = true <;> simp [hauto]
    · by_cases hauto : autoReset o = true <;> simp [hauto, ho]

/-- A try fails exactly when the condition of the wait does not hold. -/
theorem tryWait_eq_none : tryWait autoReset signaled objects waitAll = none ↔
    ¬ Satisfied signaled objects waitAll := by
  cases waitAll with
  | true => simp [tryWait, Satisfied]
  | false =>
    simp only [tryWait, Satisfied, Bool.false_eq_true, if_false]
    cases hfirst : firstSignaled signaled 0 objects with
    | none =>
      simp only [true_iff, not_exists, not_and]
      exact fun object hobject htrue ↦ by
        simp [firstSignaled_eq_none.mp hfirst object hobject] at htrue
    | some found =>
      obtain ⟨j, -, hget, hsignaled, -⟩ := firstSignaled_eq_some hfirst
      simp only [reduceCtorEq, false_iff, not_not]
      exact ⟨found.2, mem_of_getElem? hget, hsignaled⟩

/-- A try that succeeds has the right result, and resets the objects that the result consumes. -/
theorem tryWait_eq_some (h : tryWait autoReset signaled objects waitAll = some (result, signaled')) :
    Right objects waitAll (fun object ↦ signaled object = true) result ∧
      ∀ object, signaled' object = true ↔
        signaled object = true ∧ ¬ Consumes autoReset objects object result := by
  cases waitAll with
  | true =>
    simp only [tryWait, if_true] at h
    split_ifs at h with hall
    obtain ⟨rfl, rfl⟩ := Prod.mk.inj (Option.some.inj h)
    exact ⟨⟨rfl, by simpa using hall⟩, fun object ↦ resetAll_eq_true⟩
  | false =>
    simp only [tryWait, Bool.false_eq_true, if_false] at h
    cases hfirst : firstSignaled signaled 0 objects with
    | none => simp [hfirst] at h
    | some found =>
      simp only [hfirst] at h
      obtain ⟨rfl, rfl⟩ := Prod.mk.inj (Option.some.inj h)
      obtain ⟨j, hj, hget, hsignaled, hbefore⟩ := firstSignaled_eq_some hfirst
      rw [Nat.zero_add] at hj
      rw [hj]
      refine ⟨⟨rfl, ⟨found.2, hget, hsignaled⟩, hbefore⟩, fun object ↦ ?_⟩
      simp only [Consumes, hget, Option.some.injEq]
      by_cases hobject : object = found.2
      · subst hobject
        by_cases hauto : autoReset found.2 = true <;> simp [hauto]
      · have hne : ¬ found.2 = object := fun heq ↦ hobject heq.symm
        by_cases hauto : autoReset found.2 = true <;> simp [hauto, hobject, hne]

end TryWait

section Log

def Event.serial : Event → Option ℕ
  | .set _ => none
  | .reset _ => none
  | .satisfied wait _ => some wait.serial
  | .timedOut serial => some serial
  | .aborted serial => some serial
  | .resumed serial _ => some serial

def Event.Clears (autoReset : ℕ → Bool) (object : ℕ) : Event → Prop
  | .reset other => other = object
  | .satisfied wait result => Consumes autoReset wait.objects object result
  | .set _ | .timedOut _ | .aborted _ | .resumed _ _ => False

/-- The object was set, and not reset or consumed since. -/
def SignaledIn (autoReset : ℕ → Bool) (object : ℕ) (log : List Event) : Prop :=
  Since (fun e ↦ ¬ e.Clears autoReset object) (fun e ↦ e = .set object) log

def events (n : ℕ) (log : List Event) : List Event := log.filter fun e ↦ e.serial == some n

def satisfactions (log : List Event) : List WaitResult :=
  log.filterMap fun e ↦ match e with
    | .satisfied _ result => some result
    | _ => none

def resumptions (log : List Event) : List WaitResult :=
  log.filterMap fun e ↦ match e with
    | .resumed _ result => some result
    | _ => none

@[simp] theorem events_nil : events n [] = [] := rfl

@[simp] theorem events_append : events n (evs ++ log) = events n evs ++ events n log :=
  filter_append ..

theorem events_cons : events n (e :: log) =
    if e.serial = some n then e :: events n log else events n log := by
  by_cases hserial : e.serial = some n <;> simp [events, hserial]

@[simp] theorem satisfactions_append :
    satisfactions (evs ++ log) = satisfactions evs ++ satisfactions log :=
  filterMap_append ..

@[simp] theorem resumptions_append :
    resumptions (evs ++ log) = resumptions evs ++ resumptions log :=
  filterMap_append ..

theorem events_of_forall (h : ∀ e ∈ evs, e.serial = some n) : events n evs = evs :=
  filter_eq_self.mpr fun e he ↦ by simp [h e he]

theorem events_of_forall_ne (h : ∀ e ∈ evs, e.serial ≠ some n) : events n evs = [] :=
  filter_eq_nil_iff.mpr fun e he ↦ by simpa using h e he

/-- Each wait is satisfied with the right result by events that were signaled, and before anything
else happened to it. -/
def Explained (autoReset : ℕ → Bool) (log : List Event) : Prop :=
  ∀ wait result older, .satisfied wait result :: older <:+ log →
    Right wait.objects wait.waitAll (fun object ↦ SignaledIn autoReset object older) result ∧
      events wait.serial older = []

theorem Explained.cons (h : Explained autoReset log) (he : ∀ wait result, e ≠ .satisfied wait result) :
    Explained autoReset (e :: log) := by
  intro wait result older hsuffix
  rcases suffix_cons_iff.mp hsuffix with heq | hsuffix
  · exact absurd (List.cons.inj heq).1.symm (he wait result)
  · exact h wait result older hsuffix

theorem Explained.satisfied (h : Explained autoReset log)
    (hright : Right w.objects w.waitAll (fun object ↦ SignaledIn autoReset object log) result)
    (hfresh : events w.serial log = []) : Explained autoReset (.satisfied w result :: log) := by
  intro wait result' older hsuffix
  rcases suffix_cons_iff.mp hsuffix with heq | hsuffix
  · obtain ⟨heq, rfl⟩ := List.cons.inj heq
    cases heq
    exact ⟨hright, hfresh⟩
  · exact h wait result' older hsuffix

def Recorded (autoReset signaled : ℕ → Bool) (log : List Event) : Prop :=
  ∀ object, signaled object = true ↔ SignaledIn autoReset object log

/-- An event that is neither a Set nor clears anything leaves the signals as they are. -/
theorem Recorded.cons (h : Recorded autoReset signaled log) (hset : ∀ object, e ≠ .set object)
    (hclears : ∀ object, ¬ e.Clears autoReset object) :
    Recorded autoReset signaled (e :: log) := by
  intro object
  rw [h object, SignaledIn, SignaledIn, since_cons]
  simp [hset object, hclears object]

theorem Recorded.set (h : Recorded autoReset signaled log) (object : ℕ) :
    Recorded autoReset (Function.update signaled object true) (.set object :: log) := by
  intro other
  rw [SignaledIn, since_cons]
  by_cases hother : other = object
  · subst hother
    simp
  · rw [Function.update_of_ne hother, h other]
    refine ⟨fun hsince ↦ .inr ⟨id, hsince⟩, fun hsince ↦ (hsince.resolve_left fun heq ↦ ?_).2⟩
    cases heq
    exact hother rfl

theorem Recorded.reset (h : Recorded autoReset signaled log) (object : ℕ) :
    Recorded autoReset (Function.update signaled object false) (.reset object :: log) := by
  intro other
  rw [SignaledIn, since_cons]
  by_cases hother : other = object
  · subst hother
    simp [Event.Clears]
  · rw [Function.update_of_ne hother, h other]
    refine ⟨fun hsince ↦ .inr ⟨fun heq ↦ hother heq.symm, hsince⟩, fun hsince ↦ ?_⟩
    exact (hsince.resolve_left fun heq ↦ by cases heq).2

theorem Recorded.satisfied (h : Recorded autoReset signaled log)
    (hsignaled : ∀ object, signaled' object = true ↔
      signaled object = true ∧ ¬ Consumes autoReset w.objects object result) :
    Recorded autoReset signaled' (.satisfied w result :: log) := by
  intro object
  rw [hsignaled, h object, SignaledIn, SignaledIn, since_cons]
  simp [Event.Clears, and_comm]

end Log

/-!
## What holds of the threads and their waits

The invariant of the engine: where each thread stands, and what became of each wait.  A set of
threads may be exempt from having no satisfied wait, for the time in which a Set goes through the
waiting threads.
-/

variable {s : Engine} {th t n : ℕ} {exempt exempt' : List ℕ} {x : Thread}
  {signaled : ℕ → Bool} {evs : List Event}

structure Standing (exempt : List ℕ) (s : Engine) (t : ℕ) : Prop where
  ready : t ∈ s.threadsReady → t ∉ s.threadsWaiting ∧ (s.thread t).status = .ready ∧
    (s.thread t).suspended = false
  queued : t ∈ s.threadsWaiting → (s.thread t).suspended = false → (s.thread t).status = .waiting
  wait : ∀ w, (s.thread t).waitForObject = some w → w.serial < s.waits ∧ t ∈ s.threadsWaiting
  blocked : ∀ w, (s.thread t).waitForObject = some w → (s.thread t).status = .waiting →
    t ∉ exempt → ¬ Satisfied s.signaled w.objects w.waitAll

/-- What became of the wait with a serial number. -/
inductive Fate (s : Engine) (n : ℕ) : Prop
  | unborn : s.waits ≤ n → events n s.log = [] → Fate s n
  | blocked {t : ℕ} {w : Wait} : (s.thread t).waitForObject = some w → w.serial = n →
      (s.thread t).status = .waiting → outcome (s.thread t).result = [] →
      events n s.log = [] → Fate s n
  | restarted {t : ℕ} {w : Wait} : (s.thread t).waitForObject = some w → w.serial = n →
      (s.thread t).status = .ready → (s.thread t).suspended = true →
      resumptions (events n s.log) = [] →
      satisfactions (events n s.log) = outcome (s.thread t).result → Fate s n
  | resumed {result : WaitResult} : n < s.waits →
      (∀ t w, (s.thread t).waitForObject = some w → w.serial ≠ n) →
      resumptions (events n s.log) = [result] →
      satisfactions (events n s.log) = outcome result → Fate s n

structure Invariant (exempt : List ℕ) (s : Engine) : Prop where
  standing : ∀ t, Standing exempt s t
  unique : ∀ t t' w w', (s.thread t).waitForObject = some w →
    (s.thread t').waitForObject = some w' → w.serial = w'.serial → t = t'
  nodupReady : s.threadsReady.Nodup
  nodupWaiting : s.threadsWaiting.Nodup
  fate : ∀ n, Fate s n
  recorded : Recorded s.autoReset s.signaled s.log
  explained : Explained s.autoReset s.log

/-- What is asked of the engine between two steps: no thread that is not suspended is blocked on a
satisfied wait; what is signaled was set and not reset or consumed since; each wait is satisfied at
most once, while it is pending, with the right result; each is resumed at most once, with that
result if it was satisfied and with no such result otherwise; and what was satisfied was resumed or
is resumed with its thread. -/
structure Engine.Correct (s : Engine) : Prop where
  noLostWakeup : ∀ t ∈ s.threadsWaiting, (s.thread t).suspended = false →
    ∀ w ∈ (s.thread t).waitForObject, ¬ Satisfied s.signaled w.objects w.waitAll
  recorded : Recorded s.autoReset s.signaled s.log
  explained : Explained s.autoReset s.log
  satisfiedOnce : ∀ n, (satisfactions (events n s.log)).length ≤ 1
  resumedOnce : ∀ n, (resumptions (events n s.log)).length ≤ 1
  resumedRight : ∀ n, ∀ result ∈ resumptions (events n s.log),
    satisfactions (events n s.log) = outcome result
  satisfiedResumed : ∀ n, ∀ result ∈ satisfactions (events n s.log),
    resumptions (events n s.log) = [result] ∨
      ∃ t w, (s.thread t).waitForObject = some w ∧ w.serial = n ∧ (s.thread t).suspended = true ∧
        (s.thread t).status = .ready ∧ (s.thread t).result = result

theorem mem_outcome {result result' : WaitResult} (h : result ∈ outcome result') :
    result = result' := by
  cases result' <;> simp_all [outcome]

theorem outcome_length (result : WaitResult) : (outcome result).length ≤ 1 := by
  cases result <;> simp [outcome]

theorem Invariant.correct (h : Invariant [] s) : s.Correct where
  noLostWakeup t ht hsuspended w hw :=
    (h.standing t).blocked w hw ((h.standing t).queued ht hsuspended) (by simp)
  recorded := h.recorded
  explained := h.explained
  satisfiedOnce n := by
    cases h.fate n with
    | unborn _ hevents | blocked _ _ _ _ hevents => simp [hevents, satisfactions]
    | restarted _ _ _ _ _ hsatisfied => exact hsatisfied ▸ outcome_length _
    | resumed _ _ _ hsatisfied => exact hsatisfied ▸ outcome_length _
  resumedOnce n := by
    cases h.fate n with
    | unborn _ hevents | blocked _ _ _ _ hevents => simp [hevents, resumptions]
    | restarted _ _ _ _ hresumed _ | resumed _ _ hresumed _ => simp [hresumed]
  resumedRight n result hresult := by
    cases h.fate n with
    | unborn _ hevents | blocked _ _ _ _ hevents => simp [hevents, resumptions] at hresult
    | restarted _ _ _ _ hresumed _ => simp [hresumed] at hresult
    | resumed _ _ hresumed hsatisfied =>
      rw [hresumed, List.mem_singleton] at hresult
      rw [hsatisfied, hresult]
  satisfiedResumed n result hresult := by
    cases h.fate n with
    | unborn _ hevents | blocked _ _ _ _ hevents => simp [hevents, satisfactions] at hresult
    | @restarted t w hw hn hstatus hsuspended _ hsatisfied =>
      rw [hsatisfied] at hresult
      exact .inr ⟨t, w, hw, hn, hsuspended, hstatus, (mem_outcome hresult).symm⟩
    | resumed _ _ hresumed hsatisfied =>
      rw [hsatisfied] at hresult
      exact .inl (mem_outcome hresult ▸ hresumed)

theorem Invariant.of_started (h : Started s) : Invariant [] s where
  standing t :=
    ⟨fun ht ↦ ⟨by simp [h.waiting], h.ready t ht⟩, fun ht ↦ by simp [h.waiting] at ht,
      fun w hw ↦ by simp [h.wait t] at hw, fun w hw ↦ by simp [h.wait t] at hw⟩
  unique t t' w w' hw := by simp [h.wait t] at hw
  nodupReady := h.nodup
  nodupWaiting := by simp [h.waiting]
  fate n := .unborn (by simp [h.waits]) (by simp [h.log])
  recorded object := by simp [h.signaled, h.log, SignaledIn]
  explained wait result older hsuffix := by simp [h.log] at hsuffix

theorem Standing.mono {s' : Engine} (h : Standing exempt s t) (hthread : s'.thread t = s.thread t)
    (hready : t ∈ s'.threadsReady ↔ t ∈ s.threadsReady)
    (hwaiting : t ∈ s'.threadsWaiting ↔ t ∈ s.threadsWaiting) (hwaits : s.waits ≤ s'.waits)
    (hsignaled : ∀ object, s'.signaled object = true → s.signaled object = true)
    (hexempt : t ∉ exempt' → t ∉ exempt) : Standing exempt' s' t where
  ready ht := by
    rw [hthread, hwaiting]
    exact h.ready (hready.mp ht)
  queued ht := by
    rw [hthread]
    exact h.queued (hwaiting.mp ht)
  wait w hw := by
    rw [hthread] at hw
    exact ⟨Nat.lt_of_lt_of_le (h.wait w hw).1 hwaits, hwaiting.mpr (h.wait w hw).2⟩
  blocked w hw hstatus ht hsatisfied := by
    rw [hthread] at hw hstatus
    exact h.blocked w hw hstatus (hexempt ht) (hsatisfied.mono hsignaled)

theorem Fate.mono {s' : Engine} (h : Fate s n) (hevents : events n s'.log = events n s.log)
    (hgrow : s.waits ≤ s'.waits) (hwaits : s.waits ≤ n → s'.waits ≤ n)
    (hheld : ∀ t w, (s.thread t).waitForObject = some w → w.serial = n → s'.thread t = s.thread t)
    (hheld' : ∀ t w, (s'.thread t).waitForObject = some w → w.serial = n →
      s'.thread t = s.thread t) : Fate s' n := by
  cases h with
  | unborn hborn hnone => exact .unborn (hwaits hborn) (hevents.trans hnone)
  | blocked hw hn hstatus hresult hnone =>
    have hthread := hheld _ _ hw hn
    exact .blocked (hthread ▸ hw) hn (hthread ▸ hstatus) (hthread ▸ hresult) (hevents.trans hnone)
  | restarted hw hn hstatus hsuspended hresumed hsatisfied =>
    have hthread := hheld _ _ hw hn
    exact .restarted (hthread ▸ hw) hn (hthread ▸ hstatus) (hthread ▸ hsuspended)
      (hevents ▸ hresumed) (hthread ▸ hevents ▸ hsatisfied)
  | resumed hborn hfree hresumed hsatisfied =>
    refine .resumed (Nat.lt_of_lt_of_le hborn hgrow) (fun t w hw hn ↦ ?_) (hevents ▸ hresumed)
      (hevents ▸ hsatisfied)
    rw [hheld' t w hw hn] at hw
    exact hfree t w hw hn

theorem Fate.not_resumed {w : Wait} (h : Fate s w.serial) (hborn : w.serial < s.waits)
    (hw : (s.thread t).waitForObject = some w) : resumptions (events w.serial s.log) = [] := by
  cases h with
  | unborn hle => omega
  | blocked _ _ _ _ hnone => simp [hnone, resumptions]
  | restarted _ _ _ _ hresumed => exact hresumed
  | resumed _ hfree => exact absurd rfl (hfree t w hw)

/-- The wait of a blocked thread: nothing happened to it. -/
theorem Invariant.events_eq_nil {w : Wait} (h : Invariant exempt s)
    (hw : (s.thread th).waitForObject = some w) (hstatus : (s.thread th).status = .waiting) :
    events w.serial s.log = [] ∧ outcome (s.thread th).result = [] := by
  have hborn := ((h.standing th).wait w hw).1
  cases h.fate w.serial with
  | unborn hle => omega
  | @blocked t w' hw' hn _ hresult hnone =>
    obtain rfl := h.unique _ _ _ _ hw' hw hn
    exact ⟨hnone, hresult⟩
  | @restarted t w' hw' hn hready =>
    obtain rfl := h.unique _ _ _ _ hw' hw hn
    rw [hstatus] at hready
    cases hready
  | resumed _ hfree => exact absurd rfl (hfree th w hw)

/-- The wait of a restarted thread: what happened to it agrees with the result of the thread. -/
theorem Invariant.satisfactions_eq {w : Wait} (h : Invariant exempt s)
    (hw : (s.thread th).waitForObject = some w) :
    satisfactions (events w.serial s.log) = outcome (s.thread th).result := by
  have hborn := ((h.standing th).wait w hw).1
  cases h.fate w.serial with
  | unborn hle => omega
  | @blocked t w' hw' hn _ hresult hnone =>
    obtain rfl := h.unique _ _ _ _ hw' hw hn
    rw [hnone, hresult]
    rfl
  | @restarted t w' hw' hn _ _ _ hsatisfied =>
    obtain rfl := h.unique _ _ _ _ hw' hw hn
    exact hsatisfied
  | resumed _ hfree => exact absurd rfl (hfree th w hw)

end MicroFramework.WaitHandles
