import Mathlib.Algebra.BigOperators.Group.List.Basic
import MicroFramework.Library.Runs
import MicroFramework.Monitors.Engine

/-!
# What holds of the locks and of those who wait for them

What is asked of the engine between two steps, and the invariant behind it.  The invariant has three
parts: where threads and sub-threads belong, who holds which lock, and who waits for which lock.
The last one names for each thread the request it waits for, of which there is at most one.  Some
threads may be away from the lists, and some locks without an owner, in the middle of a step.
-/

namespace MicroFramework.Monitors

open Library List

variable {s : Engine} {away unowned : List ℕ} {waits : ℕ → Option (ℕ × LockRequest)}
  {l th sub : ℕ} {lock : Lock} {r : LockRequest}

/-- The tickets that the log says are pending for a lock, in the order of the requests. -/
def pending (l : ℕ) : List Event → List ℕ
  | [] => []
  | .requested l' ticket _ _ :: log =>
    if l' = l then pending l log ++ [ticket] else pending l log
  | .granted l' ticket _ _ :: log =>
    if l' = l then (pending l log).erase ticket else pending l log
  | .withdrawn l' ticket :: log =>
    if l' = l then (pending l log).erase ticket else pending l log
  | .restarted _ :: log => pending l log
  | .destroyed _ :: log => pending l log

/-- Neither was the thread restarted nor the sub-thread destroyed. -/
def Undisturbed (th sub : ℕ) (event : Event) : Prop :=
  event ≠ .restarted th ∧ event ≠ .destroyed sub

/-- Each grant goes to the oldest pending request for the lock, and its sub-thread was neither
restarted nor destroyed since it made the request. -/
def Fair (log : List Event) : Prop :=
  ∀ l ticket sub th older, .granted l ticket sub th :: older <:+ log →
    (pending l older).head? = some ticket ∧
      Since (Undisturbed th sub) (fun event ↦ event = .requested l ticket sub th) older

namespace Engine

def threadOf (s : Engine) (sub : ℕ) : ℕ := (s.subThread sub).owningThread

/-- A thread is on one of the lists, and it is ready or waits. -/
def Active (s : Engine) (th : ℕ) : Prop :=
  s.Listed th ∧ ((s.thread th).status = .ready ∨ (s.thread th).status = .waiting)

/-- What is asked of the engine between two steps: the owners of a lock are sub-threads of its
owning thread and there is one; a resource has at most one lock; pending requests are those of
sub-threads that wait; they are counted; and they are granted first in, first out. -/
structure Correct (s : Engine) : Prop where
  owned : ∀ l lock, s.lock l = some lock → lock.owners ≠ [] ∧
    ∀ owner ∈ lock.owners, s.threadOf owner.owningSubThread = lock.owningThread ∧
      owner.owningSubThread ∈ (s.thread lock.owningThread).subThreads
  exclusive : ∀ l l' lock lock', s.lock l = some lock → s.lock l' = some lock' →
    lock.resource = lock'.resource → l = l'
  waiting : ∀ l, ∀ r ∈ s.requests l,
    r.subthreadWaiting ∈ (s.thread (s.threadOf r.subthreadWaiting)).subThreads ∧
      (s.thread (s.threadOf r.subthreadWaiting)).status = .waiting
  counted : ∀ sub, (s.subThread sub).lockRequestsCount = s.pendingRequests sub
  queued : ∀ l, (s.requests l).map LockRequest.ticket = pending l s.log
  fair : Fair s.log

end Engine

/-- Where threads and sub-threads belong. -/
structure Population (s : Engine) : Prop where
  threadOf : ∀ th, ∀ sub ∈ (s.thread th).subThreads, s.threadOf sub = th
  made : ∀ th, ∀ sub ∈ (s.thread th).subThreads, sub < s.subThreads
  nodup : ∀ th, (s.thread th).subThreads.Nodup
  fresh : ∀ th, s.threads ≤ th → (s.thread th).subThreads = []

structure Holding (away unowned : List ℕ) (s : Engine) : Prop where
  mem_locks : ∀ th l, l ∈ (s.thread th).locks ↔
    ∃ lock, s.lock l = some lock ∧ lock.owningThread = th
  nodup : ∀ th, (s.thread th).locks.Nodup
  owned : ∀ l lock, s.lock l = some lock → lock.owners ≠ [] ∨ l ∈ unowned
  live : ∀ l lock, s.lock l = some lock →
    ∀ owner ∈ lock.owners, owner.owningSubThread ∈ (s.thread lock.owningThread).subThreads
  active : ∀ l lock, s.lock l = some lock →
    s.Active lock.owningThread ∨ lock.owningThread ∈ away
  exclusive : ∀ l l' lock lock', s.lock l = some lock → s.lock l' = some lock' →
    lock.resource = lock'.resource → l = l'
  objectLock : ∀ resource, resource.hasObjectLock = true →
    ∀ l, s.objectLock resource = some l ↔ ∃ lock, s.lock l = some lock ∧ lock.resource = resource
  made : ∀ l lock, s.lock l = some lock → l < s.locks

structure Waiting (away : List ℕ) (waits : ℕ → Option (ℕ × LockRequest)) (s : Engine) : Prop where
  waits_iff : ∀ th l r, waits th = some (l, r) ↔
    r ∈ s.requests l ∧ s.threadOf r.subthreadWaiting = th
  live : ∀ th l r, waits th = some (l, r) → r.subthreadWaiting ∈ (s.thread th).subThreads
  other : ∀ th l r, waits th = some (l, r) → ∀ lock, s.lock l = some lock → lock.owningThread ≠ th
  status : ∀ th l r, waits th = some (l, r) → (s.thread th).status = .waiting ∨ th ∈ away
  since : ∀ th l r, waits th = some (l, r) → Since (Undisturbed th r.subthreadWaiting)
    (fun event ↦ event = .requested l r.ticket r.subthreadWaiting th) s.log
  threadCount : ∀ th, (s.thread th).lockRequestsCount = if (waits th).isSome then 1 else 0
  subCount : ∀ sub, (s.subThread sub).lockRequestsCount =
    if (waits (s.threadOf sub)).any (fun p ↦ p.2.subthreadWaiting = sub) then 1 else 0
  sorted : ∀ l, (s.requests l).Pairwise fun r r' ↦ r.ticket < r'.ticket
  made : ∀ l, ∀ r ∈ s.requests l, r.ticket < s.tickets
  queued : ∀ l, (s.requests l).map LockRequest.ticket = pending l s.log
  fair : Fair s.log

structure Invariant (away unowned : List ℕ) (waits : ℕ → Option (ℕ × LockRequest))
    (s : Engine) : Prop where
  population : Population s
  holding : Holding away unowned s
  waiting : Waiting away waits s

theorem Engine.requests_eq (hlock : s.lock l = some lock) : s.requests l = lock.requests := by
  simp [Engine.requests, hlock]

theorem Engine.exists_lock (hr : r ∈ s.requests l) :
    ∃ lock, s.lock l = some lock ∧ r ∈ lock.requests := by
  cases hlock : s.lock l with
  | none => simp [Engine.requests, hlock] at hr
  | some lock => exact ⟨lock, rfl, by rwa [Engine.requests_eq hlock] at hr⟩

theorem sum_map_ite_eq_count (a : ℕ) (xs : List ℕ) :
    (xs.map fun x ↦ if x = a then 1 else 0).sum = xs.count a := by
  induction xs with
  | nil => rfl
  | cons x xs ih =>
    rw [map_cons, sum_cons, ih, count_cons]
    simp only [beq_iff_eq]
    exact Nat.add_comm _ _

namespace Waiting

variable (h : Waiting away waits s)
include h

theorem nodup (l : ℕ) : (s.requests l).Nodup := (h.sorted l).imp fun hlt heq ↦ by simp [heq] at hlt

theorem eq_of_mem {l' : ℕ} {r' : LockRequest} (hr : r ∈ s.requests l) (hr' : r' ∈ s.requests l')
    (hthread : s.threadOf r.subthreadWaiting = s.threadOf r'.subthreadWaiting) :
    l = l' ∧ r = r' := by
  have hwaits := (h.waits_iff _ l r).mpr ⟨hr, hthread⟩
  rw [(h.waits_iff _ l' r').mpr ⟨hr', rfl⟩] at hwaits
  obtain ⟨rfl, rfl⟩ := Prod.mk.inj (Option.some.inj hwaits)
  exact ⟨rfl, rfl⟩

theorem countP_eq_zero (hsub : ∀ p, waits (s.threadOf sub) = some p → p.2.subthreadWaiting ≠ sub) :
    (s.requests l).countP (fun r ↦ r.subthreadWaiting = sub) = 0 := by
  rw [List.countP_eq_zero]
  intro r hr heq
  have heq : r.subthreadWaiting = sub := by simpa using heq
  exact hsub (l, r) ((h.waits_iff _ l r).mpr ⟨hr, heq ▸ rfl⟩) heq

theorem countP_eq_ite (hwaits : waits (s.threadOf sub) = some (l, r))
    (hsub : r.subthreadWaiting = sub) (l' : ℕ) :
    (s.requests l').countP (fun r ↦ r.subthreadWaiting = sub) = if l' = l then 1 else 0 := by
  have hr := ((h.waits_iff _ l r).mp hwaits).1
  have honly : ∀ r' ∈ s.requests l', r'.subthreadWaiting = sub → l' = l ∧ r' = r := fun r' hr' heq ↦
    h.eq_of_mem hr' hr (by rw [heq, hsub])
  split_ifs with hl
  · subst hl
    have heq : ∀ r' ∈ s.requests l', decide (r'.subthreadWaiting = sub) = true ↔
        (r' == r) = true := fun r' hr' ↦ by
      simp only [decide_eq_true_eq, beq_iff_eq]
      exact ⟨fun hsub' ↦ (honly r' hr' hsub').2, fun hrr ↦ hrr ▸ hsub⟩
    rw [countP_congr heq]
    exact count_eq_one_of_mem (h.nodup l') hr
  · rw [List.countP_eq_zero]
    exact fun r' hr' heq ↦ hl (honly r' hr' (by simpa using heq)).1

theorem pendingRequests_eq (hmade : ∀ l lock, s.lock l = some lock → l < s.locks) (sub : ℕ) :
    (s.subThread sub).lockRequestsCount = s.pendingRequests sub := by
  rw [h.subCount, Engine.pendingRequests]
  by_cases hsub : (waits (s.threadOf sub)).any (fun p ↦ p.2.subthreadWaiting = sub) = true
  · obtain ⟨⟨l, r⟩, hwaits, hr⟩ : ∃ p, waits (s.threadOf sub) = some p ∧
        p.2.subthreadWaiting = sub := by simpa [Option.any_eq_true] using hsub
    obtain ⟨lock, hlock, -⟩ := Engine.exists_lock ((h.waits_iff _ l r).mp hwaits).1
    have hl : l ∈ List.range s.locks := mem_range.mpr (hmade l lock hlock)
    simp only [h.countP_eq_ite hwaits hr, hsub, if_true]
    rw [sum_map_ite_eq_count, count_eq_one_of_mem nodup_range hl]
    rfl
  · have hnone : ∀ p, waits (s.threadOf sub) = some p → p.2.subthreadWaiting ≠ sub := by
      intro p hp heq
      simp [hp, heq] at hsub
    simp only [h.countP_eq_zero hnone, hsub]
    simp

end Waiting

theorem Invariant.correct (h : Invariant [] [] waits s) : s.Correct where
  owned l lock hlock :=
    ⟨(h.holding.owned l lock hlock).resolve_right (by simp), fun owner howner ↦
      have hlive := h.holding.live l lock hlock owner howner
      ⟨h.population.threadOf _ _ hlive, hlive⟩⟩
  exclusive := h.holding.exclusive
  waiting l r hr :=
    have hwaits := (h.waiting.waits_iff _ l r).mpr ⟨hr, rfl⟩
    ⟨h.waiting.live _ l r hwaits, (h.waiting.status _ l r hwaits).resolve_right (by simp)⟩
  counted := h.waiting.pendingRequests_eq h.holding.made
  queued := h.waiting.queued
  fair := h.waiting.fair

theorem Invariant.of_started (h : Started s) : Invariant [] [] (fun _ ↦ none) s where
  population :=
    { threadOf := fun th sub hsub ↦ by simp [(h.thread th).1] at hsub
      made := fun th sub hsub ↦ by simp [(h.thread th).1] at hsub
      nodup := fun th ↦ by simp [(h.thread th).1]
      fresh := fun th _ ↦ (h.thread th).1 }
  holding :=
    { mem_locks := fun th l ↦ by simp [(h.thread th).2.1, h.lock]
      nodup := fun th ↦ by simp [(h.thread th).2.1]
      owned := fun l lock hlock ↦ by simp [h.lock] at hlock
      live := fun l lock hlock ↦ by simp [h.lock] at hlock
      active := fun l lock hlock ↦ by simp [h.lock] at hlock
      exclusive := fun l l' lock lock' hlock ↦ by simp [h.lock] at hlock
      objectLock := fun resource _ l ↦ by simp [h.objectLock, h.lock]
      made := fun l lock hlock ↦ by simp [h.lock] at hlock }
  waiting :=
    { waits_iff := fun th l r ↦ by simp [Engine.requests, h.lock]
      live := fun th l r hwaits ↦ by simp at hwaits
      other := fun th l r hwaits ↦ by simp at hwaits
      status := fun th l r hwaits ↦ by simp at hwaits
      since := fun th l r hwaits ↦ by simp at hwaits
      threadCount := fun th ↦ (h.thread th).2.2
      subCount := fun sub ↦ h.subThread sub
      sorted := fun l ↦ by simp [Engine.requests, h.lock]
      made := fun l r hr ↦ by simp [Engine.requests, h.lock] at hr
      queued := fun l ↦ by simp [Engine.requests, h.lock, h.log, pending]
      fair := fun l ticket sub th older hsuffix ↦ by simp [h.log] at hsuffix }

end MicroFramework.Monitors
