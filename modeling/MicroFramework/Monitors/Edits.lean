import MicroFramework.Monitors.Invariant

/-!
# Edits that keep the invariant

What a restart and a change of the request counts do to the engine, and each part of the invariant
under the edits that the operations are made of: a lock whose owners change, and a request that is
settled, because it is granted or withdrawn.
-/

namespace MicroFramework.Monitors

open Library Function List

variable {s s' : Engine} {away unowned unowned' : List ℕ}
  {waits : ℕ → Option (ℕ × LockRequest)} {l th t sub : ℕ} {lock lock' : Lock} {r : LockRequest}
  {e : Event}

namespace Engine

section Projections

variable (s) (th)

@[simp] theorem link_thread : (s.link th).thread = s.thread := by
  unfold link
  split <;> (try split) <;> rfl

@[simp] theorem link_subThread : (s.link th).subThread = s.subThread := by
  unfold link
  split <;> (try split) <;> rfl

@[simp] theorem link_lock : (s.link th).lock = s.lock := by
  unfold link
  split <;> (try split) <;> rfl

@[simp] theorem link_objectLock : (s.link th).objectLock = s.objectLock := by
  unfold link
  split <;> (try split) <;> rfl

@[simp] theorem link_threads : (s.link th).threads = s.threads := by
  unfold link
  split <;> (try split) <;> rfl

@[simp] theorem link_subThreads : (s.link th).subThreads = s.subThreads := by
  unfold link
  split <;> (try split) <;> rfl

@[simp] theorem link_locks : (s.link th).locks = s.locks := by
  unfold link
  split <;> (try split) <;> rfl

@[simp] theorem link_tickets : (s.link th).tickets = s.tickets := by
  unfold link
  split <;> (try split) <;> rfl

@[simp] theorem link_log : (s.link th).log = s.log := by
  unfold link
  split <;> (try split) <;> rfl

end Projections

theorem mem_insertThreadRoundRobin (other : ℕ) :
    other ∈ (s.insertThreadRoundRobin th).threadsReady ↔
      other = th ∨ other ∈ s.threadsReady.erase th := by
  have hsplit := takeWhile_append_dropWhile (p := fun other ↦
    decide ((s.thread th).executionCounter ≤ (s.thread other).executionCounter))
    (l := s.threadsReady.erase th)
  have hmem : ∀ xs ys : List ℕ, other ∈ xs ++ th :: ys ↔ other = th ∨ other ∈ xs ++ ys := by
    intro xs ys
    simp only [mem_append, mem_cons]
    tauto
  rw [insertThreadRoundRobin, hmem]
  simp only [unlink]
  rw [hsplit]

/-- A thread on a list stays on one of them. -/
theorem Listed.link (h : s.Listed t)
    (hstatus : t = th → (s.thread th).status = .ready ∨ (s.thread th).status = .waiting) :
    (s.link th).Listed t := by
  have hother : t ≠ th → (s.unlink th).Listed t := fun hne ↦
    h.imp (fun hready ↦ (mem_erase_of_ne hne).mpr hready)
      fun hwaiting ↦ (mem_erase_of_ne hne).mpr hwaiting
  by_cases ht : t = th
  · subst ht
    unfold Engine.link
    rcases hstatus rfl with hstatus | hstatus
    · rw [hstatus]
      split_ifs
      · exact .inl ((mem_insertThreadRoundRobin t).mpr (.inl rfl))
      · exact .inr (by simp)
    · rw [hstatus]
      exact .inr (by simp)
  · have hunlinked := hother ht
    unfold Engine.link
    split
    · split_ifs
      · exact hunlinked.imp_left fun hready ↦ (mem_insertThreadRoundRobin t).mpr (.inr hready)
      · exact hunlinked.imp_right fun hwaiting ↦ mem_append_left _ hwaiting
    · exact hunlinked.imp_right fun hwaiting ↦ mem_append_left _ hwaiting
    · exact hunlinked
    · exact hunlinked

theorem listed_link (hstatus : (s.thread th).status = .ready ∨ (s.thread th).status = .waiting) :
    (s.link th).Listed th := by
  unfold Engine.link
  rcases hstatus with hstatus | hstatus
  · rw [hstatus]
    split_ifs
    · exact .inl ((mem_insertThreadRoundRobin th).mpr (.inl rfl))
    · exact .inr (by simp)
  · rw [hstatus]
    exact .inr (by simp)

theorem Active.congr (h : s.Active t) (hlisted : s.Listed t → s'.Listed t)
    (hstatus : (s'.thread t).status = (s.thread t).status) : s'.Active t :=
  ⟨hlisted h.1, by
    rw [hstatus]
    exact h.2⟩

/-- A thread that is restarted is active, and the others stay so. -/
theorem active_restart (h : s.Active t ∨ t = th) : (s.restart th).Active t := by
  have hthread : (s.restart th).thread =
      update s.thread th { s.thread th with status := .ready } := by
    simp [restart, record, setThread]
  have hready : ((s.setThread th { s.thread th with status := .ready }).thread th).status =
      .ready := by
    simp [setThread]
  by_cases ht : t = th
  · subst ht
    refine ⟨listed_link (.inl hready), .inl ?_⟩
    rw [hthread, update_self]
  · obtain ⟨hlisted, hstatus⟩ := h.resolve_right ht
    have hlisted' : (s.setThread th { s.thread th with status := .ready }).Listed t := hlisted
    refine ⟨hlisted'.link fun heq ↦ absurd heq ht, ?_⟩
    rw [hthread, update_of_ne ht]
    exact hstatus

end Engine

/-- The lock with its requests changed, and one of the requests gone: its thread is restarted, its
counts are zero. -/
structure Settled (s s' : Engine) (l : ℕ) (lock' : Lock) (r : LockRequest) (e : Event) : Prop where
  lock : s'.lock = update s.lock l (some lock')
  thread : s'.thread = update s.thread (s.threadOf r.subthreadWaiting)
    { s.thread (s.threadOf r.subthreadWaiting) with lockRequestsCount := 0, status := .ready }
  subThread : s'.subThread = update s.subThread r.subthreadWaiting
    { s.subThread r.subthreadWaiting with lockRequestsCount := 0 }
  objectLock : s'.objectLock = s.objectLock
  threads : s'.threads = s.threads
  subThreads : s'.subThreads = s.subThreads
  locks : s'.locks = s.locks
  tickets : s'.tickets = s.tickets
  log : s'.log = .restarted (s.threadOf r.subthreadWaiting) :: e :: s.log
  active : ∀ t, s.Active t ∨ t = s.threadOf r.subthreadWaiting → s'.Active t

namespace Engine

theorem changeLockRequestCount_last (hcount : (s.thread (s.threadOf sub)).lockRequestsCount = 1)
    (hsub : (s.subThread sub).lockRequestsCount = 1) :
    s.changeLockRequestCount sub (-1) =
      (((s.setSubThread sub { s.subThread sub with lockRequestsCount := 0 }).setThread
        (s.threadOf sub) { s.thread (s.threadOf sub) with lockRequestsCount := 0 }).restart
        (s.threadOf sub), true) := by
  have hzero : (s.thread (s.threadOf sub)).lockRequestsCount + -1 = 0 := by
    rw [hcount]
    rfl
  have hzero' : (s.subThread sub).lockRequestsCount + -1 = 0 := by
    rw [hsub]
    rfl
  unfold threadOf at hzero
  simp only [changeLockRequestCount, hzero, hzero', if_true, threadOf]
  rfl

end Engine

theorem Settled.of_change
    (hcount : (s.thread (s.threadOf r.subthreadWaiting)).lockRequestsCount = 1)
    (hsub : (s.subThread r.subthreadWaiting).lockRequestsCount = 1) :
    Settled s (((s.setLock l (some lock')).record e).changeLockRequestCount
      r.subthreadWaiting (-1)).1 l lock' r e := by
  have hchange := Engine.changeLockRequestCount_last
    (s := (s.setLock l (some lock')).record e) hcount hsub
  rw [hchange]
  refine ⟨?_, ?_, ?_, ?_, ?_, ?_, ?_, ?_, ?_, fun t ht ↦
    Engine.active_restart (ht.imp_left fun h ↦ h.congr id ?_)⟩
  case refine_10 =>
    simp only [Engine.record, Engine.setThread, Engine.setSubThread, Engine.setLock,
      update_apply]
    split_ifs with ht'
    · rw [ht']
    · rfl
  all_goals simp [Engine.restart, Engine.record, Engine.setThread, Engine.setSubThread,
    Engine.setLock, Engine.threadOf]

/-- In `CheckThreads` the request is unlinked at last. -/
theorem Settled.of_check (hlock : s.lock l = some lock)
    (hcount : (s.thread (s.threadOf r.subthreadWaiting)).lockRequestsCount = 1)
    (hsub : (s.subThread r.subthreadWaiting).lockRequestsCount = 1) :
    Settled s (((s.record e).changeLockRequestCount r.subthreadWaiting (-1)).1.unlinkRequest l r) l
      { lock with requests := lock.requests.erase r } r e := by
  have hrecord := Engine.changeLockRequestCount_last (s := s.record e) hcount hsub
  rw [hrecord]
  have hlock' : (((((s.record e).setSubThread r.subthreadWaiting
      { (s.record e).subThread r.subthreadWaiting with lockRequestsCount := 0 }).setThread
        ((s.record e).threadOf r.subthreadWaiting)
        { (s.record e).thread ((s.record e).threadOf r.subthreadWaiting) with
          lockRequestsCount := 0 }).restart ((s.record e).threadOf r.subthreadWaiting))).lock l =
      some lock := by
    simpa [Engine.restart, Engine.record, Engine.setThread, Engine.setSubThread] using hlock
  simp only [Engine.unlinkRequest, hlock']
  refine ⟨?_, ?_, ?_, ?_, ?_, ?_, ?_, ?_, ?_, fun t ht ↦
    Engine.active_restart (ht.imp_left fun h ↦ h.congr id ?_)⟩
  case refine_10 =>
    simp only [Engine.record, Engine.setThread, Engine.setSubThread, update_apply]
    split_ifs with ht'
    · rw [ht']
    · rfl
  all_goals simp [Engine.restart, Engine.record, Engine.setThread, Engine.setSubThread,
    Engine.setLock, Engine.threadOf]

section Population

theorem Population.congr (h : Population s)
    (hthread : ∀ t, (s'.thread t).subThreads = (s.thread t).subThreads)
    (hthreadOf : ∀ sub, s'.threadOf sub = s.threadOf sub) (hthreads : s'.threads = s.threads)
    (hsubThreads : s'.subThreads = s.subThreads) : Population s' where
  threadOf th sub hsub := by
    rw [hthreadOf]
    exact h.threadOf th sub (hthread th ▸ hsub)
  made th sub hsub := by
    rw [hsubThreads]
    exact h.made th sub (hthread th ▸ hsub)
  nodup th := by
    rw [hthread]
    exact h.nodup th
  fresh th hth := by
    rw [hthread]
    exact h.fresh th (hthreads ▸ hth)

end Population

section Holding

theorem Holding.congr (h : Holding away unowned s) (hlock : s'.lock = s.lock)
    (hlocks : ∀ t, (s'.thread t).locks = (s.thread t).locks)
    (hsubThreads : ∀ t, (s'.thread t).subThreads = (s.thread t).subThreads)
    (hactive : ∀ t, s.Active t → s'.Active t) (hobject : s'.objectLock = s.objectLock)
    (hmade : s'.locks = s.locks) : Holding away unowned s' where
  mem_locks th l := by
    rw [hlocks, hlock]
    exact h.mem_locks th l
  nodup th := by
    rw [hlocks]
    exact h.nodup th
  owned l lock hl := h.owned l lock (hlock ▸ hl)
  live l lock hl := by
    rw [hsubThreads]
    exact h.live l lock (hlock ▸ hl)
  active l lock hl := (h.active l lock (hlock ▸ hl)).imp_left (hactive _)
  exclusive := by
    rw [hlock]
    exact h.exclusive
  objectLock := by
    rw [hobject, hlock]
    exact h.objectLock
  made l lock hl := by
    rw [hmade]
    exact h.made l lock (hlock ▸ hl)

/-- A lock gets other owners or other requests. -/
theorem Holding.setLock (h : Holding away unowned s) (hlock : s.lock l = some lock)
    (hthread : lock'.owningThread = lock.owningThread) (hresource : lock'.resource = lock.resource)
    (hlive : ∀ owner ∈ lock'.owners,
      owner.owningSubThread ∈ (s.thread lock.owningThread).subThreads)
    (howned : lock'.owners ≠ [] ∨ l ∈ unowned') (hunowned : ∀ l' ∈ unowned, l' ≠ l → l' ∈ unowned') :
    Holding away unowned' (s.setLock l (some lock')) := by
  -- Every lock of the new state is one of the old state with the same thread and resource.
  have hold : ∀ l' lock₁, (s.setLock l (some lock')).lock l' = some lock₁ →
      ∃ lock₀, s.lock l' = some lock₀ ∧ lock₀.owningThread = lock₁.owningThread ∧
        lock₀.resource = lock₁.resource := by
    intro l' lock₁ hl'
    by_cases heq : l' = l
    · subst heq
      obtain rfl : lock' = lock₁ := by simpa [Engine.setLock] using hl'
      exact ⟨lock, hlock, hthread.symm, hresource.symm⟩
    · exact ⟨lock₁, by simpa [Engine.setLock, heq] using hl', rfl, rfl⟩
  have hnew : ∀ l' lock₀, s.lock l' = some lock₀ →
      ∃ lock₁, (s.setLock l (some lock')).lock l' = some lock₁ ∧
        lock₁.owningThread = lock₀.owningThread ∧ lock₁.resource = lock₀.resource := by
    intro l' lock₀ hl'
    by_cases heq : l' = l
    · subst heq
      obtain rfl : lock = lock₀ := by simpa [hlock] using hl'
      exact ⟨lock', by simp [Engine.setLock], hthread, hresource⟩
    · exact ⟨lock₀, by simpa [Engine.setLock, heq] using hl', rfl, rfl⟩
  refine ⟨fun th l' ↦ ?_, h.nodup, fun l' lock₁ hl' ↦ ?_, fun l' lock₁ hl' ↦ ?_,
    fun l' lock₁ hl' ↦ ?_, fun l₁ l₂ lock₁ lock₂ hl₁ hl₂ hres ↦ ?_, fun resource hobject l' ↦ ?_,
    fun l' lock₁ hl' ↦ ?_⟩
  · refine (h.mem_locks th l').trans ⟨?_, ?_⟩
    · rintro ⟨lock₀, hl', rfl⟩
      obtain ⟨lock₁, hl₁, hthread₁, -⟩ := hnew l' lock₀ hl'
      exact ⟨lock₁, hl₁, hthread₁⟩
    · rintro ⟨lock₁, hl', rfl⟩
      obtain ⟨lock₀, hl₀, hthread₀, -⟩ := hold l' lock₁ hl'
      exact ⟨lock₀, hl₀, hthread₀⟩
  · by_cases heq : l' = l
    · subst heq
      obtain rfl : lock' = lock₁ := by simpa [Engine.setLock] using hl'
      exact howned
    · have hl₀ : s.lock l' = some lock₁ := by simpa [Engine.setLock, heq] using hl'
      exact (h.owned l' lock₁ hl₀).imp_right fun hmem ↦ hunowned l' hmem heq
  · by_cases heq : l' = l
    · subst heq
      obtain rfl : lock' = lock₁ := by simpa [Engine.setLock] using hl'
      rw [hthread]
      exact hlive
    · exact h.live l' lock₁ (by simpa [Engine.setLock, heq] using hl')
  · obtain ⟨lock₀, hl₀, hthread₀, -⟩ := hold l' lock₁ hl'
    rw [← hthread₀]
    exact h.active l' lock₀ hl₀
  · obtain ⟨lock₁', hl₁', -, hres₁⟩ := hold l₁ lock₁ hl₁
    obtain ⟨lock₂', hl₂', -, hres₂⟩ := hold l₂ lock₂ hl₂
    exact h.exclusive l₁ l₂ lock₁' lock₂' hl₁' hl₂' (by rw [hres₁, hres₂, hres])
  · refine (h.objectLock resource hobject l').trans ⟨?_, ?_⟩
    · rintro ⟨lock₀, hl', rfl⟩
      obtain ⟨lock₁, hl₁, -, hres₁⟩ := hnew l' lock₀ hl'
      exact ⟨lock₁, hl₁, hres₁⟩
    · rintro ⟨lock₁, hl', rfl⟩
      obtain ⟨lock₀, hl₀, -, hres₀⟩ := hold l' lock₁ hl'
      exact ⟨lock₀, hl₀, hres₀⟩
  · obtain ⟨lock₀, hl₀, -⟩ := hold l' lock₁ hl'
    exact h.made l' lock₀ hl₀

theorem Holding.settle (h : Holding away unowned s) (hs : Settled s s' l lock' r e)
    (hlock : s.lock l = some lock)
    (hthread : lock'.owningThread = lock.owningThread) (hresource : lock'.resource = lock.resource)
    (hlive : ∀ owner ∈ lock'.owners,
      owner.owningSubThread ∈ (s.thread lock.owningThread).subThreads)
    (howned : lock'.owners ≠ [] ∨ l ∈ unowned')
    (hunowned : ∀ l' ∈ unowned, l' ≠ l → l' ∈ unowned') : Holding away unowned' s' := by
  refine (h.setLock hlock hthread hresource hlive howned hunowned).congr hs.lock (fun t ↦ ?_)
    (fun t ↦ ?_) (fun t ht ↦ hs.active t (.inl ht)) hs.objectLock hs.locks
  · rw [hs.thread, update_apply]
    split_ifs with ht
    · rw [ht]
      rfl
    · rfl
  · rw [hs.thread, update_apply]
    split_ifs with ht
    · rw [ht]
      rfl
    · rfl

end Holding

section Waiting

theorem pending_requested (l l' k sub th : ℕ) (log : List Event) :
    pending l (.requested l' k sub th :: log) =
      if l' = l then pending l log ++ [k] else pending l log := rfl

theorem Fair.cons {log : List Event} (h : Fair log)
    (he : ∀ l ticket sub th, e ≠ .granted l ticket sub th) : Fair (e :: log) := by
  intro l ticket sub th older hsuffix
  rcases suffix_cons_iff.mp hsuffix with heq | hsuffix
  · exact absurd (List.cons.inj heq).1.symm (he l ticket sub th)
  · exact h l ticket sub th older hsuffix

/-- Nothing changes for those who wait. -/
theorem Waiting.congr (h : Waiting away waits s) (hrequests : ∀ l, s'.requests l = s.requests l)
    (hother : ∀ th l r, waits th = some (l, r) → ∀ lock, s'.lock l = some lock →
      lock.owningThread ≠ th)
    (hthread : ∀ t, (s'.thread t).subThreads = (s.thread t).subThreads ∧
      (s'.thread t).lockRequestsCount = (s.thread t).lockRequestsCount)
    (hstatus : ∀ t l r, waits t = some (l, r) → (s'.thread t).status = .waiting ∨ t ∈ away)
    (hsubThread : ∀ sub, s'.threadOf sub = s.threadOf sub ∧
      (s'.subThread sub).lockRequestsCount = (s.subThread sub).lockRequestsCount)
    (htickets : s'.tickets = s.tickets) (hlog : s'.log = s.log) : Waiting away waits s' where
  waits_iff th l r := by
    rw [hrequests, (hsubThread _).1]
    exact h.waits_iff th l r
  live th l r hr := by
    rw [(hthread th).1]
    exact h.live th l r hr
  other := hother
  status := hstatus
  since := by
    rw [hlog]
    exact h.since
  threadCount th := by
    rw [(hthread th).2]
    exact h.threadCount th
  subCount sub := by
    rw [(hsubThread sub).1, (hsubThread sub).2]
    exact h.subCount sub
  sorted l := by
    rw [hrequests]
    exact h.sorted l
  made l r hr := by
    rw [hrequests] at hr
    rw [htickets]
    exact h.made l r hr
  queued l := by
    rw [hrequests, hlog]
    exact h.queued l
  fair := by
    rw [hlog]
    exact h.fair

variable {requests : List LockRequest}

theorem ticket_inj {r r' : LockRequest}
    (h : requests.Pairwise fun r r' ↦ r.ticket < r'.ticket) (hr : r ∈ requests)
    (hr' : r' ∈ requests) (hticket : r.ticket = r'.ticket) : r = r' := by
  induction h with
  | nil => simp at hr
  | @cons r₀ requests hfirst _ ih =>
    rcases mem_cons.mp hr with rfl | hmem <;> rcases mem_cons.mp hr' with rfl | hmem'
    · rfl
    · have := hfirst r' hmem'
      omega
    · have := hfirst r hmem
      omega
    · exact ih hmem hmem'

theorem map_ticket_erase (h : ∀ r' ∈ requests, r'.ticket = r.ticket → r' = r) :
    (requests.erase r).map LockRequest.ticket = (requests.map LockRequest.ticket).erase r.ticket := by
  induction requests with
  | nil => rfl
  | cons r' requests ih =>
    rw [map_cons, erase_cons, erase_cons]
    by_cases heq : r' = r
    · simp [heq]
    · have hticket : r'.ticket ≠ r.ticket := fun hticket ↦ heq (h r' (by simp) hticket)
      simp only [beq_iff_eq, heq, hticket, if_false, map_cons]
      rw [ih fun r'' hr'' ↦ h r'' (by simp [hr''])]

/-- What is said when a request is settled: it was withdrawn, or it was granted as the first. -/
structure Settles (s : Engine) (l : ℕ) (r : LockRequest) (e : Event) : Prop where
  pending : ∀ l', pending l' (e :: s.log) =
    if l' = l then (pending l s.log).erase r.ticket else pending l' s.log
  undisturbed : ∀ th sub, Undisturbed th sub e
  fair : Fair (e :: s.log)

theorem Waiting.settles_withdrawn (h : Waiting away waits s) (l : ℕ) (r : LockRequest) :
    Settles s l r (.withdrawn l r.ticket) where
  pending l' := by
    by_cases hl : l' = l
    · subst hl
      simp [Monitors.pending]
    · simp [Monitors.pending, hl, Ne.symm hl]
  undisturbed _ _ := ⟨by simp, by simp⟩
  fair := h.fair.cons (by simp)

theorem Waiting.settles_granted (h : Waiting away waits s) (hwaits : waits th = some (l, r))
    (hfirst : (s.requests l).head? = some r) :
    Settles s l r (.granted l r.ticket r.subthreadWaiting th) where
  pending l' := by
    by_cases hl : l' = l
    · subst hl
      simp [Monitors.pending]
    · simp [Monitors.pending, hl, Ne.symm hl]
  undisturbed _ _ := ⟨by simp, by simp⟩
  fair := by
    intro l' ticket sub t older hsuffix
    rcases suffix_cons_iff.mp hsuffix with heq | hsuffix
    · obtain ⟨hevent, rfl⟩ := List.cons.inj heq
      obtain ⟨rfl, rfl, rfl, rfl⟩ := Event.granted.inj hevent
      refine ⟨?_, h.since _ _ _ hwaits⟩
      rw [← h.queued, head?_map, hfirst]
      rfl
    · exact h.fair l' ticket sub t older hsuffix

theorem Waiting.settle (h : Waiting away waits s) (hs : Settled s s' l lock' r e)
    (hwaits : waits th = some (l, r)) (hlock : s.lock l = some lock)
    (hrequests : lock'.requests = lock.requests.erase r)
    (hthread : lock'.owningThread = lock.owningThread) (he : Settles s l r e) :
    Waiting away (update waits th none) s' := by
  obtain ⟨hmem, hth⟩ := (h.waits_iff th l r).mp hwaits
  have hrequests' : ∀ l', s'.requests l' =
      if l' = l then (s.requests l).erase r else s.requests l' := by
    intro l'
    simp only [Engine.requests, hs.lock, update_apply]
    split_ifs with hl
    · simp only [hrequests, hlock]
    · rfl
  have hthreadOf : ∀ sub, s'.threadOf sub = s.threadOf sub := by
    intro sub
    simp only [Engine.threadOf, hs.subThread, update_apply]
    split_ifs with hsub
    · rw [hsub]
    · rfl
  have hthread' : ∀ t, t ≠ th → s'.thread t = s.thread t := fun t ht ↦ by
    rw [hs.thread, hth, update_of_ne ht]
  -- A thread that still waits is another thread, and it waits for another request.
  have hkept : ∀ t p, update waits th none t = some p → t ≠ th ∧ waits t = some p := by
    intro t p hp
    by_cases ht : t = th
    · subst ht
      simp at hp
    · exact ⟨ht, by rwa [update_of_ne ht] at hp⟩
  refine ⟨fun t l' r' ↦ ⟨fun hr' ↦ ?_, fun hr' ↦ ?_⟩, fun t l' r' hr' ↦ ?_,
    fun t l' r' hr' lock₁ hl' ↦ ?_, fun t l' r' hr' ↦ ?_,
    fun t l' r' hr' ↦ ?_, fun t ↦ ?_, fun sub ↦ ?_, fun l' ↦ ?_, fun l' r' hr' ↦ ?_, fun l' ↦ ?_, ?_⟩
  · obtain ⟨ht, hr'⟩ := hkept t _ hr'
    obtain ⟨hmem', hthread'⟩ := (h.waits_iff t l' r').mp hr'
    rw [hrequests', hthreadOf]
    refine ⟨?_, hthread'⟩
    split_ifs with hl
    · subst hl
      refine (mem_erase_of_ne ?_).mpr hmem'
      rintro rfl
      exact ht (hthread'.symm.trans hth)
    · exact hmem'
  · obtain ⟨hmem', hthread'⟩ := hr'
    rw [hthreadOf] at hthread'
    have hold : r' ∈ s.requests l' := by
      rw [hrequests'] at hmem'
      split_ifs at hmem' with hl
      · rw [hl]
        exact mem_of_mem_erase hmem'
      · exact hmem'
    have hr' := (h.waits_iff t l' r').mpr ⟨hold, hthread'⟩
    by_cases ht : t = th
    · -- The settled request is not among those that are left.
      subst ht
      rw [hwaits] at hr'
      obtain ⟨rfl, rfl⟩ := Prod.mk.inj (Option.some.inj hr')
      rw [hrequests', if_pos rfl] at hmem'
      exact absurd hmem' ((h.nodup l).not_mem_erase)
    · rw [update_of_ne ht]
      exact hr'
  · obtain ⟨ht, hr'⟩ := hkept t _ hr'
    rw [hthread' t ht]
    exact h.live t l' r' hr'
  · obtain ⟨ht, hr'⟩ := hkept t _ hr'
    rw [hs.lock, update_apply] at hl'
    split_ifs at hl' with hl
    · obtain rfl := Option.some.inj hl'
      rw [hthread]
      exact h.other t l' r' hr' lock (hl ▸ hlock)
    · exact h.other t l' r' hr' lock₁ hl'
  · obtain ⟨ht, hr'⟩ := hkept t _ hr'
    rw [hthread' t ht]
    exact h.status t l' r' hr'
  · obtain ⟨ht, hr'⟩ := hkept t _ hr'
    rw [hs.log, hth]
    exact .inr ⟨⟨by simpa using Ne.symm ht, by simp⟩, .inr ⟨he.undisturbed t _, h.since t l' r' hr'⟩⟩
  · by_cases ht : t = th
    · subst ht
      simp [hs.thread, hth]
    · rw [hthread' t ht, update_of_ne ht]
      exact h.threadCount t
  · rw [hthreadOf]
    by_cases hsub : sub = r.subthreadWaiting
    · subst hsub
      simp [hs.subThread, hth]
    · have hcount : (s'.subThread sub) = s.subThread sub := by
        rw [hs.subThread, update_of_ne hsub]
      rw [hcount, h.subCount]
      by_cases ht : s.threadOf sub = th
      · rw [ht, hwaits]
        simp [Ne.symm hsub]
      · rw [update_of_ne ht]
  · rw [hrequests']
    split_ifs
    · exact (h.sorted l).sublist erase_sublist
    · exact h.sorted l'
  · rw [hrequests'] at hr'
    rw [hs.tickets]
    split_ifs at hr'
    · exact h.made l r' (mem_of_mem_erase hr')
    · exact h.made l' r' hr'
  · have hpending : pending l' s'.log = pending l' (e :: s.log) := by
      rw [hs.log]
      rfl
    rw [hpending, he.pending, hrequests']
    split_ifs with hl
    · rw [← h.queued]
      refine map_ticket_erase (fun r' hr' heq ↦ ?_)
      exact ticket_inj (h.sorted l) hr' hmem heq
    · exact h.queued l'
  · rw [hs.log]
    exact he.fair.cons (by simp)

end Waiting

end MicroFramework.Monitors
