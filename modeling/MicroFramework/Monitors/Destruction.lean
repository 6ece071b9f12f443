import MicroFramework.Monitors.Ownership

/-!
# Sub-threads that are destroyed

A sub-thread that is destroyed loses its locks and its requests.  The loops that take them from it
find all of them, because every lock belongs to a thread on a list, and a thread waits for one lock
at most; so the invariant is kept.
-/

namespace MicroFramework.Monitors

open Library List Function Engine

variable {s s' : Engine} {away : List ℕ} {waits : ℕ → Option (ℕ × LockRequest)}
  {l th t sub : ℕ} {lock : Lock} {r : LockRequest} {e : Event}

section Withdraw

theorem mem_requestsOn {threads : List ℕ} {p : ℕ × LockRequest} :
    p ∈ s.requestsOn threads ↔
      ∃ t ∈ threads, p.1 ∈ (s.thread t).locks ∧ p.2 ∈ s.requests p.1 := by
  simp only [requestsOn, mem_flatMap, mem_map]
  constructor
  · rintro ⟨l, ⟨t, ht, hl⟩, r, hr, rfl⟩
    exact ⟨t, ht, hl, hr⟩
  · rintro ⟨t, ht, hl, hr⟩
    exact ⟨p.1, ⟨t, ht, hl⟩, p.2, hr, rfl⟩

/-- A request is withdrawn, and its thread waits no more. -/
theorem Invariant.settle {unowned : List ℕ} (h : Invariant away unowned waits s)
    (hwaits : waits th = some (l, r)) (hlock : s.lock l = some lock)
    (hs : Settled s s' l { lock with requests := lock.requests.erase r } r
      (.withdrawn l r.ticket)) :
    Invariant away unowned (Function.update waits th none) s' where
  population := hs.population h.population
  holding := h.holding.settle hs hlock rfl rfl (h.holding.live l lock hlock)
    (h.holding.owned l lock hlock) fun _ hl' _ ↦ hl'
  waiting := h.waiting.settle hs hwaits hlock rfl rfl (h.waiting.settles_withdrawn l r)

variable {pairs : List (ℕ × LockRequest)}

theorem deleteLoop_eq_self
    (hnone : ∀ p ∈ pairs, p.2.subthreadWaiting ≠ sub) : deleteLoop sub pairs s = s := by
  induction pairs with
  | nil => rfl
  | cons p pairs ih =>
    rw [deleteLoop, if_neg (hnone p (by simp))]
    exact ih fun p' hp' ↦ hnone p' (by simp [hp'])

/-- The loop finds the one request of the sub-thread and stops. -/
theorem deleteLoop_settled
    (hcount : (s.thread (s.threadOf r.subthreadWaiting)).lockRequestsCount = 1)
    (hsub : (s.subThread r.subthreadWaiting).lockRequestsCount = 1) (hlock : s.lock l = some lock)
    (hmem : (l, r) ∈ pairs)
    (honly : ∀ p ∈ pairs, p.2.subthreadWaiting = r.subthreadWaiting → p = (l, r)) :
    Settled s (deleteLoop r.subthreadWaiting pairs s) l
      { lock with requests := lock.requests.erase r } r (.withdrawn l r.ticket) := by
  induction pairs with
  | nil => simp at hmem
  | cons p pairs ih =>
    rw [deleteLoop]
    by_cases hp : p.2.subthreadWaiting = r.subthreadWaiting
    · obtain rfl := honly p (by simp) hp
      have hunlink : s.unlinkRequest l r =
          s.setLock l (some { lock with requests := lock.requests.erase r }) := by
        simp only [unlinkRequest, hlock]
      have hlast := @Engine.changeLockRequestCount_last
        ((s.setLock l (some { lock with requests := lock.requests.erase r })).record
          (.withdrawn l r.ticket)) r.subthreadWaiting hcount hsub
      simp only [if_true, hunlink]
      rw [if_pos (by rw [hlast])]
      exact Settled.of_change hcount hsub
    · rw [if_neg hp]
      refine ih ?_ fun p' hp' ↦ honly p' (by simp [hp'])
      rcases mem_cons.mp hmem with heq | hmem
      · exact absurd (by rw [← heq]) hp
      · exact hmem

/-- A sub-thread has no request any more, and the locks have the owners they had. -/
theorem Invariant.deleteLockRequests (h : Invariant away [] waits s) (sub : ℕ)
    (haway : ∀ t ∈ away, t = s.threadOf sub) :
    ∃ waits', Invariant away [] waits' (s.deleteLockRequests sub) ∧
      After s waits (s.deleteLockRequests sub) waits' ∧
      (∀ p, waits' (s.threadOf sub) = some p → p.2.subthreadWaiting ≠ sub) ∧
      ∀ l lock', (s.deleteLockRequests sub).lock l = some lock' →
        ∃ lock, s.lock l = some lock ∧ lock'.owners = lock.owners := by
  by_cases hsub : (waits (s.threadOf sub)).any (fun p ↦ p.2.subthreadWaiting = sub) = true
  · obtain ⟨⟨l, r⟩, hwaits, hr⟩ : ∃ p, waits (s.threadOf sub) = some p ∧
        p.2.subthreadWaiting = sub := by simpa [Option.any_eq_true] using hsub
    have hr : r.subthreadWaiting = sub := hr
    subst hr
    obtain ⟨hmem, -⟩ := (h.waiting.waits_iff _ l r).mp hwaits
    obtain ⟨hcount, hsubCount⟩ := h.waiting.counts hwaits
    obtain ⟨lock, hlock, -⟩ := exists_lock hmem
    have honly : ∀ threads, ∀ p ∈ s.requestsOn threads,
        p.2.subthreadWaiting = r.subthreadWaiting → p = (l, r) := by
      intro threads p hp heq
      obtain ⟨-, -, -, hp⟩ := mem_requestsOn.mp hp
      obtain ⟨hl, hreq⟩ := h.waiting.eq_of_mem hp hmem (by rw [heq])
      exact Prod.ext hl hreq
    have howner : s.Active lock.owningThread := by
      refine (h.holding.active l lock hlock).resolve_right fun hmem ↦ ?_
      exact h.waiting.other _ l r hwaits lock hlock (haway _ hmem)
    have hlocks := (h.holding.mem_locks lock.owningThread l).mpr ⟨lock, hlock, rfl⟩
    have hs : Settled s (s.deleteLockRequests r.subthreadWaiting) l
        { lock with requests := lock.requests.erase r } r (.withdrawn l r.ticket) := by
      rw [Engine.deleteLockRequests, if_pos (by rw [hsubCount]; decide)]
      by_cases hready : (l, r) ∈ s.requestsOn s.threadsReady
      · have hs := deleteLoop_settled hcount hsubCount hlock hready (honly _)
        have hinvariant := h.settle hwaits hlock hs
        have hnone : ∀ p ∈ (deleteLoop r.subthreadWaiting (s.requestsOn s.threadsReady)
            s).requestsOn (deleteLoop r.subthreadWaiting (s.requestsOn s.threadsReady)
            s).threadsWaiting, p.2.subthreadWaiting ≠ r.subthreadWaiting := by
          intro p hp heq
          obtain ⟨-, -, -, hp⟩ := mem_requestsOn.mp hp
          have hthread := hs.threadOf_eq p.2.subthreadWaiting
          have := (hinvariant.waiting.waits_iff _ p.1 p.2).mpr ⟨hp, rfl⟩
          rw [hthread, heq] at this
          simp at this
        simp only
        rw [deleteLoop_eq_self hnone]
        exact hs
      · have hwaiting : (l, r) ∈ s.requestsOn s.threadsWaiting := by
          rcases howner.1 with howner | howner
          · exact absurd (mem_requestsOn.mpr ⟨_, howner, hlocks, hmem⟩) hready
          · exact mem_requestsOn.mpr ⟨_, howner, hlocks, hmem⟩
        have hskip : deleteLoop r.subthreadWaiting (s.requestsOn s.threadsReady) s = s := by
          refine deleteLoop_eq_self fun p hp heq ↦ hready ?_
          exact honly _ p hp heq ▸ hp
        simp only [hskip]
        exact deleteLoop_settled hcount hsubCount hlock hwaiting (honly _)
    refine ⟨_, h.settle hwaits hlock hs, hs.after _, fun p hp ↦ by simp at hp, fun l' lock' hl' ↦ ?_⟩
    rw [hs.lock, update_apply] at hl'
    split_ifs at hl' with hl
    · rw [← Option.some.inj hl']
      exact ⟨lock, hl ▸ hlock, rfl⟩
    · exact ⟨lock', hl', rfl⟩
  · have hzero : (s.subThread sub).lockRequestsCount = 0 := by
      rw [h.waiting.subCount, if_neg hsub]
    have heq : s.deleteLockRequests sub = s := by
      rw [Engine.deleteLockRequests, if_neg (by simp [hzero])]
    rw [heq]
    refine ⟨waits, h, After.refl s waits, fun p hp hne ↦ hsub ?_, fun l lock hl ↦ ⟨lock, hl, rfl⟩⟩
    simp [hp, hne]

end Withdraw

section CheckRequests

theorem requestsOn_nodup (h : Invariant away [] waits s) (th : ℕ) : (s.requestsOn [th]).Nodup := by
  simp only [requestsOn, flatMap_cons, flatMap_nil, append_nil]
  rw [nodup_flatMap]
  refine ⟨fun l _ ↦ (h.waiting.nodup l).map fun r r' heq ↦ (Prod.mk.inj heq).2, ?_⟩
  refine (h.holding.nodup th).imp fun {l l'} hne ↦ ?_
  intro p hp hp'
  obtain ⟨r, -, rfl⟩ := mem_map.mp hp
  obtain ⟨r', -, heq⟩ := mem_map.mp hp'
  exact hne (Prod.mk.inj heq).1.symm

/-- The requests that have expired are withdrawn one after the other. -/
theorem Invariant.checkLoop {pairs : List (ℕ × LockRequest)} (h : Invariant away [] waits s)
    (hnodup : pairs.Nodup) (hmem : ∀ p ∈ pairs, p.2 ∈ s.requests p.1) :
    ∃ waits', Invariant away [] waits' (pairs.foldl (fun s p ↦ s.checkRequest p.1 p.2) s) := by
  induction pairs generalizing s waits with
  | nil => exact ⟨waits, h⟩
  | cons p pairs ih =>
    obtain ⟨hfirst, hrest⟩ := nodup_cons.mp hnodup
    rw [foldl_cons]
    by_cases htime : p.2.timeExpire.any (· ≤ s.now) = true
    · have hp := hmem p (by simp)
      have hwaits := (h.waiting.waits_iff _ p.1 p.2).mpr ⟨hp, rfl⟩
      obtain ⟨hcount, hsub⟩ := h.waiting.counts hwaits
      obtain ⟨lock, hlock, -⟩ := exists_lock hp
      have hs : Settled s (s.checkRequest p.1 p.2) p.1
          { lock with requests := lock.requests.erase p.2 } p.2 (.withdrawn p.1 p.2.ticket) := by
        rw [checkRequest, if_pos htime]
        exact Settled.of_check hlock hcount hsub
      refine ih (h.settle hwaits hlock hs) hrest fun p' hp' ↦ ?_
      have hold := hmem p' (by simp [hp'])
      simp only [requests, hs.lock, update_apply]
      split_ifs with hl
      · have hne : p'.2 ≠ p.2 := fun heq ↦ hfirst (Prod.ext hl heq ▸ hp')
        rw [hl, requests_eq hlock] at hold
        exact (mem_erase_of_ne hne).mpr hold
      · exact hold
    · rw [checkRequest, if_neg htime]
      exact ih h hrest fun p' hp' ↦ hmem p' (by simp [hp'])

theorem Invariant.checkRequests (h : Invariant away [] waits s) (th : ℕ) :
    ∃ waits', Invariant away [] waits' (s.checkRequests th) := by
  unfold Engine.checkRequests
  split_ifs
  · exact ⟨waits, h⟩
  · refine h.checkLoop (requestsOn_nodup h th) fun p hp ↦ ?_
    obtain ⟨-, -, -, hp⟩ := mem_requestsOn.mp hp
    exact hp

end CheckRequests

section Release

/-- The sub-thread owns no lock of its thread. -/
def Cleared (s : Engine) (th sub l : ℕ) : Prop :=
  ∀ lock, s.lock l = some lock → lock.owningThread = th →
    ∀ owner ∈ lock.owners, owner.owningSubThread ≠ sub

theorem Invariant.destroyOwner (h : Invariant away [] waits s) (hl : l ∈ (s.thread th).locks)
    (sub : ℕ) :
    ∃ waits', Invariant away [] waits' (s.destroyOwner l sub) ∧
      After s waits (s.destroyOwner l sub) waits' ∧
      (∀ l', l' ≠ l → (s.destroyOwner l sub).lock l' = s.lock l') ∧
      (((s.destroyOwner l sub).thread th).locks = (s.thread th).locks ∨
        ((s.destroyOwner l sub).thread th).locks = (s.thread th).locks.erase l) ∧
      Cleared (s.destroyOwner l sub) th sub l := by
  obtain ⟨lock, hlock, rfl⟩ := (h.holding.mem_locks th l).mp hl
  have hdestroy : s.destroyOwner l sub =
      s.setOwners l lock (lock.owners.filter fun owner ↦ owner.owningSubThread ≠ sub) := by
    simp only [destroyOwner, hlock]
  have howners : ∀ owner ∈ lock.owners.filter fun owner ↦ owner.owningSubThread ≠ sub,
      owner.owningSubThread ∈ (s.thread lock.owningThread).subThreads := fun owner howner ↦
    h.holding.live l lock hlock owner (mem_of_mem_filter howner)
  obtain ⟨waits', hinvariant, hafter, heffect⟩ := h.setOwners hlock howners
  rw [hdestroy]
  rcases heffect with hgiven | heq
  · exact ⟨waits', hinvariant, hafter, hgiven.others, .inr hgiven.locks,
      fun lock₁ hl₁ hown ↦ absurd hown (hgiven.gone lock₁ hl₁)⟩
  · refine ⟨waits', hinvariant, hafter, fun l' hl' ↦ ?_, .inl ?_, fun lock₁ hl₁ _ owner howner ↦ ?_⟩
    · rw [heq]
      simp [setLock, hl']
    · rw [heq]
      rfl
    · rw [heq] at hl₁
      simp only [setLock, update_self] at hl₁
      obtain rfl := Option.some.inj hl₁
      simpa using (mem_filter.mp howner).2

variable {pre rest : List ℕ}

theorem nextNode_append (hl : l ∉ pre) :
    nextNode (pre ++ l :: rest) l = rest.head? := by
  induction pre with
  | nil => simp [nextNode]
  | cons l' pre ih =>
    obtain ⟨hne, hl⟩ : l ≠ l' ∧ l ∉ pre := by simpa using hl
    rw [← ih hl]
    simp [nextNode, Ne.symm hne]

/-- The loop over the locks of a thread: behind it are locks that the sub-thread does not own. -/
theorem Invariant.destroyOwners (th sub turns : ℕ) (h : Invariant away [] waits s)
    (hlocks : (s.thread th).locks = pre ++ rest) (hturns : rest.length ≤ turns)
    (hpre : ∀ l ∈ pre, Cleared s th sub l) :
    ∃ waits', Invariant away [] waits' (destroyOwners th sub turns rest.head? s) ∧
      After s waits (destroyOwners th sub turns rest.head? s) waits' ∧
      ∀ l, Cleared (destroyOwners th sub turns rest.head? s) th sub l := by
  induction turns generalizing s waits pre rest with
  | zero =>
    obtain rfl : rest = [] := eq_nil_of_length_eq_zero (by omega)
    refine ⟨waits, h, After.refl s waits, fun l lock hl hown ↦ ?_⟩
    have hmem : l ∈ pre := by
      rw [← append_nil pre, ← hlocks]
      exact (h.holding.mem_locks th l).mpr ⟨lock, hl, hown⟩
    exact hpre l hmem lock hl hown
  | succ turns ih =>
    cases rest with
    | nil =>
      refine ⟨waits, h, After.refl s waits, fun l lock hl hown ↦ ?_⟩
      have hmem : l ∈ pre := by
        rw [← append_nil pre, ← hlocks]
        exact (h.holding.mem_locks th l).mpr ⟨lock, hl, hown⟩
      exact hpre l hmem lock hl hown
    | cons l rest =>
      have hnodup := h.holding.nodup th
      rw [hlocks] at hnodup
      have hl : l ∉ pre := fun hmem ↦ (nodup_append.mp hnodup).2.2 l hmem l (by simp) rfl
      have hnext : nextNode (s.thread th).locks l = rest.head? := by
        rw [hlocks]
        exact nextNode_append hl
      have hmem : l ∈ (s.thread th).locks := by
        rw [hlocks]
        simp
      obtain ⟨waits₁, hinvariant, hafter, hothers, hlocks₁, hcleared⟩ := h.destroyOwner hmem sub
      have hpre₁ : ∀ l' ∈ pre, Cleared (s.destroyOwner l sub) th sub l' := by
        intro l' hl' lock hlock
        rw [hothers l' fun heq ↦ hl (heq ▸ hl')] at hlock
        exact hpre l' hl' lock hlock
      rw [head?_cons, destroyOwners, hnext]
      have hcase : ∃ pre', ((s.destroyOwner l sub).thread th).locks = pre' ++ rest ∧
          ∀ l' ∈ pre', Cleared (s.destroyOwner l sub) th sub l' := by
        rcases hlocks₁ with hlocks₁ | hlocks₁
        · refine ⟨pre ++ [l], by rw [hlocks₁, hlocks]; simp, fun l' hl' ↦ ?_⟩
          rcases mem_append.mp hl' with hl' | hl'
          · exact hpre₁ l' hl'
          · obtain rfl := mem_singleton.mp hl'
            exact hcleared
        · refine ⟨pre, ?_, hpre₁⟩
          rw [hlocks₁, hlocks, erase_append_right _ hl, erase_cons_head]
      obtain ⟨pre', hpre', hcleared'⟩ := hcase
      obtain ⟨waits₂, hinvariant₂, hafter₂, hcleared₂⟩ :=
        ih hinvariant hpre' (by simpa using hturns) hcleared'
      exact ⟨waits₂, hinvariant₂, hafter.trans hafter₂, hcleared₂⟩

theorem Invariant.popFrames (h : Invariant away [] waits s) (sub : ℕ)
    (synchronized : List Resource) :
    ∃ waits', Invariant away [] waits'
        (synchronized.foldl (fun s resource ↦ s.unlockObject sub resource) s) ∧
      After s waits (synchronized.foldl (fun s resource ↦ s.unlockObject sub resource) s)
        waits' := by
  induction synchronized generalizing s waits with
  | nil => exact ⟨waits, h, After.refl s waits⟩
  | cons resource synchronized ih =>
    obtain ⟨waits₁, hinvariant, hafter⟩ := h.unlockObject sub resource
    obtain ⟨waits₂, hinvariant₂, hafter₂⟩ := ih hinvariant
    exact ⟨waits₂, hinvariant₂, hafter.trans hafter₂⟩

/-- A sub-thread that is released owns no lock and waits for none. -/
theorem Invariant.release (h : Invariant away [] waits s) (haway : ∀ t ∈ away, t = th)
    (hsub : sub ∈ (s.thread th).subThreads) (synchronized : List Resource) :
    ∃ waits', Invariant away [] waits' (s.release th sub synchronized) ∧
      After s waits (s.release th sub synchronized) waits' ∧
      (∀ p, waits' th = some p → p.2.subthreadWaiting ≠ sub) ∧
      ∀ l lock, (s.release th sub synchronized).lock l = some lock →
        ∀ owner ∈ lock.owners, owner.owningSubThread ≠ sub := by
  have hthread := h.population.threadOf th sub hsub
  obtain ⟨waits₁, h₁, hafter₁⟩ := h.popFrames sub synchronized
  have hrelease : s.release th sub synchronized =
      (Engine.destroyOwners th sub
        ((synchronized.foldl (fun s resource ↦ s.unlockObject sub resource) s).destroyTurns th)
        ((synchronized.foldl (fun s resource ↦ s.unlockObject sub resource) s).thread th).locks.head?
        (synchronized.foldl (fun s resource ↦ s.unlockObject sub resource) s)).deleteLockRequests
        sub := rfl
  rw [hrelease]
  generalize synchronized.foldl (fun s resource ↦ s.unlockObject sub resource) s = s₁ at *
  obtain ⟨waits₂, h₂, hafter₂, hcleared⟩ := h₁.destroyOwners th sub (s₁.destroyTurns th)
    (nil_append (s₁.thread th).locks).symm (Nat.le_add_right _ _) (by simp)
  have hafter := hafter₁.trans hafter₂
  generalize Engine.destroyOwners th sub (s₁.destroyTurns th) (s₁.thread th).locks.head? s₁ = s₂
    at *
  have hthread₂ : s₂.threadOf sub = th := (hafter.threadOf sub).trans hthread
  obtain ⟨waits₃, h₃, hafter₃, hnone, hlock⟩ :=
    h₂.deleteLockRequests sub fun t ht ↦ (haway t ht).trans hthread₂.symm
  refine ⟨waits₃, h₃, hafter.trans hafter₃, fun p hp ↦ hnone p (hthread₂ ▸ hp),
    fun l lock' hl' owner howner heq ↦ ?_⟩
  obtain ⟨lock, hl, howners⟩ := hlock l lock' hl'
  rw [howners] at howner
  have hlive := h₂.holding.live l lock hl owner howner
  have howning := h₂.population.threadOf _ _ hlive
  rw [heq, hthread₂] at howning
  exact hcleared l lock hl howning.symm owner howner heq

theorem freeSubThread_thread (s : Engine) (th sub t : ℕ) :
    (s.freeSubThread th sub).thread t = { s.thread t with
      subThreads := if t = th then (s.thread t).subThreads.erase sub
        else (s.thread t).subThreads } := by
  simp only [freeSubThread, record, setThread, update_apply]
  split_ifs with ht
  · rw [ht]
  · rfl

theorem active_freeSubThread (th sub : ℕ) (h : s.Active t) : (s.freeSubThread th sub).Active t :=
  h.congr id (by rw [freeSubThread_thread])

theorem Invariant.freeSubThread (h : Invariant away [] waits s)
    (howns : ∀ l lock, s.lock l = some lock → ∀ owner ∈ lock.owners, owner.owningSubThread ≠ sub)
    (hwaits : ∀ p, waits th = some p → p.2.subthreadWaiting ≠ sub)
    (hsub : sub ∈ (s.thread th).subThreads) :
    Invariant away [] waits (s.freeSubThread th sub) := by
  have hthread := freeSubThread_thread s th sub
  have hkept : ∀ t sub', sub' ∈ (s.thread t).subThreads → sub' ≠ sub →
      sub' ∈ ((s.freeSubThread th sub).thread t).subThreads := by
    intro t sub' hmem hne
    rw [hthread]
    simp only
    split_ifs
    · exact (mem_erase_of_ne hne).mpr hmem
    · exact hmem
  have hless : ∀ t, ((s.freeSubThread th sub).thread t).subThreads.Sublist
      (s.thread t).subThreads := by
    intro t
    rw [hthread]
    simp only
    split_ifs
    · exact erase_sublist
    · exact List.Sublist.refl _
  -- A request of the sub-thread would be one of its thread.
  have hwaits' : ∀ t l r, waits t = some (l, r) → r.subthreadWaiting ≠ sub := by
    rintro t l r hr rfl
    have ht : t = th :=
      ((h.waiting.waits_iff t l r).mp hr).2.symm.trans (h.population.threadOf th _ hsub)
    exact hwaits (l, r) (ht ▸ hr) rfl
  refine ⟨⟨fun t sub' hmem ↦ h.population.threadOf t sub' ((hless t).subset hmem),
    fun t sub' hmem ↦ h.population.made t sub' ((hless t).subset hmem),
    fun t ↦ (h.population.nodup t).sublist (hless t), fun t ht ↦ ?_⟩,
    ⟨fun t l ↦ ?_, fun t ↦ ?_, h.holding.owned, fun l lock hl owner howner ↦ ?_,
      fun l lock hl ↦ (h.holding.active l lock hl).imp_left (active_freeSubThread th sub),
      h.holding.exclusive, h.holding.objectLock, h.holding.made⟩,
    ⟨h.waiting.waits_iff, fun t l r hr ↦ ?_, h.waiting.other, fun t l r hr ↦ ?_,
      fun t l r hr ↦ ?_, fun t ↦ ?_, h.waiting.subCount, h.waiting.sorted, h.waiting.made,
      h.waiting.queued, h.waiting.fair.cons (by simp)⟩⟩
  · exact sublist_nil.mp (h.population.fresh t ht ▸ hless t)
  · rw [hthread]
    exact h.holding.mem_locks t l
  · rw [hthread]
    exact h.holding.nodup t
  · exact hkept _ _ (h.holding.live l lock hl owner howner) (howns l lock hl owner howner)
  · exact hkept t _ (h.waiting.live t l r hr) (hwaits' t l r hr)
  · rw [hthread]
    exact h.waiting.status t l r hr
  · exact .inr ⟨⟨by simp, by simpa using (hwaits' t l r hr).symm⟩, h.waiting.since t l r hr⟩
  · rw [hthread]
    exact h.waiting.threadCount t

end Release

section Destroy

/-- The loop over the sub-threads of a thread, from its last one down. -/
theorem Invariant.destroyLoop (base : Option ℕ) (includeSelf : Bool)
    (synchronized : ℕ → List Resource) {subs : List ℕ} (h : Invariant away [] waits s)
    (haway : ∀ t ∈ away, t = th) (hsubs : (s.thread th).subThreads = subs.reverse) :
    ∃ waits', Invariant away [] waits' (destroyLoop th base includeSelf synchronized subs s) ∧
      (∀ t, s.Active t → (destroyLoop th base includeSelf synchronized subs s).Active t) ∧
      (∀ t p, waits' t = some p → waits t = some p) ∧
      (base = none →
        ((destroyLoop th base includeSelf synchronized subs s).thread th).subThreads = []) ∧
      ∀ sub front rest, base = some sub → subs = front ++ sub :: rest →
        ∀ p, waits' th = some p → p.2.subthreadWaiting ∈ rest := by
  induction subs generalizing s waits with
  | nil => exact ⟨waits, h, fun _ ↦ id, fun _ _ ↦ id, fun _ ↦ hsubs, by simp⟩
  | cons sub subs ih =>
    have hmem : sub ∈ (s.thread th).subThreads := by
      rw [hsubs]
      simp
    have hnodup : (sub :: subs).Nodup := by
      rw [← nodup_reverse, ← hsubs]
      exact h.population.nodup th
    obtain ⟨hnotin, -⟩ := nodup_cons.mp hnodup
    obtain ⟨waits₁, h₁, hafter, hwaits, howns⟩ := h.release haway hmem (synchronized sub)
    have hmem₁ : sub ∈ ((s.release th sub (synchronized sub)).thread th).subThreads := by
      rw [hafter.subThreads]
      exact hmem
    have hfree := h₁.freeSubThread howns hwaits hmem₁
    have hleft : (((s.release th sub (synchronized sub)).freeSubThread th sub).thread
        th).subThreads = subs.reverse := by
      have hthread : (((s.release th sub (synchronized sub)).freeSubThread th sub).thread
          th).subThreads = (s.thread th).subThreads.erase sub := by
        simp [Engine.freeSubThread, Engine.record, Engine.setThread, hafter.subThreads]
      rw [hthread, hsubs, reverse_cons, erase_append_right _ (by simpa using hnotin)]
      simp
    rw [destroyLoop]
    by_cases hbase : base = some sub
    · -- The base is the last one that is released; those before it stay.
      have hrest : ∀ sub' front rest, base = some sub' → sub :: subs = front ++ sub' :: rest →
          ∀ p, waits₁ th = some p → p.2.subthreadWaiting ∈ rest := by
        intro sub' front rest hbase' heq p hp
        obtain rfl : sub = sub' := Option.some.inj (hbase.symm.trans hbase')
        have hfront : front = [] := by
          cases front with
          | nil => rfl
          | cons x front =>
            obtain ⟨-, htail⟩ := List.cons.inj heq
            exact absurd (htail ▸ by simp) hnotin
        subst hfront
        obtain ⟨-, rfl⟩ := List.cons.inj heq
        have hlive := h₁.waiting.live th p.1 p.2 hp
        rw [hafter.subThreads, hsubs, mem_reverse, mem_cons] at hlive
        exact hlive.resolve_left (hwaits p hp)
      rw [if_pos hbase]
      cases includeSelf with
      | true =>
        exact ⟨waits₁, hfree, fun t ht ↦ active_freeSubThread th sub (hafter.active t ht),
          hafter.waits, fun hnone ↦ by simp [hnone] at hbase,
          hrest⟩
      | false =>
        exact ⟨waits₁, h₁, hafter.active, hafter.waits, fun hnone ↦ by simp [hnone] at hbase,
          hrest⟩
    · rw [if_neg hbase]
      obtain ⟨waits₂, h₂, hactive, hfewer, hnone, hrest⟩ := ih hfree hleft
      refine ⟨waits₂, h₂, fun t ht ↦ hactive t (active_freeSubThread th sub (hafter.active t ht)),
        fun t p hp ↦ hafter.waits t p (hfewer t p hp), hnone,
        fun sub' front rest hbase' heq p hp ↦ ?_⟩
      cases front with
      | nil =>
        obtain ⟨rfl, -⟩ := List.cons.inj heq
        exact absurd hbase' hbase
      | cons x front => exact hrest sub' front rest hbase' (List.cons.inj heq).2 p hp

theorem Invariant.destroySubThread (h : Invariant away [] waits s) (th : ℕ) (base : Option ℕ)
    (includeSelf : Bool) (synchronized : ℕ → List Resource) (haway : ∀ t ∈ away, t = th) :
    ∃ waits', Invariant away [] waits' (s.destroySubThread th base includeSelf synchronized) ∧
      (∀ t p, waits' t = some p → waits t = some p) ∧
      (base = none →
        ((s.destroySubThread th base includeSelf synchronized).thread th).subThreads = []) ∧
      ∀ sub front rest, base = some sub → (s.thread th).subThreads = front ++ sub :: rest →
        ∀ p, waits' th = some p → p.2.subthreadWaiting ∈ front := by
  obtain ⟨waits', hinvariant, -, hfewer, hnone, hrest⟩ := h.destroyLoop base includeSelf
    synchronized haway (reverse_reverse (s.thread th).subThreads).symm
  refine ⟨waits', hinvariant, hfewer, hnone, fun sub front rest hbase heq p hp ↦ ?_⟩
  have hmem := hrest sub rest.reverse front.reverse hbase (by rw [heq]; simp) p hp
  exact mem_reverse.mp hmem

end Destroy

end MicroFramework.Monitors
