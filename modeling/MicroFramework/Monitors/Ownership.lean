import MicroFramework.Monitors.Edits

/-!
# Locks that change their owners

A lock that loses its last owner goes to the first that waits for it, or it is freed; either way the
invariant is kept, and so it is by every exit from a monitor.
-/

namespace MicroFramework.Monitors

open Library Function List Option Engine

variable {s s' s'' : Engine} {away unowned : List ℕ}
  {waits waits' waits'' : ℕ → Option (ℕ × LockRequest)} {l th t sub : ℕ} {lock : Lock}
  {r : LockRequest}

/-- What exits and destructions leave as it is; requests only become fewer. -/
structure After (s : Engine) (waits : ℕ → Option (ℕ × LockRequest)) (s' : Engine)
    (waits' : ℕ → Option (ℕ × LockRequest)) : Prop where
  subThreads : ∀ t, (s'.thread t).subThreads = (s.thread t).subThreads
  system : ∀ t, (s'.thread t).system = (s.thread t).system
  threadOf : ∀ sub, s'.threadOf sub = s.threadOf sub
  active : ∀ t, s.Active t → s'.Active t
  waits : ∀ t p, waits' t = some p → waits t = some p

theorem After.refl (s : Engine) (waits : ℕ → Option (ℕ × LockRequest)) : After s waits s waits :=
  ⟨fun _ ↦ rfl, fun _ ↦ rfl, fun _ ↦ rfl, fun _ ↦ id, fun _ _ ↦ id⟩

theorem After.trans (h : After s waits s' waits') (h' : After s' waits' s'' waits'') :
    After s waits s'' waits'' where
  subThreads t := (h'.subThreads t).trans (h.subThreads t)
  system t := (h'.system t).trans (h.system t)
  threadOf sub := (h'.threadOf sub).trans (h.threadOf sub)
  active t ht := h'.active t (h.active t ht)
  waits t p hp := h.waits t p (h'.waits t p hp)

/-- A thread has given up a lock; the other locks are as they were. -/
structure GivenUp (s s' : Engine) (l th : ℕ) : Prop where
  others : ∀ l', l' ≠ l → s'.lock l' = s.lock l'
  locks : (s'.thread th).locks = (s.thread th).locks.erase l
  gone : ∀ lock, s'.lock l = some lock → lock.owningThread ≠ th

section Settled

variable {lock' : Lock} {e : Event}

theorem Settled.thread_eq (hs : Settled s s' l lock' r e) (t : ℕ) :
    (s'.thread t).subThreads = (s.thread t).subThreads ∧
      (s'.thread t).locks = (s.thread t).locks ∧
      (s'.thread t).system = (s.thread t).system := by
  rw [hs.thread, update_apply]
  split_ifs with ht
  · rw [ht]
    exact ⟨rfl, rfl, rfl⟩
  · exact ⟨rfl, rfl, rfl⟩

theorem Settled.threadOf_eq (hs : Settled s s' l lock' r e) (sub : ℕ) :
    s'.threadOf sub = s.threadOf sub := by
  simp only [threadOf, hs.subThread, update_apply]
  split_ifs with hsub
  · rw [hsub]
  · rfl

theorem Settled.after (hs : Settled s s' l lock' r e) (th : ℕ) :
    After s waits s' (update waits th none) where
  subThreads t := (hs.thread_eq t).1
  system t := (hs.thread_eq t).2.2
  threadOf := hs.threadOf_eq
  active t ht := hs.active t (.inl ht)
  waits t p hp := by
    by_cases ht : t = th
    · subst ht
      simp at hp
    · rwa [update_of_ne ht] at hp

theorem Settled.population (hs : Settled s s' l lock' r e) (h : Population s) : Population s' :=
  h.congr (fun t ↦ (hs.thread_eq t).1) hs.threadOf_eq hs.threads hs.subThreads

theorem Waiting.counts (h : Waiting away waits s) (hwaits : waits th = some (l, r)) :
    (s.thread (s.threadOf r.subthreadWaiting)).lockRequestsCount = 1 ∧
      (s.subThread r.subthreadWaiting).lockRequestsCount = 1 := by
  obtain ⟨-, hth⟩ := (h.waits_iff th l r).mp hwaits
  rw [hth, h.threadCount, h.subCount, hth, hwaits]
  simp

end Settled

section HandOver

theorem handOver_thread (s : Engine) (l : ℕ) (lock : Lock) (sub : ℕ)
    (hne : lock.owningThread ≠ s.threadOf sub) (t : ℕ) :
    (s.handOver l lock sub).thread t =
      { s.thread t with locks :=
          if t = s.threadOf sub then (s.thread t).locks ++ [l]
          else if t = lock.owningThread then (s.thread t).locks.erase l
          else (s.thread t).locks } := by
  unfold threadOf at hne ⊢
  simp only [handOver, setThread, setLock]
  by_cases ht : t = (s.subThread sub).owningThread
  · subst ht
    rw [update_self, if_pos rfl, update_of_ne hne.symm]
  · rw [update_of_ne ht, if_neg ht]
    by_cases ho : t = lock.owningThread
    · subst ho
      rw [update_self, if_pos rfl]
    · rw [update_of_ne ho, if_neg ho]

theorem handOver_lock (s : Engine) (l : ℕ) (lock : Lock) (sub : ℕ) :
    (s.handOver l lock sub).lock = update s.lock l
      (some { lock with owningThread := s.threadOf sub, owners := [⟨sub, 1⟩] }) := rfl

theorem Holding.handOver (h : Holding away [l] s) (hlock : s.lock l = some lock)
    (hne : lock.owningThread ≠ s.threadOf sub) (hactive : s.Active (s.threadOf sub))
    (hlive : sub ∈ (s.thread (s.threadOf sub)).subThreads) :
    Holding away [] (s.handOver l lock sub) := by
  have hthread := handOver_thread s l lock sub hne
  have hlock' := handOver_lock s l lock sub
  have hother : ∀ l', l' ≠ l → (s.handOver l lock sub).lock l' = s.lock l' := fun l' hl' ↦ by
    rw [hlock', update_of_ne hl']
  have hself : (s.handOver l lock sub).lock l =
      some { lock with owningThread := s.threadOf sub, owners := [⟨sub, 1⟩] } := by
    rw [hlock', update_self]
  have hkept : ∀ t, s.Active t → (s.handOver l lock sub).Active t := fun t ht ↦
    ht.congr id (by rw [hthread])
  -- The lock has its old resource, and so have all the others.
  have hres : ∀ l' lock₁, (s.handOver l lock sub).lock l' = some lock₁ →
      ∃ lock₀, s.lock l' = some lock₀ ∧ lock₀.resource = lock₁.resource := by
    intro l' lock₁ hl'
    by_cases heq : l' = l
    · subst heq
      rw [hself] at hl'
      exact ⟨lock, hlock, by rw [← some.inj hl']⟩
    · exact ⟨lock₁, by rwa [hother l' heq] at hl', rfl⟩
  refine ⟨fun t l' ↦ ?_, fun t ↦ ?_, fun l' lock₁ hl' ↦ ?_, fun l' lock₁ hl' ↦ ?_,
    fun l' lock₁ hl' ↦ ?_, fun l₁ l₂ lock₁ lock₂ hl₁ hl₂ heq ↦ ?_, fun resource hobject l' ↦ ?_,
    fun l' lock₁ hl' ↦ ?_⟩
  · have hold := h.mem_locks t l'
    rw [hthread]
    by_cases heq : l' = l
    · subst heq
      rw [hself]
      have howning : l' ∈ (s.thread t).locks ↔ lock.owningThread = t := by
        rw [hold, hlock]
        simp
      simp only [Option.some.injEq, exists_eq_left']
      split_ifs with ht ho
      · simp [ht]
      · refine iff_of_false (List.Nodup.not_mem_erase (h.nodup t)) fun heq ↦ ht heq.symm
      · rw [howning]
        exact iff_of_false (fun heq ↦ ho heq.symm) fun heq ↦ ht heq.symm
    · rw [hother l' heq, ← hold]
      split_ifs with ht ho
      · simp [heq]
      · exact mem_erase_of_ne heq
      · rfl
  · rw [hthread]
    simp only
    split_ifs with ht
    · refine (nodup_append.mpr ⟨h.nodup t, nodup_singleton l, ?_⟩)
      intro l₁ hl₁ l₂ hl₂ heq
      obtain rfl := mem_singleton.mp hl₂
      subst heq
      obtain ⟨lock₀, hl₀, howning⟩ := (h.mem_locks t l₁).mp hl₁
      rw [hlock] at hl₀
      obtain rfl := some.inj hl₀
      exact hne (howning.trans ht)
    · exact (h.nodup t).erase l
    · exact h.nodup t
  · by_cases heq : l' = l
    · subst heq
      rw [hself] at hl'
      obtain rfl := some.inj hl'
      exact .inl (by simp)
    · rw [hother l' heq] at hl'
      exact (h.owned l' lock₁ hl').imp_right fun hmem ↦ absurd (mem_singleton.mp hmem) heq
  · by_cases heq : l' = l
    · subst heq
      rw [hself] at hl'
      obtain rfl := some.inj hl'
      intro owner howner
      rw [hthread]
      obtain rfl := mem_singleton.mp howner
      exact hlive
    · rw [hother l' heq] at hl'
      intro owner howner
      rw [hthread]
      exact h.live l' lock₁ hl' owner howner
  · by_cases heq : l' = l
    · subst heq
      rw [hself] at hl'
      obtain rfl := some.inj hl'
      exact .inl (hkept _ hactive)
    · rw [hother l' heq] at hl'
      exact (h.active l' lock₁ hl').imp_left (hkept _)
  · obtain ⟨lock₁', hl₁', hres₁⟩ := hres l₁ lock₁ hl₁
    obtain ⟨lock₂', hl₂', hres₂⟩ := hres l₂ lock₂ hl₂
    exact h.exclusive l₁ l₂ lock₁' lock₂' hl₁' hl₂' (by rw [hres₁, hres₂, heq])
  · refine (h.objectLock resource hobject l').trans ⟨?_, ?_⟩
    · rintro ⟨lock₀, hl', rfl⟩
      by_cases heq : l' = l
      · subst heq
        rw [hlock] at hl'
        exact ⟨_, hself, by rw [← some.inj hl']⟩
      · exact ⟨lock₀, by rwa [hother l' heq], rfl⟩
    · rintro ⟨lock₁, hl', rfl⟩
      exact hres l' lock₁ hl'
  · obtain ⟨lock₀, hl₀, -⟩ := hres l' lock₁ hl'
    exact h.made l' lock₀ hl₀

theorem Waiting.handOver (h : Waiting away waits s) (hlock : s.lock l = some lock)
    (hne : lock.owningThread ≠ s.threadOf sub) (hwaits : waits (s.threadOf sub) = none) :
    Waiting away waits (s.handOver l lock sub) := by
  have hthread := handOver_thread s l lock sub hne
  have hlock' := handOver_lock s l lock sub
  refine h.congr (fun l' ↦ ?_) (fun t l' r hr lock₁ hl' ↦ ?_) (fun t ↦ ?_) (fun t l' r hr ↦ ?_)
    (fun _ ↦ ⟨rfl, rfl⟩) rfl rfl
  · simp only [requests, hlock', update_apply]
    split_ifs with hl
    · rw [hl, hlock]
    · rfl
  · rw [hlock', update_apply] at hl'
    split_ifs at hl' with hl
    · obtain rfl := some.inj hl'
      rintro rfl
      simp only at hr
      rw [hwaits] at hr
      cases hr
    · exact h.other t l' r hr lock₁ hl'
  · rw [hthread]
    exact ⟨rfl, rfl⟩
  · rw [hthread]
    exact h.status t l' r hr

end HandOver

section FreeLock

theorem freeLock_thread (s : Engine) (l : ℕ) (lock : Lock) (t : ℕ) :
    (s.freeLock l lock).thread t =
      { s.thread t with locks :=
          if t = lock.owningThread then (s.thread t).locks.erase l else (s.thread t).locks } := by
  simp only [freeLock, setThread, setLock, update_apply]
  split_ifs with ht
  · rw [ht]
  · rfl

theorem freeLock_lock (s : Engine) (l : ℕ) (lock : Lock) :
    (s.freeLock l lock).lock = update s.lock l none := rfl

theorem Holding.freeLock (h : Holding away [l] s) (hlock : s.lock l = some lock) :
    Holding away [] (s.freeLock l lock) := by
  have hthread := freeLock_thread s l lock
  have hother : ∀ l' lock₁, (s.freeLock l lock).lock l' = some lock₁ →
      l' ≠ l ∧ s.lock l' = some lock₁ := by
    intro l' lock₁ hl'
    by_cases heq : l' = l
    · subst heq
      simp [freeLock_lock] at hl'
    · exact ⟨heq, by rwa [freeLock_lock, update_of_ne heq] at hl'⟩
  have hother' : ∀ l', l' ≠ l → (s.freeLock l lock).lock l' = s.lock l' := fun l' hl' ↦ by
    rw [freeLock_lock, update_of_ne hl']
  have hkept : ∀ t, s.Active t → (s.freeLock l lock).Active t := fun t ht ↦
    ht.congr id (by rw [hthread])
  refine ⟨fun t l' ↦ ?_, fun t ↦ ?_, fun l' lock₁ hl' ↦ ?_, fun l' lock₁ hl' ↦ ?_,
    fun l' lock₁ hl' ↦ ?_, fun l₁ l₂ lock₁ lock₂ hl₁ hl₂ heq ↦ ?_, fun resource hobject l' ↦ ?_,
    fun l' lock₁ hl' ↦ ?_⟩
  · have hold := h.mem_locks t l'
    rw [hthread]
    by_cases heq : l' = l
    · subst heq
      have hgone : (s.freeLock l' lock).lock l' = none := by rw [freeLock_lock, update_self]
      rw [hgone]
      simp only [reduceCtorEq, false_and, exists_false, iff_false]
      split_ifs with ht
      · exact (h.nodup t).not_mem_erase
      · rw [hold, hlock]
        simpa using fun heq ↦ ht heq.symm
    · rw [hother' l' heq, ← hold]
      split_ifs with ht
      · exact mem_erase_of_ne heq
      · rfl
  · rw [hthread]
    simp only
    split_ifs
    · exact (h.nodup t).erase l
    · exact h.nodup t
  · obtain ⟨heq, hl'⟩ := hother l' lock₁ hl'
    exact (h.owned l' lock₁ hl').imp_right fun hmem ↦ absurd (mem_singleton.mp hmem) heq
  · obtain ⟨heq, hl'⟩ := hother l' lock₁ hl'
    intro owner howner
    rw [hthread]
    exact h.live l' lock₁ hl' owner howner
  · exact (h.active l' lock₁ (hother l' lock₁ hl').2).imp_left (hkept _)
  · exact h.exclusive l₁ l₂ lock₁ lock₂ (hother l₁ lock₁ hl₁).2 (hother l₂ lock₂ hl₂).2 heq
  · have hobjectLock : (s.freeLock l lock).objectLock resource =
        if resource = lock.resource then none else s.objectLock resource := by
      simp only [Engine.freeLock]
      by_cases heq : resource = lock.resource
      · rw [if_pos heq, if_pos (heq ▸ hobject), heq, update_self]
      · rw [if_neg heq]
        split_ifs
        · rw [update_of_ne heq]
        · rfl
    rw [hobjectLock]
    split_ifs with heq
    · simp only [false_iff, not_exists, not_and]
      intro lock₁ hl' hres
      obtain ⟨hne, hl'⟩ := hother l' lock₁ hl'
      exact hne (h.exclusive l' l lock₁ lock hl' hlock (hres.trans heq))
    · refine (h.objectLock resource hobject l').trans ⟨?_, ?_⟩
      · rintro ⟨lock₀, hl', rfl⟩
        refine ⟨lock₀, ?_, rfl⟩
        rw [hother' l']
        · exact hl'
        · rintro rfl
          rw [hlock] at hl'
          exact heq (by rw [← some.inj hl'])
      · rintro ⟨lock₁, hl', rfl⟩
        exact ⟨lock₁, (hother l' lock₁ hl').2, rfl⟩
  · exact h.made l' lock₁ (hother l' lock₁ hl').2

theorem Waiting.freeLock (h : Waiting away waits s) (hlock : s.lock l = some lock)
    (hrequests : lock.requests = []) : Waiting away waits (s.freeLock l lock) := by
  have hthread := freeLock_thread s l lock
  refine h.congr (fun l' ↦ ?_) (fun t l' r hr lock₁ hl' ↦ ?_) (fun t ↦ ?_) (fun t l' r hr ↦ ?_)
    (fun _ ↦ ⟨rfl, rfl⟩) rfl rfl
  · simp only [requests, freeLock_lock, update_apply]
    split_ifs with hl
    · rw [hl, hlock]
      exact hrequests.symm
    · rfl
  · rw [freeLock_lock, update_apply] at hl'
    split_ifs at hl'
    exact h.other t l' r hr lock₁ hl'
  · rw [hthread]
    exact ⟨rfl, rfl⟩
  · rw [hthread]
    exact h.status t l' r hr

end FreeLock

section ChangeOwner

/-- A lock without an owner goes to the first that waits for it, or it is freed. -/
theorem Invariant.changeOwner (h : Invariant away [l] waits s) (hlock : s.lock l = some lock) :
    ∃ waits', Invariant away [] waits' (s.changeOwner l lock) ∧
      After s waits (s.changeOwner l lock) waits' ∧
      GivenUp s (s.changeOwner l lock) l lock.owningThread := by
  cases hrequests : lock.requests with
  | nil =>
    have hfree : s.changeOwner l lock = s.freeLock l lock := by
      simp only [Engine.changeOwner, hrequests]
    have hthread := freeLock_thread s l lock
    rw [hfree]
    refine ⟨waits, ⟨h.population.congr (fun t ↦ ?_) (fun _ ↦ rfl) rfl rfl,
      h.holding.freeLock hlock, h.waiting.freeLock hlock hrequests⟩,
      ⟨fun t ↦ ?_, fun t ↦ ?_, fun _ ↦ rfl, fun t ht ↦ ht.congr id ?_, fun _ _ ↦ id⟩,
      ⟨fun l' hl' ↦ ?_, ?_, fun lock₁ hl' ↦ ?_⟩⟩
    · rw [hthread]
    · rw [hthread]
    · rw [hthread]
    · rw [hthread]
    · rw [freeLock_lock, update_of_ne hl']
    · rw [hthread]
      exact if_pos rfl
    · simp [freeLock_lock] at hl'
  | cons r requests =>
    have hrequests' : s.requests l = r :: requests := (requests_eq hlock).trans hrequests
    have hwaits : waits (s.threadOf r.subthreadWaiting) = some (l, r) :=
      (h.waiting.waits_iff _ l r).mpr ⟨hrequests' ▸ mem_cons_self, rfl⟩
    obtain ⟨hcount, hsub⟩ := h.waiting.counts hwaits
    have hs := @Settled.of_change s l { lock with owners := [], requests := requests } r
      (.granted l r.ticket r.subthreadWaiting (s.threadOf r.subthreadWaiting)) hcount hsub
    have hchange : s.changeOwner l lock = handOver
        (((s.setLock l (some { lock with owners := [], requests := requests })).record
          (.granted l r.ticket r.subthreadWaiting
            (s.threadOf r.subthreadWaiting))).changeLockRequestCount
            r.subthreadWaiting (-1)).1 l { lock with owners := [], requests := requests }
        r.subthreadWaiting := by
      simp only [Engine.changeOwner, hrequests]
      rfl
    rw [hchange]
    generalize (((s.setLock l (some { lock with owners := [], requests := requests })).record
      (.granted l r.ticket r.subthreadWaiting (s.threadOf r.subthreadWaiting))).changeLockRequestCount
        r.subthreadWaiting (-1)).1 = s₁ at hs ⊢
    have hholding : Holding away [l] s₁ :=
      h.holding.settle hs hlock rfl rfl (by simp) (.inr (by simp)) fun l' hl' _ ↦ hl'
    have hwaiting : Waiting away (update waits (s.threadOf r.subthreadWaiting) none) s₁ := by
      refine h.waiting.settle hs hwaits hlock (by simp [hrequests]) rfl
        (h.waiting.settles_granted hwaits ?_)
      rw [hrequests']
      rfl
    have hpopulation := hs.population h.population
    have hlock₁ : s₁.lock l = some { lock with owners := [], requests := requests } := by
      rw [hs.lock, update_self]
    have hne : lock.owningThread ≠ s₁.threadOf r.subthreadWaiting := by
      rw [hs.threadOf_eq]
      exact h.waiting.other _ l r hwaits lock hlock
    have hactive : s₁.Active (s₁.threadOf r.subthreadWaiting) := by
      rw [hs.threadOf_eq]
      exact hs.active _ (.inr rfl)
    have hlive : r.subthreadWaiting ∈ (s₁.thread (s₁.threadOf r.subthreadWaiting)).subThreads := by
      rw [hs.threadOf_eq, (hs.thread_eq _).1]
      exact h.waiting.live _ l r hwaits
    have hnone : update waits (s.threadOf r.subthreadWaiting) none
        (s₁.threadOf r.subthreadWaiting) = none := by
      rw [hs.threadOf_eq, update_self]
    have hthread := handOver_thread s₁ l { lock with owners := [], requests := requests }
      r.subthreadWaiting hne
    refine ⟨_, ⟨hpopulation.congr (fun t ↦ ?_) (fun _ ↦ rfl) rfl rfl,
      hholding.handOver hlock₁ hne hactive hlive, hwaiting.handOver hlock₁ hne hnone⟩,
      (hs.after _).trans ⟨fun t ↦ ?_, fun t ↦ ?_, fun _ ↦ rfl, fun t ht ↦ ht.congr id ?_,
        fun _ _ ↦ id⟩,
      ⟨fun l' hl' ↦ ?_, ?_, fun lock₁ hl' ↦ ?_⟩⟩
    · rw [hthread]
    · rw [hthread]
    · rw [hthread]
    · rw [hthread]
    · rw [handOver_lock, update_of_ne hl', hs.lock, update_of_ne hl']
    · rw [hthread, if_neg hne, if_pos rfl, (hs.thread_eq _).2.1]
    · rw [handOver_lock, update_self] at hl'
      rw [← some.inj hl']
      exact hne.symm

theorem Invariant.setOwners (h : Invariant away [] waits s) (hlock : s.lock l = some lock)
    {owners : List Owner} (howners : ∀ owner ∈ owners,
      owner.owningSubThread ∈ (s.thread lock.owningThread).subThreads) :
    ∃ waits', Invariant away [] waits' (s.setOwners l lock owners) ∧
      After s waits (s.setOwners l lock owners) waits' ∧
      (GivenUp s (s.setOwners l lock owners) l lock.owningThread ∨
        s.setOwners l lock owners = s.setLock l (some { lock with owners := owners })) := by
  have hset : ∀ unowned', (owners ≠ [] ∨ l ∈ unowned') →
      Invariant away unowned' waits (s.setLock l (some { lock with owners := owners })) :=
    fun unowned' howned ↦
      ⟨h.population.congr (fun _ ↦ rfl) (fun _ ↦ rfl) rfl rfl,
        h.holding.setLock hlock rfl rfl howners howned (by simp),
        h.waiting.congr
          (fun l' ↦ by
            simp only [requests, setLock, update_apply]
            split_ifs with hl
            · rw [hl, hlock]
            · rfl)
          (fun t l' r hr lock₁ hl' ↦ by
            simp only [setLock, update_apply] at hl'
            split_ifs at hl' with hl
            · obtain rfl := some.inj hl'
              exact h.waiting.other t l' r hr lock (hl ▸ hlock)
            · exact h.waiting.other t l' r hr lock₁ hl')
          (fun _ ↦ ⟨rfl, rfl⟩) h.waiting.status (fun _ ↦ ⟨rfl, rfl⟩) rfl rfl⟩
  by_cases hnone : owners = []
  · have hchange := (hset [l] (.inr (by simp))).changeOwner
      (by simp [setLock] : _ = some { lock with owners := owners })
    have heq : s.setOwners l lock owners =
        (s.setLock l (some { lock with owners := owners })).changeOwner l
          { lock with owners := owners } := by
      simp only [Engine.setOwners, if_pos hnone]
    rw [heq]
    obtain ⟨waits', hinvariant, hafter, hgiven⟩ := hchange
    refine ⟨waits', hinvariant, ⟨hafter.subThreads, hafter.system, hafter.threadOf, hafter.active,
      hafter.waits⟩, .inl ⟨fun l' hl' ↦ ?_, hgiven.locks, hgiven.gone⟩⟩
    rw [hgiven.others l' hl']
    simp [setLock, hl']
  · have heq : s.setOwners l lock owners = s.setLock l (some { lock with owners := owners }) := by
      simp only [Engine.setOwners, if_neg hnone]
    rw [heq]
    exact ⟨waits, hset [] (.inl hnone), ⟨fun _ ↦ rfl, fun _ ↦ rfl, fun _ ↦ rfl, fun _ ↦ id,
      fun _ _ ↦ id⟩, .inr rfl⟩

theorem mem_exitOwners {owners : List Owner} {owner : Owner}
    (howner : owner ∈ exitOwners owners sub) :
    ∃ owner' ∈ owners, owner'.owningSubThread = owner.owningSubThread := by
  obtain ⟨hmem, -⟩ := mem_filter.mp howner
  obtain ⟨owner', howner', rfl⟩ := mem_map.mp hmem
  refine ⟨owner', howner', ?_⟩
  split_ifs <;> rfl

theorem Invariant.decrementOwnership (h : Invariant away [] waits s) (l sub : ℕ) :
    ∃ waits', Invariant away [] waits' (s.decrementOwnership l sub) ∧
      After s waits (s.decrementOwnership l sub) waits' := by
  unfold Engine.decrementOwnership
  split
  next => exact ⟨waits, h, After.refl s waits⟩
  next lock hlock =>
    split_ifs
    · have howners : ∀ owner ∈ exitOwners lock.owners sub,
          owner.owningSubThread ∈ (s.thread lock.owningThread).subThreads := fun owner howner ↦ by
        obtain ⟨owner', howner', heq⟩ := mem_exitOwners howner
        exact heq ▸ h.holding.live l lock hlock owner' howner'
      obtain ⟨waits', hinvariant, hafter, -⟩ := h.setOwners hlock howners
      exact ⟨waits', hinvariant, hafter⟩
    · exact ⟨waits, h, After.refl s waits⟩

theorem Invariant.unlockObject (h : Invariant away [] waits s) (sub : ℕ) (resource : Resource) :
    ∃ waits', Invariant away [] waits' (s.unlockObject sub resource) ∧
      After s waits (s.unlockObject sub resource) waits' := by
  unfold Engine.unlockObject
  split
  · exact h.decrementOwnership _ sub
  · exact ⟨waits, h, After.refl s waits⟩

end ChangeOwner

end MicroFramework.Monitors
