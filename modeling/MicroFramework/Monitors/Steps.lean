import MicroFramework.Monitors.Destruction

/-!
# The other steps of the engine

Threads and sub-threads that are made, threads that move between the lists, are restarted or
terminated, and monitors that are entered: each keeps the invariant, as long as no thread is
restarted while it waits for a lock.
-/

namespace MicroFramework.Monitors

open Library Function List Nat Option Engine

variable {s s' : Engine} {away unowned : List ℕ} {waits : ℕ → Option (ℕ × LockRequest)}
  {l th t sub : ℕ} {lock : Lock} {r : LockRequest} {e : Event} {resource : Resource}
  {nodes : ℕ}

section Threads

section

variable (h : Invariant away unowned waits s)

include h

/-- Nothing changes for the locks and for those who wait for them. -/
theorem Invariant.congr (hlock : s'.lock = s.lock)
    (hthread : ∀ t, (s'.thread t).subThreads = (s.thread t).subThreads ∧
      (s'.thread t).locks = (s.thread t).locks ∧
      (s'.thread t).lockRequestsCount = (s.thread t).lockRequestsCount)
    (hsubThread : ∀ sub, s'.threadOf sub = s.threadOf sub ∧
      (s'.subThread sub).lockRequestsCount = (s.subThread sub).lockRequestsCount)
    (hactive : ∀ t, s.Active t → s'.Active t)
    (hstatus : ∀ t l r, waits t = some (l, r) → (s'.thread t).status = .waiting ∨ t ∈ away)
    (hobjectLock : s'.objectLock = s.objectLock)
    (hmade : s'.threads = s.threads ∧ s'.subThreads = s.subThreads ∧ s'.locks = s.locks ∧
      s'.tickets = s.tickets) (hlog : s'.log = s.log) : Invariant away unowned waits s' where
  population := h.population.congr (fun t ↦ (hthread t).1) (fun sub ↦ (hsubThread sub).1) hmade.1
    hmade.2.1
  holding := h.holding.congr hlock (fun t ↦ (hthread t).2.1) (fun t ↦ (hthread t).1) hactive
    hobjectLock hmade.2.2.1
  waiting := h.waiting.congr (fun l ↦ by simp only [requests, hlock])
    (by
      rw [hlock]
      exact h.waiting.other)
    (fun t ↦ ⟨(hthread t).1, (hthread t).2.2⟩) hstatus hsubThread hmade.2.2.2 hlog

/-- Something is said that does not concern the requests. -/
theorem Invariant.record (hpending : ∀ l, pending l (e :: s.log) = pending l s.log)
    (hundisturbed : ∀ t l r, waits t = some (l, r) → Undisturbed t r.subthreadWaiting e)
    (hgranted : ∀ l ticket sub th, e ≠ .granted l ticket sub th) :
    Invariant away unowned waits (s.record e) where
  population := h.population.congr (fun _ ↦ rfl) (fun _ ↦ rfl) rfl rfl
  holding := h.holding.congr rfl (fun _ ↦ rfl) (fun _ ↦ rfl) (fun _ ↦ id) rfl rfl
  waiting :=
    { h.waiting with
      since := fun t l r hr ↦ .inr ⟨hundisturbed t l r hr, h.waiting.since t l r hr⟩
      queued := fun l ↦ (h.waiting.queued l).trans (hpending l).symm
      fair := h.waiting.fair.cons hgranted }

/-- A thread changes and is put on the list that it belongs to. -/
theorem Invariant.relink {x : Thread} (hsubThreads : x.subThreads = (s.thread th).subThreads)
    (hlocks : x.locks = (s.thread th).locks)
    (hcount : x.lockRequestsCount = (s.thread th).lockRequestsCount)
    (hactive : s.Active th → x.status = .ready ∨ x.status = .waiting)
    (hwaits : ∀ p, waits th = some p → x.status = .waiting ∨ th ∈ away) :
    Invariant away unowned waits ((s.setThread th x).link th) := by
  have hthread : ((s.setThread th x).link th).thread = update s.thread th x :=
    link_thread _ th
  refine h.congr (by simp [setThread]) (fun t ↦ ?_) (fun sub ↦ ?_) (fun t ht ↦ ?_)
    (fun t l r hr ↦ ?_) (by simp [setThread]) (by simp [setThread])
    (by simp [setThread])
  · rw [hthread, update_apply]
    split_ifs with ht
    · rw [ht]
      exact ⟨hsubThreads, hlocks, hcount⟩
    · exact ⟨rfl, rfl, rfl⟩
  · simp [threadOf, setThread]
  · have hlisted : (s.setThread th x).Listed t := ht.1
    by_cases heq : t = th
    · subst heq
      have hx := hactive ht
      refine ⟨hlisted.link fun _ ↦ ?_, ?_⟩
      · simpa [setThread] using hx
      · rw [hthread, update_self]
        exact hx
    · refine ⟨hlisted.link fun heq' ↦ absurd heq' heq, ?_⟩
      rw [hthread, update_of_ne heq]
      exact ht.2
  · rw [hthread, update_apply]
    split_ifs with ht
    · subst ht
      exact hwaits _ hr
    · exact h.waiting.status t l r hr

theorem Invariant.restart (hwaits : waits th = none) :
    Invariant away unowned waits (s.restart th) := by
  have hrelink := h.relink (x := { s.thread th with status := .ready }) rfl rfl rfl
    (fun _ ↦ .inl rfl) (by simp [hwaits])
  refine hrelink.record (fun l ↦ rfl) (fun t l r hr ↦ ⟨?_, by simp⟩) (by simp)
  intro heq
  rw [← Event.restarted.inj heq, hwaits] at hr
  cases hr

end

theorem Waiting.eq_none (h : Waiting away waits s) (hcount : (s.thread th).lockRequestsCount = 0) :
    waits th = none := by
  rw [h.threadCount] at hcount
  cases hwaits : waits th with
  | none => rfl
  | some p => simp [hwaits] at hcount

theorem Waiting.eq_none_of_status (h : Waiting [] waits s)
    (hstatus : (s.thread th).status ≠ .waiting) : waits th = none := by
  cases hwaits : waits th with
  | none => rfl
  | some p => exact absurd ((h.status th p.1 p.2 hwaits).resolve_right (by simp)) hstatus

theorem Invariant.leave (h : Invariant [] [] waits s) (th : ℕ) : Invariant [th] [] waits s where
  population := h.population
  holding :=
    { h.holding with
      active := fun l lock hl ↦ (h.holding.active l lock hl).imp_right (by simp) }
  waiting :=
    { h.waiting with
      status := fun t l r hr ↦ (h.waiting.status t l r hr).imp_right (by simp) }

theorem Invariant.unlink (h : Invariant [] [] waits s) : Invariant [th] [] waits (s.unlink th) := by
  refine ⟨h.population.congr (fun _ ↦ rfl) (fun _ ↦ rfl) rfl rfl,
    { h.holding with active := fun l lock hl ↦ ?_ },
    { h.waiting with
      status := fun t l r hr ↦ (h.waiting.status t l r hr).imp_right (by simp) }⟩
  by_cases hne : lock.owningThread = th
  · exact .inr (by simp [hne])
  · obtain ⟨hlisted, hstatus⟩ := (h.holding.active l lock hl).resolve_right (by simp)
    exact .inl ⟨hlisted.imp (mem_erase_of_ne hne).mpr (mem_erase_of_ne hne).mpr, hstatus⟩

theorem Invariant.setAway (h : Invariant [th] [] waits s) {x : Thread}
    (hsubThreads : x.subThreads = (s.thread th).subThreads) (hlocks : x.locks = (s.thread th).locks)
    (hcount : x.lockRequestsCount = (s.thread th).lockRequestsCount) :
    Invariant [th] [] waits (s.setThread th x) := by
  have hthread : ∀ t, ((s.setThread th x).thread t).subThreads = (s.thread t).subThreads ∧
      ((s.setThread th x).thread t).locks = (s.thread t).locks ∧
      ((s.setThread th x).thread t).lockRequestsCount = (s.thread t).lockRequestsCount := by
    intro t
    simp only [setThread, update_apply]
    split_ifs with ht
    · rw [ht]
      exact ⟨hsubThreads, hlocks, hcount⟩
    · exact ⟨rfl, rfl, rfl⟩
  have hother : ∀ t, t ≠ th → (s.setThread th x).thread t = s.thread t := fun t ht ↦ by
    simp [setThread, ht]
  refine ⟨h.population.congr (fun t ↦ (hthread t).1) (fun _ ↦ rfl) rfl rfl, ?_,
    h.waiting.congr (fun _ ↦ rfl) h.waiting.other (fun t ↦ ⟨(hthread t).1, (hthread t).2.2⟩)
      (fun t l r hr ↦ ?_) (fun _ ↦ ⟨rfl, rfl⟩) rfl rfl⟩
  · refine ⟨fun t l ↦ ?_, fun t ↦ ?_, h.holding.owned, fun l lock hl ↦ ?_, fun l lock hl ↦ ?_,
      h.holding.exclusive, h.holding.objectLock, h.holding.made⟩
    · rw [(hthread t).2.1]
      exact h.holding.mem_locks t l
    · rw [(hthread t).2.1]
      exact h.holding.nodup t
    · rw [(hthread _).1]
      exact h.holding.live l lock hl
    · by_cases hne : lock.owningThread = th
      · exact .inr (by simp [hne])
      · refine (h.holding.active l lock hl).imp_left fun hactive ↦ ?_
        exact hactive.congr id (by rw [hother _ hne])
  · by_cases ht : t = th
    · exact .inr (by simp [ht])
    · rw [hother t ht]
      exact h.waiting.status t l r hr

/-- A thread that holds no lock and waits for none need not be on a list. -/
theorem Invariant.absent (h : Invariant [th] [] waits s)
    (hlocks : ∀ l lock, s.lock l = some lock → lock.owningThread ≠ th)
    (hwaits : waits th = none) : Invariant [] [] waits s where
  population := h.population
  holding :=
    { h.holding with
      active := fun l lock hl ↦ .inl ((h.holding.active l lock hl).resolve_right fun hmem ↦
        hlocks l lock hl (mem_singleton.mp hmem)) }
  waiting :=
    { h.waiting with
      status := fun t l r hr ↦ .inl ((h.waiting.status t l r hr).resolve_right fun hmem ↦ by
        rw [mem_singleton.mp hmem, hwaits] at hr
        cases hr) }

/-- A thread that is terminated.  A system thread keeps its sub-thread, so it must neither hold a
lock nor wait for one. -/
theorem Invariant.passivate (h : Invariant [] [] waits s) (synchronized : ℕ → List Resource)
    (hsystem : (s.thread th).system = true →
      (s.thread th).locks = [] ∧ (s.thread th).lockRequestsCount = 0) :
    ∃ waits', Invariant [] [] waits' (s.passivate th synchronized) := by
  unfold Engine.passivate
  simp only
  split_ifs with hsys
  · obtain ⟨hlocks, hcount⟩ := hsystem hsys
    have haway : Invariant [th] [] waits ((s.unlink th).setThread th
        { (s.unlink th).thread th with
          status := .unstarted, suspended := false, aborted := false }) :=
      h.unlink.setAway rfl rfl rfl
    refine ⟨waits, haway.absent (fun l lock hl heq ↦ ?_) (h.waiting.eq_none hcount)⟩
    have hmem := (h.holding.mem_locks th l).mpr ⟨lock, hl, heq⟩
    rw [hlocks] at hmem
    simp at hmem
  · have haway : Invariant [th] [] waits ((s.unlink th).setThread th
        { (s.unlink th).thread th with
          status := .terminated, suspended := false, aborted := false }) :=
      h.unlink.setAway rfl rfl rfl
    obtain ⟨waits', hinvariant, -, hnone, -⟩ :=
      haway.destroySubThread th none false synchronized fun t ht ↦ mem_singleton.mp ht
    have hsubThreads := hnone rfl
    refine ⟨waits', hinvariant.absent (fun l lock hl heq ↦ ?_) ?_⟩
    · obtain ⟨owner, howner⟩ := exists_mem_of_ne_nil _
        ((hinvariant.holding.owned l lock hl).resolve_right (by simp))
      have hlive := hinvariant.holding.live l lock hl owner howner
      rw [heq, hsubThreads] at hlive
      simp at hlive
    · by_contra hne
      obtain ⟨p, hp⟩ := ne_none_iff_exists'.mp hne
      have hlive := hinvariant.waiting.live th p.1 p.2 hp
      rw [hsubThreads] at hlive
      simp at hlive

theorem Invariant.createSubThread (h : Invariant [] [] waits s) (hth : th < s.threads) :
    Invariant [] [] waits (s.createSubThread th) := by
  have hthread : ∀ t, (s.createSubThread th).thread t = { s.thread t with
      subThreads := if t = th then (s.thread t).subThreads ++ [s.subThreads]
        else (s.thread t).subThreads } := by
    intro t
    simp only [Engine.createSubThread, Engine.setThread, Engine.setSubThread, update_apply]
    split_ifs with ht
    · rw [ht]
    · rfl
  have hold : ∀ sub, sub < s.subThreads →
      (s.createSubThread th).subThread sub = s.subThread sub := fun sub hsub ↦ by
    simp only [Engine.createSubThread, Engine.setThread, Engine.setSubThread]
    exact update_of_ne (Nat.ne_of_lt hsub) ..
  have hnew : (s.createSubThread th).subThread s.subThreads = ⟨th, 0, false⟩ := by
    simp [Engine.createSubThread, Engine.setSubThread]
  have hmore : ∀ t sub, sub ∈ (s.thread t).subThreads →
      sub ∈ ((s.createSubThread th).thread t).subThreads := by
    intro t sub hsub
    rw [hthread]
    simp only
    split_ifs
    · exact mem_append_left _ hsub
    · exact hsub
  -- The sub-threads of a thread are the old ones, and the new one in its thread.
  have hcases : ∀ t, ∀ sub ∈ ((s.createSubThread th).thread t).subThreads,
      sub ∈ (s.thread t).subThreads ∨ t = th ∧ sub = s.subThreads := by
    intro t sub hsub
    rw [hthread] at hsub
    simp only at hsub
    split_ifs at hsub with ht
    · exact (mem_append.mp hsub).imp_right fun hmem ↦ ⟨ht, mem_singleton.mp hmem⟩
    · exact .inl hsub
  have hthreadOf : ∀ sub, sub < s.subThreads →
      (s.createSubThread th).threadOf sub = s.threadOf sub := fun sub hsub ↦ by
    rw [Engine.threadOf, hold sub hsub]
    rfl
  have hrequest : ∀ l, ∀ r ∈ s.requests l, r.subthreadWaiting < s.subThreads := fun l r hr ↦
    h.population.made _ _ (h.waiting.live _ l r ((h.waiting.waits_iff _ l r).mpr ⟨hr, rfl⟩))
  refine ⟨⟨fun t sub hsub ↦ ?_, fun t sub hsub ↦ ?_, fun t ↦ ?_, fun t ht ↦ ?_⟩,
    ⟨fun t l ↦ ?_, fun t ↦ ?_, h.holding.owned, fun l lock hl owner howner ↦ ?_,
      fun l lock hl ↦ ?_, h.holding.exclusive, h.holding.objectLock, h.holding.made⟩,
    { waits_iff := fun t l r ↦ ?_, live := fun t l r hr ↦ ?_, other := h.waiting.other,
      status := fun t l r hr ↦ ?_, since := h.waiting.since, threadCount := fun t ↦ ?_,
      subCount := fun sub ↦ ?_, sorted := h.waiting.sorted, made := h.waiting.made,
      queued := h.waiting.queued, fair := h.waiting.fair }⟩
  · rcases hcases t sub hsub with hsub | ⟨rfl, rfl⟩
    · rw [hthreadOf sub (h.population.made t sub hsub)]
      exact h.population.threadOf t sub hsub
    · rw [Engine.threadOf, hnew]
  · have hmade : (s.createSubThread th).subThreads = s.subThreads + 1 := rfl
    rw [hmade]
    rcases hcases t sub hsub with hsub | ⟨-, rfl⟩
    · have := h.population.made t sub hsub
      omega
    · omega
  · rw [hthread]
    simp only
    split_ifs with ht
    · refine nodup_append.mpr ⟨h.population.nodup t, nodup_singleton _, ?_⟩
      intro sub hsub sub' hsub' heq
      have := h.population.made t sub hsub
      rw [heq, mem_singleton.mp hsub'] at this
      omega
    · exact h.population.nodup t
  · have hne : t ≠ th := by
      rintro rfl
      exact absurd ht (Nat.not_le.mpr hth)
    rw [hthread, if_neg hne]
    exact h.population.fresh t ht
  · rw [hthread]
    exact h.holding.mem_locks t l
  · rw [hthread]
    exact h.holding.nodup t
  · exact hmore _ _ (h.holding.live l lock hl owner howner)
  · exact (h.holding.active l lock hl).imp_left fun hactive ↦ hactive.congr id (by rw [hthread])
  · constructor
    · intro hr
      obtain ⟨hmem, heq⟩ := (h.waiting.waits_iff t l r).mp hr
      exact ⟨hmem, (hthreadOf _ (hrequest l r hmem)).trans heq⟩
    · rintro ⟨hmem, heq⟩
      exact (h.waiting.waits_iff t l r).mpr ⟨hmem, (hthreadOf _ (hrequest l r hmem)).symm.trans heq⟩
  · exact hmore t _ (h.waiting.live t l r hr)
  · rw [hthread]
    exact h.waiting.status t l r hr
  · rw [hthread]
    exact h.waiting.threadCount t
  · by_cases hsub : sub = s.subThreads
    · subst hsub
      rw [Engine.threadOf, hnew, if_neg]
      intro hany
      obtain ⟨⟨l, r⟩, hwaits, hr⟩ : ∃ p, waits th = some p ∧
          p.2.subthreadWaiting = s.subThreads := by simpa [Option.any_eq_true] using hany
      have hlt := hrequest l r ((h.waiting.waits_iff th l r).mp hwaits).1
      have hr : r.subthreadWaiting = s.subThreads := hr
      omega
    · have heq : (s.createSubThread th).subThread sub = s.subThread sub := by
        simp only [Engine.createSubThread, Engine.setThread, Engine.setSubThread]
        exact update_of_ne hsub ..
      rw [Engine.threadOf, heq]
      exact h.waiting.subCount sub

theorem Invariant.createThread (h : Invariant [] [] waits s) (system : Bool) :
    Invariant [] [] waits (s.createThread system) := by
  have hsubThreads := h.population.fresh s.threads (Nat.le_refl _)
  have hfree : ∀ l lock, s.lock l = some lock → lock.owningThread ≠ s.threads := by
    intro l lock hl heq
    obtain ⟨owner, howner⟩ := exists_mem_of_ne_nil _
      ((h.holding.owned l lock hl).resolve_right (by simp))
    have hlive := h.holding.live l lock hl owner howner
    rw [heq, hsubThreads] at hlive
    simp at hlive
  have hlocks : (s.thread s.threads).locks = [] := by
    refine eq_nil_iff_forall_not_mem.mpr fun l hl ↦ ?_
    obtain ⟨lock, hlock, heq⟩ := (h.holding.mem_locks _ l).mp hl
    exact hfree l lock hlock heq
  have hwaits : waits s.threads = none := by
    by_contra hne
    obtain ⟨p, hp⟩ := ne_none_iff_exists'.mp hne
    have hlive := h.waiting.live _ p.1 p.2 hp
    rw [hsubThreads] at hlive
    simp at hlive
  have hcount := h.waiting.threadCount s.threads
  rw [hwaits] at hcount
  have haway : Invariant [s.threads] [] waits (s.setThread s.threads
      ⟨.unstarted, false, false, system, 0, [], [], 0⟩) :=
    (h.leave s.threads).setAway hsubThreads.symm hlocks.symm hcount.symm
  have hnew := haway.absent hfree hwaits
  have hmade : Invariant [] [] waits { s.setThread s.threads
      ⟨.unstarted, false, false, system, 0, [], [], 0⟩ with threads := s.threads + 1 } :=
    { population :=
        { hnew.population with
          fresh := fun t ht ↦ hnew.population.fresh t (le_of_succ_le ht) }
      holding := { hnew.holding with }
      waiting := { hnew.waiting with } }
  exact hmade.createSubThread (lt_succ_self _)

end Threads

section Enter

theorem Holding.findLockObject (h : Holding [] [] s) (resource : Resource) :
    (∀ l, s.findLockObject resource = some l →
      ∃ lock, s.lock l = some lock ∧ lock.resource = resource) ∧
    (s.findLockObject resource = none →
      ∀ l lock, s.lock l = some lock → lock.resource ≠ resource) := by
  -- What a search among the locks of some threads finds.
  have hsome : ∀ threads l, s.findLockAmong threads resource = some l →
      ∃ lock, s.lock l = some lock ∧ lock.resource = resource := by
    intro threads l hl
    have hfound := find?_some hl
    obtain ⟨lock, hlock, hres⟩ := any_eq_true _ _ |>.mp hfound
    exact ⟨lock, hlock, of_decide_eq_true hres⟩
  have hnone : ∀ threads, s.findLockAmong threads resource = none →
      ∀ l lock, s.lock l = some lock → lock.owningThread ∈ threads →
        lock.resource ≠ resource := by
    intro threads hall l lock hl hmem hres
    have hlocks := (h.mem_locks lock.owningThread l).mpr ⟨lock, hl, rfl⟩
    have := find?_eq_none.mp hall l (mem_flatMap.mpr ⟨_, hmem, hlocks⟩)
    simp [hl, hres] at this
  unfold Engine.findLockObject
  split_ifs with hobject
  · refine ⟨fun l hl ↦ (h.objectLock resource hobject l).mp hl, fun hall l lock hl hres ↦ ?_⟩
    rw [(h.objectLock resource hobject l).mpr ⟨lock, hl, hres⟩] at hall
    cases hall
  · cases hready : s.findLockAmong s.threadsReady resource with
    | some l =>
      refine ⟨fun l' hl' ↦ ?_, fun hall ↦ by simp at hall⟩
      exact hsome s.threadsReady l' (hready.trans hl')
    | none =>
      refine ⟨hsome s.threadsWaiting, fun hall l lock hl ↦ ?_⟩
      rcases ((h.active l lock hl).resolve_right (by simp)).1 with hmem | hmem
      · exact hnone _ hready l lock hl hmem
      · exact hnone _ hall l lock hl hmem

theorem mem_enterOwners {owners : List Owner} {owner : Owner}
    (howner : owner ∈ enterOwners owners sub) :
    owner.owningSubThread = sub ∨ ∃ owner' ∈ owners,
      owner'.owningSubThread = owner.owningSubThread := by
  unfold enterOwners at howner
  split_ifs at howner
  · obtain ⟨owner', howner', rfl⟩ := mem_map.mp howner
    refine .inr ⟨owner', howner', ?_⟩
    split_ifs <;> rfl
  · rcases mem_cons.mp howner with rfl | howner
    · exact .inl rfl
    · exact .inr ⟨owner, howner, rfl⟩

theorem enterOwners_ne_nil (owners : List Owner) (sub : ℕ) : enterOwners owners sub ≠ [] := by
  unfold enterOwners
  split_ifs with hany
  · intro hnil
    rw [map_eq_nil_iff] at hnil
    simp [hnil] at hany
  · exact cons_ne_nil _ _

/-- A sub-thread enters a lock that its thread holds, or that nobody owns yet. -/
theorem Invariant.acquire (h : Invariant [] unowned waits s) (hlock : s.lock l = some lock)
    (hunowned : ∀ l' ∈ unowned, l' = l) (hsub : sub ∈ (s.thread lock.owningThread).subThreads) :
    Invariant [] [] waits
      (s.setLock l (some { lock with owners := enterOwners lock.owners sub })) where
  population := h.population.congr (fun _ ↦ rfl) (fun _ ↦ rfl) rfl rfl
  holding := by
    refine h.holding.setLock hlock rfl rfl (fun owner howner ↦ ?_)
      (.inl (enterOwners_ne_nil _ _)) fun l' hl' hne ↦ absurd (hunowned l' hl') hne
    rcases mem_enterOwners howner with heq | ⟨owner', howner', heq⟩
    · exact heq ▸ hsub
    · exact heq ▸ h.holding.live l lock hlock owner' howner'
  waiting := by
    refine h.waiting.congr (fun l' ↦ ?_) (fun t l' r hr lock₁ hl' ↦ ?_) (fun _ ↦ ⟨rfl, rfl⟩)
      h.waiting.status (fun _ ↦ ⟨rfl, rfl⟩) rfl rfl
    · simp only [requests, setLock, update_apply]
      split_ifs with hl
      · rw [hl, hlock]
      · rfl
    · simp only [setLock, update_apply] at hl'
      split_ifs at hl' with hl
      · obtain rfl := some.inj hl'
        exact h.waiting.other t l' r hr lock (hl ▸ hlock)
      · exact h.waiting.other t l' r hr lock₁ hl'

/-- A lock for a resource that has none. -/
theorem Invariant.createLock (h : Invariant [] [] waits s) (hactive : s.Active th)
    (hresource : ∀ l lock, s.lock l = some lock → lock.resource ≠ resource) :
    Invariant [] [s.locks] waits (s.createLock th resource) := by
  have hthread : ∀ t, (s.createLock th resource).thread t = { s.thread t with
      locks := if t = th then (s.thread t).locks ++ [s.locks] else (s.thread t).locks } := by
    intro t
    simp only [Engine.createLock, Engine.setThread, Engine.setLock, update_apply]
    split_ifs with ht
    · rw [ht]
    · rfl
  have hlock : (s.createLock th resource).lock =
      update s.lock s.locks (some ⟨th, resource, [], []⟩) := rfl
  have hfresh : s.lock s.locks = none := by
    cases hl : s.lock s.locks with
    | none => rfl
    | some lock => exact absurd (h.holding.made _ lock hl) (Nat.lt_irrefl _)
  have hcases : ∀ l lock, (s.createLock th resource).lock l = some lock →
      s.lock l = some lock ∨ l = s.locks ∧ lock = ⟨th, resource, [], []⟩ := by
    intro l lock hl
    rw [hlock, update_apply] at hl
    split_ifs at hl with heq
    · exact .inr ⟨heq, (some.inj hl).symm⟩
    · exact .inl hl
  have hold : ∀ l lock, s.lock l = some lock → (s.createLock th resource).lock l = some lock := by
    intro l lock hl
    have hne : l ≠ s.locks := by
      rintro rfl
      rw [hfresh] at hl
      cases hl
    rw [hlock, update_of_ne hne]
    exact hl
  have hkept : ∀ t, s.Active t → (s.createLock th resource).Active t := fun t ht ↦
    ht.congr id (by rw [hthread])
  have hrequests : ∀ l, (s.createLock th resource).requests l = s.requests l := by
    intro l
    simp only [Engine.requests, hlock, update_apply]
    split_ifs with heq
    · rw [heq, hfresh]
    · rfl
  refine ⟨h.population.congr (fun t ↦ by rw [hthread]) (fun _ ↦ rfl) rfl rfl,
    ⟨fun t l ↦ ?_, fun t ↦ ?_, fun l lock hl ↦ ?_, fun l lock hl owner howner ↦ ?_,
      fun l lock hl ↦ ?_, fun l l' lock lock' hl hl' heq ↦ ?_, fun resource' hobject l ↦ ?_,
      fun l lock hl ↦ ?_⟩,
    h.waiting.congr hrequests (fun t l r hr lock hl ↦ ?_) (fun t ↦ by simp [hthread])
      (fun t l r hr ↦ ?_) (fun _ ↦ ⟨rfl, rfl⟩) rfl rfl⟩
  · rw [hthread]
    have hmem := h.holding.mem_locks t l
    by_cases hl : l = s.locks
    · subst hl
      have hnot : s.locks ∉ (s.thread t).locks := by
        rw [hmem, hfresh]
        simp
      rw [hlock, update_self]
      simp only [Option.some.injEq, exists_eq_left']
      split_ifs with ht
      · simp [ht]
      · exact iff_of_false hnot fun heq ↦ ht heq.symm
    · rw [hlock, update_of_ne hl, ← hmem]
      simp only
      split_ifs
      · simp [hl]
      · rfl
  · rw [hthread]
    simp only
    split_ifs
    · refine nodup_append.mpr ⟨h.holding.nodup t, nodup_singleton _, ?_⟩
      intro l hl l' hl' heq
      obtain ⟨lock, hl, -⟩ := (h.holding.mem_locks t l).mp hl
      rw [heq, mem_singleton.mp hl', hfresh] at hl
      cases hl
    · exact h.holding.nodup t
  · rcases hcases l lock hl with hl | ⟨rfl, -⟩
    · exact .inl ((h.holding.owned l lock hl).resolve_right (by simp))
    · exact .inr (by simp)
  · rcases hcases l lock hl with hl | ⟨-, rfl⟩
    · rw [hthread]
      exact h.holding.live l lock hl owner howner
    · simp at howner
  · rcases hcases l lock hl with hl | ⟨-, rfl⟩
    · exact (h.holding.active l lock hl).imp_left (hkept _)
    · exact .inl (hkept _ hactive)
  · rcases hcases l lock hl with hl | ⟨rfl, rfl⟩ <;>
      rcases hcases l' lock' hl' with hl' | ⟨rfl, rfl⟩
    · exact h.holding.exclusive l l' lock lock' hl hl' heq
    · exact absurd heq (hresource l lock hl)
    · exact absurd heq.symm (hresource l' lock' hl')
    · rfl
  · have hobjectLock : (s.createLock th resource).objectLock resource' =
        if resource' = resource then some s.locks else s.objectLock resource' := by
      simp only [Engine.createLock, Engine.setThread, Engine.setLock]
      by_cases heq : resource' = resource
      · rw [if_pos heq, if_pos (heq ▸ hobject), heq, update_self]
      · rw [if_neg heq]
        split_ifs
        · exact update_of_ne heq ..
        · rfl
    rw [hobjectLock]
    split_ifs with heq
    · constructor
      · intro hl
        obtain rfl := some.inj hl
        exact ⟨⟨th, resource, [], []⟩, by rw [hlock, update_self], heq.symm⟩
      · rintro ⟨lock, hl, hres⟩
        rcases hcases l lock hl with hl | ⟨rfl, -⟩
        · exact absurd (hres.trans heq) (hresource l lock hl)
        · rfl
    · refine (h.holding.objectLock resource' hobject l).trans ⟨?_, ?_⟩
      · rintro ⟨lock, hl, hres⟩
        exact ⟨lock, hold l lock hl, hres⟩
      · rintro ⟨lock, hl, hres⟩
        rcases hcases l lock hl with hl | ⟨-, rfl⟩
        · exact ⟨lock, hl, hres⟩
        · exact absurd hres.symm heq
  · have hmade : (s.createLock th resource).locks = s.locks + 1 := rfl
    rw [hmade]
    rcases hcases l lock hl with hl | ⟨rfl, -⟩
    · exact lt_succ_of_lt (h.holding.made l lock hl)
    · exact lt_succ_self _
  · rcases hcases l lock hl with hl | ⟨rfl, -⟩
    · exact h.waiting.other t l r hr lock hl
    · obtain ⟨hmem, -⟩ := (h.waiting.waits_iff t _ r).mp hr
      simp [Engine.requests, hfresh] at hmem
  · rw [hthread]
    exact h.waiting.status t l r hr

/-- A running sub-thread asks for a lock that another thread holds, and waits. -/
theorem Invariant.createRequest (h : Invariant [] [] waits s) (hlock : s.lock l = some lock)
    (hwaits : waits th = none) (hsub : sub ∈ (s.thread th).subThreads)
    (hne : lock.owningThread ≠ th) (hactive : s.Active th) (timeExpire : Option ℕ) :
    ∃ waits', Invariant [] [] waits' (s.createRequest l lock sub timeExpire) ∧
      (s.createRequest l lock sub timeExpire).Active th := by
  have hthreadOf := h.population.threadOf th sub hsub
  have hcount : (s.thread th).lockRequestsCount = 0 := by
    rw [h.waiting.threadCount, hwaits]
    rfl
  have hsubCount : (s.subThread sub).lockRequestsCount = 0 := by
    rw [h.waiting.subCount, hthreadOf, hwaits]
    rfl
  let r : LockRequest := ⟨s.tickets, sub, timeExpire⟩
  obtain ⟨s', hs'⟩ : ∃ s', s' = s.createRequest l lock sub timeExpire := ⟨_, rfl⟩
  have hform : s' = { ((s.setLock l (some { lock with requests := lock.requests ++ [r] })).setSubThread
      sub { s.subThread sub with lockRequestsCount := 1 }).setThread th
        { s.thread th with lockRequestsCount := 1, status := .waiting } with
      tickets := s.tickets + 1
      log := .requested l s.tickets sub th :: s.log } := by
    unfold Engine.threadOf at hthreadOf
    simp only [hs', Engine.createRequest, Engine.changeLockRequestCount, Engine.record,
      Engine.setLock, Engine.setSubThread, hthreadOf, hcount, hsubCount]
    rfl
  rw [← hs']
  clear hs'
  have hlog : s'.log = .requested l s.tickets sub th :: s.log := by rw [hform]
  have hlock' : s'.lock =
      update s.lock l (some { lock with requests := lock.requests ++ [r] }) := by
    rw [hform]
    rfl
  have hthread : s'.thread = update s.thread th
      { s.thread th with lockRequestsCount := 1, status := .waiting } := by
    rw [hform]
    rfl
  have hthreadOf' : ∀ sub', s'.threadOf sub' = s.threadOf sub' := by
    intro sub'
    rw [hform]
    simp only [Engine.threadOf, Engine.setThread, Engine.setSubThread, Engine.setLock,
      update_apply]
    split_ifs with heq
    · rw [heq]
    · rfl
  have hsame : ∀ t, (s'.thread t).subThreads = (s.thread t).subThreads ∧
      (s'.thread t).locks = (s.thread t).locks := by
    intro t
    rw [hthread, update_apply]
    split_ifs with ht
    · rw [ht]
      exact ⟨rfl, rfl⟩
    · exact ⟨rfl, rfl⟩
  have hkept : ∀ t, s.Active t → s'.Active t := by
    intro t ht
    refine ⟨?_, ?_⟩
    · rw [hform]
      exact ht.1
    · rw [hthread, update_apply]
      split_ifs
      · exact .inr rfl
      · exact ht.2
  have hrequests : ∀ l', s'.requests l' =
      if l' = l then s.requests l ++ [r] else s.requests l' := by
    intro l'
    simp only [Engine.requests, hlock', update_apply]
    split_ifs with hl
    · simp only [hlock]
    · rfl
  have hcases : ∀ t p, update waits th (some (l, r)) t = some p →
      t = th ∧ p = (l, r) ∨ t ≠ th ∧ waits t = some p := by
    intro t p hp
    by_cases ht : t = th
    · subst ht
      rw [update_self] at hp
      exact .inl ⟨rfl, (some.inj hp).symm⟩
    · rw [update_of_ne ht] at hp
      exact .inr ⟨ht, hp⟩
  have hpopulation : Population s' := h.population.congr (fun t ↦ (hsame t).1) hthreadOf'
    (by rw [hform]; rfl) (by rw [hform]; rfl)
  have hholding : Holding [] [] s' := by
    have hset : Holding [] [] (s.setLock l (some { lock with requests := lock.requests ++ [r] })) :=
      h.holding.setLock hlock rfl rfl (h.holding.live l lock hlock)
        (h.holding.owned l lock hlock) fun _ hl' _ ↦ hl'
    exact hset.congr hlock' (fun t ↦ (hsame t).2) (fun t ↦ (hsame t).1) (fun t ht ↦ hkept t ht)
      (by rw [hform]; rfl) (by rw [hform]; rfl)
  refine ⟨update waits th (some (l, r)), ⟨hpopulation, hholding, ?_⟩, hkept th hactive⟩
  refine ⟨fun t l' r' ↦ ⟨fun hr' ↦ ?_, fun hr' ↦ ?_⟩, fun t l' r' hr' ↦ ?_,
    fun t l' r' hr' lock₁ hl' ↦ ?_, fun t l' r' hr' ↦ ?_, fun t l' r' hr' ↦ ?_, fun t ↦ ?_,
    fun sub' ↦ ?_, fun l' ↦ ?_, fun l' r' hr' ↦ ?_, fun l' ↦ ?_, ?_⟩
  · rw [hrequests, hthreadOf']
    rcases hcases t _ hr' with ⟨rfl, heq⟩ | ⟨-, hr'⟩
    · obtain ⟨rfl, rfl⟩ := Prod.mk.inj heq
      exact ⟨by simp, hthreadOf⟩
    · obtain ⟨hmem, heq⟩ := (h.waiting.waits_iff t l' r').mp hr'
      refine ⟨?_, heq⟩
      split_ifs with hl
      · exact mem_append_left _ (hl ▸ hmem)
      · exact hmem
  · obtain ⟨hmem, heq⟩ := hr'
    rw [hthreadOf'] at heq
    rw [hrequests] at hmem
    have hsplit : r' ∈ s.requests l' ∨ l' = l ∧ r' = r := by
      split_ifs at hmem with hl
      · rcases mem_append.mp hmem with hmem | hmem
        · exact .inl (hl ▸ hmem)
        · exact .inr ⟨hl, mem_singleton.mp hmem⟩
      · exact .inl hmem
    rcases hsplit with hmem | ⟨rfl, rfl⟩
    · have hr' := (h.waiting.waits_iff t l' r').mpr ⟨hmem, heq⟩
      have ht : t ≠ th := by
        rintro rfl
        rw [hwaits] at hr'
        cases hr'
      rw [update_of_ne ht]
      exact hr'
    · have ht : t = th := heq.symm.trans hthreadOf
      rw [ht, update_self]
  · rw [(hsame t).1]
    rcases hcases t _ hr' with ⟨rfl, heq⟩ | ⟨-, hr'⟩
    · obtain ⟨rfl, rfl⟩ := Prod.mk.inj heq
      exact hsub
    · exact h.waiting.live t l' r' hr'
  · rw [hlock', update_apply] at hl'
    have hother : ∃ lock₀, s.lock l' = some lock₀ ∧ lock₀.owningThread = lock₁.owningThread := by
      split_ifs at hl' with hl
      · rw [← some.inj hl']
        exact ⟨lock, hl ▸ hlock, rfl⟩
      · exact ⟨lock₁, hl', rfl⟩
    obtain ⟨lock₀, hl₀, howning⟩ := hother
    rw [← howning]
    rcases hcases t _ hr' with ⟨rfl, heq⟩ | ⟨-, hr'⟩
    · obtain ⟨rfl, rfl⟩ := Prod.mk.inj heq
      rw [hlock] at hl₀
      obtain rfl := some.inj hl₀
      exact hne
    · exact h.waiting.other t l' r' hr' lock₀ hl₀
  · rcases hcases t _ hr' with ⟨rfl, -⟩ | ⟨ht, hr'⟩
    · rw [hthread, update_self]
      exact .inl rfl
    · rw [hthread, update_of_ne ht]
      exact h.waiting.status t l' r' hr'
  · rw [hlog]
    rcases hcases t _ hr' with ⟨rfl, heq⟩ | ⟨ht, hr'⟩
    · obtain ⟨rfl, rfl⟩ := Prod.mk.inj heq
      exact .inl rfl
    · exact .inr ⟨⟨by simp, by simp⟩, h.waiting.since t l' r' hr'⟩
  · by_cases ht : t = th
    · subst ht
      rw [hthread, update_self, update_self]
      rfl
    · rw [hthread, update_of_ne ht, update_of_ne ht]
      exact h.waiting.threadCount t
  · rw [hthreadOf']
    by_cases heq : sub' = sub
    · subst heq
      have hone : (s'.subThread sub').lockRequestsCount = 1 := by
        rw [hform]
        simp [Engine.setThread, Engine.setSubThread]
      rw [hone, hthreadOf, update_self]
      simp [r]
    · have hold : s'.subThread sub' = s.subThread sub' := by
        rw [hform]
        simp [Engine.setThread, Engine.setSubThread, Engine.setLock, heq]
      rw [hold, h.waiting.subCount]
      by_cases ht : s.threadOf sub' = th
      · rw [ht, hwaits, update_self]
        simp [r, Ne.symm heq]
      · rw [update_of_ne ht]
  · rw [hrequests]
    split_ifs with hl
    · refine pairwise_append.mpr ⟨h.waiting.sorted l, pairwise_singleton _ _, ?_⟩
      intro r₁ hr₁ r₂ hr₂
      rw [mem_singleton.mp hr₂]
      exact h.waiting.made l r₁ hr₁
    · exact h.waiting.sorted l'
  · have hmade : s'.tickets = s.tickets + 1 := by rw [hform]
    rw [hmade]
    rw [hrequests] at hr'
    split_ifs at hr' with hl
    · rcases mem_append.mp hr' with hr' | hr'
      · exact lt_succ_of_lt (h.waiting.made l r' hr')
      · rw [mem_singleton.mp hr']
        exact lt_succ_self _
    · exact lt_succ_of_lt (h.waiting.made l' r' hr')
  · rw [hrequests, hlog, pending_requested, ← h.waiting.queued]
    by_cases hl : l' = l
    · subst hl
      simp [r]
    · rw [if_neg hl, if_neg (Ne.symm hl)]
  · rw [hlog]
    exact h.waiting.fair.cons (by simp)

end Enter

end MicroFramework.Monitors
