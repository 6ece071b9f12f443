import MicroFramework.Monitors.Steps

/-!
# Monitors exclude each other

In every run in which no thread that waits for a lock is restarted by an abort or a constraint, no
system thread ends with a lock, and no lock is made without memory for its first owner, monitors
are exclusive and are granted in order to threads that wait for them.  In some run a lock is granted
to a thread that was aborted.
-/

namespace MicroFramework.Monitors

open Library Option Function Monitors.Action

variable {s s' : Engine} {waits : ℕ → Option (ℕ × LockRequest)} {th sub : ℕ}

/-- The thread of the locks that a thread holds is active, so it stays on a list. -/
theorem Invariant.lockObject (h : Invariant [] [] waits s) (hruns : s.Runs th sub)
    {resource : Resource} (timeExpire : Option ℕ) {nodes : ℕ}
    (hnodes : s.findLockObject resource = none → nodes ≠ 1) :
    ∃ waits', Invariant [] [] waits' (s.lockObject resource sub timeExpire nodes) ∧
      (s.lockObject resource sub timeExpire nodes).Active th := by
  obtain ⟨hready, hstatus, hsub⟩ := hruns
  have hactive : s.Active th := ⟨.inl hready, .inl hstatus⟩
  have hthreadOf : (s.subThread sub).owningThread = th := h.population.threadOf th sub hsub
  have hwaits : waits th = none := h.waiting.eq_none_of_status (by simp [hstatus])
  obtain ⟨hfound, hnone⟩ := h.holding.findLockObject resource
  unfold Engine.lockObject
  cases hfind : s.findLockObject resource with
  | none =>
    simp only
    split_ifs with hzero
    · exact ⟨waits, h, hactive⟩
    · -- A new lock gets the sub-thread as its first owner.
      have hcreate := h.createLock hactive (hnone hfind)
      have hnew : (s.createLock th resource).lock s.locks = some ⟨th, resource, [], []⟩ := by
        simp [Engine.createLock, Engine.setLock, Engine.setThread]
      have hsame : ∀ t, ((s.createLock th resource).thread t).subThreads =
          (s.thread t).subThreads ∧
          ((s.createLock th resource).thread t).status = (s.thread t).status := by
        intro t
        simp only [Engine.createLock, Engine.setThread, Engine.setLock, update_apply]
        split_ifs with ht
        · rw [ht]
          exact ⟨rfl, rfl⟩
        · exact ⟨rfl, rfl⟩
      have hincrement : (s.createLock th resource).incrementOwnership s.locks sub timeExpire
          (nodes - 1) = (s.createLock th resource).setLock s.locks
            (some { (⟨th, resource, [], []⟩ : Lock) with
              owners := Engine.enterOwners [] sub }) := by
        have hmemory : ¬ (nodes - 1 = 0 ∧
            ¬ (([] : List Owner).any fun owner ↦ owner.owningSubThread = sub)) := by
          have := hnodes hfind
          omega
        simp only [Engine.incrementOwnership, hnew]
        rw [if_pos (by exact hthreadOf.symm), if_neg hmemory]
      rw [hthreadOf, hincrement]
      refine ⟨waits, hcreate.acquire hnew (by simp) (by
        rw [(hsame _).1]
        exact hsub), ?_⟩
      exact hactive.congr id (hsame th).2
  | some l =>
    obtain ⟨lock, hlock, -⟩ := hfound l hfind
    simp only [Engine.incrementOwnership, hlock, hthreadOf]
    split_ifs with howning hmemory hmemory
    · exact ⟨waits, h, hactive⟩
    · exact ⟨waits, h.acquire hlock (by simp) (howning ▸ hsub), hactive⟩
    · exact ⟨waits, h, hactive⟩
    · exact h.createRequest hlock hwaits hsub howning hactive timeExpire

theorem Invariant.relist (h : Invariant [] [] waits s) (th : ℕ) :
    Invariant [] [] waits (s.link th) := by
  have hself : s.setThread th (s.thread th) = s := by simp [Engine.setThread, update_eq_self]
  have hrelink := h.relink (x := s.thread th) rfl rfl rfl (fun hactive ↦ hactive.2) fun p hp ↦
    h.waiting.status th p.1 p.2 hp
  rwa [hself] at hrelink

namespace Engine

/-- No waiting thread gets an exception, neither by an abort nor by a constraint that leaves its
request pending; a system thread ends without locks and requests; and there is no memory for just
one node when a lock is made. -/
def Expected (s : Engine) : Action → Prop
  | .enter _ _ resource _ nodes => s.findLockObject resource = none → nodes ≠ 1
  | .constrain th sub _ =>
    if (s.subThread sub).triggered = false then (s.thread th).lockRequestsCount = 0
    else ∀ sub' ∈ (s.thread th).subThreads.takeWhile (· ≠ sub),
      (s.subThread sub').lockRequestsCount = 0
  | .abort th => (s.thread th).lockRequestsCount = 0
  | .terminate th _ => (s.thread th).system = true →
      (s.thread th).locks = [] ∧ (s.thread th).lockRequestsCount = 0
  | _ => True

end Engine

theorem takeWhile_ne_append {front rest : List ℕ} (hsub : sub ∉ front) :
    (front ++ sub :: rest).takeWhile (· ≠ sub) = front := by
  induction front with
  | nil => simp
  | cons x front ih =>
    obtain ⟨hne, hsub⟩ : sub ≠ x ∧ sub ∉ front := by simpa using hsub
    rw [List.cons_append, List.takeWhile_cons_of_pos (by simpa using Ne.symm hne), ih hsub]

theorem Invariant.constrain (h : Invariant [] [] waits s) (hsub : sub ∈ (s.thread th).subThreads)
    (synchronized : ℕ → List Resource) (hexpected : s.Expected (.constrain th sub synchronized)) :
    ∃ waits', Invariant [] [] waits' (s.constrain th sub synchronized) := by
  unfold Engine.constrain
  simp only [Engine.Expected] at hexpected
  split_ifs at hexpected ⊢ with htriggered
  · refine ⟨waits, Invariant.restart ?_ (h.waiting.eq_none hexpected)⟩
    refine h.congr rfl (fun _ ↦ ⟨rfl, rfl, rfl⟩) (fun sub' ↦ ?_) (fun _ ↦ id) h.waiting.status rfl
      ⟨rfl, rfl, rfl, rfl⟩ rfl
    simp only [Engine.threadOf, Engine.setSubThread, update_apply]
    split_ifs with heq
    · rw [heq]
      exact ⟨rfl, rfl⟩
    · exact ⟨rfl, rfl⟩
  · obtain ⟨waits', hinvariant, hfewer, -, hrest⟩ :=
      h.destroySubThread th (some sub) false synchronized (by simp)
    refine ⟨waits', hinvariant.restart ?_⟩
    -- A request that is left would be one of a sub-thread before the constrained one.
    by_contra hne
    obtain ⟨p, hp⟩ := ne_none_iff_exists'.mp hne
    obtain ⟨front, rest, hsplit⟩ := List.append_of_mem hsub
    have hmem := hrest sub front rest rfl hsplit p hp
    have hnotin : sub ∉ front := by
      have hnodup := h.population.nodup th
      rw [hsplit] at hnodup
      exact fun hmem ↦ (List.nodup_append.mp hnodup).2.2 sub hmem sub (by simp) rfl
    have hcount := hexpected p.2.subthreadWaiting (by
      rw [hsplit, takeWhile_ne_append hnotin]
      exact hmem)
    rw [(h.waiting.counts (hfewer th p hp)).2] at hcount
    cases hcount

theorem Invariant.step {a : Action} (h : Invariant [] [] waits s) (hexpected : s.Expected a)
    (hstep : s.step a = some s') : ∃ waits', Invariant [] [] waits' s' := by
  cases a with
  | createThread system => exact some.inj hstep ▸ ⟨waits, h.createThread system⟩
  | start th =>
    simp only [Engine.step] at hstep
    split_ifs at hstep with hth
    refine some.inj hstep ▸ ⟨waits, h.relink rfl rfl rfl (fun _ ↦ .inl rfl) fun p hp ↦ ?_⟩
    rw [h.waiting.eq_none_of_status (by simp [hth.2])] at hp
    cases hp
  | createSubThread th sub =>
    simp only [Engine.step] at hstep
    split_ifs at hstep with hruns
    refine some.inj hstep ▸ ⟨waits, h.createSubThread ?_⟩
    by_contra hth
    have hmem := hruns.2.2
    rw [h.population.fresh th (Nat.not_lt.mp hth)] at hmem
    simp at hmem
  | enter th sub resource timeExpire nodes =>
    simp only [Engine.step] at hstep
    split_ifs at hstep with hruns
    obtain ⟨waits', hinvariant, -⟩ := h.lockObject hruns timeExpire hexpected
    refine some.inj hstep ▸ ⟨waits', ?_⟩
    unfold Engine.enter
    simp only
    split_ifs
    · exact hinvariant.relist th
    · exact hinvariant
  | exit th sub resource =>
    simp only [Engine.step] at hstep
    split_ifs at hstep
    obtain ⟨waits', hinvariant, -⟩ := h.unlockObject sub resource
    exact some.inj hstep ▸ ⟨waits', hinvariant⟩
  | leave th sub synchronized =>
    simp only [Engine.step] at hstep
    split_ifs at hstep
    obtain ⟨waits', hinvariant, -⟩ := h.destroySubThread th (some sub) true synchronized (by simp)
    exact some.inj hstep ▸ ⟨waits', hinvariant⟩
  | constrain th sub synchronized =>
    simp only [Engine.step] at hstep
    split_ifs at hstep with hsub
    exact some.inj hstep ▸ h.constrain (List.mem_of_mem_tail hsub.2.2) synchronized hexpected
  | abort th =>
    simp only [Engine.step] at hstep
    split_ifs at hstep
    refine some.inj hstep ▸ ⟨waits, ?_⟩
    have hwaits := h.waiting.eq_none hexpected
    refine Invariant.restart (h.congr rfl (fun t ↦ ?_) (fun _ ↦ ⟨rfl, rfl⟩) (fun t ht ↦ ?_)
      (fun t l r hr ↦ ?_) rfl ⟨rfl, rfl, rfl, rfl⟩ rfl) hwaits
    all_goals simp only [Engine.setThread]
    · rw [update_apply]
      split_ifs with ht
      · rw [ht]
        exact ⟨rfl, rfl, rfl⟩
      · exact ⟨rfl, rfl, rfl⟩
    · refine ht.congr id ?_
      simp only [update_apply]
      split_ifs with heq
      · rw [heq]
      · rfl
    · have hne : t ≠ th := by
        rintro rfl
        rw [hwaits] at hr
        cases hr
      rw [update_of_ne hne]
      exact h.waiting.status t l r hr
  | terminate th synchronized =>
    simp only [Engine.step] at hstep
    split_ifs at hstep
    exact some.inj hstep ▸ h.passivate synchronized hexpected
  | suspend th =>
    simp only [Engine.step] at hstep
    split_ifs at hstep
    refine some.inj hstep ▸ ⟨waits, ?_⟩
    unfold Engine.suspend
    split_ifs
    · exact h.relink rfl rfl rfl (fun hactive ↦ hactive.2) fun p hp ↦ h.waiting.status th p.1 p.2 hp
    · exact h
  | resume th =>
    simp only [Engine.step] at hstep
    split_ifs at hstep
    refine some.inj hstep ▸ ⟨waits, ?_⟩
    unfold Engine.resume
    split_ifs
    · exact h.relink rfl rfl rfl (fun hactive ↦ hactive.2) fun p hp ↦ h.waiting.status th p.1 p.2 hp
    · exact h
  | schedule th executionCounter =>
    simp only [Engine.step] at hstep
    split_ifs at hstep
    exact some.inj hstep ▸ ⟨waits, h.relink rfl rfl rfl (fun hactive ↦ hactive.2)
      fun p hp ↦ h.waiting.status th p.1 p.2 hp⟩
  | checkRequests th =>
    simp only [Engine.step] at hstep
    split_ifs at hstep
    exact some.inj hstep ▸ h.checkRequests th
  | elapse ticks =>
    refine some.inj hstep ▸ ⟨waits, ?_⟩
    exact h.congr rfl (fun _ ↦ ⟨rfl, rfl, rfl⟩) (fun _ ↦ ⟨rfl, rfl⟩) (fun _ ↦ id)
      h.waiting.status rfl ⟨rfl, rfl, rfl, rfl⟩ rfl

theorem invariant_of_reachable (h : Reachable Engine.step Engine.Expected Started s) :
    ∃ waits, Invariant [] [] waits s :=
  Reachable.invariant (I := fun s ↦ ∃ waits, Invariant [] [] waits s)
    (fun _ hs ↦ ⟨_, Invariant.of_started hs⟩)
    (fun _ _ _ ⟨_, hs⟩ hexpected hstep ↦ hs.step hexpected hstep) h

/-- In every run of expected steps monitors are exclusive and lose no waiter. -/
theorem monitors_exclusive (h : Reachable Engine.step Engine.Expected Started s) : s.Correct := by
  obtain ⟨waits, hinvariant⟩ := invariant_of_reachable h
  exact hinvariant.correct

def noThreads : Engine where
  sourceLevelDebugging := true
  thread _ := ⟨.unstarted, false, false, false, 0, [], [], 0⟩
  subThread _ := ⟨0, 0, false⟩
  lock _ := none
  objectLock _ := none
  threadsReady := []
  threadsWaiting := []
  threads := 0
  subThreads := 0
  locks := 0
  tickets := 0
  now := 0
  log := []

theorem noThreads_started : Started noThreads :=
  ⟨fun _ ↦ ⟨rfl, rfl, rfl⟩, fun _ ↦ rfl, fun _ ↦ rfl, fun _ ↦ rfl, rfl, rfl, ⟨rfl, rfl, rfl, rfl⟩,
    rfl⟩

/-- Two threads are started; the first enters a monitor that the second then waits for. -/
def contention : List Action :=
  [.createThread false, .start 0, .createThread false, .start 1,
    .enter 0 0 ⟨7, true⟩ none 9, .enter 1 1 ⟨7, true⟩ none 9]

/-- The first thread leaves the monitor, and the second one gets it. -/
theorem monitors_exclusive_contention :
    ∃ s, (contention ++ [exit 0 0 ⟨7, true⟩]).foldlM Engine.step noThreads = some s ∧
      s.Correct := by
  have h₀ : Reachable Engine.step Engine.Expected Started noThreads := .start noThreads_started
  have h₁ := h₀.step (createThread false) trivial rfl
  have h₂ := h₁.step (start 0) trivial rfl
  have h₃ := h₂.step (createThread false) trivial rfl
  have h₄ := h₃.step (start 1) trivial rfl
  have h₅ := h₄.step (enter 0 0 ⟨7, true⟩ none 9) (fun _ ↦ by decide) rfl
  have h₆ := h₅.step (enter 1 1 ⟨7, true⟩ none 9) (fun _ ↦ by decide) rfl
  have h₇ := h₆.step (exit 0 0 ⟨7, true⟩) trivial rfl
  exact ⟨_, rfl, monitors_exclusive h₇⟩

/-- The second thread is aborted while it waits; its request stays, and is granted when the first
thread leaves the monitor. -/
theorem grant_to_aborted : ¬ ∀ s, Reachable Engine.step (fun _ _ ↦ True) Started s → s.Correct := by
  intro hall
  have hstarted : Reachable Engine.step (fun _ _ ↦ True) Started noThreads :=
    .start noThreads_started
  have hrun : ∃ s, (contention ++ [abort 1, exit 0 0 ⟨7, true⟩]).foldlM Engine.step noThreads =
      some s ∧ s.log = [.restarted 1, .granted 0 0 1 1, .restarted 1, .requested 0 0 1 1] :=
    ⟨_, rfl, rfl⟩
  obtain ⟨s, hrun, hlog⟩ := hrun
  have hfair := (hall s (hstarted.foldlM (fun _ _ ↦ trivial) _ hrun)).fair
  rw [hlog] at hfair
  have hsince := (hfair 0 0 1 1 [.restarted 1, .requested 0 0 1 1] (by simp)).2
  simp [Undisturbed] at hsince

end MicroFramework.Monitors
