import Mathlib.Data.List.Nodup
import Mathlib.Data.List.Pairwise
import MicroFramework.Library.Runs

/-!
# Timed completions

The queue of timed callbacks behind the timer of the device: the list of completions in the order
of their times, the list of continuations of the main loop, and the compare register that raises
the next timer interrupt.  Each operation runs with interrupts off, so that the operations and the
steps of a wait interleave as steps of one machine.  A list is its nodes in order; a node is in one
list at most, and inserting it takes it out of the list that it was in.
-/

namespace MicroFramework.Completions

/-- What `WaitForInterrupts` remembers while the processor sleeps. -/
inductive WaitState
  | keepCompare
  | resetCompare
  | nilCompare
  deriving DecidableEq, Repr

inductive Event
  | enqueued (completion eventTimeTicks : ℕ)
  | aborted (completion : ℕ)
  | executed (completion now : ℕ)
  | called (completion now : ℕ)
  deriving DecidableEq, Repr

/-- The timer and the two lists, with what happened so far, the latest event first. -/
structure Timer where
  now : ℕ
  compare : ℕ
  completions : List ℕ
  continuations : List ℕ
  eventTimeTicks : ℕ → ℕ
  executeInISR : ℕ → Bool
  hasEntryPoint : ℕ → Bool
  waiting : Option WaitState
  log : List Event

def idleValue : ℕ := 0x0000FFFFFFFFFFFF

def insertBeforeNode (list : List ℕ) (node : Option ℕ) (nodeNew : ℕ) : List ℕ :=
  match node with
  | none => list.erase nodeNew ++ [nodeNew]
  | some node =>
    if node = nodeNew then list
    else
      (list.erase nodeNew).takeWhile (fun p ↦ p != node) ++
        nodeNew :: (list.erase nodeNew).dropWhile (fun p ↦ p != node)

namespace Timer

variable (s : Timer)

/-- `Execute`: the callback runs at once, or it is left to the main loop. -/
def execute (this : ℕ) : Timer :=
  let s := { s with log := .executed this s.now :: s.log }
  if s.executeInISR this then
    if s.hasEntryPoint this then { s with log := .called this s.now :: s.log } else s
  else if s.hasEntryPoint this then
    { s with continuations := insertBeforeNode s.continuations none this }
  else s

/-- `DequeueAndExec`: the first completion is executed, whatever its time is. -/
def dequeueAndExec : Timer :=
  match s.completions with
  | [] => s
  | ptr :: rest =>
    { s with
      completions := rest
      compare := (rest.head?.map s.eventTimeTicks).getD idleValue }.execute ptr

/-- `EnqueueTicks`: the completion goes before the first one that is later. -/
def enqueueTicks (this eventTimeTicks : ℕ) : Timer :=
  let times := Function.update s.eventTimeTicks this eventTimeTicks
  let completions := insertBeforeNode s.completions
    (s.completions.find? fun ptr ↦ eventTimeTicks < times ptr) this
  { s with
    eventTimeTicks := times
    completions := completions
    continuations := s.continuations.erase this
    compare := if completions.head? = some this then eventTimeTicks else s.compare
    log := .enqueued this eventTimeTicks :: s.log }

/-- `Abort`: the completion leaves the list it is in, and the compare follows the first node. -/
def abort (this : ℕ) : Timer :=
  let completions := s.completions.erase this
  { s with
    completions := completions
    continuations := s.continuations.erase this
    compare :=
      if s.completions.head? = some this then
        (completions.head?.map s.eventTimeTicks).getD idleValue
      else s.compare
    log := .aborted this :: s.log }

def waitForInterrupts (expire : ℕ) : Timer :=
  match s.completions with
  | [] => { s with compare := expire, waiting := some .nilCompare }
  | ptr :: _ =>
    if s.eventTimeTicks ptr > expire then
      { s with compare := expire, waiting := some .resetCompare }
    else { s with waiting := some .keepCompare }

/-- `WaitForInterrupts` after the sleep.  With an empty list the first node is the tail of the
list, and its time is whatever the memory behind the list holds. -/
def wake (state : WaitState) (tailTicks : ℕ) : Timer :=
  match state with
  | .keepCompare => { s with waiting := none }
  | .resetCompare =>
    { s with
      waiting := none
      compare := (s.completions.head?.map s.eventTimeTicks).getD tailTicks }
  | .nilCompare => { s with waiting := none, compare := idleValue }

/-- The timer interrupt of the driver: nothing is dequeued before the compare is reached. -/
def compareInterrupt : Timer :=
  if s.compare ≤ s.now then s.dequeueAndExec else s

def dequeueContinuation : Timer :=
  match s.continuations with
  | [] => s
  | ptr :: rest => { s with continuations := rest, log := .called ptr s.now :: s.log }

end Timer

/-- What the threads, the interrupt handlers and the clock do. -/
inductive Action
  | enqueueTicks (completion eventTimeTicks : ℕ)
  | abort (completion : ℕ)
  | compareInterrupt
  | waitForInterrupts (expire : ℕ)
  | wake (tailTicks : ℕ)
  | dequeueContinuation
  | elapse (ticks : ℕ)
  deriving DecidableEq, Repr

/-- One step.  A wait begins while the processor is awake, and ends after it slept. -/
def Timer.step (s : Timer) : Action → Option Timer
  | .enqueueTicks this eventTimeTicks => some (s.enqueueTicks this eventTimeTicks)
  | .abort this => some (s.abort this)
  | .compareInterrupt => some s.compareInterrupt
  | .waitForInterrupts expire =>
    if s.waiting = none then some (s.waitForInterrupts expire) else none
  | .wake tailTicks => s.waiting.map fun state ↦ s.wake state tailTicks
  | .dequeueContinuation => some s.dequeueContinuation
  | .elapse ticks => some { s with now := s.now + ticks }

/-- A timer on which `InitializeList` has just made the two lists. -/
def Initialized (s : Timer) : Prop :=
  s.completions = [] ∧ s.continuations = [] ∧ s.waiting = none ∧ s.log = []

/-!
## What holds between two steps of the timer

The completions are sorted by their times, the compare is no later than any of them, and the log
explains the lists: a listed completion was enqueued for its time and nothing happened to it since,
a listed continuation was executed on time and not called since.
-/

open Library

namespace Event

def completion : Event → ℕ
  | enqueued completion _ => completion
  | aborted completion => completion
  | executed completion _ => completion
  | called completion _ => completion

def isEnqueued (c : ℕ) : Event → Bool
  | enqueued completion _ => completion = c
  | _ => false

def isExecuted (c : ℕ) : Event → Bool
  | executed completion _ => completion = c
  | _ => false

def isCalled (c : ℕ) : Event → Bool
  | called completion _ => completion = c
  | _ => false

end Event

variable {c d t now : ℕ} {e : Event} {log : List Event}

def Last (c : ℕ) (q : Event → Prop) (log : List Event) : Prop :=
  Since (fun e ↦ e.completion ≠ c) q log

def Pending (c t : ℕ) (log : List Event) : Prop := Last c (fun e ↦ e = .enqueued c t) log

/-- The completion was enqueued for a time that has come at `now`, and nothing happened to it
since. -/
def Due (c now : ℕ) (log : List Event) : Prop :=
  Last c (fun e ↦ ∃ t ≤ now, e = .enqueued c t) log

/-- The completion was executed, and nothing happened to it since. -/
def Executed (c now : ℕ) (log : List Event) : Prop :=
  Last c (fun e ↦ ∃ t ≤ now, e = .executed c t) log

theorem Last.other {q : Event → Prop} (h : Last c q log) (hne : e.completion ≠ c) :
    Last c q (e :: log) := .inr ⟨hne, h⟩

theorem Last.of_cons {q : Event → Prop} (h : Last c q (e :: log)) (hq : ¬ q e) :
    e.completion ≠ c ∧ Last c q log := h.resolve_left hq

section

variable (h : Pending c t log)

include h

theorem Pending.due (hle : t ≤ now) : Due c now log :=
  Since.imp h (fun _ hne ↦ hne) fun _ he ↦ ⟨t, hle, he⟩

theorem Pending.le_of_due (hdue : Due c now log) : t ≤ now := by
  obtain ⟨e, he, t', hle, he'⟩ := Since.meet h hdue
    (fun _ he hne ↦ hne (he ▸ rfl)) (fun _ ⟨_, _, he⟩ hne ↦ hne (he ▸ rfl))
  rw [he] at he'
  cases he'
  exact hle

theorem Pending.not_executed : ¬ Executed c now log := by
  intro hexecuted
  obtain ⟨e, he, t', _, he'⟩ := Since.meet h hexecuted
    (fun _ he hne ↦ hne (he ▸ rfl)) (fun _ ⟨_, _, he⟩ hne ↦ hne (he ▸ rfl))
  rw [he] at he'
  cases he'

end

/-- Every execution of a completion has its enqueue, whose time had come, and every call has its
execution. -/
structure Explained (log : List Event) : Prop where
  executed : ∀ c now older, .executed c now :: older <:+ log → Due c now older
  called : ∀ c now older, .called c now :: older <:+ log → Executed c now older

theorem explained_nil : Explained [] where
  executed c now older h := by simp at h
  called c now older h := by simp at h

theorem Explained.cons (h : Explained log)
    (hexecuted : ∀ c now, e = .executed c now → Due c now log)
    (hcalled : ∀ c now, e = .called c now → Executed c now log) : Explained (e :: log) where
  executed c now older hsuffix := by
    rcases List.suffix_cons_iff.mp hsuffix with heq | hsuffix
    · obtain ⟨rfl, rfl⟩ := List.cons.inj heq
      exact hexecuted c now rfl
    · exact h.executed c now older hsuffix
  called c now older hsuffix := by
    rcases List.suffix_cons_iff.mp hsuffix with heq | hsuffix
    · obtain ⟨rfl, rfl⟩ := List.cons.inj heq
      exact hcalled c now rfl
    · exact h.called c now older hsuffix

theorem Due.not_executed_since (h : Due c now log) :
    Since (fun e ↦ ¬ e.isExecuted c = true) (fun e ↦ e.isEnqueued c = true) log := by
  refine Since.imp h (fun e hne hexecuted ↦ ?_) fun e ⟨t, _, he⟩ ↦ ?_
  · cases e <;> simp [Event.isExecuted, Event.completion] at hexecuted hne
    exact hne hexecuted
  · simp [he, Event.isEnqueued]

theorem Executed.not_called_since (h : Executed c now log) :
    Since (fun e ↦ ¬ e.isCalled c = true) (fun e ↦ e.isExecuted c = true) log := by
  refine Since.imp h (fun e hne hcalled ↦ ?_) fun e ⟨t, _, he⟩ ↦ ?_
  · cases e <;> simp [Event.isCalled, Event.completion] at hcalled hne
    exact hne hcalled
  · simp [he, Event.isExecuted]

/-- A completion is executed at most once for each time that it is enqueued. -/
theorem Explained.executions_le (h : Explained log) (c : ℕ) :
    log.countP (·.isExecuted c) ≤ log.countP (·.isEnqueued c) := by
  have hle := @countP_le_of_since _ (fun e : Event ↦ e.isExecuted c = true)
    (fun e ↦ e.isEnqueued c = true) log _ _ fun e he ↦ by
      cases e <;> simp_all [Event.isExecuted, Event.isEnqueued]
    (fun e older hsuffix he ↦ by
      obtain ⟨d, now, rfl⟩ : ∃ d now, e = .executed d now := by
        cases e <;> simp [Event.isExecuted] at he ⊢
      obtain rfl : d = c := by simpa [Event.isExecuted] using he
      exact (h.executed d now older hsuffix).not_executed_since)
  simpa using hle.1

/-- A callback is called at most once for each time that its completion is executed. -/
theorem Explained.calls_le (h : Explained log) (c : ℕ) :
    log.countP (·.isCalled c) ≤ log.countP (·.isExecuted c) := by
  have hle := @countP_le_of_since _ (fun e : Event ↦ e.isCalled c = true)
    (fun e ↦ e.isExecuted c = true) log _ _ fun e he ↦ by
      cases e <;> simp_all [Event.isExecuted, Event.isCalled]
    (fun e older hsuffix he ↦ by
      obtain ⟨d, now, rfl⟩ : ∃ d now, e = .called d now := by
        cases e <;> simp [Event.isCalled] at he ⊢
      obtain rfl : d = c := by simpa [Event.isCalled] using he
      exact (h.called d now older hsuffix).not_called_since)
  simpa using hle.1

namespace Timer

variable {s s' : Timer}

/-- What is asked of the timer: the list is sorted, the compare is set for its first node, asleep
or awake, no completion is executed or called too early or twice, and none that still waits is
missing from the list. -/
structure Correct (s : Timer) : Prop where
  sorted : s.completions.Pairwise fun p q ↦ s.eventTimeTicks p ≤ s.eventTimeTicks q
  armed : ∀ first ∈ s.completions.head?, s.compare ≤ s.eventTimeTicks first
  explained : Explained s.log
  executedOnce : ∀ c, s.log.countP (·.isExecuted c) ≤ s.log.countP (·.isEnqueued c)
  calledOnce : ∀ c, s.log.countP (·.isCalled c) ≤ s.log.countP (·.isExecuted c)
  listed : ∀ c t, Pending c t s.log → c ∈ s.completions ∧ s.eventTimeTicks c = t

structure Invariant (s : Timer) : Prop where
  sorted : s.completions.Pairwise fun p q ↦ s.eventTimeTicks p ≤ s.eventTimeTicks q
  early : ∀ c ∈ s.completions, s.compare ≤ s.eventTimeTicks c
  nodup : s.completions.Nodup
  nodupContinuations : s.continuations.Nodup
  pending : ∀ c ∈ s.completions, Pending c (s.eventTimeTicks c) s.log
  executed : ∀ c ∈ s.continuations, Executed c s.now s.log
  explained : Explained s.log
  listed : ∀ c t, Pending c t s.log → c ∈ s.completions ∧ s.eventTimeTicks c = t

theorem Invariant.correct (h : Invariant s) : s.Correct where
  sorted := h.sorted
  armed first hfirst := h.early first (List.mem_of_mem_head? hfirst)
  explained := h.explained
  executedOnce := h.explained.executions_le
  calledOnce := h.explained.calls_le
  listed := h.listed

theorem Invariant.of_initialized (h : Initialized s) : Invariant s := by
  obtain ⟨hcompletions, hcontinuations, -, hlog⟩ := h
  constructor <;> simp [hcompletions, hcontinuations, hlog, explained_nil, Pending, Last]

/-- The first node of a sorted list bounds every other one. -/
theorem Invariant.head_le (h : Invariant s) {first : ℕ} (hfirst : s.completions.head? = some first)
    (hc : c ∈ s.completions) : s.eventTimeTicks first ≤ s.eventTimeTicks c := by
  obtain ⟨rest, hrest⟩ := List.head?_eq_some_iff.mp hfirst
  have hsorted := h.sorted
  rw [hrest] at hsorted hc
  rcases List.mem_cons.mp hc with rfl | hc
  · exact Nat.le_refl _
  · exact List.rel_of_pairwise_cons hsorted hc

end Timer

end MicroFramework.Completions
