import Mathlib.Data.UInt

/-!
# Threads, sub-threads and the locks they hold

The execution engine as far as monitors need it: the threads with their sub-threads and locks, the
lists of ready and of waiting threads, and the locks with their owners and the requests that wait
for them.  The log records what happened to the requests, to the threads and to the sub-threads,
the latest first; a request has a ticket in it.
-/

namespace MicroFramework.Monitors

inductive Status
  | unstarted
  | ready
  | waiting
  | terminated
  deriving DecidableEq, Repr

/-- What a monitor is entered on.  Value types and classes have a field for their lock; for other
objects, such as strings, arrays and types, the engine searches for it. -/
structure Resource where
  address : ℕ
  hasObjectLock : Bool
  deriving DecidableEq, Repr

/-- `CLR_RT_HeapBlock_Lock::Owner`. -/
structure Owner where
  owningSubThread : ℕ
  recursion : ℕ
  deriving DecidableEq, Repr

/-- `CLR_RT_HeapBlock_LockRequest`; no time is `TIMEOUT_INFINITE`. -/
structure LockRequest where
  ticket : ℕ
  subthreadWaiting : ℕ
  timeExpire : Option ℕ
  deriving DecidableEq, Repr

/-- `CLR_RT_HeapBlock_Lock`. -/
structure Lock where
  owningThread : ℕ
  resource : Resource
  owners : List Owner
  requests : List LockRequest
  deriving DecidableEq, Repr

structure SubThread where
  owningThread : ℕ
  lockRequestsCount : ℤ
  triggered : Bool
  deriving DecidableEq, Repr

/-- `CLR_RT_Thread`. -/
structure Thread where
  status : Status
  suspended : Bool
  aborted : Bool
  system : Bool
  executionCounter : ℤ
  subThreads : List ℕ
  locks : List ℕ
  lockRequestsCount : ℤ
  deriving DecidableEq, Repr

/-- What happened to requests, threads and sub-threads. -/
inductive Event
  | requested (lock ticket sub th : ℕ)
  | granted (lock ticket sub th : ℕ)
  | withdrawn (lock ticket : ℕ)
  | restarted (th : ℕ)
  | destroyed (sub : ℕ)
  deriving DecidableEq, Repr

/-- The engine.  Threads, sub-threads, locks and tickets are numbered in the order in which they
are made; `sourceLevelDebugging` is an option of the build. -/
structure Engine where
  sourceLevelDebugging : Bool
  thread : ℕ → Thread
  subThread : ℕ → SubThread
  lock : ℕ → Option Lock
  objectLock : Resource → Option ℕ
  threadsReady : List ℕ
  threadsWaiting : List ℕ
  threads : ℕ
  subThreads : ℕ
  locks : ℕ
  tickets : ℕ
  now : ℕ
  log : List Event

namespace Engine

variable (s : Engine)

def setThread (th : ℕ) (thread : Thread) : Engine :=
  { s with thread := Function.update s.thread th thread }

def setSubThread (sub : ℕ) (subThread : SubThread) : Engine :=
  { s with subThread := Function.update s.subThread sub subThread }

def setLock (l : ℕ) (lock : Option Lock) : Engine :=
  { s with lock := Function.update s.lock l lock }

def record (event : Event) : Engine := { s with log := event :: s.log }

def requests (l : ℕ) : List LockRequest :=
  match s.lock l with
  | some lock => lock.requests
  | none => []

/-- How many requests of a sub-thread are pending, over all locks. -/
def pendingRequests (sub : ℕ) : ℕ :=
  ((List.range s.locks).map fun l ↦ (s.requests l).countP fun r ↦ r.subthreadWaiting = sub).sum

section Lists

/-- `Unlink`: the thread leaves the list it is on. -/
def unlink (th : ℕ) : Engine :=
  { s with
    threadsReady := s.threadsReady.erase th
    threadsWaiting := s.threadsWaiting.erase th }

def insertThreadRoundRobin (th : ℕ) : Engine :=
  let stays := fun other ↦
    decide ((s.thread th).executionCounter ≤ (s.thread other).executionCounter)
  { s.unlink th with
    threadsReady := (s.unlink th).threadsReady.takeWhile stays ++
      th :: (s.unlink th).threadsReady.dropWhile stays }

/-- `PutInProperList` for a thread that is not terminated; the list of zombies is left out. -/
def link (th : ℕ) : Engine :=
  match (s.thread th).status with
  | .ready =>
    if (s.thread th).suspended = false then s.insertThreadRoundRobin th
    else { s.unlink th with threadsWaiting := (s.unlink th).threadsWaiting ++ [th] }
  | .waiting => { s.unlink th with threadsWaiting := (s.unlink th).threadsWaiting ++ [th] }
  | .unstarted => s.unlink th
  | .terminated => s.unlink th

def restart (th : ℕ) : Engine :=
  ((s.setThread th { s.thread th with status := .ready }).link th).record (.restarted th)

/-- `ChangeLockRequestCount`, with whether the thread was restarted. -/
def changeLockRequestCount (sub : ℕ) (diff : ℤ) : Engine × Bool :=
  let th := (s.subThread sub).owningThread
  let count := (s.thread th).lockRequestsCount + diff
  let s := s.setSubThread sub
    { s.subThread sub with lockRequestsCount := (s.subThread sub).lockRequestsCount + diff }
  if count = 0 then
    ((s.setThread th { s.thread th with lockRequestsCount := count }).restart th, true)
  else
    (s.setThread th { s.thread th with lockRequestsCount := count, status := .waiting }, false)

end Lists

section Locks

def findLockAmong (threads : List ℕ) (resource : Resource) : Option ℕ :=
  (threads.flatMap fun th ↦ (s.thread th).locks).find? fun l ↦
    (s.lock l).any fun lock ↦ lock.resource = resource

def findLockObject (resource : Resource) : Option ℕ :=
  if resource.hasObjectLock then s.objectLock resource
  else
    match s.findLockAmong s.threadsReady resource with
    | some l => some l
    | none => s.findLockAmong s.threadsWaiting resource

/-- `CreateInstance` of a lock: a lock of the thread that has no owner yet. -/
def createLock (th : ℕ) (resource : Resource) : Engine :=
  { (s.setLock s.locks (some ⟨th, resource, [], []⟩)).setThread th
      { s.thread th with locks := (s.thread th).locks ++ [s.locks] } with
    objectLock := if resource.hasObjectLock then
      Function.update s.objectLock resource (some s.locks) else s.objectLock
    locks := s.locks + 1 }

/-- `CreateInstance` of a request, at the back of the queue of the lock. -/
def createRequest (l : ℕ) (lock : Lock) (sub : ℕ) (timeExpire : Option ℕ) : Engine :=
  let request : LockRequest := ⟨s.tickets, sub, timeExpire⟩
  let s := s.record (.requested l s.tickets sub (s.subThread sub).owningThread)
  ({ s.setLock l (some { lock with requests := lock.requests ++ [request] }) with
    tickets := s.tickets + 1 }.changeLockRequestCount sub 1).1

/-- The owners after one more entry of a sub-thread, which is among them at most once. -/
def enterOwners (owners : List Owner) (sub : ℕ) : List Owner :=
  if owners.any fun owner ↦ owner.owningSubThread = sub then
    owners.map fun owner ↦
      if owner.owningSubThread = sub then { owner with recursion := owner.recursion + 1 } else owner
  else ⟨sub, 1⟩ :: owners

def incrementOwnership (l sub : ℕ) (timeExpire : Option ℕ) (nodes : ℕ) : Engine :=
  match s.lock l with
  | none => s
  | some lock =>
    if lock.owningThread = (s.subThread sub).owningThread then
      if nodes = 0 ∧ ¬ lock.owners.any fun owner ↦ owner.owningSubThread = sub then s
      else s.setLock l (some { lock with owners := enterOwners lock.owners sub })
    else if nodes = 0 then s
    else s.createRequest l lock sub timeExpire

def lockObject (resource : Resource) (sub : ℕ) (timeExpire : Option ℕ) (nodes : ℕ) : Engine :=
  match s.findLockObject resource with
  | some l => s.incrementOwnership l sub timeExpire nodes
  | none =>
    if nodes = 0 then s
    else
      (s.createLock (s.subThread sub).owningThread resource).incrementOwnership
        s.locks sub timeExpire (nodes - 1)

/-- A lock moves to the back of the locks of another thread, whose sub-thread becomes its owner. -/
def handOver (l : ℕ) (lock : Lock) (sub : ℕ) : Engine :=
  let th := (s.subThread sub).owningThread
  let s := s.setThread lock.owningThread
    { s.thread lock.owningThread with locks := (s.thread lock.owningThread).locks.erase l }
  let s := s.setThread th { s.thread th with locks := (s.thread th).locks ++ [l] }
  s.setLock l (some { lock with owningThread := th, owners := enterOwners [] sub })

/-- A lock that nobody owns or waits for. -/
def freeLock (l : ℕ) (lock : Lock) : Engine :=
  { (s.setThread lock.owningThread
      { s.thread lock.owningThread with locks := (s.thread lock.owningThread).locks.erase l }).setLock
      l none with
    objectLock := if lock.resource.hasObjectLock then
      Function.update s.objectLock lock.resource none else s.objectLock }

def changeOwner (l : ℕ) (lock : Lock) : Engine :=
  match lock.requests with
  | request :: requests =>
    let sub := request.subthreadWaiting
    let lock := { lock with owners := [], requests := requests }
    let s := s.record (.granted l request.ticket sub (s.subThread sub).owningThread)
    let s := ((s.setLock l (some lock)).changeLockRequestCount sub (-1)).1
    s.handOver l lock sub
  | [] => s.freeLock l lock

def setOwners (l : ℕ) (lock : Lock) (owners : List Owner) : Engine :=
  let lock := { lock with owners := owners }
  let s := s.setLock l (some lock)
  if owners = [] then s.changeOwner l lock else s

def exitOwners (owners : List Owner) (sub : ℕ) : List Owner :=
  (owners.map fun owner ↦
    if owner.owningSubThread = sub then { owner with recursion := owner.recursion - 1 } else owner)
  |>.filter fun owner ↦ owner.owningSubThread ≠ sub ∨ owner.recursion ≠ 0

/-- `DecrementOwnership`; where it is an error nothing changes. -/
def decrementOwnership (l sub : ℕ) : Engine :=
  match s.lock l with
  | none => s
  | some lock =>
    if lock.owningThread = (s.subThread sub).owningThread ∧
        lock.owners.any fun owner ↦ owner.owningSubThread = sub then
      s.setOwners l lock (exitOwners lock.owners sub)
    else s

def unlockObject (sub : ℕ) (resource : Resource) : Engine :=
  match s.findLockObject resource with
  | some l => s.decrementOwnership l sub
  | none => s

def destroyOwner (l sub : ℕ) : Engine :=
  match s.lock l with
  | none => s
  | some lock => s.setOwners l lock (lock.owners.filter fun owner ↦ owner.owningSubThread ≠ sub)

end Locks

section Requests

def unlinkRequest (l : ℕ) (request : LockRequest) : Engine :=
  match s.lock l with
  | none => s
  | some lock => s.setLock l (some { lock with requests := lock.requests.erase request })

/-- The requests for the locks of some threads, in the order in which loops over threads, locks and
requests come to them. -/
def requestsOn (threads : List ℕ) : List (ℕ × LockRequest) :=
  (threads.flatMap fun th ↦ (s.thread th).locks).flatMap fun l ↦
    (s.requests l).map fun request ↦ (l, request)

/-- The loop of `DeleteLockRequests`; it stops when the thread is restarted. -/
def deleteLoop (sub : ℕ) : List (ℕ × LockRequest) → Engine → Engine
  | [], s => s
  | (l, request) :: rest, s =>
    if request.subthreadWaiting = sub then
      let s := (s.unlinkRequest l request).record (.withdrawn l request.ticket)
      if (s.changeLockRequestCount sub (-1)).2 then (s.changeLockRequestCount sub (-1)).1
      else deleteLoop sub rest (s.changeLockRequestCount sub (-1)).1
    else deleteLoop sub rest s

def deleteLockRequests (sub : ℕ) : Engine :=
  if (s.subThread sub).lockRequestsCount ≠ 0 then
    let s := deleteLoop sub (s.requestsOn s.threadsReady) s
    deleteLoop sub (s.requestsOn s.threadsWaiting) s
  else s

/-- What `CheckThreads` does about a request that may have expired. -/
def checkRequest (l : ℕ) (request : LockRequest) : Engine :=
  if request.timeExpire.any (· ≤ s.now) then
    let s := s.record (.withdrawn l request.ticket)
    (s.changeLockRequestCount request.subthreadWaiting (-1)).1.unlinkRequest l request
  else s

def passesOver (th : ℕ) : Bool := s.sourceLevelDebugging && (s.thread th).suspended

/-- What `CheckThreads` does about the requests for the locks of one thread. -/
def checkRequests (th : ℕ) : Engine :=
  if s.passesOver th then s
  else (s.requestsOn [th]).foldl (fun s p ↦ s.checkRequest p.1 p.2) s

end Requests

section SubThreads

def nextNode (nodes : List ℕ) (node : ℕ) : Option ℕ :=
  (nodes.dropWhile fun other ↦ other != node).tail.head?

/-- The loop of `DestroyInstance` over the locks of the thread, for at most some turns.  It goes on
to the lock that was next before the turn. -/
def destroyOwners (th sub : ℕ) : ℕ → Option ℕ → Engine → Engine
  | 0, _, s => s
  | _ + 1, none, s => s
  | turns + 1, some l, s =>
    destroyOwners th sub turns (nextNode (s.thread th).locks l) (s.destroyOwner l sub)

/-- More turns than the loop over the locks of a thread can take: a lock comes again only when one
of its requests was granted. -/
def destroyTurns (th : ℕ) : ℕ :=
  (s.thread th).locks.length + ((s.thread th).locks.map fun l ↦ (s.requests l).length).sum

/-- What `DestroyInstance` takes from a sub-thread.  Its frames are popped, which unlocks the
objects of its synchronized methods; then it loses its locks and its requests. -/
def release (th sub : ℕ) (synchronized : List Resource) : Engine :=
  let s := synchronized.foldl (fun s resource ↦ s.unlockObject sub resource) s
  let s := destroyOwners th sub (s.destroyTurns th) (s.thread th).locks.head? s
  s.deleteLockRequests sub

def freeSubThread (th sub : ℕ) : Engine :=
  (s.setThread th { s.thread th with subThreads := (s.thread th).subThreads.erase sub }).record
    (.destroyed sub)

/-- The loop of `DestroyInstance` over the sub-threads of a thread, the last one first, down to a
base. -/
def destroyLoop (th : ℕ) (base : Option ℕ) (includeSelf : Bool)
    (synchronized : ℕ → List Resource) : List ℕ → Engine → Engine
  | [], s => s
  | sub :: rest, s =>
    let s := s.release th sub (synchronized sub)
    if base = some sub then if includeSelf then s.freeSubThread th sub else s
    else destroyLoop th base includeSelf synchronized rest (s.freeSubThread th sub)

def destroySubThread (th : ℕ) (base : Option ℕ) (includeSelf : Bool)
    (synchronized : ℕ → List Resource) : Engine :=
  destroyLoop th base includeSelf synchronized (s.thread th).subThreads.reverse s

def createSubThread (th : ℕ) : Engine :=
  { (s.setThread th { s.thread th with
      subThreads := (s.thread th).subThreads ++ [s.subThreads] }).setSubThread
      s.subThreads ⟨th, 0, false⟩ with
    subThreads := s.subThreads + 1 }

end SubThreads

section Threads

def createThread (system : Bool) : Engine :=
  { s.setThread s.threads ⟨.unstarted, false, false, system, 0, [], [], 0⟩ with
    threads := s.threads + 1 }.createSubThread s.threads

/-- `PushThreadProcDelegate`. -/
def start (th : ℕ) : Engine :=
  (s.setThread th { s.thread th with status := .ready }).link th

/-- `Passivate` of a thread that is terminated. -/
def passivate (th : ℕ) (synchronized : ℕ → List Resource) : Engine :=
  let s := s.unlink th
  let thread := { s.thread th with suspended := false, aborted := false }
  if thread.system then s.setThread th { thread with status := .unstarted }
  else
    (s.setThread th { thread with status := .terminated }).destroySubThread th none false
      synchronized

def suspend (th : ℕ) : Engine :=
  if (s.thread th).suspended = false then
    (s.setThread th { s.thread th with suspended := true }).link th
  else s

def resume (th : ℕ) : Engine :=
  if (s.thread th).suspended = true then
    (s.setThread th { s.thread th with suspended := false }).link th
  else s

def abort (th : ℕ) : Engine :=
  (s.setThread th { s.thread th with aborted := true }).restart th

/-- The time constraint of a sub-thread expires.  The first time the thread gets an exception, the
next time the sub-thread loses its children, its locks and its requests; either way the thread is
restarted. -/
def constrain (th sub : ℕ) (synchronized : ℕ → List Resource) : Engine :=
  if (s.subThread sub).triggered = false then
    (s.setSubThread sub { s.subThread sub with triggered := true }).restart th
  else (s.destroySubThread th (some sub) false synchronized).restart th

/-- A thread enters a monitor; it is put on the waiting list when it has to wait. -/
def enter (th sub : ℕ) (resource : Resource) (timeExpire : Option ℕ) (nodes : ℕ) : Engine :=
  let s := s.lockObject resource sub timeExpire nodes
  if (s.thread th).status = .waiting then s.link th else s

/-- The scheduler puts a thread that has run back on its list. -/
def schedule (th : ℕ) (executionCounter : ℤ) : Engine :=
  (s.setThread th { s.thread th with executionCounter := executionCounter }).link th

def Listed (th : ℕ) : Prop := th ∈ s.threadsReady ∨ th ∈ s.threadsWaiting

instance (th : ℕ) : Decidable (s.Listed th) := inferInstanceAs (Decidable (_ ∨ _))

def Runs (th sub : ℕ) : Prop :=
  th ∈ s.threadsReady ∧ (s.thread th).status = .ready ∧ sub ∈ (s.thread th).subThreads

instance (th sub : ℕ) : Decidable (s.Runs th sub) := inferInstanceAs (Decidable (_ ∧ _))

/-- A sub-thread of a thread other than its first, so that a frame owns it. -/
def Nested (th sub : ℕ) : Prop := sub ∈ (s.thread th).subThreads.tail

instance (th sub : ℕ) : Decidable (s.Nested th sub) := inferInstanceAs (Decidable (_ ∈ _))

end Threads

end Engine

/-- What can happen.  The objects of the synchronized methods of a sub-thread, the time at which a
constraint expires and the counters of the scheduler are up to the run. -/
inductive Action
  | createThread (system : Bool)
  | start (th : ℕ)
  | createSubThread (th sub : ℕ)
  | enter (th sub : ℕ) (resource : Resource) (timeExpire : Option ℕ) (nodes : ℕ)
  | exit (th sub : ℕ) (resource : Resource)
  | leave (th sub : ℕ) (synchronized : ℕ → List Resource)
  | constrain (th sub : ℕ) (synchronized : ℕ → List Resource)
  | abort (th : ℕ)
  | terminate (th : ℕ) (synchronized : ℕ → List Resource)
  | suspend (th : ℕ)
  | resume (th : ℕ)
  | schedule (th : ℕ) (executionCounter : ℤ)
  | checkRequests (th : ℕ)
  | elapse (ticks : ℕ)

/-- One step of the engine.  A sub-thread is left when the frame that owns it is popped; a thread is
terminated when its last frame is popped, when nothing handles an exception of it or by the
debugger. -/
def Engine.step (s : Engine) : Action → Option Engine
  | .createThread system => some (s.createThread system)
  | .start th =>
    if th < s.threads ∧ (s.thread th).status = .unstarted then some (s.start th) else none
  | .createSubThread th sub => if s.Runs th sub then some (s.createSubThread th) else none
  | .enter th sub resource timeExpire nodes =>
    if s.Runs th sub then some (s.enter th sub resource timeExpire nodes) else none
  | .exit th sub resource => if s.Runs th sub then some (s.unlockObject sub resource) else none
  | .leave th sub synchronized =>
    if th ∈ s.threadsReady ∧ (s.thread th).status = .ready ∧ s.Nested th sub then
      some (s.destroySubThread th (some sub) true synchronized)
    else none
  | .constrain th sub synchronized =>
    if s.Listed th ∧ s.passesOver th = false ∧ s.Nested th sub then
      some (s.constrain th sub synchronized)
    else none
  | .abort th => if s.Listed th then some (s.abort th) else none
  | .terminate th synchronized =>
    if s.Listed th then some (s.passivate th synchronized) else none
  | .suspend th => if s.Listed th then some (s.suspend th) else none
  | .resume th => if s.Listed th then some (s.resume th) else none
  | .schedule th executionCounter =>
    if s.Listed th then some (s.schedule th executionCounter) else none
  | .checkRequests th => if s.Listed th then some (s.checkRequests th) else none
  | .elapse ticks => some { s with now := s.now + ticks }

/-- There is no thread and no lock yet. -/
structure Started (s : Engine) : Prop where
  thread : ∀ th, (s.thread th).subThreads = [] ∧ (s.thread th).locks = [] ∧
    (s.thread th).lockRequestsCount = 0
  subThread : ∀ sub, (s.subThread sub).lockRequestsCount = 0
  lock : ∀ l, s.lock l = none
  objectLock : ∀ resource, s.objectLock resource = none
  ready : s.threadsReady = []
  waiting : s.threadsWaiting = []
  made : s.threads = 0 ∧ s.subThreads = 0 ∧ s.locks = 0 ∧ s.tickets = 0
  log : s.log = []

end MicroFramework.Monitors
