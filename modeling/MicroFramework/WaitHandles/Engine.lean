import Mathlib.Data.List.Basic
import Mathlib.Data.Int.Notation

/-!
# Threads and the handles they wait for

The lists of ready and of waiting threads of the execution engine, the events with their signaled
and auto-reset flags, and the waits of the threads.  A thread is on one of the two lists: the
waiting one when it waits or is suspended, the ready one otherwise.  The log records what happened
to the waits and the events, the latest first; a wait has a serial number in it.
-/

namespace MicroFramework.WaitHandles

inductive Status
  | ready
  | waiting
  deriving DecidableEq, Repr

inductive WaitResult
  | init
  | handle (index : ℕ)
  | handleAll
  | timeout
  deriving DecidableEq, Repr

/-- `CLR_RT_HeapBlock_WaitForObject`. -/
structure Wait where
  serial : ℕ
  objects : List ℕ
  waitAll : Bool
  timeExpire : ℕ
  deriving DecidableEq, Repr

structure Thread where
  status : Status
  suspended : Bool
  aborted : Bool
  executionCounter : ℤ
  waitForObject : Option Wait
  result : WaitResult

inductive Event
  | set (object : ℕ)
  | reset (object : ℕ)
  | satisfied (wait : Wait) (result : WaitResult)
  | timedOut (serial : ℕ)
  | aborted (serial : ℕ)
  | resumed (serial : ℕ) (result : WaitResult)
  deriving DecidableEq, Repr

/-- The engine; `sourceLevelDebugging` is an option of the build. -/
structure Engine where
  sourceLevelDebugging : Bool
  thread : ℕ → Thread
  threadsReady : List ℕ
  threadsWaiting : List ℕ
  signaled : ℕ → Bool
  autoReset : ℕ → Bool
  now : ℕ
  waits : ℕ
  log : List Event

def firstSignaled (signaled : ℕ → Bool) : ℕ → List ℕ → Option (ℕ × ℕ)
  | _, [] => none
  | i, object :: objects =>
    if signaled object then some (i, object) else firstSignaled signaled (i + 1) objects

/-- The second phase of a wait for all: the events that reset themselves are reset. -/
def resetAll (autoReset : ℕ → Bool) (objects : List ℕ) (signaled : ℕ → Bool) : ℕ → Bool :=
  objects.foldl
    (fun signaled object ↦
      if autoReset object then Function.update signaled object false else signaled) signaled

def tryWait (autoReset signaled : ℕ → Bool) (objects : List ℕ) (waitAll : Bool) :
    Option (WaitResult × (ℕ → Bool)) :=
  if waitAll then
    if objects.all signaled then some (.handleAll, resetAll autoReset objects signaled) else none
  else
    match firstSignaled signaled 0 objects with
    | some (i, object) =>
      some (.handle i,
        if autoReset object then Function.update signaled object false else signaled)
    | none => none

namespace Engine

variable (s : Engine)

def setThread (th : ℕ) (thread : Thread) : Engine :=
  { s with thread := Function.update s.thread th thread }

/-- `InsertThreadRoundRobin` on the ready list; the thread gives up the wait that it still has. -/
def insertThreadRoundRobin (th : ℕ) : Engine :=
  let ready := s.threadsReady.erase th
  let stays := fun other ↦
    decide ((s.thread th).executionCounter ≤ (s.thread other).executionCounter)
  { s.setThread th { s.thread th with waitForObject := none } with
    threadsReady := ready.takeWhile stays ++ th :: ready.dropWhile stays
    threadsWaiting := s.threadsWaiting.erase th
    log :=
      match (s.thread th).waitForObject with
      | some wait => .resumed wait.serial (s.thread th).result :: s.log
      | none => s.log }

def linkAtBack (th : ℕ) : Engine :=
  { s with
    threadsReady := s.threadsReady.erase th
    threadsWaiting := s.threadsWaiting.erase th ++ [th] }

def putInProperList (th : ℕ) : Engine :=
  if (s.thread th).status = .ready ∧ (s.thread th).suspended = false then
    s.insertThreadRoundRobin th
  else s.linkAtBack th

def restart (th : ℕ) : Engine :=
  (s.setThread th { s.thread th with status := .ready }).putInProperList th

def tryWaitForSignal (th : ℕ) : Engine :=
  match (s.thread th).waitForObject with
  | none => s
  | some wait =>
    match tryWait s.autoReset s.signaled wait.objects wait.waitAll with
    | none => s
    | some (result, signaled) =>
      { s.setThread th { s.thread th with result := result } with
        signaled := signaled
        log := .satisfied wait result :: s.log }.restart th

/-- The node behind a node of the waiting list, or none for its tail. -/
def nextWaiting (th : ℕ) : Option ℕ :=
  (s.threadsWaiting.dropWhile fun other ↦ other != th).tail.head?

/-- The loop of `SignalObject`, for at most some turns.  It goes on to the node that was behind
the thread before the turn. -/
def signalLoop (object : ℕ) : ℕ → Option ℕ → Engine → Option Engine
  | 0, _, _ => none
  | _ + 1, none, s => some s
  | turns + 1, some th, s =>
    if (s.tryWaitForSignal th).signaled object then
      signalLoop object turns (s.nextWaiting th) (s.tryWaitForSignal th)
    else some (s.tryWaitForSignal th)

def signalObject (object turns : ℕ) : Option Engine :=
  signalLoop object turns s.threadsWaiting.head?
    { s with
      signaled := Function.update s.signaled object true
      log := .set object :: s.log }

def reset (object : ℕ) : Engine :=
  { s with
    signaled := Function.update s.signaled object false
    log := .reset object :: s.log }

/-- `WaitForSignal` for a running thread, up to the point where it goes on or is put on the waiting
list.  Too many objects are an error. -/
def waitForSignal (th : ℕ) (objects : List ℕ) (waitAll : Bool) (timeExpire : ℕ) : Engine :=
  if objects.length > 64 then s
  else
    let wait : Wait := ⟨s.waits, objects, waitAll, timeExpire⟩
    match tryWait s.autoReset s.signaled objects waitAll with
    | some (result, signaled) =>
      { s.setThread th { s.thread th with result := result } with
        signaled := signaled
        waits := s.waits + 1
        log := .resumed s.waits result :: .satisfied wait result :: s.log }
    | none =>
      { s.setThread th { s.thread th with
          status := .waiting
          waitForObject := some wait
          result := .init } with
        waits := s.waits + 1 }.putInProperList th

def suspend (th : ℕ) : Engine :=
  if (s.thread th).suspended = false then
    (s.setThread th { s.thread th with suspended := true }).putInProperList th
  else s

def resume (th : ℕ) : Engine :=
  if (s.thread th).suspended = true then
    (s.setThread th { s.thread th with suspended := false }).putInProperList th
  else s

def abort (th : ℕ) : Engine :=
  { s.setThread th { s.thread th with aborted := true } with
    log :=
      match (s.thread th).waitForObject with
      | some wait => .aborted wait.serial :: s.log
      | none => s.log }.restart th

def passesOver (th : ℕ) : Bool := s.sourceLevelDebugging && (s.thread th).suspended

def checkThread (th : ℕ) : Engine :=
  if s.passesOver th then s
  else
    match (s.thread th).waitForObject with
    | some wait =>
      if wait.timeExpire ≤ s.now then
        { s.setThread th { s.thread th with result := .timeout } with
          log := .timedOut wait.serial :: s.log }.restart th
      else s
    | none => s

end Engine

inductive Action
  | waitForSignal (th : ℕ) (objects : List ℕ) (waitAll : Bool) (timeExpire : ℕ)
  | set (object turns : ℕ)
  | reset (object : ℕ)
  | suspend (th : ℕ)
  | resume (th : ℕ)
  | abort (th : ℕ)
  | checkThread (th : ℕ)
  | debit (th : ℕ) (quantum : ℤ)
  | elapse (ticks : ℕ)
  deriving DecidableEq, Repr

/-- One step of the engine.  A thread that waits is one of the ready threads; the loop of a Set
either ends within its turns or gives no next state. -/
def Engine.step (s : Engine) : Action → Option Engine
  | .waitForSignal th objects waitAll timeExpire =>
    if th ∈ s.threadsReady then some (s.waitForSignal th objects waitAll timeExpire) else none
  | .set object turns => s.signalObject object turns
  | .reset object => some (s.reset object)
  | .suspend th =>
    if th ∈ s.threadsReady ∨ th ∈ s.threadsWaiting then some (s.suspend th) else none
  | .resume th =>
    if th ∈ s.threadsReady ∨ th ∈ s.threadsWaiting then some (s.resume th) else none
  | .abort th =>
    if th ∈ s.threadsReady ∨ th ∈ s.threadsWaiting then some (s.abort th) else none
  | .checkThread th =>
    if th ∈ s.threadsReady ∨ th ∈ s.threadsWaiting then some (s.checkThread th) else none
  | .debit th quantum =>
    some (s.setThread th { s.thread th with
      executionCounter := (s.thread th).executionCounter - quantum })
  | .elapse ticks => some { s with now := s.now + ticks }

/-- Some threads are ready, none waits, and nothing is signaled. -/
structure Started (s : Engine) : Prop where
  ready : ∀ th ∈ s.threadsReady, (s.thread th).status = .ready ∧ (s.thread th).suspended = false
  nodup : s.threadsReady.Nodup
  waiting : s.threadsWaiting = []
  wait : ∀ th, (s.thread th).waitForObject = none
  signaled : ∀ object, s.signaled object = false
  waits : s.waits = 0
  log : s.log = []

end MicroFramework.WaitHandles
