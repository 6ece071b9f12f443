import MicroFramework.Library.Runs
import MicroFramework.Timers.Timer

/-!
# The timer of fragmented messages

`FragmentationMessageTimer`: a list of items, each with the time at which its message is to be
handled, and one timer of the engine for all of them.  `HandleTimeout` is split where it leaves the
lock: its locked part runs, and once more after every message it has handled.  The handlers of the
messages may add and remove items, as other threads may.
-/

namespace MicroFramework.Mesh

open Timers (Timer Clock int64 ticksPerMillisecond timeoutInfinite)

structure TimerItem where
  timeoutTicks : ℤ
  id : UInt32
  message : ℕ
deriving DecidableEq

structure FragmentTimer where
  timerItems : List TimerItem
  maxItems : ℤ
  timer : Timer

/-- What the methods throw. -/
inductive TimerException where
  | argument
  | change (failure : Timers.Failure)
deriving DecidableEq

/-- The milliseconds up to the time of the item, as a value of type `int`. -/
def TimerItem.dueTime (item : TimerItem) (c : Clock) : ℤ :=
  ((int64 (item.timeoutTicks - c.localTime)).tdiv ticksPerMillisecond).bmod (2 ^ 32)

namespace FragmentTimer

variable (t : FragmentTimer) (c : Clock)

def change (dueTime period : ℤ) : FragmentTimer × Option TimerException :=
  let (timer, failure) := t.timer.change ⟨.int32, some dueTime, some period⟩ c
  ({ t with timer := timer }, failure.map .change)

def create (maxItems : ℤ) : FragmentTimer :=
  (change ⟨[], maxItems, Timer.createInstance⟩ c (-1) (-1)).1

def insertIndex (item : TimerItem) : ℕ :=
  (t.timerItems.findIdx? fun currentItem ↦ currentItem.timeoutTicks > item.timeoutTicks).getD 0

def addItemToList (item : TimerItem) : FragmentTimer × Option TimerException :=
  if t.maxItems ≤ t.timerItems.length then (t, some .argument)
  else
    let index := t.insertIndex item
    let t' := { t with timerItems := t.timerItems.insertIdx index item }
    if index = 0 then
      let dueTime := item.dueTime c
      t'.change c (if dueTime < 0 then 0 else dueTime) (-1)
    else (t', none)

def removeItemFromList (index : ℕ) : FragmentTimer × Option TimerException :=
  let t' := { t with timerItems := t.timerItems.eraseIdx index }
  match t'.timerItems with
  | [] => t'.change c (-1) (-1)
  | item :: _ => if index = 0 then t'.change c (item.dueTime c) 0 else (t', none)

/-- The locked part of `HandleTimeout`, with the item whose message is handled next. -/
def handleTimeout : FragmentTimer × Option TimerItem :=
  match t.timerItems with
  | [] => (t, none)
  | item :: items =>
    if item.timeoutTicks ≤ c.localTime then
      let t' := { t with timerItems := items }
      (if items = [] then (t'.change c (-1) (-1)).1 else t', some item)
    else (t, none)

end FragmentTimer

/-! ## Runs -/

/-- What happens: calls, and what the engine does with the timer and with the thread on which
`HandleTimeout` runs. -/
inductive TimerEvent where
  | add (item : TimerItem)
  | remove (index : ℕ)
  | check
  | spawn
  | handle
  | ended

/-- The timer in a run: whether the locked part of `HandleTimeout` is still to run, the time of the
last event, and what was added, removed and handled, with the time at which it was. -/
structure TimerRun extends FragmentTimer where
  calling : Bool
  now : ℤ
  added : List TimerItem
  removed : List TimerItem
  handled : List (TimerItem × ℤ)

namespace TimerRun

/-- The local time is ahead of the time of the engine by `offset`. -/
def clockAt (offset now : ℤ) : Clock := ⟨now, now + offset⟩

/-- An event at a time that is not before the last one. -/
def step (offset : ℤ) (r : TimerRun) (action : TimerEvent × ℤ) : Option TimerRun :=
  if action.2 < r.now then none
  else
    let c := clockAt offset action.2
    let r := { r with now := action.2 }
    match action.1 with
    | .add item =>
      let (t, exception) := r.addItemToList c item
      some { r with
        toFragmentTimer := t
        added := if exception = some .argument then r.added else item :: r.added }
    | .remove index =>
      match r.timerItems[index]? with
      | none => none
      | some item => some { r with
          toFragmentTimer := (r.removeItemFromList c index).1
          removed := item :: r.removed }
    | .check => some { r with timer := r.timer.checkTimer c }
    | .spawn =>
      let (timer, started) := r.timer.spawnTimer c
      some { r with timer := timer, calling := r.calling || started }
    | .handle =>
      if r.calling then
        match r.handleTimeout c with
        | (t, some item) => some { r with
            toFragmentTimer := t
            handled := (item, c.localTime) :: r.handled }
        | (t, none) => some { r with toFragmentTimer := t, calling := false }
      else none
    | .ended =>
      if r.calling then none
      else some { r with timer := r.timer.threadTerminationCallback c }

def start (offset maxItems now : ℤ) : TimerRun :=
  { FragmentTimer.create (clockAt offset now) maxItems with
    calling := false
    now := now
    added := []
    removed := []
    handled := [] }

def IsStart (offset : ℤ) (r : TimerRun) : Prop := ∃ maxItems now, r = start offset maxItems now

end TimerRun

end MicroFramework.Mesh
