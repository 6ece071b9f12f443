import Mathlib.Tactic.Ring
import MicroFramework.Time.TimeDriver

/-!
# Managed timers

`CLR_RT_HeapBlock_Timer`: the state of a timer, what the execution engine does with it
(`CheckTimers`, `SpawnTimer`, the end of its callback), and how `ConfigureObject` changes it.  The
managed object of the timer is alive, and the thread of a callback can be started.  Times are
64-bit integers, in units of 100 ns.
-/

namespace MicroFramework.Timers

open Time

/-- The value of an expression of type `CLR_INT64`. -/
def int64 (z : ℤ) : ℤ := z.bmod (2 ^ 64)

def timeoutInfinite : ℤ := 0x7FFFFFFFFFFFFFFF

/-- `TIME_CONVERSION__TO_MILLISECONDS`, and `c_TickPerMillisecond` -/
def ticksPerMillisecond : ℤ := 10000

def maxTime : ℤ := 0x7FFFFFFF * ticksPerMillisecond

def minTime : ℤ := 0

/-- The clocks stay below this time. -/
def horizon : ℤ := 2 ^ 62

/-- The clocks of the execution engine: `m_currentMachineTime` and `m_currentLocalTime`. -/
structure Clock where
  machineTime : ℤ
  localTime : ℤ

/-- `CLR_RT_HeapBlock_Timer`, with the bits of `m_flags` one by one. -/
@[ext]
structure Timer where
  anyChange : ℕ
  triggered : Bool
  executing : Bool
  absoluteTimer : Bool
  recurring : Bool
  enabledTimer : Bool
  timeExpire : ℤ
  timeFrequency : ℤ
  timeLastExpiration : ℤ
  ticksLastExpiration : ℤ
deriving DecidableEq

namespace Timer

variable (t : Timer)

def now (c : Clock) : ℤ := if t.absoluteTimer then c.localTime else c.machineTime

def trigger : Timer := if t.executing then t else { t with triggered := true }

def checkTimer (c : Clock) : Timer :=
  if t.enabledTimer = true ∧ t.timeExpire ≤ t.now c then t.trigger else t

/-- `SpawnTimer`, with whether the callback is started. -/
def spawnTimer (c : Clock) : Timer × Bool :=
  if t.triggered then
    ({ t with
        ticksLastExpiration := c.machineTime
        timeLastExpiration := t.timeExpire
        timeExpire := timeoutInfinite
        executing := true
        triggered := false }, true)
  else (t, false)

def reschedule (c : Clock) : Timer :=
  if t.recurring && t.enabledTimer then
    let cmp := t.now c
    let expire := int64 (t.timeLastExpiration + t.timeFrequency)
    let expire :=
      if expire < cmp then
        int64 (int64 (cmp - (int64 (cmp - expire)).tmod t.timeFrequency) + t.timeFrequency)
      else expire
    { t with timeExpire := expire }
  else t

def threadTerminationCallback (c : Clock) : Timer :=
  if t.executing then reschedule { t with executing := false } c else t

end Timer

/-! ## Configuring -/

/-- The form in which the times are passed: `c_INPUT_Int32` in milliseconds, `c_INPUT_TimeSpan` as
spans, `c_INPUT_Absolute` as a date and a span. -/
inductive Kind where
  | int32
  | timeSpan
  | absolute
deriving DecidableEq

/-- The times that are passed; a span or a date is there unless its reference is null. -/
structure Arguments where
  kind : Kind
  due : Option ℤ
  period : Option ℤ

/-- The errors that it returns. -/
inductive Failure where
  | nullReference
  | outOfMemory
  | invalidParameter
  | outOfRange
deriving DecidableEq

/-- The value that a passed time has in the timer, before it is scaled. -/
def Kind.toTime (kind : Kind) (value : ℤ) : ℤ :=
  match kind with
  | .int32 => if value = -1 then timeoutInfinite else value
  | .timeSpan => if value = -ticksPerMillisecond then timeoutInfinite else value
  | .absolute => value

/-- The multiplication of milliseconds by `TIME_CONVERSION__TO_MILLISECONDS`. -/
def Kind.scale (kind : Kind) (value : ℤ) : ℤ :=
  match kind with
  | .int32 => int64 (value * ticksPerMillisecond)
  | _ => value

namespace Timer

variable (t : Timer)

def createInstance : Timer :=
  ⟨0, false, false, false, false, false, timeoutInfinite, timeoutInfinite, 0, 0⟩

/-- The times are stored as they are passed. -/
def setTimes (args : Arguments) : Timer × Option Failure :=
  if t.absoluteTimer ≠ decide (args.kind = Kind.absolute) then (t, some .invalidParameter)
  else
    match args.due with
    | none => (t, some .nullReference)
    | some due =>
      let t := { t with timeExpire := args.kind.toTime due }
      match args.period with
      | none => (t, some .nullReference)
      | some period => ({ t with timeFrequency := args.kind.toTime period }, none)

def enable (kind : Kind) (c : Clock) : Timer × Option Failure :=
  if t.timeExpire = timeoutInfinite then ({ t with enabledTimer := false }, none)
  else if kind = .absolute then ({ t with enabledTimer := true }, none)
  else
    let t := { t with timeExpire := kind.scale t.timeExpire }
    if minTime ≤ t.timeExpire ∧ t.timeExpire ≤ maxTime then
      ({ t with timeExpire := int64 (t.timeExpire + c.machineTime), enabledTimer := true }, none)
    else (t, some .outOfRange)

def recur (kind : Kind) : Timer × Option Failure :=
  if t.timeFrequency = 0 ∨ t.timeFrequency = timeoutInfinite then
    ({ t with recurring := false }, none)
  else
    let t := { t with timeFrequency := kind.scale t.timeFrequency }
    if minTime ≤ t.timeFrequency ∧ t.timeFrequency ≤ maxTime then
      ({ t with recurring := true }, none)
    else (t, some .outOfRange)

/-- The part of `ConfigureObject` for `c_ACTION_Change` -/
def change (args : Arguments) (c : Clock) : Timer × Option Failure :=
  if t.anyChange ≠ 0 then (t, some .invalidParameter)
  else
    match t.setTimes args with
    | (t, some failure) => (t, some failure)
    | (t, none) =>
      match t.enable args.kind c with
      | (t, some failure) => (t, some failure)
      | (t, none) => t.recur args.kind

end Timer

end MicroFramework.Timers
