import Mathlib.Data.Int.Notation
import Mathlib.Data.List.Basic
import Mathlib.Data.Option.Basic

/-!
# The routing table

`RoutingTable` of the 802.15.4 mesh network: the entries, the update by routing messages, the reports
of broken links and route errors, the requests of the upper layers and the timer thread.  Each
operation returns the table and the callbacks to the network layer in their order.
-/

namespace MicroFramework.Mesh

/-! ## Entries -/

abbrev Address := UInt16

def cInvalidAddr : Address := 0xFFFF

def cRouteTimeout : ℤ := 10 * 60 * 1000

def cRouteRequestWaitTime : ℤ := 1000

def cRouteRequestRetryCnt : ℤ := 1

def cMaxPendingMsg : ℕ := 32

/-- `int.MaxValue` -/
def cInfiniteTimeout : ℤ := 2147483647

def cSeqNoWraparound : UInt8 := 4

/-- A message that waits for a route; its frame is not looked into. -/
structure PendingMessage where
  sduHandle : UInt8
  isControlMsg : Bool
  deriving DecidableEq, Repr

structure Entry where
  targetAddr : Address
  nextHopAddr : Address := cInvalidAddr
  seqNo : UInt8 := 0
  hopCount : UInt8 := 0
  minLqi : UInt8 := 0
  routePending : Bool := false
  routeInUse : Bool := false
  routeHasError : Bool := false
  timeOutSet : ℤ := cInfiniteTimeout
  timeOutLeft : ℤ := 0
  requestRetryCnt : ℤ := 0
  pendingMessages : List PendingMessage := []
  broadcastSeqNoValid : Bool := false
  broadcastSeqNo : UInt8 := 0
  broadcastWindow : UInt32 := 0
  broadcastActive : Bool := false
  deriving DecidableEq, Repr

abbrev Table := List Entry

inductive Callback
  | routeRequest (target : Address)
  | dataRequest (targetAddr nextHopAddr : Address) (message : PendingMessage)
  | dataRequestTimeout (target : Address) (message : PendingMessage)
  deriving DecidableEq, Repr

namespace Table

/-! ## Lookup -/

def findTargetAddr (table : Table) (targetAddr : Address) : Option Entry :=
  table.find? fun entry ↦ entry.targetAddr == targetAddr

/-- Writing back the entry that was found. -/
def update (table : Table) (entry : Entry) : Table :=
  table.map fun item ↦ if item.targetAddr = entry.targetAddr then entry else item

/-- `AddEntry`, returning the new entry; `put` appends it. -/
def newEntry (targetAddr : Address) : Entry := { targetAddr := targetAddr }

/-- Store an entry: in its place when the target is known, else at the end. -/
def put (table : Table) (entry : Entry) : Table :=
  match table.findTargetAddr entry.targetAddr with
  | some _ => table.update entry
  | none => table ++ [entry]

/-! ## Update by routing messages -/

def calcRouteCost (minLqi hopCount : UInt8) : ℕ := (256 - minLqi.toNat) * hopCount.toNat

def seqOffset (seqNo known : UInt8) : ℤ := (seqNo - known).toInt8.toInt

/-- What the code takes a sequence number to be beside the one it knows: a negative offset is stale,
except for a small number, which is taken for a reset and accepted as new. -/
def classify (seqNo known : UInt8) : Ordering :=
  if seqOffset seqNo known < 0 then
    if seqNo < cSeqNoWraparound then .gt else .lt
  else if seqOffset seqNo known = 0 then .eq
  else .gt

def comparesRoute (entry : Entry) : Bool :=
  !entry.routePending && entry.nextHopAddr != cInvalidAddr

/-- The check of `UpdateRoute` on an entry that is there: the new route is not inferior. -/
def superior (entry : Entry) (seqNo hopCount minLqi : UInt8) : Bool :=
  !comparesRoute entry ||
    match classify seqNo entry.seqNo with
    | .lt => false
    | .eq => calcRouteCost minLqi hopCount < calcRouteCost entry.minLqi entry.hopCount
    | .gt => true

/-- `UpdateRoute`: the table, whether the new route was taken, and the queued messages to send. -/
def updateRoute (table : Table) (targetAddr nextHopAddr : Address)
    (seqNo hopCount minLqi : UInt8) : Table × Bool × List Callback :=
  match table.findTargetAddr targetAddr with
  | none =>
    (table.put
      { newEntry targetAddr with
        nextHopAddr := nextHopAddr
        seqNo := seqNo
        hopCount := hopCount
        minLqi := minLqi
        timeOutSet := cRouteTimeout }, true, [])
  | some entry =>
    if superior entry seqNo hopCount minLqi then
      (table.put
        { entry with
          nextHopAddr := nextHopAddr
          routeHasError := false
          seqNo := seqNo
          hopCount := hopCount
          minLqi := minLqi
          routePending := false
          pendingMessages := if entry.routePending then [] else entry.pendingMessages
          timeOutSet := cRouteTimeout -
            hopCount.toNat * (cRouteRequestRetryCnt + 1) * cRouteRequestWaitTime },
        true,
        if entry.routePending then
          entry.pendingMessages.map fun pm ↦ .dataRequest targetAddr nextHopAddr pm
        else [])
    else (table, false, [])

/-! ## Broadcasts -/

def checkBroadcast (entry : Entry) (seqNo : UInt8) : Entry × Bool :=
  if !entry.broadcastSeqNoValid then
    ({ entry with
        broadcastSeqNoValid := true
        broadcastSeqNo := seqNo
        broadcastWindow := 0
        broadcastActive := true }, true)
  else if seqNo < cSeqNoWraparound && entry.broadcastSeqNo > cSeqNoWraparound then
    ({ entry with broadcastSeqNo := seqNo, broadcastWindow := 0, broadcastActive := true }, true)
  else
    let offset := seqOffset seqNo entry.broadcastSeqNo
    if offset = 0 then (entry, false)
    else if offset < 0 then
      if offset ≥ -32 then
        let toggle : UInt32 := 1 <<< UInt32.ofNat (-1 - offset).toNat
        if entry.broadcastWindow &&& toggle > 0 then (entry, false)
        else
          ({ entry with
              broadcastWindow := entry.broadcastWindow ||| toggle
              broadcastActive := true }, true)
      else (entry, false)
    else
      let window := entry.broadcastWindow <<< 1 ||| 1
      ({ entry with
          broadcastWindow := window <<< UInt32.ofNat (offset - 1).toNat
          broadcastSeqNo := seqNo
          broadcastActive := true }, true)

def checkBroadcastSeqNo (table : Table) (orgAddrShort : Address) (seqNo : UInt8) : Table × Bool :=
  let entry := (table.findTargetAddr orgAddrShort).getD (newEntry orgAddrShort)
  let (entry', usefull) := checkBroadcast entry seqNo
  (table.put entry', usefull)

/-! ## Errors -/

def handleLinkFailure (table : Table) (nextHopAddr : Address) : Table :=
  if nextHopAddr = cInvalidAddr then table
  else table.map fun entry ↦
    if entry.nextHopAddr = nextHopAddr then { entry with routeHasError := true } else entry

def handleRouteError (table : Table) (targetAddr nextHopAddr : Address) (fatalError : Bool) :
    Table × Bool :=
  match table.findTargetAddr targetAddr with
  | some entry =>
    if entry.nextHopAddr = nextHopAddr then
      (if fatalError then table.put { entry with nextHopAddr := cInvalidAddr } else table, true)
    else (table, false)
  | none => (table, false)

/-! ## Routes -/

/-- `GetRoute` without the error report. -/
def getRoute (table : Table) (targetAddr : Address) : Table × Option Address :=
  match table.findTargetAddr targetAddr with
  | some entry =>
    if entry.nextHopAddr ≠ cInvalidAddr then
      (table.put { entry with routeInUse := true }, some entry.nextHopAddr)
    else (table, none)
  | none => (table, none)

/-- `GetRoute` that also reports a transmission error, and reports it once. -/
def getRouteWithError (table : Table) (targetAddr : Address) : Table × Option (Address × Bool) :=
  match table.findTargetAddr targetAddr with
  | some entry =>
    if entry.nextHopAddr ≠ cInvalidAddr then
      (table.put { entry with routeHasError := false, routeInUse := true },
        some (entry.nextHopAddr, entry.routeHasError))
    else (table, none)
  | none => (table, none)

/-- The route request at the end of `DataRequest`: none while one is pending. -/
def startRequest (entry : Entry) : Entry × List Callback :=
  if entry.routePending then (entry, [])
  else
    ({ entry with
        routePending := true
        requestRetryCnt := cRouteRequestRetryCnt
        timeOutSet := cRouteRequestWaitTime }, [.routeRequest entry.targetAddr])

/-- `DataRequest`.  The branch that sends also restarts a route that has an error, but it is only
taken when the route has none. -/
def dataRequest (table : Table) (targetAddr : Address) (message : PendingMessage) :
    Table × List Callback :=
  let entry := (table.findTargetAddr targetAddr).getD (newEntry targetAddr)
  if entry.nextHopAddr = cInvalidAddr || entry.routeHasError then
    let dropped := if entry.pendingMessages.length = cMaxPendingMsg then
        entry.pendingMessages.take 1 else []
    let queued := { entry with
      pendingMessages := entry.pendingMessages.drop dropped.length ++ [message] }
    let (entry', requests) := startRequest queued
    (table.put entry', dropped.map (.dataRequestTimeout targetAddr) ++ requests)
  else
    (table.put { entry with routeInUse := true },
      [.dataRequest targetAddr entry.nextHopAddr message])

/-! ## The timer thread -/

/-- What a pass of the timer thread does with one entry: it stays, changed, or it is deleted. -/
inductive TimerResult
  | keep (entry : Entry) (callbacks : List Callback)
  | remove (callbacks : List Callback)

def clearPendingMessages (entry : Entry) : List Callback :=
  entry.pendingMessages.map (.dataRequestTimeout entry.targetAddr)

def timeOut (entry : Entry) : TimerResult :=
  let routeInUse := entry.routeInUse
  let broadcastActive := entry.broadcastActive
  let entry := { entry with routeInUse := false, broadcastActive := false }
  let entry := if routeInUse && !entry.routePending then
      { entry with routePending := true, requestRetryCnt := cRouteRequestRetryCnt + 1 }
    else entry
  if entry.routePending then
    if entry.requestRetryCnt > 0 then
      .keep
        { entry with
          requestRetryCnt := entry.requestRetryCnt - 1
          timeOutLeft := cRouteRequestWaitTime } [.routeRequest entry.targetAddr]
    else
      .keep { entry with routePending := false, pendingMessages := [] }
        (clearPendingMessages entry)
  else if routeInUse || broadcastActive then
    .keep { entry with nextHopAddr := cInvalidAddr, timeOutLeft := cRouteTimeout } []
  else .remove (clearPendingMessages entry)

def timerEntry (timeElapsed : ℤ) (entry : Entry) : TimerResult :=
  if entry.timeOutSet > 0 then
    .keep { entry with timeOutLeft := entry.timeOutSet, timeOutSet := 0 } []
  else if entry.timeOutLeft ≤ timeElapsed then timeOut entry
  else .keep { entry with timeOutLeft := entry.timeOutLeft - timeElapsed } []

/-- `RemoveEntry` on the other entries: routes over the removed target are invalid. -/
def dropHop (targetAddr : Address) (table : Table) : Table :=
  table.map fun item ↦
    if item.nextHopAddr = targetAddr then { item with nextHopAddr := cInvalidAddr } else item

/-- A pass of `TimerThread`: the entries already passed, the entries still to come and the callbacks
made so far. -/
def timerPass (timeElapsed : ℤ) : Table → Table → List Callback → Table × List Callback
  | passed, [], callbacks => (passed, callbacks)
  | passed, entry :: rest, callbacks =>
    match timerEntry timeElapsed entry with
    | .keep entry' made => timerPass timeElapsed (passed ++ [entry']) rest (callbacks ++ made)
    | .remove made =>
      timerPass timeElapsed (dropHop entry.targetAddr passed) (dropHop entry.targetAddr rest)
        (callbacks ++ made)
  termination_by _ rest _ => rest.length
  decreasing_by all_goals simp [dropHop]

end Table

end MicroFramework.Mesh
