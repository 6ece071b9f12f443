import MicroFramework.Library.LoopFreedom
import MicroFramework.Mesh.RoutingTable

/-!
# The network layer of a node

The part of `Routing` that sends and handles routing messages, route errors and data frames.  Beside
what the source keeps, a node records how many sequence numbers it has drawn and the label of the last
route it took for each destination, and a routing message carries the count of its originator; nothing
the code computes depends on them.
-/

namespace MicroFramework.Mesh

open Library

/-! ## Messages -/

def cBroadcastShortAddr : Address := 0xFFFF

def cDefaultHopLimit : UInt8 := 8

structure RoutingMessage where
  isRequest : Bool
  hopsLeft : UInt8
  hopCount : UInt8
  minLQI : UInt8
  seqNo : UInt8
  targetAddr : Address
  originatorAddr : Address
  /-- History: how many sequence numbers the originator had drawn. -/
  issue : ℕ
  deriving DecidableEq, Repr

structure RouteError where
  fatalError : Bool
  hopsLeft : UInt8
  targetAddr : Address
  originatorAddr : Address
  unreachableAddr : Address
  deriving DecidableEq, Repr

/-- `Messages6LoWPAN.MeshHeader` -/
structure MeshHeader where
  originatorAddress : Address
  finalAddress : Address
  hopsLeft : UInt8
  deriving DecidableEq, Repr

/-- What a frame carries; a data frame has a mesh header unless its target is the next hop, and a
broadcast header with a sequence number when it is multicast. -/
inductive Payload
  | routing (rm : RoutingMessage)
  | routeError (re : RouteError)
  | data (mesh : Option MeshHeader) (broadcast : Option UInt8)
  | control
  deriving DecidableEq, Repr

structure Frame where
  srcAddr : Address
  dstAddr : Address
  payload : Payload
  deriving DecidableEq, Repr

/-! ## Nodes -/

structure Node where
  addrShort : Address
  table : Table
  seqNoDYMO : UInt8
  seqNoBroadcast : UInt8
  /-- History: how many sequence numbers the node has drawn. -/
  issued : ℕ
  /-- History: the label of the last route taken for each destination. -/
  known : Address → Option Label

def Node.start (addrShort : Address) : Node :=
  { addrShort := addrShort
    table := []
    seqNoDYMO := 0
    seqNoBroadcast := 0
    issued := 0
    known := fun _ ↦ none }

def isMulticast (shortAddr : Address) : Bool := shortAddr ≥ 0x8000

/-- The successor of a sequence number, which goes back to `cSeqNoWraparound`. -/
def nextSeqNo (seqNo : UInt8) : UInt8 :=
  if seqNo = 255 then cSeqNoWraparound else seqNo + 1

namespace Node

def incSeqNoDYMO (node : Node) : Node :=
  { node with seqNoDYMO := nextSeqNo node.seqNoDYMO, issued := node.issued + 1 }

def incSeqNoBroadcast (node : Node) : Node :=
  { node with seqNoBroadcast := nextSeqNo node.seqNoBroadcast }

def frame (node : Node) (dstAddr : Address) (payload : Payload) : Frame :=
  { srcAddr := node.addrShort, dstAddr := dstAddr, payload := payload }

/-! ## Sending -/

/-- `SendRoutingMessage`: requests are broadcast, replies follow the table. -/
def sendRoutingMessage (node : Node) (rm : RoutingMessage) : Node × List Frame :=
  if rm.isRequest then (node, [node.frame cBroadcastShortAddr (.routing rm)])
  else
    match node.table.getRoute rm.targetAddr with
    | (table, some nextHop) => ({ node with table := table }, [node.frame nextHop (.routing rm)])
    | (table, none) => ({ node with table := table }, [])

/-- The message of `SendRouteRequest` from a node that has drawn its number. -/
def routeRequest (node : Node) (tgtAddrShort : Address) : RoutingMessage :=
  { isRequest := true
    hopsLeft := cDefaultHopLimit
    hopCount := 0
    minLQI := 0xFF
    seqNo := node.seqNoDYMO
    targetAddr := tgtAddrShort
    originatorAddr := node.addrShort
    issue := node.issued }

def sendRouteRequest (node : Node) (tgtAddrShort : Address) : Node × List Frame :=
  let node := node.incSeqNoDYMO
  node.sendRoutingMessage (node.routeRequest tgtAddrShort)

def forwardRouteError (node : Node) (re : RouteError) : Node × List Frame :=
  match node.table.getRoute re.targetAddr with
  | (table, some nextHop) => ({ node with table := table }, [node.frame nextHop (.routeError re)])
  | (table, none) => ({ node with table := table }, [])

def sendRouteError (node : Node) (tgtAddr unrAddr : Address) (fatalError : Bool) :
    Node × List Frame :=
  node.forwardRouteError
    { fatalError := fatalError
      hopsLeft := cDefaultHopLimit
      targetAddr := tgtAddr
      originatorAddr := node.addrShort
      unreachableAddr := unrAddr }

def sendData (node : Node) (tgtAddr nextHopAddr : Address) : Node × List Frame :=
  if node.addrShort = cInvalidAddr then (node, [])
  else
    let multicast := isMulticast tgtAddr
    let node := if multicast then node.incSeqNoBroadcast else node
    let mesh : Option MeshHeader :=
      if multicast || tgtAddr != nextHopAddr then
        some ⟨node.addrShort, tgtAddr, cDefaultHopLimit⟩
      else none
    let broadcast := if multicast then some node.seqNoBroadcast else none
    (node, [node.frame nextHopAddr (.data mesh broadcast)])

def callback (node : Node) : Callback → Node × List Frame
  | .routeRequest target => node.sendRouteRequest target
  | .dataRequest targetAddr nextHopAddr message =>
    if message.isControlMsg then (node, [node.frame nextHopAddr .control])
    else node.sendData targetAddr nextHopAddr
  | .dataRequestTimeout _ _ => (node, [])

/-- The callbacks of one operation, in their order. -/
def callbacks (node : Node) : List Callback → Node × List Frame
  | [] => (node, [])
  | call :: rest =>
    let (node, frames) := node.callback call
    let (node, frames') := node.callbacks rest
    (node, frames ++ frames')

/-! ## Handling -/

def received (rm : RoutingMessage) (lqi : UInt8) : RoutingMessage :=
  { rm with
    hopCount := rm.hopCount + 1
    minLQI := if lqi < rm.minLQI then lqi else rm.minLQI }

def offer (rm : RoutingMessage) : Label :=
  Label.mk rm.issue (Table.calcRouteCost rm.minLQI rm.hopCount)

def routeReply (node : Node) (rm : RoutingMessage) : RoutingMessage :=
  { isRequest := false
    hopsLeft := cDefaultHopLimit
    hopCount := 0
    minLQI := 0xFF
    seqNo := node.seqNoDYMO
    targetAddr := rm.originatorAddr
    originatorAddr := node.addrShort
    issue := node.issued }

/-- The message a node sends on after the update, if it sends one: its own reply to a useful request
for it, and otherwise every reply and every useful request that has hops left. -/
def answer (node : Node) (rm : RoutingMessage) (usefull : Bool) : Option RoutingMessage :=
  if rm.targetAddr = node.addrShort then
    if usefull && rm.isRequest then some (node.routeReply rm) else none
  else if (usefull || !rm.isRequest) && rm.hopsLeft > 0 then
    some { rm with hopsLeft := rm.hopsLeft - 1 }
  else none

/-- The end of `HandleRoutingMessage`: a reply without a route is answered by a route error. -/
def sendOn (node : Node) (rm : RoutingMessage) : Node × List Frame :=
  if rm.isRequest then node.sendRoutingMessage rm
  else
    match node.table.getRoute rm.targetAddr with
    | (table, some _) => { node with table := table }.sendRoutingMessage rm
    | (table, none) =>
      { node with table := table }.sendRouteError rm.originatorAddr rm.targetAddr true

def learn (node : Node) (srcAddr : Address) (rm : RoutingMessage) : Node × Bool × List Callback :=
  let (table, usefull, calls) := node.table.updateRoute rm.originatorAddr srcAddr rm.seqNo
    rm.hopCount rm.minLQI
  ({ node with
      table := table
      known := if usefull then Function.update node.known rm.originatorAddr (some (offer rm))
        else node.known }, usefull, calls)

/-- `HandleRoutingMessage`; `lqi` is the bidirectional quality of the link to the sender, zero when
the neighbour table does not list it. -/
def handleRoutingMessage (node : Node) (srcAddr : Address) (rm : RoutingMessage) (lqi : UInt8) :
    Node × List Frame :=
  if rm.originatorAddr = node.addrShort then (node, [])
  else
    let rm := received rm lqi
    let (node, usefull, calls) := node.learn srcAddr rm
    let (node, frames) := node.callbacks calls
    match node.answer rm usefull with
    | some reply =>
      let (node, frames') := node.sendOn reply
      (node, frames ++ frames')
    | none => (node, frames)

def handleRouteError (node : Node) (srcAddr : Address) (re : RouteError) : Node × List Frame :=
  if re.unreachableAddr = cInvalidAddr then (node, [])
  else
    let (table, validRoute) := node.table.handleRouteError re.unreachableAddr srcAddr re.fatalError
    let node := { node with table := table }
    if validRoute then
      if re.targetAddr = node.addrShort then node.sendRouteRequest re.unreachableAddr
      else if re.hopsLeft > 0 then
        node.forwardRouteError { re with hopsLeft := re.hopsLeft - 1 }
      else (node, [])
    else (node, [])

def forwardData (node : Node) (mesh : MeshHeader) (broadcast : Option UInt8) : Node × List Frame :=
  let mesh' := { mesh with hopsLeft := mesh.hopsLeft - 1 }
  if isMulticast mesh.finalAddress then
    match broadcast with
    | some _ => (node, [node.frame cBroadcastShortAddr (.data (some mesh') broadcast)])
    | none => (node, [])
  else
    match node.table.getRouteWithError mesh.finalAddress with
    | (table, some (nextHop, routeHasError)) =>
      let node := { node with table := table }
      let (node, frames) := if routeHasError then
          node.sendRouteError mesh.originatorAddress mesh.finalAddress false
        else (node, [])
      (node, frames ++ [node.frame nextHop (.data (some mesh') broadcast)])
    | (table, none) =>
      { node with table := table }.sendRouteError mesh.originatorAddress mesh.finalAddress true

/-- `HandleData`, as far as it reads or writes the table; delivery to the upper layers does not. -/
def handleData (node : Node) (srcAddr dstAddr : Address) (mesh : Option MeshHeader)
    (broadcast : Option UInt8) : Node × List Frame :=
  let origAddr := (mesh.map (·.originatorAddress)).getD srcAddr
  let targetAddr := (mesh.map (·.finalAddress)).getD dstAddr
  let (table, usefull) :=
    match broadcast with
    | some seqNo => node.table.checkBroadcastSeqNo origAddr seqNo
    | none => (node.table, true)
  let node := { node with table := table }
  match mesh with
  | some mesh =>
    if broadcast.isSome && !(usefull && origAddr != node.addrShort) then (node, [])
    else if (targetAddr != node.addrShort || isMulticast targetAddr) && mesh.hopsLeft > 0 then
      node.forwardData mesh broadcast
    else (node, [])
  | none => (node, [])

/-- `MacDataIndHandler` for a frame with short addresses. -/
def receive (node : Node) (frame : Frame) (lqi : UInt8) : Node × List Frame :=
  if frame.dstAddr = node.addrShort || frame.dstAddr = cBroadcastShortAddr then
    match frame.payload with
    | .routing rm => node.handleRoutingMessage frame.srcAddr rm lqi
    | .routeError re => node.handleRouteError frame.srcAddr re
    | .data mesh broadcast => node.handleData frame.srcAddr frame.dstAddr mesh broadcast
    | .control => (node, [])
  else (node, [])

/-- `DataRequest` of the upper layers for another node. -/
def request (node : Node) (targetAddr : Address) (message : PendingMessage) : Node × List Frame :=
  if targetAddr = node.addrShort then (node, [])
  else if isMulticast targetAddr then node.sendData targetAddr cBroadcastShortAddr
  else
    let (table, calls) := node.table.dataRequest targetAddr message
    { node with table := table }.callbacks calls

def linkFailure (node : Node) (nextHopAddr : Address) : Node :=
  { node with table := node.table.handleLinkFailure nextHopAddr }

def timer (node : Node) (timeElapsed : ℤ) : Node × List Frame :=
  let (table, calls) := Table.timerPass timeElapsed [] node.table []
  { node with table := table }.callbacks calls

end Node

end MicroFramework.Mesh
