import MicroFramework.Library.Runs
import MicroFramework.Mesh.NodeSteps

/-!
# The network

Nodes and the frames they have sent.  A frame reaches any node it is addressed to at any time, any
number of times or never, over a link of any quality; the upper layers, failing links and timers act
whenever they like.  A run is a sequence of such events from empty tables.
-/

namespace MicroFramework.Mesh

open Library Table

structure Network where
  nodes : Address → Node
  sent : List Frame

/-- All tables are empty and nothing was sent. -/
def Network.start : Network := ⟨Node.start, []⟩

inductive Event
  | request (addr targetAddr : Address) (message : PendingMessage)
  /-- The node receives a frame that was sent, over a link of this quality. -/
  | deliver (addr : Address) (index : ℕ) (lqi : UInt8)
  | linkFailure (addr nextHopAddr : Address)
  | timer (addr : Address) (timeElapsed : ℤ)
  deriving DecidableEq, Repr

/-- The node at which something happens. -/
def Event.addr : Event → Address
  | .request addr _ _ => addr
  | .deliver addr _ _ => addr
  | .linkFailure addr _ => addr
  | .timer addr _ => addr

namespace Network

def put (net : Network) (addr : Address) (result : Node × List Frame) : Network :=
  ⟨Function.update net.nodes addr result.1, net.sent ++ result.2⟩

/-- One event at a node with a unicast address; no node receives its own frames. -/
def step (net : Network) (event : Event) : Option Network :=
  if isMulticast event.addr then none
  else
    match event with
    | .request addr targetAddr message =>
      some (net.put addr ((net.nodes addr).request targetAddr message))
    | .deliver addr index lqi =>
      match net.sent[index]? with
      | some frame =>
        if frame.srcAddr = addr then none
        else some (net.put addr ((net.nodes addr).receive frame lqi))
      | none => none
    | .linkFailure addr nextHopAddr =>
      some (net.put addr ((net.nodes addr).linkFailure nextHopAddr, []))
    | .timer addr timeElapsed => some (net.put addr ((net.nodes addr).timer timeElapsed))

def nextHop (net : Network) (target addr : Address) : Option Address :=
  ((net.nodes addr).table.routeTo target).map (·.nextHopAddr)

end Network

/-! ## What a run keeps -/

def Route.cost (route : Route) : ℕ := calcRouteCost route.minLqi route.hopCount

/-- Every route that differs after a step is newer, or equally new and of strictly lower cost. -/
def ReplacedByFresher (net net' : Network) : Prop :=
  ∀ addr target route route', (net.nodes addr).table.routeTo target = some route →
    (net'.nodes addr).table.routeTo target = some route' → route ≠ route' →
      ∃ seq seq', (net.nodes addr).known target = some (Label.mk seq route.cost) ∧
        (net'.nodes addr).known target = some (Label.mk seq' route'.cost) ∧
          (seq < seq' ∨ (seq = seq' ∧ route'.cost < route.cost))

/-- The condition under which a node learns from a routing message safely, given the label of the last
route it took for the originator, if it took one.  Where the code compares, its reading of the two
sequence numbers is their true order.  Where it does not compare, because the entry is gone, is
invalid or waits for a reply, the offer is better than that label, or as good when no route is left
to replace. -/
def Node.Careful (node : Node) (rm : RoutingMessage) : Prop :=
  ∀ label, node.known rm.originatorAddr = some label →
    match node.table.findTargetAddr rm.originatorAddr with
    | some entry =>
      if comparesRoute entry then
        classify rm.seqNo entry.seqNo = compare rm.issue (ofLex label).1
      else if entry.route.isSome then label < Node.offer rm
      else label ≤ Node.offer rm
    | none => label ≤ Node.offer rm

/-- Every routing message is learned from safely. -/
def Careful (net : Network) (event : Event) : Prop :=
  ∀ addr index lqi frame rm, event = .deliver addr index lqi → net.sent[index]? = some frame →
    frame.dstAddr = addr ∨ frame.dstAddr = cBroadcastShortAddr → frame.payload = .routing rm →
      rm.originatorAddr ≠ addr → (net.nodes addr).Careful (Node.received rm lqi)

/-! ## Costs -/

namespace Node

/-- A hop more costs more: the metric is strictly monotone as long as hop counts do not wrap. -/
theorem cost_received (rm : RoutingMessage) (lqi : UInt8) (hhops : rm.hopCount.toNat < 255) :
    calcRouteCost rm.minLQI rm.hopCount <
      calcRouteCost (received rm lqi).minLQI (received rm lqi).hopCount := by
  have hcount : (rm.hopCount + 1).toNat = rm.hopCount.toNat + 1 := by
    rw [UInt8.toNat_add]
    show (rm.hopCount.toNat + 1) % 256 = _
    omega
  have hquality : (received rm lqi).minLQI.toNat ≤ rm.minLQI.toNat := by
    rw [received]
    dsimp only
    split
    · rename_i h
      exact Nat.le_of_lt (UInt8.lt_iff_toNat_lt.mp h)
    · exact le_rfl
  have hmax := rm.minLQI.toNat_lt
  rw [calcRouteCost, calcRouteCost]
  show _ < _ * (rm.hopCount + 1).toNat
  rw [hcount]
  calc
    (256 - rm.minLQI.toNat) * rm.hopCount.toNat
        < (256 - rm.minLQI.toNat) * (rm.hopCount.toNat + 1) := by
      apply Nat.mul_lt_mul_of_pos_left (Nat.lt_succ_self _)
      omega
    _ ≤ (256 - (received rm lqi).minLQI.toNat) * (rm.hopCount.toNat + 1) := by
      apply Nat.mul_le_mul_right
      omega

theorem offer_received_lt (rm : RoutingMessage) (lqi : UInt8) (hhops : rm.hopCount.toNat < 255) :
    offer (received rm lqi) < offer rm :=
  Label.mk_lt_iff.mpr (.inr ⟨rfl, cost_received rm lqi hhops⟩)

/-! ## Learning -/

variable {node : Node} {rm : RoutingMessage}

/-- The label of every route is the one last taken for its destination. -/
def Labelled (node : Node) : Prop :=
  ∀ target route, node.table.routeTo target = some route →
    ∃ seq, node.known target = some (Label.mk seq route.cost) ∧ route.seqNo = seqNoOf seq

theorem route_of_comparesRoute {entry : Entry} (h : comparesRoute entry = true) :
    entry.route = some ⟨entry.nextHopAddr, entry.seqNo, entry.hopCount, entry.minLqi⟩ := by
  unfold comparesRoute at h
  rw [Entry.route, if_neg]
  intro hinvalid
  simp [hinvalid] at h

structure Took (node : Node) (srcAddr : Address) (rm : RoutingMessage) (node' : Node) : Prop where
  route : ∀ target, node'.table.routeTo target = if target = rm.originatorAddr then
    some ⟨srcAddr, rm.seqNo, rm.hopCount, rm.minLQI⟩ else node.table.routeTo target
  known : node'.known = Function.update node.known rm.originatorAddr (some (offer rm))
  distinct : node.table.Distinct → node'.table.Distinct
  improves : ∀ label, node.known rm.originatorAddr = some label → label ≤ offer rm ∧
    (node.table.routeTo rm.originatorAddr ≠ none → label < offer rm)

/-- A superior route under the condition improves on what was known. -/
theorem improves_of_accepts (hlabelled : node.Labelled) (hcareful : node.Careful rm)
    (haccepts : node.table.Accepts rm.originatorAddr rm.seqNo rm.hopCount rm.minLQI) {label : Label}
    (hknown : node.known rm.originatorAddr = some label) :
    label ≤ offer rm ∧ (node.table.routeTo rm.originatorAddr ≠ none → label < offer rm) := by
  have hcond := hcareful label hknown
  cases haccepts with
  | new hfind =>
    rw [hfind] at hcond
    refine ⟨hcond, ?_⟩
    simp [routeTo, hfind]
  | superior entry hfind hsuperior =>
    rw [hfind] at hcond
    dsimp only at hcond
    have hroute := routeTo_of_find hfind
    by_cases hcompares : comparesRoute entry = true
    · rw [if_pos hcompares] at hcond
      rw [route_of_comparesRoute hcompares] at hroute
      obtain ⟨seq, hseq, -⟩ := hlabelled _ _ hroute
      obtain rfl : label = _ := Option.some.inj (hknown.symm.trans hseq)
      have hlt : Label.mk seq (calcRouteCost entry.minLqi entry.hopCount) < offer rm := by
        apply Label.mk_lt_iff.mpr
        rw [superior, hcompares,
          show classify rm.seqNo entry.seqNo = compare rm.issue seq from hcond] at hsuperior
        cases horder : compare rm.issue seq with
        | lt => simp [horder] at hsuperior
        | eq =>
          rw [horder] at hsuperior
          exact .inr ⟨(compare_eq_iff_eq.mp horder).symm, by simpa using hsuperior⟩
        | gt => exact .inl (compare_gt_iff_gt.mp horder)
      exact ⟨hlt.le, fun _ ↦ hlt⟩
    · rw [if_neg hcompares] at hcond
      rw [hroute]
      split at hcond
      · exact ⟨hcond.le, fun _ ↦ hcond⟩
      · rename_i hnone
        refine ⟨hcond, fun hsome ↦ ?_⟩
        exact absurd (Option.isSome_iff_ne_none.mpr hsome) hnone

/-- Learning under the condition either takes a route that improves on what was known, or leaves the
node, which then knows better. -/
theorem learn_cases (hlabelled : node.Labelled) (hcareful : node.Careful rm) (srcAddr : Address)
    (hsrc : srcAddr ≠ cInvalidAddr) :
    (∃ node' calls, node.learn srcAddr rm = (node', true, calls) ∧
        node'.addrShort = node.addrShort ∧ node'.seqNoDYMO = node.seqNoDYMO ∧
        node'.issued = node.issued ∧ node.Took srcAddr rm node') ∨
      node.learn srcAddr rm = (node, false, []) ∧
        ∃ label, node.known rm.originatorAddr = some label ∧ offer rm ≤ label := by
  rcases updateRoute_cases node.table rm.originatorAddr srcAddr rm.seqNo rm.hopCount
    rm.minLQI hsrc with ⟨haccepts, table', calls, hupdate, hroute, hdistinct⟩ |
      ⟨entry, hfind, hsuperior, hupdate⟩
  · left
    refine ⟨{ node with
        table := table'
        known := Function.update node.known rm.originatorAddr (some (offer rm)) }, calls,
      by rw [learn, hupdate]; rfl, rfl, rfl, rfl, hroute, rfl, hdistinct, ?_⟩
    intro label hknown
    exact improves_of_accepts hlabelled hcareful haccepts hknown
  · right
    refine ⟨by rw [learn, hupdate]; rfl, ?_⟩
    have hcompares : comparesRoute entry = true := by
      by_contra h
      simp [superior, h] at hsuperior
    have hroute := routeTo_of_find hfind
    rw [route_of_comparesRoute hcompares] at hroute
    obtain ⟨seq, hseq, -⟩ := hlabelled _ _ hroute
    have hcond := hcareful _ hseq
    rw [hfind] at hcond
    dsimp only at hcond
    rw [if_pos hcompares] at hcond
    refine ⟨_, hseq, Label.mk_le_iff.mpr ?_⟩
    rw [superior, hcompares,
      show classify rm.seqNo entry.seqNo = compare rm.issue seq from hcond] at hsuperior
    cases horder : compare rm.issue seq with
    | lt => exact .inl (compare_lt_iff_lt.mp horder)
    | eq =>
      rw [horder] at hsuperior
      have hcost : calcRouteCost entry.minLqi entry.hopCount ≤
          calcRouteCost rm.minLQI rm.hopCount := by
        simpa using hsuperior
      exact .inr ⟨compare_eq_iff_eq.mp horder, hcost⟩
    | gt => simp [horder] at hsuperior

end Node

end MicroFramework.Mesh
