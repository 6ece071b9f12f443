import MicroFramework.Mesh.Routing
import MicroFramework.Mesh.TableRoutes

/-!
# What a node does in one step

Every handler but the one for routing messages only loses routes and sends only routing messages that
start at the node.  The handler for routing messages first learns the route and then does the same,
sending the message on.
-/

namespace MicroFramework.Mesh

open Library List

/-- The sequence number a node has after drawing so many. -/
def seqNoOf : ℕ → UInt8
  | 0 => 0
  | issued + 1 => nextSeqNo (seqNoOf issued)

structure StartsAt (addrShort : Address) (rm : RoutingMessage) : Prop where
  originator : rm.originatorAddr = addrShort
  hopCount : rm.hopCount = 0
  hopsLeft : rm.hopsLeft = cDefaultHopLimit
  seqNo : rm.seqNo = seqNoOf rm.issue

namespace Node

variable {node : Node} {P Q : RoutingMessage → Prop} {result : Node × List Frame}

/-- The targets of the table differ, and the node's number is the one of its count. -/
structure Sound (node : Node) : Prop where
  distinct : node.table.Distinct
  numbered : node.seqNoDYMO = seqNoOf node.issued

theorem start_sound (addrShort : Address) : (Node.start addrShort).Sound := ⟨nodup_nil, rfl⟩

/-- A handler that only loses routes and sends only routing messages with the property. -/
structure Sends (node : Node) (P : RoutingMessage → Prop) (result : Node × List Frame) : Prop where
  address : result.1.addrShort = node.addrShort
  known : result.1.known = node.known
  loses : node.table.Loses result.1.table
  numbered : result.1.seqNoDYMO = seqNoOf result.1.issued
  source : ∀ frame ∈ result.2, frame.srcAddr = node.addrShort
  message : ∀ frame ∈ result.2, ∀ rm, frame.payload = .routing rm → P rm

theorem Sends.sound (h : node.Sends P result) (hsound : node.Sound) : result.1.Sound :=
  ⟨h.loses.distinct hsound.distinct, h.numbered⟩

theorem Sends.mono (h : node.Sends P result) (himp : ∀ rm, P rm → Q rm) : node.Sends Q result :=
  { h with message := fun frame hframe rm hrm ↦ himp rm (h.message frame hframe rm hrm) }

/-- One handler after another. -/
theorem Sends.append {result' : Node × List Frame} (h : node.Sends P result)
    (h' : result.1.Sends P result') : node.Sends P (result'.1, result.2 ++ result'.2) where
  address := h'.address.trans h.address
  known := h'.known.trans h.known
  loses := h.loses.trans h'.loses
  numbered := h'.numbered
  source := by
    intro frame hframe
    rcases mem_append.mp hframe with hframe | hframe
    · exact h.source frame hframe
    · exact (h'.source frame hframe).trans h.address
  message := by
    intro frame hframe
    rcases mem_append.mp hframe with hframe | hframe
    · exact h.message frame hframe
    · exact h'.message frame hframe

/-- A table that only loses routes, and nothing sent. -/
theorem Sends.table {table : Table} (hsound : node.Sound) (hloses : node.table.Loses table) :
    node.Sends P ({ node with table := table }, []) where
  address := rfl
  known := rfl
  loses := hloses
  numbered := hsound.numbered
  source := by simp
  message := by simp

theorem Sends.nothing (hsound : node.Sound) : node.Sends P (node, []) := .table hsound (.refl _)

theorem Sends.frame {table : Table} (hsound : node.Sound) (hloses : node.table.Loses table)
    (dstAddr : Address) (payload : Payload) (hpayload : ∀ rm, payload = .routing rm → P rm) :
    node.Sends P ({ node with table := table }, [node.frame dstAddr payload]) where
  address := rfl
  known := rfl
  loses := hloses
  numbered := hsound.numbered
  source := by simp [Node.frame]
  message := by
    intro frame hframe rm hrm
    obtain rfl := mem_singleton.mp hframe
    exact hpayload rm hrm

/-! ## Sending -/

theorem getRoute_cases (table : Table) (targetAddr : Address) :
    (∃ table' nextHop, table.getRoute targetAddr = (table', some nextHop) ∧ table.Loses table') ∨
      ∃ table', table.getRoute targetAddr = (table', none) ∧ table.Loses table' := by
  have hloses := table.getRoute_loses targetAddr
  rcases hget : table.getRoute targetAddr with ⟨table', nextHop | _⟩
  · exact .inr ⟨table', rfl, by rw [hget] at hloses; exact hloses⟩
  · exact .inl ⟨table', _, rfl, by rw [hget] at hloses; exact hloses⟩

section

variable (hsound : node.Sound)

include hsound

theorem sendRoutingMessage_sends (rm : RoutingMessage) (hrm : P rm) :
    node.Sends P (node.sendRoutingMessage rm) := by
  have hpayload : ∀ rm', Payload.routing rm = .routing rm' → P rm' := by
    rintro rm' ⟨⟩
    exact hrm
  unfold sendRoutingMessage
  split
  · exact .frame hsound (.refl _) _ _ hpayload
  · rcases getRoute_cases node.table rm.targetAddr with
      ⟨table', nextHop, hget, hloses⟩ | ⟨table', hget, hloses⟩
    · rw [hget]
      exact .frame hsound hloses _ _ hpayload
    · rw [hget]
      exact .table hsound hloses

theorem incSeqNoDYMO_sound : node.incSeqNoDYMO.Sound :=
  ⟨hsound.distinct, by
    show nextSeqNo node.seqNoDYMO = nextSeqNo (seqNoOf node.issued)
    rw [hsound.numbered]⟩

theorem sendRouteRequest_sends (tgtAddrShort : Address) :
    node.Sends (StartsAt node.addrShort) (node.sendRouteRequest tgtAddrShort) := by
  have hsound' := incSeqNoDYMO_sound hsound
  have hsends := @sendRoutingMessage_sends _ (StartsAt node.addrShort) hsound'
    (node.incSeqNoDYMO.routeRequest tgtAddrShort) ⟨rfl, rfl, rfl, hsound'.numbered⟩
  exact
    { address := hsends.address
      known := hsends.known
      loses := hsends.loses
      numbered := hsends.numbered
      source := hsends.source
      message := hsends.message }

theorem forwardRouteError_sends (re : RouteError) : node.Sends P (node.forwardRouteError re) := by
  unfold forwardRouteError
  rcases getRoute_cases node.table re.targetAddr with
    ⟨table', nextHop, hget, hloses⟩ | ⟨table', hget, hloses⟩
  · rw [hget]
    exact .frame hsound hloses _ _ (by simp)
  · rw [hget]
    exact .table hsound hloses

theorem sendRouteError_sends (tgtAddr unrAddr : Address)
    (fatalError : Bool) : node.Sends P (node.sendRouteError tgtAddr unrAddr fatalError) :=
  forwardRouteError_sends hsound _

theorem sendData_sends (tgtAddr nextHopAddr : Address) :
    node.Sends P (node.sendData tgtAddr nextHopAddr) := by
  unfold sendData
  split
  · exact .nothing hsound
  · exact
      { address := by dsimp only; split <;> rfl
        known := by dsimp only; split <;> rfl
        loses := by dsimp only; split <;> exact .refl _
        numbered := by dsimp only; split <;> exact hsound.numbered
        source := by
          intro frame hframe
          obtain rfl := mem_singleton.mp hframe
          show (if isMulticast tgtAddr then node.incSeqNoBroadcast else node).addrShort = _
          split <;> rfl
        message := by
          intro frame hframe rm hrm
          obtain rfl := mem_singleton.mp hframe
          simp [Node.frame] at hrm }

theorem callback_sends (call : Callback) :
    node.Sends (StartsAt node.addrShort) (node.callback call) := by
  cases call with
  | routeRequest target => exact sendRouteRequest_sends hsound target
  | dataRequest targetAddr nextHopAddr message =>
    unfold callback
    dsimp only
    split
    · exact .frame hsound (.refl _) _ _ (by simp)
    · exact sendData_sends hsound _ _
  | dataRequestTimeout target message => exact .nothing hsound

theorem callbacks_sends (calls : List Callback) :
    node.Sends (StartsAt node.addrShort) (node.callbacks calls) := by
  induction calls generalizing node with
  | nil => exact .nothing hsound
  | cons call calls ih =>
    have hcall := callback_sends hsound call
    have hrest := ih (hcall.sound hsound)
    rw [hcall.address] at hrest
    exact hcall.append hrest

end

/-! ## Handlers -/

section

variable (hsound : node.Sound)

include hsound

/-- A table that only loses routes, and then a handler. -/
theorem Sends.after {table : Table} (hloses : node.table.Loses table)
    (h : Sound { node with table := table } → Sends { node with table := table } P result) :
    node.Sends P result :=
  have hafter := h ⟨hloses.distinct hsound.distinct, hsound.numbered⟩
  { hafter with loses := hloses.trans hafter.loses }

theorem handleRouteError_sends (srcAddr : Address) (re : RouteError) :
    node.Sends (StartsAt node.addrShort) (node.handleRouteError srcAddr re) := by
  have hloses := node.table.handleRouteError_loses re.unreachableAddr srcAddr re.fatalError
  unfold handleRouteError
  dsimp only
  split
  · exact .nothing hsound
  · split
    · split
      · exact .after hsound hloses fun hsound' ↦ sendRouteRequest_sends hsound' _
      · split
        · exact .after hsound hloses fun hsound' ↦ forwardRouteError_sends hsound' _
        · exact .table hsound hloses
    · exact .table hsound hloses

theorem forwardData_sends (mesh : MeshHeader) (broadcast : Option UInt8) :
    node.Sends (StartsAt node.addrShort) (node.forwardData mesh broadcast) := by
  unfold forwardData
  dsimp only
  split
  · split
    · exact .frame hsound (.refl _) _ _ (by simp)
    · exact .nothing hsound
  · have hloses := node.table.getRouteWithError_loses mesh.finalAddress
    split
    · rename_i table nextHop routeHasError hget
      rw [hget] at hloses
      have hsends : node.Sends (StartsAt node.addrShort)
          (if routeHasError then
            Node.sendRouteError { node with table := table } mesh.originatorAddress
              mesh.finalAddress false
          else ({ node with table := table }, [])) := by
        split
        · exact .after hsound hloses fun hsound' ↦ sendRouteError_sends hsound' _ _ _
        · exact .table hsound hloses
      exact hsends.append (.frame (hsends.sound hsound) (.refl _) _ _ (by simp))
    · rename_i table hget
      rw [hget] at hloses
      exact .after hsound hloses fun hsound' ↦ sendRouteError_sends hsound' _ _ _

theorem handleData_sends (srcAddr dstAddr : Address)
    (mesh : Option MeshHeader) (broadcast : Option UInt8) :
    node.Sends (StartsAt node.addrShort) (node.handleData srcAddr dstAddr mesh broadcast) := by
  unfold handleData
  dsimp only
  cases broadcast with
  | none =>
    have hloses : node.table.Loses node.table := .refl _
    cases mesh with
    | none => exact .table hsound hloses
    | some mesh =>
      dsimp only
      split_ifs
      · exact .table hsound hloses
      · exact .after hsound hloses fun hsound' ↦ forwardData_sends hsound' _ _
      · exact .table hsound hloses
  | some seqNo =>
    have hloses := fun origAddr ↦ node.table.checkBroadcastSeqNo_loses origAddr seqNo
    cases mesh with
    | none => exact .table hsound (hloses _)
    | some mesh =>
      dsimp only
      split_ifs
      · exact .table hsound (hloses _)
      · exact .after hsound (hloses _) fun hsound' ↦ forwardData_sends hsound' _ _
      · exact .table hsound (hloses _)

theorem request_sends (targetAddr : Address) (message : PendingMessage) :
    node.Sends (StartsAt node.addrShort) (node.request targetAddr message) := by
  unfold request
  split
  · exact .nothing hsound
  · split
    · exact sendData_sends hsound _ _
    · have hloses := node.table.dataRequest_loses targetAddr message
      exact .after hsound hloses fun hsound' ↦ callbacks_sends hsound' _

theorem linkFailure_sends (nextHopAddr : Address) :
    node.Sends P (node.linkFailure nextHopAddr, []) :=
  .table hsound (node.table.handleLinkFailure_loses nextHopAddr)

theorem timer_sends (timeElapsed : ℤ) :
    node.Sends (StartsAt node.addrShort) (node.timer timeElapsed) := by
  have hloses := Table.timerPass_loses timeElapsed [] node.table [] hsound.distinct
  exact .after hsound hloses fun hsound' ↦ callbacks_sends hsound' _

end

/-! ## Routing messages -/

/-- A reply or request of the node itself, or the received message with a hop less. -/
def SentOn (addrShort : Address) (rm : RoutingMessage) (usefull : Bool) (sent : RoutingMessage) :
    Prop :=
  StartsAt addrShort sent ∨
    (sent = { rm with hopsLeft := rm.hopsLeft - 1 } ∧ rm.hopsLeft > 0 ∧
      (usefull = true ∨ rm.isRequest = false))

theorem sendOn_sends (hsound : node.Sound) (rm : RoutingMessage) (hrm : P rm) :
    node.Sends P (node.sendOn rm) := by
  unfold sendOn
  split
  · exact sendRoutingMessage_sends hsound rm hrm
  · rcases getRoute_cases node.table rm.targetAddr with
      ⟨table', nextHop, hget, hloses⟩ | ⟨table', hget, hloses⟩
    · rw [hget]
      exact .after hsound hloses fun hsound' ↦ sendRoutingMessage_sends hsound' rm hrm
    · rw [hget]
      exact .after hsound hloses fun hsound' ↦ sendRouteError_sends hsound' _ _ _

/-- After learning, the handler only loses routes and sends the message on or starts new ones. -/
theorem handleRoutingMessage_sends (srcAddr : Address) (rm : RoutingMessage) (lqi : UInt8)
    (hother : rm.originatorAddr ≠ node.addrShort)
    (hsound : (node.learn srcAddr (received rm lqi)).1.Sound) :
    (node.learn srcAddr (received rm lqi)).1.Sends
      (SentOn node.addrShort (received rm lqi) (node.learn srcAddr (received rm lqi)).2.1)
      (node.handleRoutingMessage srcAddr rm lqi) := by
  have haddr : (node.learn srcAddr (received rm lqi)).1.addrShort = node.addrShort := rfl
  have hcalls := (callbacks_sends hsound (node.learn srcAddr (received rm lqi)).2.2).mono
    (Q := SentOn node.addrShort (received rm lqi) (node.learn srcAddr (received rm lqi)).2.1)
    fun sent hsent ↦ .inl (haddr ▸ hsent)
  have hsound' := hcalls.sound hsound
  unfold handleRoutingMessage
  rw [if_neg hother]
  dsimp only
  split
  · rename_i reply hreply
    refine hcalls.append (sendOn_sends hsound' reply ?_)
    unfold answer at hreply
    split at hreply
    · split at hreply
      · obtain rfl := Option.some.inj hreply
        exact .inl ⟨hcalls.address.trans haddr, rfl, rfl, hsound'.numbered⟩
      · cases hreply
    · split at hreply
      · rename_i hsend
        obtain rfl := Option.some.inj hreply
        simp only [Bool.and_eq_true, Bool.or_eq_true, Bool.not_eq_true', decide_eq_true_eq] at hsend
        exact .inr ⟨rfl, hsend.2, hsend.1⟩
      · cases hreply
  · exact hcalls

end Node

end MicroFramework.Mesh
