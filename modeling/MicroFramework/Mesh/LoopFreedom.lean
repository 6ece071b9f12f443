import MicroFramework.Mesh.Network

/-!
# Loop freedom of the mesh

The invariant of a run whose nodes learn safely: every route has the label its node knows, and the
node behind its next hop knows a strictly better one.  It rules out loops, and every replacement is by
something fresher.
-/

namespace MicroFramework.Mesh

open Library Option Function List Network

/-! ## The invariant -/

/-- A routing message sent by a node offers no more than the node knows, unless the node is its
originator, and has few hops. -/
structure Vouched (nodes : Address → Node) (srcAddr : Address) (rm : RoutingMessage) : Prop where
  hops : rm.hopCount.toNat + rm.hopsLeft.toNat ≤ 8
  seqNo : rm.seqNo = seqNoOf rm.issue
  known : rm.originatorAddr = srcAddr ∨ ∃ label,
    (nodes srcAddr).known rm.originatorAddr = some label ∧ Node.offer rm ≤ label

/-- A route has the label its node knows, and leads to the destination or to a node that knows
better. -/
def Climbs (nodes : Address → Node) (addr target : Address) (route : Route) : Prop :=
  ∃ seq, (nodes addr).known target = some (Label.mk seq route.cost) ∧ route.seqNo = seqNoOf seq ∧
    (route.nextHopAddr = target ∨ ∃ label, (nodes route.nextHopAddr).known target = some label ∧
      Label.mk seq route.cost < label)

structure Fresh (net : Network) : Prop where
  address : ∀ addr, (net.nodes addr).addrShort = addr
  sound : ∀ addr, (net.nodes addr).Sound
  own : ∀ addr, (net.nodes addr).known addr = none
  source : ∀ frame ∈ net.sent, isMulticast frame.srcAddr = false
  message : ∀ frame ∈ net.sent, ∀ rm, frame.payload = .routing rm →
    Vouched net.nodes frame.srcAddr rm
  route : ∀ addr target route, (net.nodes addr).table.routeTo target = some route →
    Climbs net.nodes addr target route

/-- Nodes that know no less. -/
def Improves (nodes nodes' : Address → Node) : Prop :=
  ∀ addr target label, (nodes addr).known target = some label →
    ∃ label', (nodes' addr).known target = some label' ∧ label ≤ label'

variable {net net' : Network} {nodes nodes' : Address → Node} {addr srcAddr target : Address}
  {rm : RoutingMessage} {result : Node × List Frame}

theorem Vouched.improve (h : Vouched nodes srcAddr rm) (himproves : Improves nodes nodes') :
    Vouched nodes' srcAddr rm := by
  refine { h with known := ?_ }
  rcases h.known with heq | ⟨label, hlabel, hle⟩
  · exact .inl heq
  · obtain ⟨label', hlabel', hle'⟩ := himproves _ _ _ hlabel
    exact .inr ⟨label', hlabel', hle.trans hle'⟩

theorem Climbs.improve {route : Route} (h : Climbs nodes addr target route)
    (himproves : Improves nodes nodes') (hsame : (nodes' addr).known target =
      (nodes addr).known target) : Climbs nodes' addr target route := by
  obtain ⟨seq, hseq, hnum, hhop⟩ := h
  refine ⟨seq, hsame.trans hseq, hnum, ?_⟩
  rcases hhop with heq | ⟨label, hlabel, hlt⟩
  · exact .inl heq
  · obtain ⟨label', hlabel', hle⟩ := himproves _ _ _ hlabel
    exact .inr ⟨label', hlabel', hlt.trans_le hle⟩

theorem fresh_start : Fresh .start where
  address := fun _ ↦ rfl
  sound := Node.start_sound
  own := fun _ ↦ rfl
  source := by simp [start]
  message := by simp [start]
  route := by
    intro addr target route hroute
    cases hroute

theorem Fresh.labelled (h : Fresh net) (addr : Address) : (net.nodes addr).Labelled := by
  intro target route hroute
  obtain ⟨seq, hseq, hnum, -⟩ := h.route addr target route hroute
  exact ⟨seq, hseq, hnum⟩

theorem Fresh.routeTo_self (h : Fresh net) (addr : Address) :
    (net.nodes addr).table.routeTo addr = none := by
  cases hroute : (net.nodes addr).table.routeTo addr with
  | none => rfl
  | some route =>
    obtain ⟨seq, hseq, -⟩ := h.route addr addr route hroute
    rw [h.own addr] at hseq
    cases hseq

/-! ## Steps -/

section Put

variable {P : RoutingMessage → Prop}

theorem nodes_put (addr' : Address) : (net.put addr result).nodes addr' =
    if addr' = addr then result.1 else net.nodes addr' := by
  rw [put]
  exact update_apply net.nodes addr result.1 addr'

/-- A handler that only loses routes and sends vouched messages. -/
theorem Fresh.sends (h : Fresh net) (haddr : isMulticast addr = false)
    (hsends : (net.nodes addr).Sends P result)
    (hvouched : ∀ rm, P rm → Vouched net.nodes addr rm) : Fresh (net.put addr result) := by
  have hknown : ∀ addr', ((net.put addr result).nodes addr').known = (net.nodes addr').known := by
    intro addr'
    rw [nodes_put]
    split
    · rename_i heq
      rw [hsends.known, heq]
    · rfl
  have himproves : Improves net.nodes (net.put addr result).nodes := by
    intro addr' target label hlabel
    exact ⟨label, by rw [hknown, hlabel], le_rfl⟩
  constructor
  · intro addr'
    rw [nodes_put]
    split
    · rename_i heq
      rw [hsends.address, heq, h.address]
    · exact h.address addr'
  · intro addr'
    rw [nodes_put]
    split
    · exact hsends.sound (h.sound addr)
    · exact h.sound addr'
  · intro addr'
    rw [hknown]
    exact h.own addr'
  · intro frame hframe
    rcases mem_append.mp hframe with hold | hnew
    · exact h.source frame hold
    · rw [hsends.source frame hnew, h.address]
      exact haddr
  · intro frame hframe rm hrm
    rcases mem_append.mp hframe with hold | hnew
    · exact (h.message frame hold rm hrm).improve himproves
    · rw [hsends.source frame hnew, h.address]
      exact (hvouched rm (hsends.message frame hnew rm hrm)).improve himproves
  · intro addr' target route hroute
    refine Climbs.improve ?_ himproves (by rw [hknown])
    apply h.route
    rw [nodes_put] at hroute
    split at hroute
    · rename_i heq
      rcases hsends.loses.route target with hsame | hnone
      · rw [heq, ← hsame, hroute]
      · rw [hnone] at hroute
        cases hroute
    · exact hroute

theorem vouched_of_startsAt (hstarts : StartsAt addr rm) : Vouched nodes addr rm where
  hops := by
    rw [hstarts.hopCount, hstarts.hopsLeft]
    decide
  seqNo := hstarts.seqNo
  known := .inl hstarts.originator

/-- A received message with a hop less is vouched for by a node that knows as much. -/
theorem vouched_of_received {lqi : UInt8} (hvouched : Vouched nodes srcAddr rm)
    (hleft : (Node.received rm lqi).hopsLeft > 0) {label : Label}
    (hknown : (nodes' addr).known rm.originatorAddr = some label)
    (hle : Node.offer (Node.received rm lqi) ≤ label) :
    Vouched nodes' addr
      { Node.received rm lqi with hopsLeft := (Node.received rm lqi).hopsLeft - 1 } where
  hops := by
    have hhops := hvouched.hops
    have hpos : 0 < rm.hopsLeft.toNat := UInt8.lt_iff_toNat_lt.mp hleft
    show (rm.hopCount + 1).toNat + (rm.hopsLeft - 1).toNat ≤ 8
    have hone : (1 : UInt8) ≤ rm.hopsLeft := UInt8.le_iff_toNat_le.mpr hpos
    rw [UInt8.toNat_add, UInt8.toNat_sub_of_le _ _ hone]
    show (rm.hopCount.toNat + 1) % 256 + (rm.hopsLeft.toNat - 1) ≤ 8
    omega
  seqNo := hvouched.seqNo
  known := .inr ⟨label, hknown, hle⟩

/-- Taking the route a vouched message offers. -/
theorem Fresh.took (h : Fresh net) (hsrc : srcAddr ≠ addr)
    (hother : rm.originatorAddr ≠ addr) {sent : RoutingMessage} {lqi : UInt8}
    (hvouched : Vouched net.nodes srcAddr sent) (hrm : rm = Node.received sent lqi)
    {node : Node} (haddress : node.addrShort = addr)
    (hnumber : node.seqNoDYMO = seqNoOf node.issued)
    (htook : (net.nodes addr).Took srcAddr rm node) : Fresh (net.put addr (node, [])) := by
  have hhops := hvouched.hops
  have hlt : Node.offer rm < Node.offer sent := by
    rw [hrm]
    exact Node.offer_received_lt sent lqi (by omega)
  have horiginator : sent.originatorAddr = rm.originatorAddr := by
    rw [hrm]
    rfl
  have himproves : Improves net.nodes (net.put addr (node, [])).nodes := by
    intro addr' target label hlabel
    rw [nodes_put]
    split
    · rename_i heq
      rw [heq] at hlabel
      rw [htook.known]
      by_cases htarget : target = rm.originatorAddr
      · rw [htarget] at hlabel ⊢
        exact ⟨_, update_self .., (htook.improves label hlabel).1⟩
      · exact ⟨label, by rw [update_of_ne htarget, hlabel], le_rfl⟩
    · exact ⟨label, hlabel, le_rfl⟩
  constructor
  · intro addr'
    rw [nodes_put]
    split
    · rename_i heq
      rw [heq]
      exact haddress
    · exact h.address addr'
  · intro addr'
    rw [nodes_put]
    split
    · exact ⟨htook.distinct (h.sound addr).distinct, hnumber⟩
    · exact h.sound addr'
  · intro addr'
    rw [nodes_put]
    split
    · rename_i heq
      rw [htook.known, heq, update_of_ne (Ne.symm hother), h.own]
    · exact h.own addr'
  · intro frame hframe
    exact h.source frame (by simpa [put] using hframe)
  · intro frame hframe rm' hrm'
    exact (h.message frame (by simpa [put] using hframe) rm' hrm').improve himproves
  · intro addr' target route hroute
    rw [nodes_put] at hroute
    by_cases heq : addr' = addr
    · rw [if_pos heq, htook.route] at hroute
      by_cases htarget : target = rm.originatorAddr
      · rw [if_pos htarget] at hroute
        obtain rfl := some.inj hroute
        refine ⟨rm.issue, ?_, ?_, ?_⟩
        · rw [nodes_put, if_pos heq, htook.known, htarget]
          exact update_self ..
        · show rm.seqNo = _
          rw [hrm]
          exact hvouched.seqNo
        · rw [htarget]
          show srcAddr = _ ∨ _
          rcases hvouched.known with hown | ⟨label, hlabel, hle⟩
          · exact .inl (hown.symm.trans horiginator)
          · right
            rw [horiginator] at hlabel
            refine ⟨label, ?_, hlt.trans_le hle⟩
            show ((net.put addr (node, [])).nodes srcAddr).known _ = _
            rw [nodes_put, if_neg hsrc]
            exact hlabel
      · rw [if_neg htarget, ← heq] at hroute
        refine (h.route addr' target route hroute).improve himproves ?_
        rw [nodes_put, if_pos heq, htook.known, update_of_ne htarget, heq]
    · rw [if_neg heq] at hroute
      refine (h.route addr' target route hroute).improve himproves ?_
      rw [nodes_put, if_neg heq]

/-! ## Replacement -/

/-- A handler that only loses routes replaces none. -/
theorem ReplacedByFresher.sends {net₀ : Network} (h : ReplacedByFresher net₀ net)
    (hsends : (net.nodes addr).Sends P result) : ReplacedByFresher net₀ (net.put addr result) := by
  intro addr' target route route' hroute hroute' hne
  rw [nodes_put] at hroute' ⊢
  split at hroute'
  · rename_i heq
    rw [if_pos heq, hsends.known, ← heq]
    apply h addr' target route route' hroute ?_ hne
    rcases hsends.loses.route target with hsame | hnone
    · rw [heq, ← hsame, hroute']
    · rw [hnone] at hroute'
      cases hroute'
  · rename_i hother
    rw [if_neg hother]
    exact h addr' target route route' hroute hroute' hne

theorem ReplacedByFresher.refl (net : Network) : ReplacedByFresher net net := by
  intro addr target route route' hroute hroute' hne
  rw [hroute] at hroute'
  exact absurd (some.inj hroute') hne

/-- Taking a route under the condition replaces a route by something fresher. -/
theorem Fresh.replaced (h : Fresh net) {node : Node}
    (htook : (net.nodes addr).Took srcAddr rm node) :
    ReplacedByFresher net (net.put addr (node, [])) := by
  intro addr' target route route' hroute hroute' hne
  rw [nodes_put] at hroute' ⊢
  by_cases heq : addr' = addr
  · rw [if_pos heq, htook.route] at hroute'
    rw [if_pos heq, htook.known]
    by_cases htarget : target = rm.originatorAddr
    · rw [if_pos htarget] at hroute'
      obtain rfl := some.inj hroute'
      obtain ⟨seq, hseq, -⟩ := h.labelled addr' target route hroute
      refine ⟨seq, rm.issue, hseq, ?_, ?_⟩
      · rw [htarget]
        exact update_self ..
      · rw [heq, htarget] at hseq hroute
        apply Label.mk_lt_iff.mp
        exact (htook.improves _ hseq).2 (by simp [hroute])
    · rw [if_neg htarget, ← heq, hroute] at hroute'
      exact absurd (some.inj hroute') hne
  · rw [if_neg heq, hroute] at hroute'
    exact absurd (some.inj hroute') hne

theorem put_put (node : Node) : (net.put addr (node, [])).put addr result =
    net.put addr result := by
  simp [put]

end Put

theorem Fresh.handleRoutingMessage (h : Fresh net) (haddr : isMulticast addr = false)
    (hsrc : srcAddr ≠ addr) (hunicast : isMulticast srcAddr = false)
    (hvouched : Vouched net.nodes srcAddr rm) {lqi : UInt8}
    (hcareful : rm.originatorAddr ≠ addr → (net.nodes addr).Careful (Node.received rm lqi)) :
    Fresh (net.put addr ((net.nodes addr).handleRoutingMessage srcAddr rm lqi)) ∧
      ReplacedByFresher net
        (net.put addr ((net.nodes addr).handleRoutingMessage srcAddr rm lqi)) := by
  have haddress := h.address addr
  by_cases hown : rm.originatorAddr = addr
  · rw [Node.handleRoutingMessage, if_pos (hown.trans haddress.symm)]
    have hsends : (net.nodes addr).Sends (fun _ ↦ False) (net.nodes addr, []) :=
      .nothing (h.sound addr)
    exact ⟨h.sends haddr hsends (by simp), (ReplacedByFresher.refl net).sends hsends⟩
  · have hinvalid : srcAddr ≠ cInvalidAddr := by
      rintro rfl
      exact absurd hunicast (by decide)
    have hother : (Node.received rm lqi).originatorAddr ≠ addr := hown
    have hmessage := @Node.handleRoutingMessage_sends (net.nodes addr) srcAddr rm lqi
      (by rw [haddress]; exact hown)
    rcases Node.learn_cases (h.labelled addr) (hcareful hown) srcAddr hinvalid with
      ⟨node, calls, hlearn, hnode, hseq, hissued, htook⟩ | ⟨hlearn, label, hlabel, hle⟩
    · have hnumber : node.seqNoDYMO = seqNoOf node.issued := by
        rw [hseq, hissued, (h.sound addr).numbered]
      have hfresh := h.took hsrc hother hvouched rfl (hnode.trans haddress) hnumber htook
      rw [hlearn] at hmessage
      have hat : (net.put addr (node, [])).nodes addr = node := by rw [nodes_put, if_pos rfl]
      have hsends := hmessage ⟨htook.distinct (h.sound addr).distinct, hnumber⟩
      rw [haddress] at hsends
      rw [← put_put node]
      refine ⟨hfresh.sends haddr (by rw [hat]; exact hsends) ?_,
        (h.replaced htook).sends (by rw [hat]; exact hsends)⟩
      rintro sent (hstarts | ⟨rfl, hleft, -⟩)
      · exact vouched_of_startsAt hstarts
      · apply vouched_of_received hvouched hleft _ le_rfl
        rw [nodes_put, if_pos rfl, htook.known]
        exact update_self ..
    · rw [hlearn] at hmessage
      have hsends := hmessage (h.sound addr)
      rw [haddress] at hsends
      refine ⟨h.sends haddr hsends ?_, (ReplacedByFresher.refl net).sends hsends⟩
      rintro sent (hstarts | ⟨rfl, hleft, -⟩)
      · exact vouched_of_startsAt hstarts
      · exact vouched_of_received hvouched hleft hlabel hle

/-- One event of a run whose nodes learn safely keeps the invariant, and replaces routes by fresher
ones only. -/
theorem Fresh.step (h : Fresh net) {event : Event} (hcareful : Careful net event)
    (hstep : net.step event = some net') : Fresh net' ∧ ReplacedByFresher net net' := by
  have hquiet : ∀ addr result, isMulticast addr = false →
      (net.nodes addr).Sends (StartsAt addr) result →
        Fresh (net.put addr result) ∧ ReplacedByFresher net (net.put addr result) :=
    fun addr result haddr hsends ↦
      ⟨h.sends haddr hsends fun _ ↦ vouched_of_startsAt, (ReplacedByFresher.refl net).sends hsends⟩
  have haddress := h.address
  have hsound := h.sound
  unfold Network.step at hstep
  split at hstep
  · cases hstep
  · rename_i hmulti
    rw [Bool.not_eq_true] at hmulti
    cases event with
    | request addr targetAddr message =>
      obtain rfl := some.inj hstep
      refine hquiet addr _ hmulti ?_
      have hsends := Node.request_sends (hsound addr) targetAddr message
      rwa [haddress] at hsends
    | linkFailure addr nextHopAddr =>
      obtain rfl := some.inj hstep
      exact hquiet addr _ hmulti (Node.linkFailure_sends (hsound addr) nextHopAddr)
    | timer addr timeElapsed =>
      obtain rfl := some.inj hstep
      refine hquiet addr _ hmulti ?_
      have hsends := Node.timer_sends (hsound addr) timeElapsed
      rwa [haddress] at hsends
    | deliver addr index lqi =>
      dsimp only at hstep
      split at hstep
      · rename_i frame hframe
        have hmem := mem_of_getElem? hframe
        split at hstep
        · cases hstep
        · rename_i hsrc
          obtain rfl := some.inj hstep
          unfold Node.receive
          rw [haddress]
          split
          · rename_i hdst
            cases hpayload : frame.payload with
            | routing rm =>
              apply h.handleRoutingMessage hmulti hsrc (h.source frame hmem)
                (h.message frame hmem rm hpayload)
              intro hother
              exact hcareful addr index lqi frame rm rfl hframe (by simpa using hdst) hpayload hother
            | routeError re =>
              refine hquiet addr _ hmulti ?_
              have hsends := Node.handleRouteError_sends (hsound addr) frame.srcAddr re
              rwa [haddress] at hsends
            | data mesh broadcast =>
              refine hquiet addr _ hmulti ?_
              have hsends := Node.handleData_sends (hsound addr) frame.srcAddr frame.dstAddr mesh
                broadcast
              rwa [haddress] at hsends
            | control => exact hquiet addr _ hmulti (.nothing (hsound addr))
          · exact hquiet addr _ hmulti (.nothing (hsound addr))
      · cases hstep

theorem Fresh.loopFree (h : Fresh net) (target : Address) : LoopFree (net.nextHop target) := by
  apply @loopFree_of_climb _ _ _ (fun addr ↦ ((net.nodes addr).known target).getD (Label.mk 0 0))
  intro addr hop hhop hon
  obtain ⟨route, hroute, rfl⟩ := map_eq_some_iff.mp hhop
  obtain ⟨seq, hseq, -, hclimb⟩ := h.route addr target route hroute
  rcases hclimb with hend | ⟨label, hlabel, hlt⟩
  · rw [hend, nextHop, h.routeTo_self] at hon
    exact absurd rfl hon
  · rw [hseq, hlabel]
    exact hlt

/-- In every run whose nodes learn safely no chain of next hops for one destination ever forms a
cycle, and every step replaces routes by newer ones, or equally new ones of strictly lower cost. -/
theorem mesh_loop_free (hrun : Reachable step Careful (· = start) net) :
    (∀ target, LoopFree (net.nextHop target)) ∧
      ∀ event net', Careful net event → net.step event = some net' → ReplacedByFresher net net' := by
  have hfresh : Fresh net := by
    apply hrun.invariant
    · rintro _ rfl
      exact fresh_start
    · intro net event net' h hcareful hstep
      exact (h.step hcareful hstep).1
  exact ⟨hfresh.loopFree, fun event net' hcareful hstep ↦ (hfresh.step hcareful hstep).2⟩

/-- Two nodes: the second hears a request of the first, and has a route to it that ends there. -/
theorem mesh_loop_free_two_nodes :
    ∃ net, [Event.request 1 9 ⟨0, false⟩, .deliver 2 0 200].foldlM step .start = some net ∧
      net.nextHop 1 2 = some 1 ∧ ∀ target, LoopFree (net.nextHop target) := by
  have hrun : ([Event.request 1 9 ⟨0, false⟩, .deliver 2 0 200].foldlM step .start).map
      (fun net ↦ net.nextHop 1 2) = some (some 1) := by
    decide +kernel
  obtain ⟨net, hnet, hhop⟩ := map_eq_some_iff.mp hrun
  refine ⟨net, hnet, hhop, ?_⟩
  simp only [foldlM_cons, foldlM_nil, bind_eq_bind, bind_eq_some_iff]
    at hnet
  obtain ⟨net', hfirst, net'', hsecond, hthird⟩ := hnet
  obtain rfl := some.inj hthird
  have hnodes : ∀ target, (net'.nodes 2).known target = none := by
    obtain rfl := some.inj hfirst
    intro target
    rw [nodes_put]
    rfl
  have hstart : Reachable step Careful (· = start) start := .start rfl
  have hcareful : Careful .start (.request 1 9 ⟨0, false⟩) := by
    intro addr index lqi frame rm hevent
    cases hevent
  have hcareful' : Careful net' (.deliver 2 0 200) := by
    intro addr index lqi frame rm hevent _ _ _ _ label hlabel
    cases hevent
    rw [hnodes] at hlabel
    cases hlabel
  exact (mesh_loop_free (.step _ (.step _ hstart hcareful hfirst) hcareful' hsecond)).1

/-! ## A run that makes a loop -/

/-- Node 1 asks for a route, node 2 hears it directly and node 3 through node 2; then node 2 loses an
acknowledgement on the way to node 1, asks for a new route and hears node 3 repeat the old request. -/
def loopRun : List Event :=
  [.request 1 9 ⟨0, false⟩, .deliver 2 0 200, .deliver 3 1 200, .request 2 1 ⟨0, false⟩,
    .linkFailure 2 1, .request 2 1 ⟨1, false⟩, .deliver 2 2 200]

/-- A node that waits for a reply takes any route: after this run nodes 2 and 3 send what is meant for
node 1 to each other. -/
theorem pending_route_loops :
    ∃ net, loopRun.foldlM step .start = some net ∧
      net.nextHop 1 2 = some 3 ∧ net.nextHop 1 3 = some 2 ∧ ¬LoopFree (net.nextHop 1) := by
  have hrun : (loopRun.foldlM step .start).map
      (fun net ↦ (net.nextHop 1 2, net.nextHop 1 3)) = some (some 3, some 2) := by
    decide +kernel
  obtain ⟨net, hnet, hhops⟩ := map_eq_some_iff.mp hrun
  have htwo : net.nextHop 1 2 = some 3 := congrArg Prod.fst hhops
  have hthree : net.nextHop 1 3 = some 2 := congrArg Prod.snd hhops
  exact ⟨net, hnet, htwo, hthree, fun hfree ↦ hfree 2 (.tail (.single htwo) hthree)⟩

end MicroFramework.Mesh
