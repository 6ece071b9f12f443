import MicroFramework.Mesh.RoutingTable

/-!
# The routes of a table

The route a table holds for a destination, and what each operation does to the routes: an update by a
routing message sets one route, and everything else only loses routes.
-/

namespace MicroFramework.Mesh

open List

/-- What an entry says about a route. -/
structure Route where
  nextHopAddr : Address
  seqNo : UInt8
  hopCount : UInt8
  minLqi : UInt8
  deriving DecidableEq, Repr

/-- The route of an entry, none while its next hop is invalid. -/
def Entry.route (entry : Entry) : Option Route :=
  if entry.nextHopAddr = cInvalidAddr then none
  else some ⟨entry.nextHopAddr, entry.seqNo, entry.hopCount, entry.minLqi⟩

namespace Table

variable {table table' table'' : Table} {entry entry' : Entry} {target : Address}

def Distinct (table : Table) : Prop := (table.map (·.targetAddr)).Nodup

def routeTo (table : Table) (target : Address) : Option Route :=
  (table.findTargetAddr target).bind Entry.route

/-! ## Lookup -/

theorem findTargetAddr_cons (entry : Entry) (table : Table) (target : Address) :
    findTargetAddr (entry :: table) target =
      if entry.targetAddr = target then some entry else table.findTargetAddr target := by
  by_cases h : entry.targetAddr = target <;> simp [findTargetAddr, h]

theorem findTargetAddr_append (passed rest : Table) (target : Address) :
    findTargetAddr (passed ++ rest) target =
      (passed.findTargetAddr target).or (rest.findTargetAddr target) := by
  simp [findTargetAddr, find?_append]

theorem targetAddr_of_find (h : table.findTargetAddr target = some entry) :
    entry.targetAddr = target := by
  simpa using find?_some h

theorem find_eq_none_iff : table.findTargetAddr target = none ↔
    target ∉ table.map (·.targetAddr) := by
  simp [findTargetAddr]

variable {change : Entry → Entry}

/-- A change of every entry that keeps the targets changes what is found. -/
theorem findTargetAddr_map
    (hchange : ∀ entry, (change entry).targetAddr = entry.targetAddr) (table : Table) :
    findTargetAddr (table.map change) target = (table.findTargetAddr target).map change := by
  induction table with
  | nil => rfl
  | cons entry table ih =>
    rw [map_cons, findTargetAddr_cons, findTargetAddr_cons, hchange, ih]
    split <;> rfl

theorem map_targetAddr
    (hchange : ∀ entry, (change entry).targetAddr = entry.targetAddr) (table : Table) :
    (table.map change).map (·.targetAddr) = table.map (·.targetAddr) := by
  rw [map_map]
  apply map_congr_left
  intro entry _
  exact hchange entry

theorem findTargetAddr_update (hfound : ∃ old, table.findTargetAddr entry.targetAddr = some old) :
    (table.update entry).findTargetAddr target =
      if target = entry.targetAddr then some entry else table.findTargetAddr target := by
  rw [update, findTargetAddr_map (by intro item; split <;> simp_all)]
  by_cases h : target = entry.targetAddr
  · obtain ⟨old, hold⟩ := hfound
    rw [h, hold, if_pos rfl, Option.map_some, if_pos (targetAddr_of_find hold)]
  · rw [if_neg h]
    cases hfind : table.findTargetAddr target with
    | none => rfl
    | some found => rw [Option.map_some, if_neg (by rw [targetAddr_of_find hfind]; exact h)]

/-- Storing an entry changes what is found for its target only. -/
theorem findTargetAddr_put : (table.put entry).findTargetAddr target =
    if target = entry.targetAddr then some entry else table.findTargetAddr target := by
  rw [put]
  cases hfind : table.findTargetAddr entry.targetAddr with
  | some old => exact findTargetAddr_update ⟨old, hfind⟩
  | none =>
    show findTargetAddr (table ++ [entry]) target = _
    rw [findTargetAddr_append, findTargetAddr_cons]
    by_cases h : target = entry.targetAddr
    · rw [h, hfind, if_pos rfl, if_pos rfl]
      rfl
    · rw [if_neg (Ne.symm h), if_neg h]
      exact Option.or_none

theorem Distinct.put (h : table.Distinct) : (table.put entry).Distinct := by
  rw [Table.put]
  cases hfind : table.findTargetAddr entry.targetAddr with
  | some old =>
    show Distinct (table.update entry)
    rw [Distinct, update, map_targetAddr (by intro item; split <;> simp_all)]
    exact h
  | none =>
    show Distinct (table ++ [entry])
    rw [Distinct, map_append, List.nodup_append]
    refine ⟨h, by simp, ?_⟩
    intro target htarget other hother
    rw [find_eq_none_iff] at hfind
    simp only [map_cons, map_nil, mem_singleton] at hother
    rintro rfl
    exact hfind (hother ▸ htarget)

theorem routeTo_put : (table.put entry).routeTo target =
    if target = entry.targetAddr then entry.route else table.routeTo target := by
  rw [routeTo, findTargetAddr_put]
  split <;> rfl

theorem routeTo_of_find (h : table.findTargetAddr target = some entry) :
    table.routeTo target = entry.route := by
  rw [routeTo, h, Option.bind_some]

/-! ## Losing routes -/

/-- The table differs in routes that were lost, and in what is no part of a route. -/
structure Loses (table table' : Table) : Prop where
  route : ∀ target, table'.routeTo target = table.routeTo target ∨ table'.routeTo target = none
  distinct : table.Distinct → table'.Distinct

theorem Loses.refl (table : Table) : table.Loses table := ⟨fun _ ↦ .inl rfl, id⟩

theorem Loses.trans (h : table.Loses table') (h' : table'.Loses table'') : table.Loses table'' := by
  constructor
  · intro target
    rcases h'.route target with heq | hnone
    · rw [heq]
      exact h.route target
    · exact .inr hnone
  · exact fun hdistinct ↦ h'.distinct (h.distinct hdistinct)

theorem Loses.put (hroute : entry.route = table.routeTo entry.targetAddr ∨ entry.route = none) :
    table.Loses (table.put entry) := by
  constructor
  · intro target
    rw [routeTo_put]
    by_cases h : target = entry.targetAddr
    · rw [if_pos h, h]
      exact hroute
    · rw [if_neg h]
      exact .inl rfl
  · exact Distinct.put

theorem Loses.map (hchange : ∀ entry, (change entry).targetAddr = entry.targetAddr)
    (hroute : ∀ entry, (change entry).route = entry.route ∨ (change entry).route = none)
    (table : Table) : table.Loses (table.map change) := by
  constructor
  · intro target
    rw [routeTo, routeTo, findTargetAddr_map hchange]
    cases table.findTargetAddr target with
    | none => exact .inl rfl
    | some entry => exact hroute entry
  · intro hdistinct
    rw [Distinct, map_targetAddr hchange]
    exact hdistinct

/-! ## The operations -/

/-- What `UpdateRoute` found when it took the new route. -/
inductive Accepts (table : Table) (targetAddr : Address) (seqNo hopCount minLqi : UInt8) : Prop
  | new (hfind : table.findTargetAddr targetAddr = none)
  | superior (entry : Entry) (hfind : table.findTargetAddr targetAddr = some entry)
      (hsuperior : superior entry seqNo hopCount minLqi = true)

/-- An update takes a route exactly when there is no entry or the new route is superior; then it sets
this route, and otherwise it leaves the table. -/
theorem updateRoute_cases (table : Table) (targetAddr nextHopAddr : Address)
    (seqNo hopCount minLqi : UInt8) (hhop : nextHopAddr ≠ cInvalidAddr) :
    (table.Accepts targetAddr seqNo hopCount minLqi ∧ ∃ table' calls,
        table.updateRoute targetAddr nextHopAddr seqNo hopCount minLqi = (table', true, calls) ∧
          (∀ target, table'.routeTo target = if target = targetAddr then
            some ⟨nextHopAddr, seqNo, hopCount, minLqi⟩ else table.routeTo target) ∧
          (table.Distinct → table'.Distinct)) ∨
      ∃ entry, table.findTargetAddr targetAddr = some entry ∧
        superior entry seqNo hopCount minLqi = false ∧
        table.updateRoute targetAddr nextHopAddr seqNo hopCount minLqi = (table, false, []) := by
  cases hfind : table.findTargetAddr targetAddr with
  | none =>
    left
    refine ⟨.new hfind, _, _, by rw [updateRoute, hfind], ?_, Distinct.put⟩
    intro target
    rw [routeTo_put]
    simp [newEntry, Entry.route, hhop]
  | some entry =>
    by_cases hsuperior : superior entry seqNo hopCount minLqi = true
    · left
      refine ⟨.superior entry hfind hsuperior, _, _,
        by rw [updateRoute, hfind]; exact if_pos hsuperior, ?_, Distinct.put⟩
      intro target
      rw [routeTo_put]
      simp [Entry.route, hhop, targetAddr_of_find hfind]
    · right
      rw [Bool.not_eq_true] at hsuperior
      refine ⟨entry, rfl, hsuperior, ?_⟩
      rw [updateRoute, hfind]
      simp [hsuperior]

/-- Changing an entry that was found, or a new one, without touching its route. -/
theorem loses_put_of_find (hentry : (table.findTargetAddr target).getD (newEntry target) = entry)
    (htarget : entry'.targetAddr = entry.targetAddr) (hroute : entry'.route = entry.route) :
    table.Loses (table.put entry') := by
  apply Loses.put
  cases hfind : table.findTargetAddr target with
  | none =>
    right
    rw [hroute, ← hentry, hfind]
    rfl
  | some found =>
    left
    rw [hfind] at hentry
    obtain rfl : found = entry := hentry
    rw [hroute, htarget, targetAddr_of_find hfind, routeTo_of_find hfind]

theorem checkBroadcast_route (entry : Entry) (seqNo : UInt8) :
    (checkBroadcast entry seqNo).1.route = entry.route ∧
      (checkBroadcast entry seqNo).1.targetAddr = entry.targetAddr := by
  unfold checkBroadcast
  dsimp only
  repeat' split
  all_goals exact ⟨rfl, rfl⟩

theorem checkBroadcastSeqNo_loses (table : Table) (orgAddrShort : Address) (seqNo : UInt8) :
    table.Loses (table.checkBroadcastSeqNo orgAddrShort seqNo).1 := by
  have hkeep := checkBroadcast_route
    ((table.findTargetAddr orgAddrShort).getD (newEntry orgAddrShort)) seqNo
  exact loses_put_of_find rfl hkeep.2 hkeep.1

theorem handleLinkFailure_loses (table : Table) (nextHopAddr : Address) :
    table.Loses (table.handleLinkFailure nextHopAddr) := by
  unfold handleLinkFailure
  split
  · exact .refl table
  · apply Loses.map
    · intro entry
      split <;> rfl
    · intro entry
      left
      split <;> rfl

theorem handleRouteError_loses (table : Table) (targetAddr nextHopAddr : Address)
    (fatalError : Bool) : table.Loses (table.handleRouteError targetAddr nextHopAddr fatalError).1 := by
  unfold handleRouteError
  split
  · split
    · cases fatalError
      · exact .refl table
      · exact .put (.inr rfl)
    · exact .refl table
  · exact .refl table

theorem getRoute_loses (table : Table) (targetAddr : Address) :
    table.Loses (table.getRoute targetAddr).1 := by
  unfold getRoute
  split
  · rename_i entry hfind
    split
    · have hentry : (table.findTargetAddr targetAddr).getD (newEntry targetAddr) = entry := by
        rw [hfind]
        rfl
      exact loses_put_of_find hentry rfl rfl
    · exact .refl table
  · exact .refl table

theorem getRouteWithError_loses (table : Table) (targetAddr : Address) :
    table.Loses (table.getRouteWithError targetAddr).1 := by
  unfold getRouteWithError
  split
  · rename_i entry hfind
    split
    · have hentry : (table.findTargetAddr targetAddr).getD (newEntry targetAddr) = entry := by
        rw [hfind]
        rfl
      exact loses_put_of_find hentry rfl rfl
    · exact .refl table
  · exact .refl table

theorem startRequest_route (entry : Entry) :
    (startRequest entry).1.route = entry.route ∧
      (startRequest entry).1.targetAddr = entry.targetAddr := by
  unfold startRequest
  split <;> exact ⟨rfl, rfl⟩

theorem dataRequest_loses (table : Table) (targetAddr : Address) (message : PendingMessage) :
    table.Loses (table.dataRequest targetAddr message).1 := by
  unfold dataRequest
  dsimp only
  split
  · apply @loses_put_of_find table _ _ targetAddr rfl
    · rw [(startRequest_route _).2]
    · rw [(startRequest_route _).1]
      rfl
  · exact @loses_put_of_find table _ _ targetAddr rfl rfl rfl

/-! ## The timer -/

theorem timerEntry_keep {timeElapsed : ℤ} {calls : List Callback}
    (h : timerEntry timeElapsed entry = .keep entry' calls) :
    entry'.targetAddr = entry.targetAddr ∧
      (entry'.route = entry.route ∨ entry'.route = none) := by
  revert h
  unfold timerEntry timeOut
  dsimp only
  repeat' split
  all_goals
    intro h
    cases h
  all_goals first
    | exact ⟨rfl, .inl rfl⟩
    | exact ⟨rfl, .inr rfl⟩

theorem dropHop_loses (targetAddr : Address) (table : Table) :
    table.Loses (dropHop targetAddr table) := by
  apply Loses.map
  · intro entry
    split <;> rfl
  · intro entry
    split
    · exact .inr rfl
    · exact .inl rfl

variable {passed rest : Table}

theorem remove_loses (hdistinct : Distinct (passed ++ entry :: rest)) :
    Loses (passed ++ entry :: rest) (passed ++ rest) := by
  rw [Distinct, map_append, map_cons, List.nodup_append] at hdistinct
  obtain ⟨hpassed, hrest, hdisjoint⟩ := hdistinct
  rw [nodup_cons] at hrest
  constructor
  · intro target
    rw [routeTo, routeTo, findTargetAddr_append, findTargetAddr_append, findTargetAddr_cons]
    by_cases h : entry.targetAddr = target
    · right
      have hnone : rest.findTargetAddr target = none := find_eq_none_iff.mpr (h ▸ hrest.1)
      have hnone' : passed.findTargetAddr target = none := by
        apply find_eq_none_iff.mpr
        intro hmem
        exact hdisjoint _ hmem _ (mem_cons_self ..) h.symm
      rw [hnone, hnone']
      rfl
    · rw [if_neg h]
      exact .inl rfl
  · intro _
    rw [Distinct, map_append, List.nodup_append]
    refine ⟨hpassed, hrest.2, ?_⟩
    intro target htarget other hother
    exact hdisjoint target htarget other (mem_cons_of_mem _ hother)

/-- Putting an entry in the place of one with its target keeps the other routes. -/
theorem replace_loses (htarget : entry'.targetAddr = entry.targetAddr)
    (hroute : entry'.route = entry.route ∨ entry'.route = none)
    (hdistinct : Distinct (passed ++ entry :: rest)) :
    Loses (passed ++ entry :: rest) ((passed ++ [entry']) ++ rest) := by
  have htargets : (passed ++ [entry'] ++ rest).map (·.targetAddr) =
      (passed ++ entry :: rest).map (·.targetAddr) := by
    simp [htarget]
  constructor
  · intro target
    rw [routeTo, routeTo, append_assoc, singleton_append,
      findTargetAddr_append passed (entry' :: rest), findTargetAddr_append passed (entry :: rest),
      findTargetAddr_cons, findTargetAddr_cons, htarget]
    cases hpassed : passed.findTargetAddr target with
    | some found => exact .inl rfl
    | none =>
      rw [Option.none_or, Option.none_or]
      split
      · exact hroute
      · exact .inl rfl
  · intro _
    rw [Distinct, htargets]
    exact hdistinct

theorem timerPass_loses (timeElapsed : ℤ) (passed rest : Table) (calls : List Callback)
    (hdistinct : Distinct (passed ++ rest)) :
    Loses (passed ++ rest) (timerPass timeElapsed passed rest calls).1 := by
  induction passed, rest, calls using timerPass.induct timeElapsed with
  | case1 passed calls =>
    rw [timerPass, append_nil]
    exact .refl passed
  | case2 passed entry rest calls entry' made hkeep ih =>
    have hentry := timerEntry_keep hkeep
    rw [timerPass, hkeep]
    have hmid := replace_loses hentry.1 hentry.2 hdistinct
    exact hmid.trans (ih (hmid.distinct hdistinct))
  | case3 passed entry rest calls made hremove ih =>
    rw [timerPass, hremove]
    have hmid : Loses (passed ++ entry :: rest)
        (dropHop entry.targetAddr passed ++ dropHop entry.targetAddr rest) := by
      rw [dropHop, dropHop, ← map_append]
      exact (remove_loses hdistinct).trans (dropHop_loses entry.targetAddr (passed ++ rest))
    exact hmid.trans (ih (hmid.distinct hdistinct))

end Table

end MicroFramework.Mesh
