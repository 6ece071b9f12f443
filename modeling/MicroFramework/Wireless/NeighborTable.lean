import Mathlib.Data.List.Nodup

/-!
# The neighbour table

A node notes the nodes whose beacons it hears, with the quality of the link in both directions, and
forgets those it has not heard for some rounds of the timer.  A sender that is not in a full table
stays outside, however good its link is: the entry of the worst link leaves only a table with more
entries than there may be.
-/

namespace MicroFramework.Wireless

open List

/-! ## The table -/

/-- A node that a beacon lists, with the quality at which the sender hears it. -/
structure Neighbour where
  address : UInt16
  lqi : UInt8
  deriving DecidableEq

namespace NeighborhoodDiscovery

def cMaxNeighbours : ℕ := 30

def messageType : UInt8 := 6

def readNeighbours : List UInt8 → List Neighbour
  | low :: high :: lqi :: rest =>
    ⟨low.toUInt16 ||| (high.toUInt16 <<< 8), lqi⟩ :: readNeighbours rest
  | _ => []

def readFromFrame : List UInt8 → Option (List Neighbour)
  | [] => none
  | header :: rest =>
    if header >>> 2 ≠ messageType then none
    else if rest.length % 3 ≠ 0 then none
    else some (readNeighbours rest)

end NeighborhoodDiscovery

structure NeighborTable.Entry where
  addrShort : UInt16
  lqiRx : UInt8
  lqiTx : UInt8
  lqiTxValid : Bool
  missCounter : UInt8
  deriving DecidableEq

structure NeighborTable where
  neighbours : List NeighborTable.Entry
  localAddr : UInt16
  deriving DecidableEq

namespace NeighborTable

def cMaxSize : ℕ := NeighborhoodDiscovery.cMaxNeighbours

def cMaxMissCount : UInt8 := 2

/-- The entry behind a beacon, before it is known what the beacon lists. -/
def Entry.heard (e : Entry) (lqi : UInt8) : Entry :=
  { e with lqiRx := lqi, lqiTx := 0, lqiTxValid := false, missCounter := 0 }

def Entry.listedBy (e : Entry) (listed : List Neighbour) (localAddr : UInt16) : Entry :=
  match listed.find? fun n ↦ n.address == localAddr with
  | some n => { e with lqiTxValid := true, lqiTx := n.lqi }
  | none => e

def indexOf (neighbours : List Entry) (addrShort : UInt16) : Option ℕ :=
  neighbours.findIdx? fun e ↦ e.addrShort == addrShort

/-- An entry that is changed where it is; one outside the table changes nothing in it. -/
def changeAt (neighbours : List Entry) (index : Option ℕ) (f : Entry → Entry) : List Entry :=
  match index with
  | some i => neighbours.modify i f
  | none => neighbours

def enter (neighbours : List Entry) (senderAddr : UInt16) : List Entry × Option ℕ :=
  match indexOf neighbours senderAddr with
  | some i => (neighbours, some i)
  | none =>
    if neighbours.length < cMaxSize then
      (neighbours ++ [⟨senderAddr, 0, 0, false, 0⟩], some neighbours.length)
    else (neighbours, none)

/-- The loop for the entry of the lowest quality. -/
def worstFrom : List Entry → ℕ → UInt8 → ℕ → ℕ
  | [], _, _, iWorst => iWorst
  | e :: rest, i, lqiWorst, iWorst =>
    if e.lqiRx < lqiWorst then worstFrom rest (i + 1) e.lqiRx i
    else worstFrom rest (i + 1) lqiWorst iWorst

/-- The worst entry leaves a table that is too large, with the place of the sender's entry behind
it. -/
def removeWorst (neighbours : List Entry) (index : Option ℕ) : List Entry × Option ℕ :=
  if neighbours.length > cMaxSize then
    let iWorst := worstFrom neighbours 0 0xff 0
    (neighbours.eraseIdx iWorst,
      index.bind fun i ↦ if i = iWorst then none else if iWorst < i then some (i - 1) else some i)
  else (neighbours, index)

def receiveBeacon (t : NeighborTable) (senderAddr : UInt16) (sdu : Option (List UInt8))
    (lqi : UInt8) : NeighborTable :=
  match sdu.bind NeighborhoodDiscovery.readFromFrame with
  | none => t
  | some listed =>
    let entered := enter t.neighbours senderAddr
    let kept := removeWorst (changeAt entered.1 entered.2 fun e ↦ e.heard lqi) entered.2
    { t with neighbours := changeAt kept.1 kept.2 fun e ↦ e.listedBy listed t.localAddr }

def updateLqi (t : NeighborTable) (senderAddr : UInt16) (lqi : UInt8) : NeighborTable :=
  { t with neighbours :=
      changeAt t.neighbours (indexOf t.neighbours senderAddr) fun e ↦ { e with lqiRx := lqi } }

/-- One round of the timer over the entries. -/
def countMisses : List Entry → List Entry
  | [] => []
  | entry :: rest =>
    if entry.missCounter > cMaxMissCount then countMisses rest
    else { entry with missCounter := entry.missCounter + 1 } :: countMisses rest

def timerRound (t : NeighborTable) : NeighborTable :=
  { t with neighbours := countMisses t.neighbours }

/-- Whether a node is a neighbour, with the quality of the link in the worse direction. -/
def isNeighbor (t : NeighborTable) (addrShort : UInt16) : Bool × UInt8 :=
  match t.neighbours.find? fun e ↦ e.addrShort == addrShort with
  | some e =>
    if e.lqiTxValid then (true, if e.lqiTx < e.lqiRx then e.lqiTx else e.lqiRx) else (false, 0)
  | none => (false, 0)

inductive Event
  | receiveBeacon (senderAddr : UInt16) (sdu : Option (List UInt8)) (lqi : UInt8)
  | updateLqi (senderAddr : UInt16) (lqi : UInt8)
  | timerRound

def step (t : NeighborTable) : Event → NeighborTable
  | .receiveBeacon senderAddr sdu lqi => t.receiveBeacon senderAddr sdu lqi
  | .updateLqi senderAddr lqi => t.updateLqi senderAddr lqi
  | .timerRound => t.timerRound

/-- The table of a node after the events of a history, the latest of them first. -/
def after (localAddr : UInt16) : List Event → NeighborTable
  | [] => ⟨[], localAddr⟩
  | event :: history => (after localAddr history).step event

def addresses (t : NeighborTable) : List UInt16 :=
  t.neighbours.map Entry.addrShort

/-! ## What a history says of a node -/

/-- The neighbours that the beacon of a node lists, where the event is one that can be read. -/
def Event.beaconOf (addrShort : UInt16) : Event → Option (List Neighbour)
  | .receiveBeacon senderAddr sdu _ =>
    if senderAddr = addrShort then sdu.bind NeighborhoodDiscovery.readFromFrame else none
  | _ => none

def latestBeacon (addrShort : UInt16) (history : List Event) : Option (List Neighbour) :=
  history.findSome? (Event.beaconOf addrShort)

def Event.qualityOf (addrShort : UInt16) : Event → Option UInt8
  | .receiveBeacon senderAddr sdu lqi =>
    if senderAddr = addrShort ∧ (sdu.bind NeighborhoodDiscovery.readFromFrame).isSome then some lqi
    else none
  | .updateLqi senderAddr lqi => if senderAddr = addrShort then some lqi else none
  | .timerRound => none

def latestQuality (addrShort : UInt16) (history : List Event) : Option UInt8 :=
  history.findSome? (Event.qualityOf addrShort)

/-- The rounds of the timer since the latest beacon of a node. -/
def missed (addrShort : UInt16) : List Event → ℕ
  | [] => 0
  | .timerRound :: history => missed addrShort history + 1
  | event :: history => if (event.beaconOf addrShort).isSome then 0 else missed addrShort history

/-! ## What the operations do to the entries -/

variable {neighbours : List Entry} {addrShort : UInt16}

theorem changeAt_changeAt (neighbours : List Entry) (index : Option ℕ) (f g : Entry → Entry) :
    changeAt (changeAt neighbours index f) index g = changeAt neighbours index fun e ↦ g (f e) := by
  cases index with
  | none => rfl
  | some i => exact modify_modify_eq f g i neighbours

@[simp] theorem length_changeAt (neighbours : List Entry) (index : Option ℕ) (f : Entry → Entry) :
    (changeAt neighbours index f).length = neighbours.length := by
  cases index with
  | none => rfl
  | some i => exact length_modify ..

theorem changeAt_append (neighbours : List Entry) (e : Entry) (f : Entry → Entry) :
    changeAt (neighbours ++ [e]) (some neighbours.length) f = neighbours ++ [f e] := by
  induction neighbours with
  | nil => rfl
  | cons first rest ih => exact congrArg (first :: ·) ih

/-- Where the addresses differ, the entry at the index of an address is the one with this address.
-/
theorem changeAt_indexOf (hnodup : (neighbours.map Entry.addrShort).Nodup) (f : Entry → Entry) :
    changeAt neighbours (indexOf neighbours addrShort) f =
      neighbours.map fun e ↦ if e.addrShort = addrShort then f e else e := by
  induction neighbours with
  | nil => rfl
  | cons e rest ih =>
    obtain ⟨hnew, hrest⟩ := nodup_cons.mp hnodup
    rw [indexOf, findIdx?_cons]
    by_cases heq : e.addrShort = addrShort
    · rw [if_pos (by simpa using heq), map_cons, if_pos heq]
      have hothers :
          rest.map (fun e ↦ if e.addrShort = addrShort then f e else e) = rest.map id := by
        apply map_congr_left
        intro e' he'
        apply if_neg
        intro hsame
        exact hnew (heq.trans hsame.symm ▸ mem_map_of_mem he')
      rw [hothers, map_id]
      rfl
    · rw [if_neg (by simpa using heq), map_cons, if_neg heq, ← ih hrest, ← indexOf]
      cases indexOf rest addrShort <;> rfl

theorem indexOf_eq_none_iff :
    indexOf neighbours addrShort = none ↔ addrShort ∉ neighbours.map Entry.addrShort := by
  rw [indexOf, findIdx?_eq_none_iff, mem_map]
  simp only [beq_eq_false_iff_ne, not_exists, not_and]

theorem enter_of_mem (hmem : addrShort ∈ neighbours.map Entry.addrShort) :
    enter neighbours addrShort = (neighbours, indexOf neighbours addrShort) := by
  rw [enter]
  cases hindex : indexOf neighbours addrShort with
  | some i => rfl
  | none => exact absurd hmem (indexOf_eq_none_iff.mp hindex)

theorem enter_of_notMem (hnew : addrShort ∉ neighbours.map Entry.addrShort) :
    enter neighbours addrShort = if neighbours.length < cMaxSize
      then (neighbours ++ [⟨addrShort, 0, 0, false, 0⟩], some neighbours.length)
      else (neighbours, none) := by
  rw [enter, indexOf_eq_none_iff.mpr hnew]

theorem removeWorst_of_le (h : neighbours.length ≤ cMaxSize) (index : Option ℕ) :
    removeWorst neighbours index = (neighbours, index) :=
  if_neg (Nat.not_lt.mpr h)

theorem countMisses_eq (neighbours : List Entry) :
    countMisses neighbours = (neighbours.filter fun e ↦ e.missCounter ≤ cMaxMissCount).map
      fun e ↦ { e with missCounter := e.missCounter + 1 } := by
  induction neighbours with
  | nil => rfl
  | cons e rest ih =>
    rw [countMisses]
    by_cases hmiss : e.missCounter > cMaxMissCount
    · rw [if_pos hmiss, filter_cons_of_neg (by simpa using hmiss), ih]
    · rw [if_neg hmiss, filter_cons_of_pos (by simpa using hmiss), map_cons, ih]

/-- The entry of a sender behind its beacon. -/
def reported (senderAddr : UInt16) (listed : List Neighbour) (lqi : UInt8) (localAddr : UInt16) :
    Entry :=
  (⟨senderAddr, lqi, 0, false, 0⟩ : Entry).listedBy listed localAddr

section Beacons

variable {t : NeighborTable} {senderAddr : UInt16} {sdu : Option (List UInt8)} (lqi : UInt8)
  {listed : List Neighbour}

theorem receiveBeacon_unread (hread : sdu.bind NeighborhoodDiscovery.readFromFrame = none) :
    t.receiveBeacon senderAddr sdu lqi = t := by
  rw [receiveBeacon, hread]

theorem receiveBeacon_known (hread : sdu.bind NeighborhoodDiscovery.readFromFrame = some listed)
    (hlen : t.neighbours.length ≤ cMaxSize) (hnodup : t.addresses.Nodup)
    (hmem : senderAddr ∈ t.addresses) :
    (t.receiveBeacon senderAddr sdu lqi).neighbours = t.neighbours.map fun e ↦
      if e.addrShort = senderAddr then reported senderAddr listed lqi t.localAddr else e := by
  rw [receiveBeacon, hread]
  dsimp only
  rw [enter_of_mem hmem]
  dsimp only
  rw [removeWorst_of_le (by rwa [length_changeAt])]
  dsimp only
  rw [changeAt_changeAt, changeAt_indexOf hnodup]
  apply map_congr_left
  intro e _
  by_cases heq : e.addrShort = senderAddr
  · rw [if_pos heq, if_pos heq, ← heq]
    rfl
  · rw [if_neg heq, if_neg heq]

/-- The beacon of another node adds an entry where there is room, and nothing otherwise. -/
theorem receiveBeacon_new (hread : sdu.bind NeighborhoodDiscovery.readFromFrame = some listed)
    (hlen : t.neighbours.length ≤ cMaxSize) (hnew : senderAddr ∉ t.addresses) :
    (t.receiveBeacon senderAddr sdu lqi).neighbours =
      if t.neighbours.length < cMaxSize
      then t.neighbours ++ [reported senderAddr listed lqi t.localAddr] else t.neighbours := by
  rw [receiveBeacon, hread]
  dsimp only
  rw [enter_of_notMem hnew]
  by_cases hroom : t.neighbours.length < cMaxSize
  · rw [if_pos hroom, if_pos hroom]
    dsimp only
    rw [changeAt_append, removeWorst_of_le (by rw [length_append]; exact hroom)]
    dsimp only
    rw [changeAt_append]
    rfl
  · rw [if_neg hroom, if_neg hroom]
    dsimp only
    rw [changeAt, removeWorst_of_le hlen, changeAt]

end Beacons

/-! ## What the table knows -/

/-- The quality at which the other node hears this one, if it does. -/
def Entry.report (e : Entry) : Option UInt8 :=
  if e.lqiTxValid then some e.lqiTx else none

/-- The quality at which a beacon lists a node. -/
def listing (listed : List Neighbour) (localAddr : UInt16) : Option UInt8 :=
  (listed.find? fun n ↦ n.address == localAddr).map Neighbour.lqi

theorem report_reported (senderAddr : UInt16) (listed : List Neighbour) (lqi : UInt8)
    (localAddr : UInt16) :
    (reported senderAddr listed lqi localAddr).report = listing listed localAddr := by
  rw [reported, Entry.listedBy, listing]
  cases listed.find? fun n ↦ n.address == localAddr <;> rfl

theorem reported_rest (senderAddr : UInt16) (listed : List Neighbour) (lqi : UInt8)
    (localAddr : UInt16) :
    (reported senderAddr listed lqi localAddr).addrShort = senderAddr ∧
      (reported senderAddr listed lqi localAddr).lqiRx = lqi ∧
      (reported senderAddr listed lqi localAddr).missCounter = 0 := by
  rw [reported, Entry.listedBy]
  cases listed.find? fun n ↦ n.address == localAddr <;> exact ⟨rfl, rfl, rfl⟩

/-- An entry says of its node what the history says. -/
structure Entry.Tracks (localAddr : UInt16) (history : List Event) (e : Entry) : Prop where
  quality : latestQuality e.addrShort history = some e.lqiRx
  beacon : (latestBeacon e.addrShort history).map (listing · localAddr) = some e.report
  missed : e.missCounter.toNat = missed e.addrShort history
  bounded : e.missCounter.toNat ≤ cMaxMissCount.toNat + 1

structure Tracks (localAddr : UInt16) (history : List Event) (t : NeighborTable) : Prop where
  localAddr_eq : t.localAddr = localAddr
  length_le : t.neighbours.length ≤ cMaxSize
  nodup : t.addresses.Nodup
  entries : ∀ e ∈ t.neighbours, e.Tracks localAddr history

section History

variable {localAddr : UInt16} {history : List Event} {e : Entry} {event : Event}

theorem latestBeacon_cons (addrShort : UInt16) (event : Event) (history : List Event) :
    latestBeacon addrShort (event :: history) =
      (event.beaconOf addrShort).or (latestBeacon addrShort history) := by
  rw [latestBeacon, findSome?_cons]
  cases event.beaconOf addrShort <;> rfl

theorem latestQuality_cons (addrShort : UInt16) (event : Event) (history : List Event) :
    latestQuality addrShort (event :: history) =
      (event.qualityOf addrShort).or (latestQuality addrShort history) := by
  rw [latestQuality, findSome?_cons]
  cases event.qualityOf addrShort <;> rfl

theorem missed_cons (addrShort : UInt16) (hround : event ≠ .timerRound) :
    missed addrShort (event :: history) =
      if (event.beaconOf addrShort).isSome then 0 else missed addrShort history := by
  cases event with
  | timerRound => exact absurd rfl hround
  | _ => rfl

/-- An event that says nothing of a node leaves its entry right. -/
theorem Entry.Tracks.skip (h : e.Tracks localAddr history)
    (hbeacon : event.beaconOf e.addrShort = none) (hquality : event.qualityOf e.addrShort = none)
    (hround : event ≠ .timerRound) : e.Tracks localAddr (event :: history) where
  quality := by rw [latestQuality_cons, hquality, Option.none_or, h.quality]
  beacon := by rw [latestBeacon_cons, hbeacon, Option.none_or, h.beacon]
  missed := by
    rw [missed_cons _ hround, hbeacon, h.missed]
    rfl
  bounded := h.bounded

theorem tracks_reported {senderAddr : UInt16} {sdu : Option (List UInt8)} {lqi : UInt8}
    {listed : List Neighbour} (hread : sdu.bind NeighborhoodDiscovery.readFromFrame = some listed) :
    (reported senderAddr listed lqi localAddr).Tracks localAddr
      (.receiveBeacon senderAddr sdu lqi :: history) := by
  obtain ⟨haddr, hrx, hmiss⟩ := reported_rest senderAddr listed lqi localAddr
  have hbeacon : (Event.receiveBeacon senderAddr sdu lqi).beaconOf senderAddr = some listed :=
    (if_pos rfl).trans hread
  have hquality : (Event.receiveBeacon senderAddr sdu lqi).qualityOf senderAddr = some lqi :=
    if_pos ⟨rfl, by rw [hread]; rfl⟩
  constructor
  · rw [haddr, hrx, latestQuality_cons, hquality, Option.some_or]
  · rw [haddr, latestBeacon_cons, hbeacon, Option.some_or, report_reported]
    rfl
  · have hround : Event.receiveBeacon senderAddr sdu lqi ≠ .timerRound := nofun
    rw [haddr, hmiss, missed_cons _ hround, hbeacon]
    rfl
  · rw [hmiss]
    exact Nat.zero_le _

theorem Entry.Tracks.round (h : e.Tracks localAddr history)
    (hmiss : e.missCounter ≤ cMaxMissCount) :
    ({ e with missCounter := e.missCounter + 1 } : Entry).Tracks localAddr
      (.timerRound :: history) := by
  have hle : e.missCounter.toNat ≤ 2 := UInt8.le_iff_toNat_le.mp hmiss
  have hsucc : (e.missCounter + 1).toNat = e.missCounter.toNat + 1 := by
    rw [UInt8.toNat_add]
    show (e.missCounter.toNat + 1) % 256 = _
    omega
  refine ⟨h.quality, h.beacon, ?_, ?_⟩
  · rw [hsucc, h.missed]
    rfl
  · show (e.missCounter + 1).toNat ≤ 3
    omega

end History

/-! ## Every event keeps the table right -/

section Steps

variable {localAddr : UInt16} {history : List Event} {t : NeighborTable}

theorem addresses_of_neighbours {t' : NeighborTable} {f : Entry → Entry}
    (h : t'.neighbours = t.neighbours.map f) (hf : ∀ e, (f e).addrShort = e.addrShort) :
    t'.addresses = t.addresses := by
  rw [addresses, h, map_map, addresses]
  exact map_congr_left fun e _ ↦ hf e

theorem beaconOf_of_ne {senderAddr addrShort : UInt16} (hne : addrShort ≠ senderAddr)
    (sdu : Option (List UInt8)) (lqi : UInt8) :
    (Event.receiveBeacon senderAddr sdu lqi).beaconOf addrShort = none ∧
      (Event.receiveBeacon senderAddr sdu lqi).qualityOf addrShort = none :=
  ⟨if_neg hne.symm, if_neg fun h ↦ hne h.1.symm⟩

section

variable (h : t.Tracks localAddr history)

include h

theorem Tracks.receiveBeacon (senderAddr : UInt16) (sdu : Option (List UInt8)) (lqi : UInt8) :
    (t.receiveBeacon senderAddr sdu lqi).Tracks localAddr
      (.receiveBeacon senderAddr sdu lqi :: history) := by
  cases hread : sdu.bind NeighborhoodDiscovery.readFromFrame with
  | none =>
    rw [receiveBeacon_unread lqi hread]
    refine { h with entries := fun e he ↦ (h.entries e he).skip ?_ ?_ nofun }
    · show (if _ then _ else _) = none
      rw [hread, ite_self]
    · exact if_neg fun hsome ↦ by rw [hread] at hsome; exact absurd hsome.2 Bool.false_ne_true
  | some listed =>
    have hlocal : (t.receiveBeacon senderAddr sdu lqi).localAddr = localAddr := by
      rw [NeighborTable.receiveBeacon, hread]
      exact h.localAddr_eq
    have hother (e : Entry) (he : e ∈ t.neighbours) (hne : e.addrShort ≠ senderAddr) :
        e.Tracks localAddr (.receiveBeacon senderAddr sdu lqi :: history) :=
      (h.entries e he).skip (beaconOf_of_ne hne sdu lqi).1 (beaconOf_of_ne hne sdu lqi).2 nofun
    by_cases hmem : senderAddr ∈ t.addresses
    · have hknown := receiveBeacon_known lqi hread h.length_le h.nodup hmem
      refine ⟨hlocal, ?_, ?_, ?_⟩
      · rw [hknown, length_map]
        exact h.length_le
      · rw [addresses_of_neighbours hknown]
        · exact h.nodup
        · intro e
          split
          · rename_i heq
            rw [heq]
            exact (reported_rest ..).1
          · rfl
      · rw [hknown, forall_mem_map]
        intro e he
        by_cases heq : e.addrShort = senderAddr
        · rw [if_pos heq, h.localAddr_eq]
          exact tracks_reported hread
        · rw [if_neg heq]
          exact hother e he heq
    · have hnew := receiveBeacon_new lqi hread h.length_le hmem
      have hentries (e : Entry) (he : e ∈ t.neighbours) :
          e.Tracks localAddr (.receiveBeacon senderAddr sdu lqi :: history) :=
        hother e he fun heq ↦ hmem (heq ▸ mem_map_of_mem he)
      by_cases hroom : t.neighbours.length < cMaxSize
      · rw [if_pos hroom] at hnew
        refine ⟨hlocal, ?_, ?_, ?_⟩
        · rw [hnew, length_append]
          exact hroom
        · rw [addresses, hnew, map_append, map_singleton, (reported_rest ..).1]
          exact h.nodup.append (nodup_singleton _) (disjoint_singleton.mpr hmem)
        · rw [hnew]
          intro e he
          rcases mem_append.mp he with hold | hadded
          · exact hentries e hold
          · rw [mem_singleton.mp hadded, h.localAddr_eq]
            exact tracks_reported hread
      · rw [if_neg hroom] at hnew
        refine ⟨hlocal, ?_, ?_, ?_⟩
        · rw [hnew]
          exact h.length_le
        · rw [addresses, hnew]
          exact h.nodup
        · rw [hnew]
          exact hentries

theorem Tracks.updateLqi (senderAddr : UInt16) (lqi : UInt8) :
    (t.updateLqi senderAddr lqi).Tracks localAddr (.updateLqi senderAddr lqi :: history) := by
  have hneighbours : (t.updateLqi senderAddr lqi).neighbours = t.neighbours.map fun e ↦
      if e.addrShort = senderAddr then { e with lqiRx := lqi } else e := changeAt_indexOf h.nodup _
  refine ⟨h.localAddr_eq, ?_, ?_, ?_⟩
  · rw [hneighbours, length_map]
    exact h.length_le
  · rw [addresses_of_neighbours hneighbours]
    · exact h.nodup
    · intro e
      split <;> rfl
  · rw [hneighbours, forall_mem_map]
    intro e he
    have htracks := h.entries e he
    by_cases heq : e.addrShort = senderAddr
    · rw [if_pos heq]
      refine ⟨?_, htracks.beacon, htracks.missed, htracks.bounded⟩
      rw [latestQuality_cons]
      exact congrArg (Option.or · _) (if_pos heq.symm)
    · rw [if_neg heq]
      exact htracks.skip rfl (if_neg fun hsame ↦ heq hsame.symm) nofun

theorem Tracks.timerRound : t.timerRound.Tracks localAddr (.timerRound :: history) := by
  have hneighbours : t.timerRound.neighbours =
      (t.neighbours.filter fun e ↦ e.missCounter ≤ cMaxMissCount).map
        fun e ↦ { e with missCounter := e.missCounter + 1 } := countMisses_eq _
  refine ⟨h.localAddr_eq, ?_, ?_, ?_⟩
  · rw [hneighbours, length_map]
    exact Nat.le_trans (length_filter_le ..) h.length_le
  · rw [addresses, hneighbours, map_map]
    exact h.nodup.sublist (List.filter_sublist.map Entry.addrShort)
  · rw [hneighbours, forall_mem_map]
    intro e he
    obtain ⟨he, hmiss⟩ := mem_filter.mp he
    exact (h.entries e he).round (of_decide_eq_true hmiss)

theorem Tracks.step (event : Event) : (t.step event).Tracks localAddr (event :: history) := by
  cases event with
  | receiveBeacon senderAddr sdu lqi => exact h.receiveBeacon senderAddr sdu lqi
  | updateLqi senderAddr lqi => exact h.updateLqi senderAddr lqi
  | timerRound => exact h.timerRound

end

theorem tracks_after (localAddr : UInt16) (history : List Event) :
    (after localAddr history).Tracks localAddr history := by
  induction history with
  | nil => exact ⟨rfl, Nat.zero_le _, nodup_nil, nofun⟩
  | cons event history ih => exact ih.step event

end Steps

/-! ## The best neighbours -/

/-- A node is a neighbour if it is in the table and its latest beacon lists the local node; the
quality is the worse one of what the two nodes heard last. -/
def KnowsLinks (t : NeighborTable) (localAddr : UInt16) (history : List Event) : Prop :=
  ∀ addrShort lqi, t.isNeighbor addrShort = (true, lqi) ↔
    addrShort ∈ t.addresses ∧ ∃ listed tx rx, latestBeacon addrShort history = some listed ∧
      listing listed localAddr = some tx ∧ latestQuality addrShort history = some rx ∧
        lqi = if tx < rx then tx else rx

/-- Behind a beacon that can be read the sender is in the table, or the table is full of nodes whose
quality is no lower. -/
def KeepsBest (t : NeighborTable) (event : Event) : Prop :=
  ∀ senderAddr sdu lqi, event = .receiveBeacon senderAddr sdu lqi →
    (sdu.bind NeighborhoodDiscovery.readFromFrame).isSome →
      senderAddr ∈ (t.step event).addresses ∨
        (t.step event).neighbours.length = cMaxSize ∧
          ∀ e ∈ (t.step event).neighbours, e.addrShort ≠ senderAddr ∧ lqi ≤ e.lqiRx

/-- A node leaves the table for one of higher quality, or after too many rounds without its beacon.
-/
def LeavesRightly (t : NeighborTable) (history : List Event) (event : Event) : Prop :=
  ∀ e ∈ t.neighbours, e.addrShort ∉ (t.step event).addresses →
    (∃ senderAddr sdu lqi, event = .receiveBeacon senderAddr sdu lqi ∧
      t.neighbours.length = cMaxSize ∧ senderAddr ∈ (t.step event).addresses ∧ e.lqiRx < lqi) ∨
    event = .timerRound ∧ cMaxMissCount.toNat < missed e.addrShort (event :: history)

/-- No new sender finds a full table with an entry of lower quality. -/
def Admits (t : NeighborTable) (event : Event) : Prop :=
  ∀ senderAddr sdu lqi, event = .receiveBeacon senderAddr sdu lqi →
    (sdu.bind NeighborhoodDiscovery.readFromFrame).isSome → senderAddr ∉ t.addresses →
      t.neighbours.length = cMaxSize → ∀ e ∈ t.neighbours, lqi ≤ e.lqiRx

section Results

variable {localAddr : UInt16} {history : List Event} {t : NeighborTable}

section

variable (h : t.Tracks localAddr history)

include h

theorem Tracks.knowsLinks : t.KnowsLinks localAddr history := by
  intro addrShort lqi
  rw [isNeighbor]
  cases hfind : t.neighbours.find? fun e ↦ e.addrShort == addrShort with
  | none =>
    refine iff_of_false (fun heq ↦ Bool.false_ne_true (congrArg Prod.fst heq)) fun hmem ↦ ?_
    obtain ⟨e, he, heq⟩ := mem_map.mp hmem.1
    exact find?_eq_none.mp hfind e he (beq_iff_eq.mpr heq)
  | some e =>
    have he : e ∈ t.neighbours := mem_of_find?_eq_some hfind
    obtain rfl : e.addrShort = addrShort := by simpa using find?_some hfind
    have htracks := h.entries e he
    obtain ⟨listed, hbeacon, hreport⟩ := Option.map_eq_some_iff.mp htracks.beacon
    dsimp only
    by_cases hvalid : e.lqiTxValid = true
    · rw [if_pos hvalid]
      have htx : listing listed localAddr = some e.lqiTx := hreport.trans (if_pos hvalid)
      constructor
      · intro heq
        exact ⟨mem_map_of_mem he, listed, e.lqiTx, e.lqiRx, hbeacon, htx, htracks.quality,
          (congrArg Prod.snd heq).symm⟩
      · rintro ⟨-, listed', tx, rx, hbeacon', htx', hrx, hlqi⟩
        obtain rfl := Option.some.inj (hbeacon.symm.trans hbeacon')
        obtain rfl := Option.some.inj (htx.symm.trans htx')
        obtain rfl := Option.some.inj (htracks.quality.symm.trans hrx)
        rw [hlqi]
    · rw [if_neg hvalid]
      refine iff_of_false (fun heq ↦ Bool.false_ne_true (congrArg Prod.fst heq)) ?_
      rintro ⟨-, listed', tx, rx, hbeacon', htx, -, -⟩
      obtain rfl := Option.some.inj (hbeacon.symm.trans hbeacon')
      have hnone : listing listed localAddr = none := hreport.trans (if_neg hvalid)
      rw [hnone] at htx
      cases htx

theorem Tracks.keepsBest_iff (event : Event) : t.KeepsBest event ↔ t.Admits event := by
  constructor
  · intro hkeeps senderAddr sdu lqi hevent hread hnew hfull e he
    obtain ⟨listed, hlisted⟩ := Option.isSome_iff_exists.mp hread
    have hsame := receiveBeacon_new lqi hlisted h.length_le hnew
    rw [if_neg (by omega)] at hsame
    subst hevent
    rcases hkeeps senderAddr sdu lqi rfl hread with hmem | ⟨-, hbest⟩
    · refine absurd ?_ hnew
      rwa [addresses, NeighborTable.step, hsame] at hmem
    · rw [NeighborTable.step, hsame] at hbest
      exact (hbest e he).2
  · intro hadmits senderAddr sdu lqi hevent hread
    obtain ⟨listed, hlisted⟩ := Option.isSome_iff_exists.mp hread
    by_cases hmem : senderAddr ∈ t.addresses
    · left
      have hknown := receiveBeacon_known lqi hlisted h.length_le h.nodup hmem
      subst hevent
      obtain ⟨e, he, heq⟩ := mem_map.mp hmem
      rw [addresses, NeighborTable.step, hknown, map_map]
      refine mem_map.mpr ⟨e, he, ?_⟩
      show (if e.addrShort = senderAddr then _ else e).addrShort = senderAddr
      rw [if_pos heq, (reported_rest ..).1]
    · have hnew := receiveBeacon_new lqi hlisted h.length_le hmem
      have hquality := hadmits senderAddr sdu lqi hevent hread hmem
      subst hevent
      by_cases hroom : t.neighbours.length < cMaxSize
      · left
        rw [addresses, NeighborTable.step, hnew, if_pos hroom, map_append, map_singleton,
          (reported_rest ..).1]
        exact mem_append_right _ (mem_singleton_self _)
      · right
        have hfull : t.neighbours.length = cMaxSize :=
          Nat.le_antisymm h.length_le (Nat.not_lt.mp hroom)
        rw [NeighborTable.step, hnew, if_neg hroom]
        refine ⟨hfull, fun e he ↦ ⟨?_, hquality hfull e he⟩⟩
        exact fun heq ↦ hmem (heq ▸ mem_map_of_mem he)

theorem Tracks.leavesRightly (event : Event) : t.LeavesRightly history event := by
  intro e he hleft
  cases event with
  | receiveBeacon senderAddr sdu lqi =>
    refine absurd ?_ hleft
    rw [NeighborTable.step]
    cases hread : sdu.bind NeighborhoodDiscovery.readFromFrame with
    | none =>
      rw [receiveBeacon_unread lqi hread]
      exact mem_map_of_mem he
    | some listed =>
      by_cases hmem : senderAddr ∈ t.addresses
      · rw [addresses, receiveBeacon_known lqi hread h.length_le h.nodup hmem, map_map]
        refine mem_map.mpr ⟨e, he, ?_⟩
        show (if e.addrShort = senderAddr then _ else e).addrShort = e.addrShort
        split
        · rename_i heq
          rw [(reported_rest ..).1, heq]
        · rfl
      · rw [addresses, receiveBeacon_new lqi hread h.length_le hmem]
        split
        · exact mem_map_of_mem (mem_append_left _ he)
        · exact mem_map_of_mem he
  | updateLqi senderAddr lqi =>
    refine absurd ?_ hleft
    rw [NeighborTable.step, NeighborTable.updateLqi, addresses, changeAt_indexOf h.nodup,
      map_map]
    refine mem_map.mpr ⟨e, he, ?_⟩
    show (if e.addrShort = senderAddr then _ else e).addrShort = e.addrShort
    split <;> rfl
  | timerRound =>
    right
    refine ⟨rfl, ?_⟩
    have hmissed : missed e.addrShort (.timerRound :: history) = e.missCounter.toNat + 1 := by
      rw [missed, (h.entries e he).missed]
    rw [hmissed]
    by_contra hfew
    apply hleft
    rw [NeighborTable.step, NeighborTable.timerRound, addresses, countMisses_eq, map_map]
    refine mem_map.mpr ⟨e, mem_filter.mpr ⟨he, decide_eq_true ?_⟩, rfl⟩
    exact UInt8.le_iff_toNat_le.mpr (by omega)

end

/-- In every run the table has at most one entry for each address and no more entries than it may,
knows the links to its nodes, and loses nodes for a reason only; it keeps the best ones exactly as
long as no new sender finds it full with an entry of lower quality. -/
theorem neighbours_kept (localAddr : UInt16) (history : List Event) :
    (after localAddr history).neighbours.length ≤ cMaxSize ∧
      (after localAddr history).addresses.Nodup ∧
      (after localAddr history).KnowsLinks localAddr history ∧
      ∀ event, (after localAddr history).LeavesRightly history event ∧
        ((after localAddr history).KeepsBest event ↔ (after localAddr history).Admits event) := by
  have htracks := tracks_after localAddr history
  exact ⟨htracks.length_le, htracks.nodup, htracks.knowsLinks, fun event ↦
    ⟨htracks.leavesRightly event, htracks.keepsBest_iff event⟩⟩

end Results

/-! ## A full table -/

/-- Beacons of as many nodes as the table has room for, all heard badly. -/
def sampleHistory : List Event :=
  (List.range cMaxSize).map fun i ↦ .receiveBeacon (UInt16.ofNat i + 1) (some [24]) 10

set_option maxRecDepth 4000 in
/-- A node that is heard well does not get into a table of nodes that are heard badly. -/
theorem best_not_kept : ¬ ∀ localAddr history event, (after localAddr history).KeepsBest event := by
  intro hall
  have hadmits := ((tracks_after 0 sampleHistory).keepsBest_iff
    (.receiveBeacon 100 (some [24]) 200)).mp (hall 0 sampleHistory _)
  have hworse := hadmits 100 (some [24]) 200 rfl rfl (by decide) rfl
  exact absurd (hworse _ (mem_cons_self ..)) (by decide)

end NeighborTable

end MicroFramework.Wireless
