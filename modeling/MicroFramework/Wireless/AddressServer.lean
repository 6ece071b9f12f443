import Mathlib.Data.List.Nodup
import MicroFramework.Library.Runs

/-!
# The address and discovery server

Short addresses are handed out one after the other, one for each extended address.  The server also
keeps the set of the nodes that are present and notifies its user of changes; a call for an address
looks the node up, adds it and notifies in steps of their own, and what happens to the node between
the look-up and the last notification may break the order of the notifications.
-/

namespace MicroFramework.Wireless

open Library Function List UInt16

/-! ## The server -/

structure Mapping where
  extAddr : UInt64
  shortAddr : UInt16
  deriving DecidableEq

abbrev cBuckets : ℕ := 16

def cFirstAddr : UInt16 := 1

def cLastAddr : UInt16 := 32767

structure Addresses where
  nextAddr : UInt16
  data : Fin cBuckets → List Mapping

def Addresses.start : Addresses := ⟨cFirstAddr, fun _ ↦ []⟩

def bucketOf (extAddr : UInt64) : Fin cBuckets :=
  Fin.ofNat cBuckets extAddr.toNat

/-- The server of short addresses: the address of a device, which is new or the one it had. -/
def Addresses.allocateAddress (addresses : Addresses) (extAddr : UInt64) :
    Addresses × Option UInt16 :=
  let bucket := bucketOf extAddr
  match (addresses.data bucket).find? fun mapping ↦ mapping.extAddr == extAddr with
  | some mapping => (addresses, some mapping.shortAddr)
  | none =>
    if addresses.nextAddr > cLastAddr then (addresses, none)
    else
      (⟨addresses.nextAddr + 1, update addresses.data bucket
        (addresses.data bucket ++ [⟨extAddr, addresses.nextAddr⟩])⟩, some addresses.nextAddr)

/-- What may lie in persistent storage: a mapping that a server had, here or before a restart. -/
inductive Addresses.Saved : Addresses → Prop
  | start : Saved .start
  | allocateAddress {addresses : Addresses} (extAddr : UInt64) :
      Saved addresses → Saved (addresses.allocateAddress extAddr).1

structure TimerItem where
  shortAddr : UInt16
  timeoutCounter : ℕ
  deriving DecidableEq

def cMaxMissedIntervals : ℕ := 2

/-- Where a call for an address is, behind the section that found the address. -/
inductive Stage
  | lookUp
  | notifyLost
  | add
  | notifyFound
  deriving DecidableEq

structure Call where
  shortAddr : UInt16
  stage : Stage
  deriving DecidableEq

/-- The server, with the call that each thread is in, the addresses handed out and the
notifications, the latest of both first. -/
structure DiscoveryServer where
  addresses : Addresses
  data : List TimerItem
  calls : ℕ → Option Call
  granted : List Mapping
  notifications : List (UInt16 × Bool)

namespace DiscoveryServer

/-- A new server with the mapping that `Load` gave it. -/
def load (addresses : Addresses) : DiscoveryServer := ⟨addresses, [], fun _ ↦ none, [], []⟩

/-- A new server, with nothing in persistent storage. -/
def start : DiscoveryServer := load .start

def Started (s : DiscoveryServer) : Prop :=
  ∃ addresses : Addresses, addresses.Saved ∧ s = load addresses

def nodeChanged (s : DiscoveryServer) (node : UInt16) (isAvailable : Bool) : DiscoveryServer :=
  { s with notifications := (node, isAvailable) :: s.notifications }

/-- The first item of a node counts from zero again; `none` where there is no item of the node. -/
def resetCounter (data : List TimerItem) (node : UInt16) : Option (List TimerItem) :=
  match data.findIdx? fun item ↦ item.shortAddr == node with
  | some i => some (data.modify i fun item ↦ { item with timeoutCounter := 0 })
  | none => none

/-- One turn of the timer over the items: what stays, and the nodes that are reported lost. -/
def countIntervals : List TimerItem → List TimerItem × List UInt16
  | [] => ([], [])
  | item :: rest =>
    let counted := countIntervals rest
    if item.timeoutCounter + 1 > cMaxMissedIntervals then (counted.1, item.shortAddr :: counted.2)
    else ({ item with timeoutCounter := item.timeoutCounter + 1 } :: counted.1, counted.2)

def myTimerCallback (s : DiscoveryServer) : DiscoveryServer :=
  let counted := countIntervals s.data
  counted.2.foldl (fun s node ↦ s.nodeChanged node false) { s with data := counted.1 }

/-- The thread goes on to the next section of its call, or ends the call. -/
def goOn (s : DiscoveryServer) (thread : ℕ) (call : Option Call) : DiscoveryServer :=
  { s with calls := update s.calls thread call }

/-- The first section of `AllocateAddress`, in the server of short addresses. -/
def allocateAddress (s : DiscoveryServer) (thread : ℕ) (extAddr : UInt64) : DiscoveryServer :=
  match s.addresses.allocateAddress extAddr with
  | (addresses, none) => { s with addresses := addresses }
  | (addresses, some shortAddr) =>
    goOn { s with addresses := addresses, granted := ⟨extAddr, shortAddr⟩ :: s.granted } thread
      (some ⟨shortAddr, .lookUp⟩)

def advance (s : DiscoveryServer) (thread : ℕ) (call : Call) : DiscoveryServer :=
  match call.stage with
  | .lookUp =>
    match resetCounter s.data call.shortAddr with
    | some data => goOn { s with data := data } thread (some { call with stage := .notifyLost })
    | none => s.goOn thread (some { call with stage := .add })
  | .notifyLost =>
    (s.nodeChanged call.shortAddr false).goOn thread (some { call with stage := .notifyFound })
  | .add =>
    goOn { s with data := s.data ++ [⟨call.shortAddr, 0⟩] } thread
      (some { call with stage := .notifyFound })
  | .notifyFound => (s.nodeChanged call.shortAddr true).goOn thread none

def handleDiscoveryReply (s : DiscoveryServer) (node : UInt16) : DiscoveryServer :=
  match resetCounter s.data node with
  | some data => { s with data := data }
  | none => { s.nodeChanged node true with data := s.data ++ [⟨node, 0⟩] }

def getNodes (s : DiscoveryServer) : List UInt16 :=
  s.data.map TimerItem.shortAddr

inductive Event
  | allocateAddress (thread : ℕ) (extAddr : UInt64)
  | advance (thread : ℕ)
  | discoveryReply (node : UInt16)
  | timer

/-- One section.  A thread is in one call at a time. -/
def step (s : DiscoveryServer) : Event → Option DiscoveryServer
  | .allocateAddress thread extAddr =>
    match s.calls thread with
    | none => some (s.allocateAddress thread extAddr)
    | some _ => none
  | .advance thread => (s.calls thread).map (s.advance thread)
  | .discoveryReply node => some (s.handleDiscoveryReply node)
  | .timer => some s.myTimerCallback

/-! ## What the server should keep -/

/-- The notifications for a node, the latest first. -/
def presence (s : DiscoveryServer) (node : UInt16) : List Bool :=
  (s.notifications.filter fun n ↦ n.1 == node).map Prod.snd

def available (s : DiscoveryServer) (node : UInt16) : Bool :=
  (s.presence node).headD false

end DiscoveryServer

/-- Notifications, the latest first, that go from available to unavailable and back. -/
def Alternates : List Bool → Prop
  | [] => True
  | b :: earlier => b = !(earlier.headD false) ∧ Alternates earlier

namespace DiscoveryServer

/-- Nothing happens to a node between the look-up of a call for it and the last notification of the
call: no other call looks it up, no reply adds it, and the timer does not give it up. -/
def Undisturbed (s : DiscoveryServer) : Event → Prop
  | .allocateAddress _ _ => True
  | .advance thread => ∀ call, s.calls thread = some call → call.stage = .lookUp →
      ∀ thread' call', s.calls thread' = some call' → call'.shortAddr = call.shortAddr →
        call'.stage = .lookUp
  | .discoveryReply node => ∀ thread call, s.calls thread = some call → call.shortAddr = node →
      call.stage ≠ .add
  | .timer => ∀ thread call, s.calls thread = some call → call.stage ≠ .lookUp →
      call.shortAddr ∉ (countIntervals s.data).2

end DiscoveryServer

/-! ## Addresses -/

namespace Addresses

variable {addresses addresses' : Addresses} {extAddr : UInt64} {shortAddr : UInt16}

def Holds (addresses : Addresses) (extAddr : UInt64) (shortAddr : UInt16) : Prop :=
  ⟨extAddr, shortAddr⟩ ∈ addresses.data (bucketOf extAddr)

/-- What a request for an address can do: find the one of the device, find none left, or hand out
the next one. -/
theorem allocateAddress_cases (addresses : Addresses) (extAddr : UInt64) :
    (∃ shortAddr, addresses.allocateAddress extAddr = (addresses, some shortAddr) ∧
        addresses.Holds extAddr shortAddr) ∨
      addresses.allocateAddress extAddr = (addresses, none) ∨
      ∃ addresses', addresses.allocateAddress extAddr = (addresses', some addresses.nextAddr) ∧
        addresses.nextAddr ≤ cLastAddr ∧ addresses'.nextAddr = addresses.nextAddr + 1 ∧
        (∀ shortAddr, ¬ addresses.Holds extAddr shortAddr) ∧
        ∀ e a, addresses'.Holds e a ↔
          addresses.Holds e a ∨ e = extAddr ∧ a = addresses.nextAddr := by
  rw [allocateAddress]
  cases hfind : (addresses.data (bucketOf extAddr)).find? fun m ↦ m.extAddr == extAddr with
  | some mapping =>
    left
    obtain rfl : mapping.extAddr = extAddr := by simpa using find?_some hfind
    exact ⟨mapping.shortAddr, rfl, mem_of_find?_eq_some hfind⟩
  | none =>
    right
    dsimp only
    by_cases hfull : addresses.nextAddr > cLastAddr
    · left
      rw [if_pos hfull]
    · right
      rw [if_neg hfull]
      refine ⟨_, rfl, UInt16.not_lt.mp hfull, rfl, ?_, ?_⟩
      · intro shortAddr hholds
        exact find?_eq_none.mp hfind _ hholds (beq_iff_eq.mpr rfl)
      · intro e a
        rw [Holds, Holds]
        dsimp only
        by_cases hbucket : bucketOf e = bucketOf extAddr
        · rw [hbucket, update_self, mem_append, mem_singleton, Mapping.mk.injEq]
        · rw [update_of_ne hbucket]
          refine ⟨.inl, fun h ↦ h.resolve_right fun hnew ↦ hbucket (congrArg bucketOf hnew.1)⟩

/-- Every device has one address, every address is of one device, and all are below the next one. -/
structure Sound (addresses : Addresses) : Prop where
  first_le : cFirstAddr ≤ addresses.nextAddr
  bounds : ∀ {e a}, addresses.Holds e a → cFirstAddr ≤ a ∧ a < addresses.nextAddr ∧ a ≤ cLastAddr
  functional : ∀ {e a a'}, addresses.Holds e a → addresses.Holds e a' → a = a'
  injective : ∀ {e e' a}, addresses.Holds e a → addresses.Holds e' a → e = e'

theorem sound_start : Addresses.start.Sound where
  first_le := UInt16.le_refl _
  bounds h := absurd h (not_mem_nil)
  functional h := absurd h (not_mem_nil)
  injective h := absurd h (not_mem_nil)

theorem Sound.allocateAddress (h : addresses.Sound) (extAddr : UInt64) :
    (addresses.allocateAddress extAddr).1.Sound ∧
      (∀ {e a}, addresses.Holds e a → (addresses.allocateAddress extAddr).1.Holds e a) ∧
      ∀ {a}, (addresses.allocateAddress extAddr).2 = some a →
        (addresses.allocateAddress extAddr).1.Holds extAddr a := by
  rcases allocateAddress_cases addresses extAddr with ⟨a, hresult, hholds⟩ | hresult |
    ⟨addresses', hresult, hlast, hnext, hnew, hiff⟩
  · rw [hresult]
    exact ⟨h, id, fun heq ↦ Option.some.inj heq ▸ hholds⟩
  · rw [hresult]
    exact ⟨h, id, nofun⟩
  · rw [hresult]
    have hlast' : addresses.nextAddr.toNat ≤ 32767 := le_iff_toNat_le.mp hlast
    have hsucc : addresses'.nextAddr.toNat = addresses.nextAddr.toNat + 1 := by
      rw [hnext, UInt16.toNat_add]
      show (addresses.nextAddr.toNat + 1) % 65536 = _
      omega
    have hfirst : cFirstAddr.toNat ≤ addresses.nextAddr.toNat := le_iff_toNat_le.mp h.first_le
    have hbelow {e a} (hold : addresses.Holds e a) : a ≠ addresses.nextAddr := by
      intro heq
      exact UInt16.lt_irrefl _ (heq ▸ (h.bounds hold).2.1)
    refine ⟨⟨?_, ?_, ?_, ?_⟩, fun hold ↦ (hiff _ _).mpr (.inl hold), ?_⟩
    · show cFirstAddr ≤ addresses'.nextAddr
      exact le_iff_toNat_le.mpr (by omega)
    · intro e a hholds
      show cFirstAddr ≤ a ∧ a < addresses'.nextAddr ∧ a ≤ cLastAddr
      rcases (hiff e a).mp hholds with hold | ⟨-, rfl⟩
      · obtain ⟨hlow, hhigh, hmax⟩ := h.bounds hold
        refine ⟨hlow, ?_, hmax⟩
        have hlt := lt_iff_toNat_lt.mp hhigh
        exact lt_iff_toNat_lt.mpr (by omega)
      · exact ⟨h.first_le, lt_iff_toNat_lt.mpr (by omega), hlast⟩
    · intro e a a' hholds hholds'
      rcases (hiff e a).mp hholds with hold | ⟨rfl, rfl⟩ <;>
        rcases (hiff e _).mp hholds' with hold' | ⟨heq, rfl⟩
      · exact h.functional hold hold'
      · exact absurd (heq ▸ hold) (hnew _)
      · exact absurd hold' (hnew _)
      · rfl
    · intro e e' a hholds hholds'
      rcases (hiff e a).mp hholds with hold | ⟨rfl, rfl⟩ <;>
        rcases (hiff e' _).mp hholds' with hold' | ⟨heq, hsame⟩
      · exact h.injective hold hold'
      · exact absurd hsame (hbelow hold)
      · exact absurd rfl (hbelow hold')
      · exact heq.symm
    · intro a heq
      exact (hiff _ _).mpr (.inr ⟨rfl, (Option.some.inj heq).symm⟩)

theorem Saved.sound (h : addresses.Saved) : addresses.Sound := by
  induction h with
  | start => exact sound_start
  | allocateAddress extAddr _ ih => exact (ih.allocateAddress extAddr).1

end Addresses

/-! ## Presence -/

namespace DiscoveryServer

variable {s s' : DiscoveryServer} {node : UInt16} {data : List TimerItem} {thread : ℕ} {call : Call}

theorem resetCounter_eq_none_iff :
    resetCounter data node = none ↔ node ∉ data.map TimerItem.shortAddr := by
  have hindex : (data.findIdx? fun item ↦ item.shortAddr == node) = none ↔
      node ∉ data.map TimerItem.shortAddr := by
    rw [findIdx?_eq_none_iff, mem_map]
    simp only [beq_eq_false_iff_ne, not_exists, not_and]
  rw [← hindex, resetCounter]
  cases data.findIdx? fun item ↦ item.shortAddr == node with
  | none => exact iff_of_true rfl rfl
  | some i => exact iff_of_false nofun nofun

theorem map_modify_shortAddr (data : List TimerItem) (i : ℕ) :
    (data.modify i fun item ↦ { item with timeoutCounter := 0 }).map TimerItem.shortAddr =
      data.map TimerItem.shortAddr := by
  induction data generalizing i with
  | nil => cases i <;> rfl
  | cons item rest ih =>
    cases i with
    | zero => rfl
    | succ i => exact congrArg (item.shortAddr :: ·) (ih i)

theorem resetCounter_eq_some {data' : List TimerItem} (h : resetCounter data node = some data') :
    node ∈ data.map TimerItem.shortAddr ∧
      data'.map TimerItem.shortAddr = data.map TimerItem.shortAddr := by
  constructor
  · by_contra hnone
    rw [resetCounter_eq_none_iff.mpr hnone] at h
    cases h
  · rw [resetCounter] at h
    split at h
    · rw [← Option.some.inj h, map_modify_shortAddr]
    · cases h

theorem countIntervals_eq (data : List TimerItem) :
    ((countIntervals data).1.map TimerItem.shortAddr =
      (data.filter fun item ↦ !decide (item.timeoutCounter + 1 > cMaxMissedIntervals)).map
        TimerItem.shortAddr) ∧
    (countIntervals data).2 =
      (data.filter fun item ↦ decide (item.timeoutCounter + 1 > cMaxMissedIntervals)).map
        TimerItem.shortAddr := by
  induction data with
  | nil => exact ⟨rfl, rfl⟩
  | cons item rest ih =>
    rw [countIntervals]
    by_cases hlost : item.timeoutCounter + 1 > cMaxMissedIntervals
    · rw [if_pos hlost, filter_cons_of_neg (by simpa using hlost),
        filter_cons_of_pos (by simpa using hlost), map_cons]
      exact ⟨ih.1, congrArg (item.shortAddr :: ·) ih.2⟩
    · rw [if_neg hlost, filter_cons_of_pos (by simpa using hlost),
        filter_cons_of_neg (by simpa using hlost), map_cons, map_cons]
      exact ⟨congrArg (item.shortAddr :: ·) ih.1, ih.2⟩

theorem mem_countIntervals (hnodup : (data.map TimerItem.shortAddr).Nodup) (node : UInt16) :
    node ∈ (countIntervals data).1.map TimerItem.shortAddr ↔
      node ∈ data.map TimerItem.shortAddr ∧ node ∉ (countIntervals data).2 := by
  rw [(countIntervals_eq data).1, (countIntervals_eq data).2]
  simp only [mem_map, mem_filter, Bool.not_eq_true', decide_eq_false_iff_not,
    decide_eq_true_eq]
  constructor
  · rintro ⟨item, ⟨hitem, hkept⟩, rfl⟩
    refine ⟨⟨item, hitem, rfl⟩, ?_⟩
    rintro ⟨item', ⟨hitem', hlost⟩, heq⟩
    obtain rfl := inj_on_of_nodup_map hnodup hitem' hitem heq
    exact hkept hlost
  · rintro ⟨⟨item, hitem, rfl⟩, hnot⟩
    exact ⟨item, ⟨hitem, fun hlost ↦ hnot ⟨item, ⟨hitem, hlost⟩, rfl⟩⟩, rfl⟩

theorem presence_nodeChanged (s : DiscoveryServer) (changed : UInt16) (isAvailable : Bool)
    (node : UInt16) : (s.nodeChanged changed isAvailable).presence node =
      if changed = node then isAvailable :: s.presence node else s.presence node := by
  rw [presence, nodeChanged, presence]
  by_cases heq : changed = node
  · rw [if_pos heq, filter_cons_of_pos (by simpa using heq), map_cons]
  · rw [if_neg heq, filter_cons_of_neg (by simpa using heq)]

/-- Nodes that are lost are notified one after the other. -/
theorem foldl_nodeChanged (nodes : List UInt16) (s : DiscoveryServer) :
    (nodes.foldl (fun s node ↦ s.nodeChanged node false) s).data = s.data ∧
      (nodes.foldl (fun s node ↦ s.nodeChanged node false) s).calls = s.calls ∧
      (nodes.foldl (fun s node ↦ s.nodeChanged node false) s).addresses = s.addresses ∧
      (nodes.foldl (fun s node ↦ s.nodeChanged node false) s).granted = s.granted := by
  induction nodes generalizing s with
  | nil => exact ⟨rfl, rfl, rfl, rfl⟩
  | cons node nodes ih => exact ih (s.nodeChanged node false)

theorem presence_foldl {nodes : List UInt16} (hnodup : nodes.Nodup) (s : DiscoveryServer)
    (node : UInt16) :
    (nodes.foldl (fun s node ↦ s.nodeChanged node false) s).presence node =
      if node ∈ nodes then false :: s.presence node else s.presence node := by
  induction nodes generalizing s with
  | nil => rfl
  | cons first rest ih =>
    obtain ⟨hnew, hrest⟩ := nodup_cons.mp hnodup
    rw [foldl_cons, ih hrest, presence_nodeChanged]
    by_cases heq : first = node
    · subst heq
      rw [if_neg hnew, if_pos rfl, if_pos (mem_cons_self ..)]
    · rw [if_neg heq]
      simp only [mem_cons, Ne.symm heq, false_or]

def Stage.Holds (s : DiscoveryServer) (node : UInt16) : Stage → Prop
  | .lookUp => True
  | .notifyLost => node ∈ s.getNodes ∧ s.available node = true
  | .add => node ∉ s.getNodes ∧ s.available node = false
  | .notifyFound => node ∈ s.getNodes ∧ s.available node = false

/-- What undisturbed calls keep.  A node is present as it was last reported, unless a call for it is
between its look-up and its last notification; then the stage of the call says what is the case. -/
structure Consistent (s : DiscoveryServer) : Prop where
  nodup : s.getNodes.Nodup
  alternates : ∀ node, Alternates (s.presence node)
  free : ∀ node, (∀ thread call, s.calls thread = some call → call.shortAddr = node →
    call.stage = .lookUp) → (node ∈ s.getNodes ↔ s.available node = true)
  stage : ∀ thread call, s.calls thread = some call → Stage.Holds s call.shortAddr call.stage
  single : ∀ thread thread' call call', s.calls thread = some call → s.calls thread' = some call' →
    call.stage ≠ .lookUp → call'.stage ≠ .lookUp → call.shortAddr = call'.shortAddr →
      thread = thread'

theorem consistent_load (addresses : Addresses) : (load addresses).Consistent where
  nodup := nodup_nil
  alternates _ := trivial
  free _ _ := iff_of_false not_mem_nil Bool.false_ne_true
  stage _ _ h := nomatch h
  single _ _ _ _ h := nomatch h

theorem Stage.Holds.congr {stage : Stage} (h : Stage.Holds s node stage)
    (hnodes : node ∈ s'.getNodes ↔ node ∈ s.getNodes)
    (hpresence : s'.presence node = s.presence node) :
    Stage.Holds s' node stage := by
  have havailable : s'.available node = s.available node := by rw [available, hpresence, available]
  cases stage with
  | lookUp => trivial
  | notifyLost | notifyFound => exact ⟨hnodes.mpr h.1, havailable.trans h.2⟩
  | add => exact ⟨mt hnodes.mp h.1, havailable.trans h.2⟩

namespace Consistent

/-- A section of a call for a node that no other call has looked up changes this node only. -/
theorem move (h : s.Consistent) (hcall : s.calls thread = some call)
    (hothers : ∀ thread' call', s.calls thread' = some call' → call'.shortAddr = call.shortAddr →
      call'.stage ≠ .lookUp → thread' = thread) (new : Option Stage)
    (hcalls : s'.calls = update s.calls thread (new.map fun stage ↦ ⟨call.shortAddr, stage⟩))
    (hnodes : ∀ other, other ≠ call.shortAddr → (other ∈ s'.getNodes ↔ other ∈ s.getNodes))
    (hpresence : ∀ other, other ≠ call.shortAddr → s'.presence other = s.presence other)
    (hnodup : s'.getNodes.Nodup) (halternates : Alternates (s'.presence call.shortAddr))
    (hsome : ∀ stage, new = some stage → stage ≠ .lookUp ∧ Stage.Holds s' call.shortAddr stage)
    (hnone : new = none → (call.shortAddr ∈ s'.getNodes ↔ s'.available call.shortAddr = true)) :
    s'.Consistent := by
  have hself : s'.calls thread = new.map fun stage ↦ ⟨call.shortAddr, stage⟩ := by
    rw [hcalls, update_self]
  have hrest {thread' : ℕ} (hne : thread' ≠ thread) : s'.calls thread' = s.calls thread' := by
    rw [hcalls, update_of_ne hne]
  -- the new stage of the thread is one behind the look-up
  have hinside {call' : Call} (hcall' : s'.calls thread = some call') :
      call'.shortAddr = call.shortAddr ∧ call'.stage ≠ .lookUp ∧
        Stage.Holds s' call'.shortAddr call'.stage := by
    obtain ⟨stage, hstage, rfl⟩ := Option.map_eq_some_iff.mp (hself.symm.trans hcall')
    exact ⟨rfl, hsome stage hstage⟩
  constructor
  · exact hnodup
  · intro other
    by_cases hother : other = call.shortAddr
    · rwa [hother]
    · rw [hpresence other hother]
      exact h.alternates other
  · intro other hfree
    by_cases hother : other = call.shortAddr
    · subst hother
      cases hnew : new with
      | none => exact hnone hnew
      | some stage =>
        rw [hnew] at hself
        exact absurd (hfree thread _ hself rfl) (hsome stage hnew).1
    · rw [hnodes other hother, available, hpresence other hother]
      apply h.free other
      intro thread' call' hcall' haddr
      by_cases hthread : thread' = thread
      · subst hthread
        obtain rfl := Option.some.inj (hcall.symm.trans hcall')
        exact absurd haddr.symm hother
      · exact hfree thread' call' ((hrest hthread).trans hcall') haddr
  · intro thread' call' hcall'
    by_cases hthread : thread' = thread
    · subst hthread
      exact (hinside hcall').2.2
    · rw [hrest hthread] at hcall'
      by_cases hother : call'.shortAddr = call.shortAddr
      · have hlook : call'.stage = .lookUp := by
          by_contra hstage
          exact hthread (hothers thread' call' hcall' hother hstage)
        rw [hlook]
        trivial
      · exact (h.stage thread' call' hcall').congr (hnodes _ hother) (hpresence _ hother)
  · intro thread₁ thread₂ call₁ call₂ hcall₁ hcall₂ hstage₁ hstage₂ haddr
    by_cases hfirst : thread₁ = thread <;> by_cases hsecond : thread₂ = thread
    · rw [hfirst, hsecond]
    · subst hfirst
      rw [hrest hsecond] at hcall₂
      exact (hothers _ _ hcall₂ (haddr.symm.trans (hinside hcall₁).1) hstage₂).symm
    · subst hsecond
      rw [hrest hfirst] at hcall₁
      exact hothers _ _ hcall₁ (haddr.trans (hinside hcall₂).1) hstage₁
    · rw [hrest hfirst] at hcall₁
      rw [hrest hsecond] at hcall₂
      exact h.single _ _ _ _ hcall₁ hcall₂ hstage₁ hstage₂ haddr

/-- A section outside the calls changes only nodes that no call has looked up. -/
theorem outside (h : s.Consistent) (hcalls : s'.calls = s.calls)
    (hquiet : ∀ thread call, s.calls thread = some call → call.stage ≠ .lookUp →
      (call.shortAddr ∈ s'.getNodes ↔ call.shortAddr ∈ s.getNodes) ∧
        s'.presence call.shortAddr = s.presence call.shortAddr) (hnodup : s'.getNodes.Nodup)
    (hchange : ∀ other, (other ∈ s'.getNodes ↔ other ∈ s.getNodes) ∧
        s'.presence other = s.presence other ∨
      (∀ thread call, s.calls thread = some call → call.shortAddr = other → call.stage = .lookUp) ∧
        Alternates (s'.presence other) ∧ (other ∈ s'.getNodes ↔ s'.available other = true)) :
    s'.Consistent := by
  constructor
  · exact hnodup
  · intro other
    rcases hchange other with ⟨-, hpresence⟩ | ⟨-, halternates, -⟩
    · rw [hpresence]
      exact h.alternates other
    · exact halternates
  · intro other hfree
    rcases hchange other with ⟨hnodes, hpresence⟩ | ⟨-, -, hiff⟩
    · rw [hnodes, available, hpresence]
      rw [hcalls] at hfree
      exact h.free other hfree
    · exact hiff
  · intro thread call hcall
    rw [hcalls] at hcall
    by_cases hlook : call.stage = .lookUp
    · rw [hlook]
      trivial
    · obtain ⟨hnodes, hpresence⟩ := hquiet thread call hcall hlook
      exact (h.stage thread call hcall).congr hnodes hpresence
  · rw [hcalls]
    exact h.single

end Consistent

/-! ## The sections -/

namespace Consistent

theorem allocateAddress (h : s.Consistent) (hnone : s.calls thread = none) (extAddr : UInt64) :
    (s.allocateAddress thread extAddr).Consistent := by
  rw [DiscoveryServer.allocateAddress]
  cases s.addresses.allocateAddress extAddr with
  | mk addresses result =>
    cases result with
    | none => exact { h with }
    | some shortAddr =>
      have hcall {thread' : ℕ} {call : Call} (hcall : update s.calls thread
          (some ⟨shortAddr, .lookUp⟩) thread' = some call) :
          call.stage = .lookUp ∨ s.calls thread' = some call := by
        by_cases hthread : thread' = thread
        · subst hthread
          rw [update_self] at hcall
          exact .inl (Option.some.inj hcall ▸ rfl)
        · rw [update_of_ne hthread] at hcall
          exact .inr hcall
      refine ⟨h.nodup, h.alternates, ?_, ?_, ?_⟩
      · intro node hfree
        apply h.free node
        intro thread' call hold
        by_cases hthread : thread' = thread
        · rw [hthread, hnone] at hold
          cases hold
        · exact hfree thread' call ((update_of_ne hthread ..).trans hold)
      · intro thread' call hnew
        rcases hcall hnew with hlook | hold
        · rw [hlook]
          trivial
        · exact h.stage thread' call hold
      · intro thread₁ thread₂ call₁ call₂ hcall₁ hcall₂ hstage₁ hstage₂ haddr
        exact h.single _ _ _ _ ((hcall hcall₁).resolve_left hstage₁)
          ((hcall hcall₂).resolve_left hstage₂) hstage₁ hstage₂ haddr

theorem getNodes_append (s : DiscoveryServer) (added : UInt16) :
    (s.data ++ [(⟨added, 0⟩ : TimerItem)]).map TimerItem.shortAddr = s.getNodes ++ [added] :=
  map_append ..

variable {added : UInt16} {nodes : List UInt16}

theorem mem_append_of_ne {other : UInt16} (hne : other ≠ added) :
    other ∈ nodes ++ [added] ↔ other ∈ nodes := by
  rw [mem_append, mem_singleton, or_iff_left hne]

theorem nodup_append (h : nodes.Nodup) (hnew : added ∉ nodes) : (nodes ++ [added]).Nodup :=
  h.append (nodup_singleton _) (disjoint_singleton.mpr hnew)

/-- The look-up: no other call for the node is behind its own. -/
theorem lookUp (h : s.Consistent) (hcall : s.calls thread = some call)
    (hstage : call.stage = .lookUp) (hclean : s.Undisturbed (.advance thread)) :
    (s.advance thread call).Consistent := by
  have hlook := hclean call hcall hstage
  have hfree := h.free call.shortAddr hlook
  have hothers (thread' : ℕ) (call' : Call) (hcall' : s.calls thread' = some call')
      (haddr : call'.shortAddr = call.shortAddr) (hinside : call'.stage ≠ .lookUp) :
      thread' = thread := absurd (hlook thread' call' hcall' haddr) hinside
  rw [advance, hstage]
  dsimp only
  cases hreset : resetCounter s.data call.shortAddr with
  | some data =>
    obtain ⟨hmem, hsame⟩ := resetCounter_eq_some hreset
    have hnodes : (goOn { s with data := data } thread
        (some ⟨call.shortAddr, .notifyLost⟩)).getNodes = s.getNodes := hsame
    refine h.move hcall hothers (some .notifyLost) rfl ?_ (fun _ _ ↦ rfl) ?_ ?_ ?_ nofun
    · intro other _
      exact iff_of_eq (congrArg (other ∈ ·) hnodes)
    · exact hnodes ▸ h.nodup
    · exact h.alternates _
    · rintro _ ⟨⟩
      refine ⟨nofun, ?_, hfree.mp hmem⟩
      exact hnodes ▸ hmem
  | none =>
    have hnew : call.shortAddr ∉ s.getNodes := resetCounter_eq_none_iff.mp hreset
    refine h.move hcall hothers (some .add) rfl (fun _ _ ↦ Iff.rfl) (fun _ _ ↦ rfl) h.nodup
      (h.alternates _) ?_ nofun
    rintro _ ⟨⟩
    exact ⟨nofun, hnew, Bool.eq_false_iff.mpr (mt hfree.mpr hnew)⟩

theorem available_nodeChanged (s : DiscoveryServer) (node : UInt16) (isAvailable : Bool) :
    (s.nodeChanged node isAvailable).available node = isAvailable := by
  rw [available, presence_nodeChanged, if_pos rfl]
  rfl

variable {isAvailable : Bool}

theorem alternates_nodeChanged (h : Alternates (s.presence node))
    (hbefore : s.available node = !isAvailable) :
    Alternates ((s.nodeChanged node isAvailable).presence node) := by
  rw [presence_nodeChanged, if_pos rfl]
  refine ⟨?_, h⟩
  show isAvailable = !s.available node
  rw [hbefore, Bool.not_not]

theorem presence_nodeChanged_of_ne {changed : UInt16} (hne : node ≠ changed) :
    (s.nodeChanged changed isAvailable).presence node = s.presence node := by
  rw [presence_nodeChanged, if_neg hne.symm]

theorem advance (h : s.Consistent) (hcall : s.calls thread = some call)
    (hclean : s.Undisturbed (.advance thread)) : (s.advance thread call).Consistent := by
  by_cases hlook : call.stage = .lookUp
  · exact h.lookUp hcall hlook hclean
  have hothers (thread' : ℕ) (call' : Call) (hcall' : s.calls thread' = some call')
      (haddr : call'.shortAddr = call.shortAddr) (hinside : call'.stage ≠ .lookUp) :
      thread' = thread := h.single _ _ _ _ hcall' hcall hinside hlook haddr
  have hholds := h.stage thread call hcall
  rw [DiscoveryServer.advance]
  cases hstage : call.stage with
  | lookUp => exact absurd hstage hlook
  | notifyLost =>
    rw [hstage] at hholds
    refine h.move hcall hothers (some .notifyFound) rfl (fun _ _ ↦ Iff.rfl)
      (fun _ hother ↦ presence_nodeChanged_of_ne hother) h.nodup ?_ ?_ nofun
    · exact alternates_nodeChanged (h.alternates _) hholds.2
    · rintro _ ⟨⟩
      exact ⟨nofun, hholds.1, available_nodeChanged ..⟩
  | add =>
    rw [hstage] at hholds
    have hnodes : (goOn { s with data := s.data ++ [⟨call.shortAddr, 0⟩] } thread
        (some ⟨call.shortAddr, .notifyFound⟩)).getNodes = s.getNodes ++ [call.shortAddr] :=
      getNodes_append ..
    refine h.move hcall hothers (some .notifyFound) rfl ?_ (fun _ _ ↦ rfl) ?_ (h.alternates _) ?_
      nofun
    · intro other hother
      exact (iff_of_eq (congrArg (other ∈ ·) hnodes)).trans (mem_append_of_ne hother)
    · exact hnodes ▸ nodup_append h.nodup hholds.1
    · rintro _ ⟨⟩
      refine ⟨nofun, ?_, hholds.2⟩
      exact hnodes ▸ mem_append_right _ (mem_singleton_self _)
  | notifyFound =>
    rw [hstage] at hholds
    refine h.move hcall hothers none rfl (fun _ _ ↦ Iff.rfl)
      (fun _ hother ↦ presence_nodeChanged_of_ne hother) h.nodup ?_ nofun fun _ ↦ ?_
    · exact alternates_nodeChanged (h.alternates _) hholds.2
    · exact iff_of_true hholds.1 (available_nodeChanged ..)

theorem handleDiscoveryReply (h : s.Consistent) (hclean : s.Undisturbed (.discoveryReply node)) :
    (s.handleDiscoveryReply node).Consistent := by
  rw [DiscoveryServer.handleDiscoveryReply]
  cases hreset : resetCounter s.data node with
  | some data =>
    have hnodes : ({ s with data := data } : DiscoveryServer).getNodes = s.getNodes :=
      (resetCounter_eq_some hreset).2
    have hsame (other : UInt16) :
        other ∈ ({ s with data := data } : DiscoveryServer).getNodes ↔ other ∈ s.getNodes :=
      iff_of_eq (congrArg (other ∈ ·) hnodes)
    exact h.outside rfl (fun _ _ _ _ ↦ ⟨hsame _, rfl⟩) (hnodes ▸ h.nodup)
      fun other ↦ .inl ⟨hsame other, rfl⟩
  | none =>
    have hnew : node ∉ s.getNodes := resetCounter_eq_none_iff.mp hreset
    -- a call behind its look-up is for a node in the table or is about to add it
    have hlook (thread : ℕ) (call : Call) (hcall : s.calls thread = some call)
        (haddr : call.shortAddr = node) : call.stage = .lookUp := by
      have hholds := h.stage thread call hcall
      have hadd := hclean thread call hcall haddr
      rw [haddr] at hholds
      cases hstage : call.stage with
      | lookUp => rfl
      | add => exact absurd hstage hadd
      | notifyLost | notifyFound => exact absurd (hstage ▸ hholds).1 hnew
    have hgone : s.available node = false := Bool.eq_false_iff.mpr (mt (h.free node hlook).mpr hnew)
    have hnodes : ({ s.nodeChanged node true with data := s.data ++ [⟨node, 0⟩] } :
        DiscoveryServer).getNodes = s.getNodes ++ [node] := getNodes_append ..
    have hsame {other : UInt16} (hother : other ≠ node) :
        (other ∈ ({ s.nodeChanged node true with data := s.data ++ [⟨node, 0⟩] } :
          DiscoveryServer).getNodes ↔ other ∈ s.getNodes) ∧
        ({ s.nodeChanged node true with data := s.data ++ [⟨node, 0⟩] } :
          DiscoveryServer).presence other = s.presence other :=
      ⟨(iff_of_eq (congrArg (other ∈ ·) hnodes)).trans (mem_append_of_ne hother),
        presence_nodeChanged_of_ne hother⟩
    refine h.outside rfl ?_ (hnodes ▸ nodup_append h.nodup hnew) ?_
    · intro thread call hcall hinside
      exact hsame fun haddr ↦ hinside (hlook thread call hcall haddr)
    · intro other
      by_cases hother : other = node
      · right
        subst hother
        refine ⟨hlook, alternates_nodeChanged (h.alternates other) hgone, iff_of_true ?_ ?_⟩
        · exact hnodes ▸ mem_append_right _ (mem_singleton_self _)
        · exact available_nodeChanged ..
      · exact .inl (hsame hother)

theorem myTimerCallback (h : s.Consistent) (hclean : s.Undisturbed .timer) :
    s.myTimerCallback.Consistent := by
  have hlost : (countIntervals s.data).2.Nodup := by
    rw [(countIntervals_eq s.data).2]
    exact h.nodup.sublist (List.filter_sublist.map TimerItem.shortAddr)
  obtain ⟨hdata, hcalls, -, -⟩ := foldl_nodeChanged (countIntervals s.data).2
    { s with data := (countIntervals s.data).1 }
  have hpresence (other : UInt16) : s.myTimerCallback.presence other =
      if other ∈ (countIntervals s.data).2 then false :: s.presence other else s.presence other :=
    presence_foldl hlost _ other
  have hnodes (other : UInt16) : other ∈ s.myTimerCallback.getNodes ↔
      other ∈ s.getNodes ∧ other ∉ (countIntervals s.data).2 := by
    rw [getNodes, DiscoveryServer.myTimerCallback, hdata]
    exact mem_countIntervals h.nodup other
  have hkept {other : UInt16} (hother : other ∉ (countIntervals s.data).2) :
      (other ∈ s.myTimerCallback.getNodes ↔ other ∈ s.getNodes) ∧
        s.myTimerCallback.presence other = s.presence other := by
    rw [hnodes, hpresence, if_neg hother]
    exact ⟨and_iff_left hother, rfl⟩
  refine h.outside hcalls ?_ ?_ ?_
  · intro thread call hcall hinside
    exact hkept (hclean thread call hcall hinside)
  · rw [getNodes, DiscoveryServer.myTimerCallback, hdata, (countIntervals_eq s.data).1]
    exact h.nodup.sublist (List.filter_sublist.map TimerItem.shortAddr)
  · intro other
    by_cases hother : other ∈ (countIntervals s.data).2
    · right
      have hlook (thread : ℕ) (call : Call) (hcall : s.calls thread = some call)
          (haddr : call.shortAddr = other) : call.stage = .lookUp := by
        by_contra hinside
        exact hclean thread call hcall hinside (haddr ▸ hother)
      have hmem : other ∈ s.getNodes := by
        rw [(countIntervals_eq s.data).2] at hother
        exact (List.filter_sublist.map TimerItem.shortAddr).subset hother
      have hpresent : s.available other = true := (h.free other hlook).mp hmem
      have hgone : s.myTimerCallback.presence other = false :: s.presence other := by
        rw [hpresence, if_pos hother]
      refine ⟨hlook, ?_, ?_⟩
      · rw [hgone]
        refine ⟨?_, h.alternates other⟩
        show false = !s.available other
        rw [hpresent]
        rfl
      · rw [hnodes, available, hgone]
        exact iff_of_false (fun hboth ↦ hboth.2 hother) Bool.false_ne_true
    · exact .inl (hkept hother)

theorem step (h : s.Consistent) {event : Event} (hclean : s.Undisturbed event)
    (hstep : s.step event = some s') : s'.Consistent := by
  cases event with
  | allocateAddress thread extAddr =>
    rw [DiscoveryServer.step] at hstep
    cases hcall : s.calls thread with
    | none =>
      rw [hcall] at hstep
      obtain rfl := Option.some.inj hstep
      exact h.allocateAddress hcall extAddr
    | some call =>
      rw [hcall] at hstep
      cases hstep
  | advance thread =>
    obtain ⟨call, hcall, rfl⟩ := Option.map_eq_some_iff.mp hstep
    exact h.advance hcall hclean
  | discoveryReply node =>
    obtain rfl := Option.some.inj hstep
    exact h.handleDiscoveryReply hclean
  | timer =>
    obtain rfl := Option.some.inj hstep
    exact h.myTimerCallback hclean

end Consistent

/-! ## Every run -/

/-- The addresses are sound, and every address handed out is one of them. -/
structure Granted (s : DiscoveryServer) : Prop where
  sound : s.addresses.Sound
  holds : ∀ m ∈ s.granted, s.addresses.Holds m.extAddr m.shortAddr

theorem advance_addresses (s : DiscoveryServer) (thread : ℕ) (call : Call) :
    (s.advance thread call).addresses = s.addresses ∧
      (s.advance thread call).granted = s.granted := by
  rw [advance]
  cases call.stage with
  | lookUp => cases hreset : resetCounter s.data call.shortAddr <;> exact ⟨rfl, rfl⟩
  | _ => exact ⟨rfl, rfl⟩

theorem Granted.step (h : s.Granted) {event : Event} (hstep : s.step event = some s') :
    s'.Granted := by
  have hkeep (haddresses : s'.addresses = s.addresses) (hgranted : s'.granted = s.granted) :
      s'.Granted := ⟨haddresses ▸ h.sound, by rw [haddresses, hgranted]; exact h.holds⟩
  cases event with
  | allocateAddress thread extAddr =>
    rw [DiscoveryServer.step] at hstep
    split at hstep
    · obtain rfl := Option.some.inj hstep
      obtain ⟨hsound, hmono, hnew⟩ := h.sound.allocateAddress extAddr
      rw [DiscoveryServer.allocateAddress]
      cases hresult : s.addresses.allocateAddress extAddr with
      | mk addresses result =>
        rw [hresult] at hsound hmono hnew
        cases result with
        | none => exact ⟨hsound, fun m hm ↦ hmono (h.holds m hm)⟩
        | some shortAddr =>
          refine ⟨hsound, fun m hm ↦ ?_⟩
          rcases mem_cons.mp hm with rfl | hold
          · exact hnew rfl
          · exact hmono (h.holds m hold)
    · cases hstep
  | advance thread =>
    obtain ⟨call, -, rfl⟩ := Option.map_eq_some_iff.mp hstep
    obtain ⟨haddresses, hgranted⟩ := advance_addresses s thread call
    exact hkeep haddresses hgranted
  | discoveryReply node =>
    obtain rfl := Option.some.inj hstep
    apply hkeep <;> rw [handleDiscoveryReply] <;> split <;> rfl
  | timer =>
    obtain rfl := Option.some.inj hstep
    obtain ⟨-, -, haddresses, hgranted⟩ := foldl_nodeChanged (countIntervals s.data).2
      { s with data := (countIntervals s.data).1 }
    exact hkeep haddresses hgranted

/-- In every run two devices never get one address and one never gets two, all between the first
and the last.  In a run where nothing happens to a node between the look-up of a call for it and
the last notification, no node is in the set twice, the notifications for a node alternate, and it
is in the set while no call is in progress exactly if it was last reported as available. -/
theorem addresses_and_presence (s : DiscoveryServer) :
    (Reachable DiscoveryServer.step (fun _ _ ↦ True) Started s →
      (∀ m ∈ s.granted, cFirstAddr ≤ m.shortAddr ∧ m.shortAddr ≤ cLastAddr) ∧
        ∀ m ∈ s.granted, ∀ m' ∈ s.granted, m.extAddr = m'.extAddr ↔ m.shortAddr = m'.shortAddr) ∧
    (Reachable DiscoveryServer.step Undisturbed Started s →
      s.getNodes.Nodup ∧ (∀ node, Alternates (s.presence node)) ∧
        ((∀ thread, s.calls thread = none) →
          ∀ node, node ∈ s.getNodes ↔ s.available node = true)) := by
  constructor
  · intro hreach
    have hgranted : s.Granted := by
      apply hreach.invariant
      · rintro _ ⟨_, hsaved, rfl⟩
        exact ⟨hsaved.sound, nofun⟩
      · intro s event s' h _ hstep
        exact h.step hstep
    constructor
    · intro m hm
      obtain ⟨hlow, -, hhigh⟩ := hgranted.sound.bounds (hgranted.holds m hm)
      exact ⟨hlow, hhigh⟩
    · intro m hm m' hm'
      have hholds := hgranted.holds m hm
      have hholds' := hgranted.holds m' hm'
      constructor
      · intro hext
        exact hgranted.sound.functional (hext ▸ hholds) hholds'
      · intro hshort
        exact hgranted.sound.injective (hshort ▸ hholds) hholds'
  · intro hreach
    have hconsistent : s.Consistent := by
      apply hreach.invariant
      · rintro _ ⟨addresses, -, rfl⟩
        exact consistent_load addresses
      · intro s event s' h hclean hstep
        exact h.step hclean hstep
    refine ⟨hconsistent.nodup, hconsistent.alternates, fun hidle node ↦ hconsistent.free node ?_⟩
    intro thread call hcall
    rw [hidle thread] at hcall
    cases hcall

/-! ## Runs -/

/-- A call for the first address, up to its last notification. -/
theorem addresses_and_presence_first :
    ∃ s, [Event.allocateAddress 0 5, .advance 0, .advance 0, .advance 0].foldlM
        DiscoveryServer.step start = some s ∧
      (∀ m ∈ s.granted, cFirstAddr ≤ m.shortAddr ∧ m.shortAddr ≤ cLastAddr) ∧
      s.getNodes.Nodup ∧ (1 ∈ s.getNodes ↔ s.available 1 = true) := by
  have hother (thread : ℕ) (call call' : Call)
      (h : update (fun _ ↦ none : ℕ → Option Call) 0 (some call) thread = some call') :
      call' = call := by
    by_cases hthread : thread = 0
    · subst hthread
      exact (Option.some.inj h).symm
    · rw [update_of_ne hthread] at h
      cases h
  have hlookUp (thread : ℕ) (call : Call)
      (h : (start.allocateAddress 0 5).calls thread = some call) : call.stage = .lookUp := by
    rw [hother thread ⟨1, .lookUp⟩ call h]
  have hclean : Reachable DiscoveryServer.step Undisturbed Started
      ((((start.allocateAddress 0 5).advance 0 ⟨1, .lookUp⟩).advance 0 ⟨1, .add⟩).advance 0
        ⟨1, .notifyFound⟩) := by
    refine .step (.advance 0) (.step (.advance 0) (.step (.advance 0)
      (.step (.allocateAddress 0 5) (.start ⟨_, .start, rfl⟩) trivial rfl) ?_ rfl) ?_ rfl) ?_ rfl
    · intro _ _ _ thread call hcall _
      exact hlookUp thread call hcall
    · rintro _ ⟨⟩ ⟨⟩
    · rintro _ ⟨⟩ ⟨⟩
  refine ⟨_, rfl, ?_⟩
  obtain ⟨hnodup, -, hpresent⟩ := (addresses_and_presence _).2 hclean
  refine ⟨((addresses_and_presence _).1 (hclean.mono fun _ _ _ ↦ trivial)).1, hnodup, hpresent ?_ 1⟩
  intro thread
  show update (update (update (update (fun _ ↦ none) 0 _) 0 _) 0 _) 0 none thread = none
  rw [update_idem, update_idem, update_idem]
  exact congrFun (update_eq_self 0 _) thread

/-- A discovery reply between the look-up of a call and its next section adds the node, which the
call adds again. -/
theorem presence_disturbed :
    ¬ ∀ s, Reachable DiscoveryServer.step (fun _ _ ↦ True) Started s →
      s.getNodes.Nodup ∧ ∀ node, Alternates (s.presence node) := by
  intro hall
  have hrun : ∃ s, [Event.allocateAddress 0 5, .advance 0, .discoveryReply 1, .advance 0,
      .advance 0].foldlM DiscoveryServer.step start = some s ∧ s.getNodes = [1, 1] :=
    ⟨_, rfl, by decide⟩
  obtain ⟨s, hrun, hnodes⟩ := hrun
  have hreach : Reachable DiscoveryServer.step (fun _ _ ↦ True) Started s :=
    .foldlM (fun _ _ ↦ trivial) _ (.start ⟨_, .start, rfl⟩) hrun
  obtain ⟨hnodup, -⟩ := hall s hreach
  rw [hnodes] at hnodup
  exact absurd hnodup (by decide)

end DiscoveryServer

end MicroFramework.Wireless
