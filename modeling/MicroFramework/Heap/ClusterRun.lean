import MicroFramework.Heap.ExtractBlocks
import MicroFramework.Heap.RecoverFromGC

/-!
# Clusters over whole runs

A cluster starts from a payload that start-up has tiled with blocks and sweeps it; from then on it
allocates, has blocks marked and unmarked, and is swept again, in any order.  The run keeps, next
to the cluster, the blocks handed out and not yet found dead, and the cluster as the last sweep
found it when nothing has happened since.
-/

namespace MicroFramework.Heap

open Library BlockId List Option

structure ClusterRun where
  cluster : Cluster
  allocated : List (ℕ × ℕ)
  beforeSweep : Option Cluster

/-- The allocated blocks a sweep of `c` leaves: those marked alive. -/
def survivors (c : Cluster) (allocated : List (ℕ × ℕ)) : List (ℕ × ℕ) :=
  allocated.filter fun p ↦ (c.header p.1).isAlive

/-- The runs of a cluster.  At the start the payload is tiled by free blocks and blocks salvaged
from before the restart; afterwards any block may be unmarked, but only blocks that hold an object
are ever marked. -/
inductive Reachable : ClusterRun → Prop
  | start {c c' : Cluster} {layout : List BlockId}
      (htiled : Tiles size c.header c.payloadStart layout c.payloadEnd)
      (hdead : ∀ block ∈ layout, block.isFree = true → block.isAlive = false)
      (hsmall : c.payloadEnd ≤ c.payloadStart + 65535) (hrun : c.recoverFromGC = some c') :
      Reachable ⟨c', survivors c (((located size c.payloadStart layout).filter
        fun p ↦ !p.2.isFree).map fun p ↦ (p.1, p.2.size)), some c⟩
  | extract {s : ClusterRun} {result : Option ℕ} {c' : Cluster} (h : Reachable s)
      (dataType : DataType) (flags : UInt32) (length : ℕ) (htype : dataType ≠ .freeBlock)
      (hlength : 1 ≤ length)
      (hrun : s.cluster.extractBlocks dataType flags length = some (result, c')) :
      Reachable ⟨c', (result.map fun a ↦ (a, length)).toList ++ s.allocated, none⟩
  | mark {s : ClusterRun} (h : Reachable s) (address : ℕ) (alive : Bool)
      (hblock : s.cluster.IsBlock address)
      (hused : alive = true → (s.cluster.header address).isFree = false) :
      Reachable ⟨s.cluster.setAlive address alive, s.allocated, none⟩
  | recover {s : ClusterRun} {c' : Cluster} (h : Reachable s)
      (hrun : s.cluster.recoverFromGC = some c') :
      Reachable ⟨c', survivors s.cluster s.allocated, some s.cluster⟩

def Holds (start : ℕ) (layout : List BlockId) (allocated : List (ℕ × ℕ)) : Prop :=
  ∀ p ∈ allocated, ∃ block, (p.1, block) ∈ located size start layout ∧
    block.isFree = false ∧ block.size = p.2

/-- The layout is what a sweep makes of the cluster `c`: no two free blocks are adjacent, and the
free memory is what was dead or free. -/
def SweptFrom (c : Cluster) (start : ℕ) (layout : List BlockId) : Prop :=
  ∀ old, Tiles size c.header c.payloadStart old c.payloadEnd →
    (layout.IsChain fun a b ↦ ¬ (a.isFree = true ∧ b.isFree = true)) ∧
      ∀ a, Covers size (fun b ↦ b.isFree = true) start layout a ↔
        Covers size (fun b ↦ b.isAlive = false ∨ b.isFree = true) c.payloadStart old a

structure RunInvariant (s : ClusterRun) (layout : List BlockId) : Prop where
  wellFormed : WellFormed s.cluster layout
  holds : Holds s.cluster.payloadStart layout s.allocated
  swept : ∀ c, s.beforeSweep = some c → SweptFrom c s.cluster.payloadStart layout

section Steps

variable {c c' : Cluster} {layout pre post : List BlockId} {allocated : List (ℕ × ℕ)}
  {block : BlockId} {dataType : DataType} {flags : UInt32} {length start : ℕ}

/-- A change of one block that keeps the length of the layout leaves the others in place. -/
theorem Holds.replace (mid : List BlockId) (h : Holds start (pre ++ block :: post) allocated)
    (hextent : extent size mid = block.size)
    (hmid : block.isFree = false → ∃ block', mid = [block'] ∧ block'.isFree = false) :
    Holds start (pre ++ mid ++ post) allocated := by
  intro p hp
  obtain ⟨b, hplace, hused, hsize⟩ := h p hp
  rw [located_append, located_cons, mem_append, mem_cons] at hplace
  rw [append_assoc, located_append, located_append, hextent]
  rcases hplace with hplace | hplace | hplace
  · exact ⟨b, mem_append_left _ hplace, hused, hsize⟩
  · obtain ⟨hp₁, rfl⟩ := Prod.mk.inj hplace
    obtain ⟨block', rfl, hused'⟩ := hmid hused
    have hsize' : block'.size = b.size := by simpa using hextent
    exact ⟨block', by simp [hp₁], hused', hsize'.trans hsize⟩
  · exact ⟨b, by simp [hplace], hused, hsize⟩

/-- The carved block is where `extractBlocks` says, and of the length asked for. -/
theorem mem_located_carve (hfit : length ≤ block.size) (hsize : block.size ≤ 65535) (a : ℕ) :
    (a + carveOffset flags length block, rawId dataType flags length) ∈
      located size a (carve dataType flags length block) := by
  have hrest : (freeId (block.size - length)).size = block.size - length := freeId_size (by omega)
  unfold carve carveOffset
  by_cases hwhole : block.size = length
  · simp [hwhole]
  · by_cases hevent : flags &&& HeapBlock.event ≠ 0
    · simp [hwhole, hevent, hrest]
    · simp [hwhole, hevent]

/-- What `extractBlocks` returns overlaps no block in use. -/
theorem Holds.disjoint (h : Holds start (pre ++ block :: post) allocated)
    (hfree : block.isFree = true) (hfit : length ≤ block.size) {p : ℕ × ℕ} (hp : p ∈ allocated) :
    p.1 + p.2 ≤ start + extent size pre + carveOffset flags length block ∨
      start + extent size pre + carveOffset flags length block + length ≤ p.1 := by
  have hoffset : carveOffset flags length block + length ≤ block.size := by
    unfold carveOffset
    split <;> omega
  obtain ⟨b, hplace, hused, hsize⟩ := h p hp
  rw [located_append, located_cons, mem_append, mem_cons] at hplace
  rcases hplace with hplace | hplace | hplace
  · have hbounds := bounds_of_mem_located hplace
    simp only at hbounds
    omega
  · have hblock : b = block := congrArg Prod.snd hplace
    rw [hblock, hfree] at hused
    exact absurd hused (by decide)
  · have hbounds := bounds_of_mem_located hplace
    simp only at hbounds
    omega

theorem Holds.extract (h : Holds start (pre ++ block :: post) allocated)
    (hfree : block.isFree = true) (hfit : length ≤ block.size) (hsize : block.size ≤ 65535)
    (htype : dataType ≠ .freeBlock) :
    Holds start (pre ++ carve dataType flags length block ++ post)
      ((start + extent size pre + carveOffset flags length block, length) :: allocated) := by
  have hextent := @extent_carve dataType flags length block hfit hsize
  have hold := h.replace (carve dataType flags length block) hextent
    fun hused ↦ absurd (hused.symm.trans hfree) (by decide)
  intro p hp
  rcases mem_cons.mp hp with rfl | hp
  · have hplace := @mem_located_carve block dataType flags length hfit hsize
      (start + extent size pre)
    refine ⟨rawId dataType flags length, ?_, rawId_isFree htype, rawId_size (by omega)⟩
    rw [append_assoc, located_append, located_append]
    exact mem_append_right _ (mem_append_left _ hplace)
  · exact hold p hp

/-- A sweep leaves the blocks marked alive where they are. -/
theorem Holds.sweep (h : Holds c.payloadStart layout allocated)
    (htiled : Tiles size c.header c.payloadStart layout c.payloadEnd)
    (hdead : ∀ block ∈ layout, block.isFree = true → block.isAlive = false)
    (hsmall : extent size layout ≤ 65535) :
    Holds c.payloadStart (sweep layout) (survivors c allocated) := by
  intro p hp
  obtain ⟨hp, halive⟩ := mem_filter.mp hp
  obtain ⟨b, hplace, hused, hsize⟩ := h p hp
  have hheader : c.header p.1 = b := htiled.header_eq hplace
  rw [hheader] at halive
  have hkept := @located_sweepFrom layout 0 c.payloadStart (by omega) hdead
  have hmem : (p.1, settle b) ∈ ((located size (c.payloadStart + 0) layout).filter
      fun p ↦ p.2.isAlive).map fun p ↦ (p.1, settle p.2) :=
    mem_map.mpr ⟨(p.1, b), mem_filter.mpr ⟨hplace, halive⟩, rfl⟩
  rw [← hkept] at hmem
  exact ⟨settle b, mem_of_mem_filter hmem, by simpa using hused, by simpa using hsize⟩

theorem sweptFrom_sweep (htiled : Tiles size c.header c.payloadStart layout c.payloadEnd)
    (hdead : ∀ block ∈ layout, block.isFree = true → block.isAlive = false)
    (hsmall : extent size layout ≤ 65535) : SweptFrom c c.payloadStart (sweep layout) := by
  intro old hold
  obtain rfl : layout = old := htiled.unique hold
  refine ⟨sweepFrom_coalesced hdead, fun a ↦ ?_⟩
  have hcovers := @covers_sweepFrom layout 0 c.payloadStart a (by omega) hdead
  have hempty : ¬ (c.payloadStart ≤ a ∧ a < c.payloadStart + 0) := by omega
  rw [or_iff_right hempty] at hcovers
  refine hcovers.trans ⟨?_, ?_⟩
  · rintro ⟨place, hplace, hblock, hbounds⟩
    exact ⟨place, hplace, .inl hblock, hbounds⟩
  · rintro ⟨place, hplace, hblock, hbounds⟩
    exact ⟨place, hplace, hblock.elim id (hdead _ (mem_of_mem_located hplace)), hbounds⟩

/-- Marking a block in use, or unmarking any block, changes that block's header only. -/
theorem WellFormed.setAlive (h : WellFormed c (pre ++ block :: post)) (alive : Bool) {a : ℕ}
    (ha : a = c.payloadStart + extent size pre) (hused : alive = true → block.isFree = false) :
    WellFormed (c.setAlive a alive)
      (pre ++ [if alive then block.markAlive else block.markDead] ++ post) := by
  obtain ⟨-, hheader, hpos, -⟩ := h.tiles_split ha
  set marked := if alive then block.markAlive else block.markDead with hmarked
  have hsize : marked.size = block.size := by cases alive <;> simp [hmarked]
  have hfree : marked.isFree = block.isFree := by cases alive <;> simp [hmarked]
  have hset : c.setAlive a alive = c.setDataId a marked := by rw [Cluster.setAlive, hheader]
  rw [hset]
  refine h.replace [marked] ha ⟨by simp, by rwa [hsize], by rw [hsize]; rfl⟩ (fun x hx ↦ ?_)
    rfl rfl ?_ h.null ?_
  · have hne : x ≠ a := by omega
    simp [hne]
  · have hlinked := h.linked
    rw [freeNodes_append, ← ha, freeNodes_cons] at hlinked
    rw [freeNodes_cons, hfree]
    simpa using hlinked
  · intro b hb hblock
    obtain rfl : b = marked := by simpa using hb
    cases alive with
    | true => exact absurd ((hused rfl).symm.trans (hfree ▸ hblock)) (by decide)
    | false => simp [hmarked]

end Steps

namespace RunInvariant

variable {s : ClusterRun} {layout : List BlockId}

theorem extract (h : RunInvariant s layout) {dataType : DataType} {length : ℕ}
    (htype : dataType ≠ .freeBlock) (hlength : 1 ≤ length) (flags : UInt32) :
    ∃ result c' layout', s.cluster.extractBlocks dataType flags length = some (result, c') ∧
      RunInvariant ⟨c', (result.map fun a ↦ (a, length)).toList ++ s.allocated, none⟩ layout' ∧
      ∀ a, result = some a → s.cluster.payloadStart ≤ a ∧ a + length ≤ s.cluster.payloadEnd ∧
        ∀ p ∈ s.allocated, p.1 + p.2 ≤ a ∨ a + length ≤ p.1 := by
  rcases extractBlocks_spec h.wellFormed hlength htype flags with ⟨hrun, -⟩ |
    ⟨pre, block, post, c', rfl, hfree, hfit, hrun, hstart, hend, hwell⟩
  · exact ⟨none, s.cluster, layout, hrun, ⟨h.wellFormed, h.holds, by simp⟩, by simp⟩
  · have hextent := h.wellFormed.extent_le
    have hstop := h.wellFormed.tiled.stop_eq
    simp only [extent_append, extent_cons] at hextent hstop
    have hoffset : carveOffset flags length block + length ≤ block.size := by
      unfold carveOffset
      split <;> omega
    refine ⟨_, c', _, hrun, ⟨hwell, ?_, by simp⟩, ?_⟩
    · rw [hstart]
      exact h.holds.extract hfree hfit (by omega) htype
    · rintro a ha
      obtain rfl := some.inj ha
      exact ⟨by omega, by omega, fun p hp ↦ h.holds.disjoint hfree hfit hp⟩

theorem mark (h : RunInvariant s layout) {address : ℕ} {alive : Bool}
    (hblock : s.cluster.IsBlock address)
    (hused : alive = true → (s.cluster.header address).isFree = false) :
    ∃ layout', RunInvariant ⟨s.cluster.setAlive address alive, s.allocated, none⟩ layout' := by
  obtain ⟨haddress, pre, hpre⟩ := hblock
  obtain ⟨block, post, rfl⟩ := h.wellFormed.tiled.exists_append hpre haddress
  have ha : address = s.cluster.payloadStart + extent size pre := hpre.stop_eq
  have hheader : s.cluster.header address = block := (h.wellFormed.tiles_split ha).2.1
  rw [hheader] at hused
  refine ⟨_, h.wellFormed.setAlive alive ha hused, ?_, by simp⟩
  refine h.holds.replace _ ?_ fun hblock ↦ ⟨_, rfl, ?_⟩
  · cases alive <;> simp
  · cases alive <;> simpa using hblock

theorem recover (h : RunInvariant s layout) : ∃ c', s.cluster.recoverFromGC = some c' ∧
    RunInvariant ⟨c', survivors s.cluster s.allocated, some s.cluster⟩ (sweep layout) := by
  have hwell := h.wellFormed
  obtain ⟨c', hrun, hswept, hstart, -⟩ := recoverFromGC_spec hwell.tiled hwell.dead hwell.small
  refine ⟨c', hrun, hswept, ?_, ?_⟩
  · rw [hstart]
    exact h.holds.sweep hwell.tiled hwell.dead hwell.extent_le
  · rintro c hc
    obtain rfl := some.inj hc
    rw [hstart]
    exact sweptFrom_sweep hwell.tiled hwell.dead hwell.extent_le

/-- The first sweep establishes the invariant. -/
theorem start {c : Cluster} (htiled : Tiles size c.header c.payloadStart layout c.payloadEnd)
    (hdead : ∀ block ∈ layout, block.isFree = true → block.isAlive = false)
    (hsmall : c.payloadEnd ≤ c.payloadStart + 65535) :
    ∃ c', c.recoverFromGC = some c' ∧
      RunInvariant ⟨c', survivors c (((located size c.payloadStart layout).filter
        fun p ↦ !p.2.isFree).map fun p ↦ (p.1, p.2.size)), some c⟩ (sweep layout) := by
  have hextent : extent size layout ≤ 65535 := by
    have hstop := htiled.stop_eq
    omega
  obtain ⟨c', hrun, hswept, hstart, -⟩ := recoverFromGC_spec htiled hdead hsmall
  have hholds : Holds c.payloadStart layout (((located size c.payloadStart layout).filter
      fun p ↦ !p.2.isFree).map fun p ↦ (p.1, p.2.size)) := by
    intro p hp
    obtain ⟨place, hplace, rfl⟩ := mem_map.mp hp
    obtain ⟨hplace, hused⟩ := mem_filter.mp hplace
    exact ⟨place.2, hplace, by simpa using hused, rfl⟩
  refine ⟨c', hrun, hswept, ?_, ?_⟩
  · rw [hstart]
    exact hholds.sweep htiled hdead hextent
  · rintro c₀ hc₀
    obtain rfl := some.inj hc₀
    rw [hstart]
    exact sweptFrom_sweep htiled hdead hextent

end RunInvariant

theorem Reachable.invariant {s : ClusterRun} (h : Reachable s) :
    ∃ layout, RunInvariant s layout := by
  induction h with
  | start htiled hdead hsmall hrun =>
    obtain ⟨c', hrun', hinv⟩ := RunInvariant.start htiled hdead hsmall
    obtain rfl := some.inj (hrun.symm.trans hrun')
    exact ⟨_, hinv⟩
  | extract h dataType flags length htype hlength hrun ih =>
    obtain ⟨layout, hinv⟩ := ih
    obtain ⟨result, c', layout', hrun', hinv', -⟩ := hinv.extract htype hlength flags
    obtain ⟨rfl, rfl⟩ := Prod.mk.inj (some.inj (hrun.symm.trans hrun'))
    exact ⟨layout', hinv'⟩
  | mark h address alive hblock hused ih =>
    obtain ⟨layout, hinv⟩ := ih
    exact hinv.mark hblock hused
  | recover h hrun ih =>
    obtain ⟨layout, hinv⟩ := ih
    obtain ⟨c', hrun', hinv'⟩ := hinv.recover
    obtain rfl := some.inj (hrun.symm.trans hrun')
    exact ⟨_, hinv'⟩

/-- The cluster invariant.  In every state of a run the payload is tiled by blocks, the free list
threads exactly the free blocks in address order, and every block handed out and not found dead
is a block in use; right after a sweep the free memory is coalesced and is what was dead or free;
allocation and sweeping go through, and what is allocated next is inside the payload and overlaps
no block in use. -/
theorem cluster_invariant {s : ClusterRun} (h : Reachable s) :
    ∃ layout,
      Tiles size s.cluster.header s.cluster.payloadStart layout s.cluster.payloadEnd ∧
      (Linked s.cluster.next s.cluster.prev
        (.head :: freeNodes s.cluster.payloadStart layout ++ [.tail]) ∧
        s.cluster.prev .head = none ∧ s.cluster.next .tail = none) ∧
      (freeNodes s.cluster.payloadStart layout).Pairwise
        (fun m n ↦ ∃ x y, m = .block x ∧ n = .block y ∧ x < y) ∧
      Holds s.cluster.payloadStart layout s.allocated ∧
      (∀ c, s.beforeSweep = some c → SweptFrom c s.cluster.payloadStart layout) ∧
      (∀ dataType flags length, dataType ≠ .freeBlock → 1 ≤ length →
        ∃ result c', s.cluster.extractBlocks dataType flags length = some (result, c') ∧
          ∀ a, result = some a → s.cluster.payloadStart ≤ a ∧ a + length ≤ s.cluster.payloadEnd ∧
            ∀ p ∈ s.allocated, p.1 + p.2 ≤ a ∨ a + length ≤ p.1) ∧
      ∃ c', s.cluster.recoverFromGC = some c' := by
  obtain ⟨layout, hinv⟩ := h.invariant
  have hwell := hinv.wellFormed
  refine ⟨layout, hwell.tiled, ⟨hwell.linked, hwell.null, hwell.null⟩,
    freeNodes_pairwise hwell.tiled, hinv.holds, hinv.swept, ?_, ?_⟩
  · intro dataType flags length htype hlength
    obtain ⟨result, c', -, hrun, -, hplace⟩ := hinv.extract htype hlength flags
    exact ⟨result, c', hrun, hplace⟩
  · obtain ⟨c', hrun, -⟩ := hinv.recover
    exact ⟨c', hrun⟩

theorem heapClusterInitialize_reachable (c : Cluster) (hpayload : c.payloadStart ≤ c.payloadEnd)
    (hsmall : c.payloadEnd ≤ c.payloadStart + 65535) :
    ∃ c', c.heapClusterInitialize = some c' ∧ Reachable ⟨c', [], some c.prepared⟩ := by
  have htiles (n a : ℕ) (hstart : c.payloadStart ≤ a) (hend : a + n = c.payloadEnd) :
      Tiles size c.prepared.header a (replicate n (rawId .freeBlock 0 1))
        c.payloadEnd := by
    induction n generalizing a with
    | zero => exact hend
    | succ n ih =>
      have hinside : c.payloadStart ≤ a ∧ a < c.payloadEnd := by omega
      refine ⟨?_, Nat.le_refl 1, ih (a + 1) (by omega) (by omega)⟩
      simp [Cluster.header, Cluster.prepared, hinside]
  have htiled := htiles (c.payloadEnd - c.payloadStart) c.payloadStart (Nat.le_refl _) (by omega)
  have hfree : ∀ block ∈ replicate (c.payloadEnd - c.payloadStart) (rawId .freeBlock 0 1),
      block.isFree = true ∧ block.isAlive = false := by
    intro block hblock
    rw [eq_of_mem_replicate hblock]
    exact ⟨rfl, by decide⟩
  obtain ⟨c', hrun, -⟩ := RunInvariant.start htiled (fun b hb _ ↦ (hfree b hb).2) hsmall
  have hreach := Reachable.start htiled (fun b hb _ ↦ (hfree b hb).2) hsmall hrun
  have hnone : ((located size c.prepared.payloadStart
      (replicate (c.payloadEnd - c.payloadStart) (rawId .freeBlock 0 1))).filter
        fun p ↦ !p.2.isFree) = [] := by
    refine filter_eq_nil_iff.mpr fun p hp ↦ ?_
    simp [(hfree p.2 (mem_of_mem_located hp)).1]
  rw [hnone] at hreach
  exact ⟨c', hrun, hreach⟩

def eightBlocks : Cluster := ⟨fun _ ↦ Cell.zero, none, none, none, 100, 108⟩

/-- The first event block of two units in a fresh cluster is its end. -/
theorem cluster_invariant_event_block :
    ∃ c c' layout, eightBlocks.heapClusterInitialize = some c ∧
      c.extractBlocks .timerHead HeapBlock.event 2 = some (some 106, c') ∧
      Tiles size c'.header c'.payloadStart layout c'.payloadEnd ∧
      Holds c'.payloadStart layout [(106, 2)] := by
  obtain ⟨c, hinit, hreach⟩ := heapClusterInitialize_reachable eightBlocks (by decide) (by decide)
  have hrun : (eightBlocks.heapClusterInitialize.bind fun c ↦
      (c.extractBlocks .timerHead HeapBlock.event 2).map Prod.fst) = some (some 106) := by
    rfl
  rw [hinit, bind_some, map_eq_some_iff] at hrun
  obtain ⟨⟨result, c'⟩, hextract, rfl⟩ := hrun
  obtain ⟨layout, htiled, -, -, hholds, -⟩ := cluster_invariant
    (hreach.extract .timerHead HeapBlock.event 2 (by decide) (by decide) hextract)
  exact ⟨c, c', layout, hinit, hextract, htiled, hholds⟩

end MicroFramework.Heap
