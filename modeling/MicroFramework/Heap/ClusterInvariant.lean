import MicroFramework.Heap.Cluster

/-!
# The cluster invariant

`WellFormed c layout` says that the cluster's memory holds the layout: the payload is tiled by the
layout's blocks and the free list threads exactly its free blocks, from low addresses to high.
Each operation on a cluster is shown to carry out the layout operation it stands for.
-/

namespace MicroFramework.Heap

open Library BlockId List

def freeNodes (start : ℕ) (layout : List BlockId) : List Node :=
  ((located size start layout).filter fun p ↦ p.2.isFree).map fun p ↦ .block p.1

/-- The node lies before address `a`. -/
def Node.Below (a : ℕ) : Node → Prop
  | .head => True
  | .tail => False
  | .block x => x < a

/-- The node lies at address `a` or after it. -/
def Node.Above (a : ℕ) : Node → Prop
  | .head => False
  | .tail => True
  | .block x => a ≤ x

structure WellFormed (c : Cluster) (layout : List BlockId) : Prop where
  tiled : Tiles size c.header c.payloadStart layout c.payloadEnd
  linked : Linked c.next c.prev (.head :: freeNodes c.payloadStart layout ++ [.tail])
  null : c.null = none
  dead : ∀ block ∈ layout, block.isFree = true → block.isAlive = false
  small : c.payloadEnd ≤ c.payloadStart + 65535

theorem freeNodes_append (start : ℕ) (left right : List BlockId) :
    freeNodes start (left ++ right) =
      freeNodes start left ++ freeNodes (start + extent size left) right := by
  simp [freeNodes, located_append]

theorem freeNodes_cons (start : ℕ) (block : BlockId) (rest : List BlockId) :
    freeNodes start (block :: rest) =
      (if block.isFree then [.block start] else []) ++ freeNodes (start + block.size) rest := by
  by_cases h : block.isFree <;> simp [freeNodes, h]

@[simp]
theorem freeNodes_nil (start : ℕ) : freeNodes start [] = [] := rfl

variable {node : Node} {start : ℕ}

theorem mem_freeNodes {layout : List BlockId} :
    node ∈ freeNodes start layout ↔
      ∃ a block, node = .block a ∧ (a, block) ∈ located size start layout ∧
        block.isFree = true := by
  simp only [freeNodes, mem_map, mem_filter, Prod.exists]
  constructor
  · rintro ⟨a, block, ⟨hplace, hfree⟩, rfl⟩
    exact ⟨a, block, rfl, hplace, hfree⟩
  · rintro ⟨a, block, rfl, hplace, hfree⟩
    exact ⟨a, block, ⟨hplace, hfree⟩, rfl⟩

variable {header : ℕ → BlockId}

theorem freeNodes_pairwise {stop : ℕ} {layout : List BlockId}
    (h : Tiles size header start layout stop) :
    (freeNodes start layout).Pairwise fun m n ↦ ∃ x y, m = .block x ∧ n = .block y ∧ x < y := by
  unfold freeNodes
  rw [pairwise_map]
  have hlocated := (@located_pairwise _ size start layout).filter fun p ↦ p.2.isFree
  refine hlocated.imp_of_mem ?_
  intro p q hp _ hpq
  have hpos := h.pos (mem_of_mem_located (mem_of_mem_filter hp))
  exact ⟨p.1, q.1, rfl, rfl, by omega⟩

theorem freeNodes_nodup {stop : ℕ} {layout : List BlockId}
    (h : Tiles size header start layout stop) : (freeNodes start layout).Nodup := by
  refine (freeNodes_pairwise h).imp ?_
  rintro m n ⟨x, y, rfl, rfl, hxy⟩ hsame
  have : x = y := by simpa using hsame
  omega

theorem below_of_mem_freeNodes {stop : ℕ} {layout : List BlockId}
    (h : Tiles size header start layout stop)
    (hnode : node ∈ freeNodes start layout) : node.Below stop := by
  obtain ⟨a, block, rfl, hplace, -⟩ := mem_freeNodes.mp hnode
  have hbounds := bounds_of_mem_located hplace
  have hpos := h.pos (mem_of_mem_located hplace)
  have hstop := h.stop_eq
  show a < stop
  simp only at hbounds hpos
  omega

theorem above_of_mem_freeNodes {layout : List BlockId}
    (hnode : node ∈ freeNodes start layout) : node.Above start := by
  obtain ⟨a, block, rfl, hplace, -⟩ := mem_freeNodes.mp hnode
  exact (bounds_of_mem_located hplace).1

/-- The free list around the block at `a`: its neighbours `p` and `q`, and what is linked on
either side. -/
structure Gap (c : Cluster) (a stop : ℕ) (before : List Node) (p q : Node) (after : List Node) :
    Prop where
  left : Linked c.next c.prev (before ++ [p])
  right : Linked c.next c.prev (q :: after)
  below : ∀ n ∈ before ++ [p], n.Below a
  above : ∀ n ∈ q :: after, n.Above stop
  le : a ≤ stop
  leftFresh : p ∉ before
  rightFresh : q ∉ after

namespace Gap

variable {c c' : Cluster} {a stop : ℕ} {before after : List Node} {p q : Node}

section

variable (gap : Gap c a stop before p q after)

include gap

theorem not_above {n : Node} (hbelow : n.Below a) : n ∉ q :: after := by
  intro hmem
  have habove := gap.above n hmem
  have hle := gap.le
  cases n with
  | head => exact habove
  | tail => exact hbelow
  | block x =>
    have hx : x < a := hbelow
    have hx' : stop ≤ x := habove
    omega

theorem p_ne_tail : p ≠ .tail := by
  rintro rfl
  exact gap.below .tail (by simp)

theorem q_ne_head : q ≠ .head := by
  rintro rfl
  exact gap.above .head (by simp)

theorem ne_p : ∀ n ∈ before ++ q :: after, n ≠ p := by
  rintro n hn rfl
  rcases mem_append.mp hn with hn | hn
  · exact gap.leftFresh hn
  · exact gap.not_above (gap.below n (by simp)) hn

theorem ne_q : ∀ n ∈ before ++ p :: after, n ≠ q := by
  rintro n hn rfl
  have hnotBelow : n ∉ before ++ [p] := fun h ↦ gap.not_above (gap.below n h) (by simp)
  have hcases : n ∈ before ++ [p] ∨ n ∈ after := by simpa [or_assoc] using hn
  rcases hcases with hn | hn
  · exact hnotBelow hn
  · exact gap.rightFresh hn

/-- The node is on either side of the gap. -/
theorem outside : ∀ n ∈ before ++ p :: q :: after, n.Below a ∨ n.Above stop := by
  intro n hn
  have hcases : n ∈ before ++ [p] ∨ n ∈ q :: after := by simpa [or_assoc] using hn
  exact hcases.imp (gap.below n) (gap.above n)

/-- Pointing the two neighbours at each other closes the gap. -/
theorem close (hpq : c'.next p = some q) (hqp : c'.prev q = some p)
    (hnext : ∀ n, n.Below a ∨ n.Above stop → n ≠ p → c'.next n = c.next n)
    (hprev : ∀ n, n.Below a ∨ n.Above stop → n ≠ q → c'.prev n = c.prev n) :
    Linked c'.next c'.prev (before ++ p :: q :: after) := by
  refine gap.left.splice gap.right hpq hqp (fun n hn ↦ ?_) (fun n hn ↦ ?_)
  · exact hnext n (gap.outside n (by simp at hn ⊢; tauto)) (gap.ne_p n hn)
  · exact hprev n (gap.outside n (by simp at hn ⊢; tauto)) (gap.ne_q n hn)

/-- A node linked with the two neighbours fills the gap. -/
theorem fill {node : Node} (hpn : c'.next p = some node) (hnp : c'.prev node = some p)
    (hnq : c'.next node = some q) (hqn : c'.prev q = some node)
    (hnext : ∀ n, n.Below a ∨ n.Above stop → n ≠ p → c'.next n = c.next n)
    (hprev : ∀ n, n.Below a ∨ n.Above stop → n ≠ q → c'.prev n = c.prev n) :
    Linked c'.next c'.prev (before ++ p :: node :: q :: after) := by
  refine gap.left.splice_node gap.right hpn hnp hnq hqn (fun n hn ↦ ?_) (fun n hn ↦ ?_)
  · exact hnext n (gap.outside n (by simp at hn ⊢; tauto)) (gap.ne_p n hn)
  · exact hprev n (gap.outside n (by simp at hn ⊢; tauto)) (gap.ne_q n hn)

end

end Gap

namespace WellFormed

variable {c c' : Cluster} {layout pre post : List BlockId} {block : BlockId} {a : ℕ}

theorem extent_le (h : WellFormed c layout) : extent size layout ≤ 65535 := by
  have hstop := h.tiled.stop_eq
  have hsmall := h.small
  omega

theorem length_lt_fuel (h : WellFormed c layout) : layout.length < c.fuel := by
  have hlength := h.tiled.length_le
  have hstop := h.tiled.stop_eq
  unfold Cluster.fuel
  omega

section

variable (h : WellFormed c (pre ++ block :: post))

include h

/-- The three parts of a tiling around one block. -/
theorem tiles_split (ha : a = c.payloadStart + extent size pre) :
    Tiles size c.header c.payloadStart pre a ∧ c.header a = block ∧ 1 ≤ block.size ∧
      Tiles size c.header (a + block.size) post c.payloadEnd := by
  obtain ⟨hpre, hheader, hpos, hpost⟩ := tiles_append.mp h.tiled
  rw [← ha] at hpre hheader hpost
  exact ⟨hpre, hheader, hpos, hpost⟩

theorem exists_gap (hfree : block.isFree = true) (ha : a = c.payloadStart + extent size pre) :
    ∃ before p q after, Node.head :: freeNodes c.payloadStart pre = before ++ [p] ∧
      freeNodes (a + block.size) post ++ [.tail] = q :: after ∧
      Gap c a (a + block.size) before p q after ∧ c.next p = some (.block a) ∧
      c.prev (.block a) = some p ∧ c.next (.block a) = some q ∧ c.prev q = some (.block a) := by
  obtain ⟨hpre, -, -, hpost⟩ := h.tiles_split ha
  obtain ⟨before, p, hbefore⟩ :
      ∃ before p, Node.head :: freeNodes c.payloadStart pre = before ++ [p] :=
    ⟨_, _, (dropLast_append_getLast (cons_ne_nil _ _)).symm⟩
  obtain ⟨q, after, hafter⟩ : ∃ q after, freeNodes (a + block.size) post ++ [.tail] = q :: after :=
    exists_cons_of_ne_nil (by simp)
  have hsplit : Node.head :: freeNodes c.payloadStart (pre ++ block :: post) ++ [.tail] =
      before ++ p :: .block a :: q :: after := by
    rw [freeNodes_append, ← ha, freeNodes_cons, if_pos hfree, ← cons_append, hbefore]
    simp [hafter]
  have hlinked := h.linked
  rw [hsplit] at hlinked
  obtain ⟨hleft, ⟨hpa, hap⟩, hrest⟩ := linked_append_cons_cons.mp hlinked
  obtain ⟨⟨haq, hqa⟩, hright⟩ := linked_cons_cons.mp hrest
  have hleftNodup : (before ++ [p]).Nodup := by
    rw [← hbefore, nodup_cons]
    refine ⟨fun hmem ↦ ?_, freeNodes_nodup hpre⟩
    exact above_of_mem_freeNodes hmem
  have hrightNodup : (q :: after).Nodup := by
    rw [← hafter, List.nodup_append]
    refine ⟨freeNodes_nodup hpost, by simp, ?_⟩
    rintro n hn m hm rfl
    have hm' : n = .tail := by simpa using hm
    subst hm'
    exact below_of_mem_freeNodes hpost hn
  refine ⟨before, p, q, after, hbefore, hafter, ⟨hleft, hright, ?_, ?_, by omega, ?_, ?_⟩,
    hpa, hap, haq, hqa⟩
  · intro n hn
    rw [← hbefore, mem_cons] at hn
    rcases hn with rfl | hn
    · trivial
    · exact below_of_mem_freeNodes hpre hn
  · intro n hn
    rw [← hafter, mem_append] at hn
    rcases hn with hn | hn
    · exact above_of_mem_freeNodes hn
    · have hn' : n = .tail := by simpa using hn
      subst hn'
      trivial
  · intro hmem
    rw [List.nodup_append] at hleftNodup
    exact hleftNodup.2.2 p hmem p (by simp) rfl
  · exact (nodup_cons.mp hrightNodup).1

/-- Replacing the headers of one block's memory, and relinking to match, replaces that block of
the layout. -/
theorem replace (mid : List BlockId) (ha : a = c.payloadStart + extent size pre)
    (hmid : Tiles size c'.header a mid (a + block.size))
    (hheader : ∀ x, x < a ∨ a + block.size ≤ x → c'.header x = c.header x)
    (hstart : c'.payloadStart = c.payloadStart) (hend : c'.payloadEnd = c.payloadEnd)
    (hlinked : Linked c'.next c'.prev (.head :: freeNodes c.payloadStart pre ++
      freeNodes a mid ++ (freeNodes (a + block.size) post ++ [.tail]))) (hnull : c'.null = none)
    (hdead : ∀ block ∈ mid, block.isFree = true → block.isAlive = false) :
    WellFormed c' (pre ++ mid ++ post) := by
  obtain ⟨hpre, -, -, hpost⟩ := h.tiles_split ha
  have hextent : extent size mid = block.size := by
    have := hmid.stop_eq
    omega
  refine ⟨?_, ?_, hnull, ?_, by rw [hstart, hend]; exact h.small⟩
  · rw [hstart, hend, append_assoc, tiles_append, ← ha, tiles_append, hextent]
    refine ⟨?_, hmid, ?_⟩
    · exact hpre.congr_of_bounds fun x _ hx ↦ hheader x (.inl hx)
    · exact hpost.congr_of_bounds fun x hx _ ↦ hheader x (.inr hx)
  · have hnodes : Node.head :: freeNodes c.payloadStart (pre ++ mid ++ post) ++ [.tail] =
        .head :: freeNodes c.payloadStart pre ++ freeNodes a mid ++
          (freeNodes (a + block.size) post ++ [.tail]) := by
      rw [append_assoc pre, freeNodes_append, ← ha, freeNodes_append, hextent]
      simp
    rw [hstart, hnodes]
    exact hlinked
  · intro b hb hfree
    have hcases : b ∈ pre ++ block :: post ∨ b ∈ mid := by
      simp at hb ⊢
      tauto
    exact hcases.elim (fun hb ↦ h.dead b hb hfree) (fun hb ↦ hdead b hb hfree)

end

end WellFormed

end MicroFramework.Heap
