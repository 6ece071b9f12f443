import MicroFramework.Heap.ClusterInvariant

/-!
# Allocation from a cluster

`extractBlocks` finds a large enough free block and replaces it, in the memory and in the layout,
by the allocated block and the rest.  The two directions of carving and the exact fit differ in
what happens to the free list: the rest keeps the list position, takes it over at a new address,
or the position is closed.
-/

namespace MicroFramework.Heap

open Library Cluster List Option Function BlockId

variable {c : Cluster} {layout pre post : List BlockId} {block : BlockId} {a length : ℕ}
  {flags : UInt32} {dataType : DataType}

theorem length_freeNodes_le (start : ℕ) (layout : List BlockId) :
    (freeNodes start layout).length ≤ layout.length := by
  induction layout generalizing start with
  | nil => simp
  | cons block rest ih =>
    have hrest := ih (start + block.size)
    rw [freeNodes_cons, length_append, length_cons]
    split
    · simp only [length_singleton]
      omega
    · simpa using Nat.le_succ_of_le hrest

/-- The search looks through the free blocks, from the end of the list for event blocks. -/
theorem findFree_eq (h : WellFormed c layout) (flags : UInt32) (length : ℕ) :
    c.findFree flags length =
      if flags &&& HeapBlock.event ≠ 0 then
        some ((freeNodes c.payloadStart layout).reverse.find? fun ptr ↦ c.dataSize ptr ≥ length)
      else some ((freeNodes c.payloadStart layout).find? fun ptr ↦ c.dataSize ptr ≥ length) := by
  have hfuel : (freeNodes c.payloadStart layout).length < c.fuel :=
    (length_freeNodes_le _ _).trans_lt h.length_lt_fuel
  have hnextTail : c.next .tail = none := h.null
  have hprevHead : c.prev .head = none := h.null
  have hbackward : Linked c.prev c.next
      (.tail :: (freeNodes c.payloadStart layout).reverse ++ [.head]) := by
    have hreverse := linked_reverse.mpr h.linked
    simpa using hreverse
  unfold findFree
  by_cases hevent : flags &&& HeapBlock.event ≠ 0
  · rw [if_pos hevent, if_pos hevent]
    exact search_after hprevHead _ _ (by simpa using hfuel) hbackward
  · rw [if_neg hevent, if_neg hevent]
    exact search_after hnextTail _ _ hfuel h.linked

/-- The search ends at a free block that is large enough, or there is none. -/
theorem findFree_spec (h : WellFormed c layout) (flags : UInt32) (length : ℕ) :
    (c.findFree flags length = some none ∧
      ∀ block ∈ layout, block.isFree = true → block.size < length) ∨
    ∃ pre block post, c.findFree flags length =
        some (some (.block (c.payloadStart + extent size pre))) ∧
      layout = pre ++ block :: post ∧ block.isFree = true ∧ length ≤ block.size := by
  obtain ⟨nodes, hnodes, hfind⟩ : ∃ nodes : List Node,
      (∀ n, n ∈ nodes ↔ n ∈ freeNodes c.payloadStart layout) ∧
      c.findFree flags length = some (nodes.find? fun ptr ↦ c.dataSize ptr ≥ length) := by
    rw [findFree_eq h]
    by_cases hevent : flags &&& HeapBlock.event ≠ 0
    · exact ⟨_, fun n ↦ mem_reverse, if_pos hevent⟩
    · exact ⟨_, fun n ↦ Iff.rfl, if_neg hevent⟩
  cases hfound : nodes.find? fun ptr ↦ c.dataSize ptr ≥ length with
  | none =>
    refine .inl ⟨by rw [hfind, hfound], fun block hblock hfree ↦ ?_⟩
    obtain ⟨a, hplace⟩ := exists_mem_located c.payloadStart hblock
    have hmem : Node.block a ∈ nodes :=
      (hnodes _).mpr (mem_freeNodes.mpr ⟨a, block, rfl, hplace, hfree⟩)
    have hsmall := find?_eq_none.mp hfound _ hmem
    have hheader : c.header a = block := h.tiled.header_eq hplace
    simpa [dataSize, hheader] using hsmall
  | some node =>
    have hmem := (hnodes _).mp (mem_of_find?_eq_some hfound)
    obtain ⟨a, block, rfl, hplace, hfree⟩ := mem_freeNodes.mp hmem
    obtain ⟨pre, post, hlayout, ha⟩ := exists_split_of_mem_located hplace
    have hheader : c.header a = block := h.tiled.header_eq hplace
    have hfit := find?_some hfound
    refine .inr ⟨pre, block, post, ?_, hlayout, hfree, ?_⟩
    · simp only at ha
      rw [hfind, hfound, ha]
    · simpa [dataSize, hheader] using hfit

section Zero

variable {node : Node}

theorem next_initializeToZero (hpos : 1 ≤ (c.header a).size)
    (h : node.Below a ∨ node.Above (a + (c.header a).size)) :
    (c.initializeToZero a).next node = c.next node := by
  cases node with
  | block x =>
    have hx : x < a ∨ a + (c.header a).size ≤ x := h
    have hne : x ≠ a := by omega
    show ((c.initializeToZero a).memory x).next = (c.memory x).next
    rw [c.memory_initializeToZero a x hx, if_neg hne]
  | _ => rfl

theorem prev_initializeToZero (hpos : 1 ≤ (c.header a).size)
    (h : node.Below a ∨ node.Above (a + (c.header a).size)) :
    (c.initializeToZero a).prev node = c.prev node := by
  cases node with
  | block x =>
    have hx : x < a ∨ a + (c.header a).size ≤ x := h
    have hne : x ≠ a := by omega
    show ((c.initializeToZero a).memory x).prev = (c.memory x).prev
    rw [c.memory_initializeToZero a x hx, if_neg hne]
  | _ => rfl

theorem header_initializeToZero {x : ℕ} (hpos : 1 ≤ (c.header a).size)
    (hx : x < a ∨ a + (c.header a).size ≤ x) : (c.initializeToZero a).header x = c.header x := by
  have hne : x ≠ a := by omega
  unfold header
  rw [c.memory_initializeToZero a x hx, if_neg hne]

/-- Zeroing the contents of a block in use changes nothing the invariant reads. -/
theorem WellFormed.initializeToZero (h : WellFormed c (pre ++ block :: post))
    (hused : block.isFree = false) (ha : a = c.payloadStart + extent size pre) :
    WellFormed (c.initializeToZero a) (pre ++ block :: post) := by
  obtain ⟨hpre, hheader, hpos, hpost⟩ := h.tiles_split ha
  rw [← hheader] at hpos
  have hnodes : Node.head :: freeNodes c.payloadStart (pre ++ block :: post) ++ [.tail] =
      .head :: freeNodes c.payloadStart pre ++ freeNodes a [block] ++
        (freeNodes (a + block.size) post ++ [.tail]) := by
    rw [freeNodes_append, ← ha, freeNodes_cons, freeNodes_cons]
    simp [hused]
  have houtside : ∀ n ∈ Node.head :: freeNodes c.payloadStart (pre ++ block :: post) ++ [.tail],
      n.Below a ∨ n.Above (a + (c.header a).size) := by
    intro n hn
    rw [hnodes, freeNodes_cons, hused, hheader] at *
    simp only [Bool.false_eq_true, if_false, freeNodes_nil, append_nil, mem_append,
      mem_cons, not_mem_nil, or_false] at hn
    rcases hn with (rfl | hn) | hn | rfl
    · exact .inl trivial
    · exact .inl (below_of_mem_freeNodes hpre hn)
    · exact .inr (above_of_mem_freeNodes hn)
    · exact .inr trivial
  have hlinked : Linked (c.initializeToZero a).next (c.initializeToZero a).prev
      (.head :: freeNodes c.payloadStart (pre ++ block :: post) ++ [.tail]) := by
    refine h.linked.congr (fun n hn ↦ ?_) (fun n hn ↦ ?_)
    · exact next_initializeToZero hpos (houtside n ((dropLast_sublist _).subset hn))
    · exact prev_initializeToZero hpos (houtside n (mem_of_mem_tail hn))
  have hmid : Tiles size (c.initializeToZero a).header a [block] (a + block.size) :=
    ⟨by rw [header_initializeToZero_self, hheader], by rwa [← hheader], rfl⟩
  have hresult : WellFormed (c.initializeToZero a) (pre ++ [block] ++ post) := by
    refine h.replace [block] ha hmid (fun x hx ↦ ?_) rfl rfl (by rwa [← hnodes]) h.null ?_
    · exact header_initializeToZero hpos (by rwa [hheader])
    · exact fun b hb ↦ h.dead b (by simp [mem_singleton.mp hb])
  simpa using hresult

end Zero

section Carve

variable {p q : Node}

section

variable (h : WellFormed c (pre ++ block :: post))

include h

variable {taken rest : BlockId}

/-- The list without the node at `a`, when the whole block is taken. -/
theorem WellFormed.take_whole
    (hfree : block.isFree = true) (ha : a = c.payloadStart + extent size pre)
    (hp : c.prev (.block a) = some p) (hq : c.next (.block a) = some q)
    (htaken : taken.isFree = false) (hsize : taken.size = block.size) :
    WellFormed (((c.setNext p (some q)).setPrev q (some p)).setDataId a taken)
      (pre ++ [taken] ++ post) := by
  obtain ⟨-, -, hpos, -⟩ := h.tiles_split ha
  obtain ⟨before, p', q', after, hbefore, hafter, gap, -, hp', hq', -⟩ := h.exists_gap hfree ha
  obtain rfl : p' = p := by simpa [hp'] using hp
  obtain rfl : q' = q := by simpa [hq'] using hq
  set c' := (c.setNext p' (some q')).setPrev q' (some p') with hc'
  have hnext (n : Node) : c'.next n = if n = p' then some q' else c.next n := by
    rw [hc', next_setPrev _ _ _ gap.q_ne_head, next_setNext]
  have hprev (n : Node) : c'.prev n = if n = q' then some p' else c.prev n := by
    rw [hc', prev_setPrev, prev_setNext _ _ _ gap.p_ne_tail]
  have hheader : c'.header = c.header := by simp [hc']
  refine h.replace [taken] ha ⟨?_, by rw [hsize]; exact hpos, by rw [hsize]; rfl⟩
    (fun x hx ↦ ?_) (by simp [hc']) (by simp [hc']) ?_ ?_ ?_
  · simp
  · have hne : x ≠ a := by omega
    simp [hheader, hne]
  · have hlinked : Linked c'.next c'.prev (before ++ p' :: q' :: after) :=
      gap.close (by simp [hnext]) (by simp [hprev])
        (fun n _ hn ↦ by simp [hnext, hn]) (fun n _ hn ↦ by simp [hprev, hn])
    rw [hbefore, hafter, freeNodes_cons, htaken]
    simpa using hlinked
  · show c'.next .tail = none
    rw [hnext, if_neg gap.p_ne_tail.symm]
    exact h.null
  · simp [htaken]

/-- The rest of the block takes over its place in the list, when the start of it is taken. -/
theorem WellFormed.take_front
    (hfree : block.isFree = true) (ha : a = c.payloadStart + extent size pre)
    (hp : c.prev (.block a) = some p) (hq : c.next (.block a) = some q)
    (htaken : taken.isFree = false) (hrest : rest.isFree = true) (hdead : rest.isAlive = false)
    (htakenPos : 1 ≤ taken.size) (hrestPos : 1 ≤ rest.size)
    (hsize : taken.size + rest.size = block.size) :
    WellFormed
      ((((((c.setDataId (a + taken.size) rest).setNext (.block (a + taken.size)) (some q)).setPrev
        (.block (a + taken.size)) (some p)).setNext p (some (.block (a + taken.size)))).setPrev q
          (some (.block (a + taken.size)))).setDataId a taken)
      (pre ++ [taken, rest] ++ post) := by
  obtain ⟨before, p', q', after, hbefore, hafter, gap, -, hp', hq', -⟩ := h.exists_gap hfree ha
  obtain rfl : p' = p := by simpa [hp'] using hp
  obtain rfl : q' = q := by simpa [hq'] using hq
  -- the new node lies inside the taken block, so on neither side of the gap
  have hinside (n : Node) (hn : n.Below a ∨ n.Above (a + block.size)) :
      n ≠ .block (a + taken.size) := by
    rintro rfl
    have hn' : a + taken.size < a ∨ a + block.size ≤ a + taken.size := hn
    omega
  have hpNode := hinside p' (.inl (gap.below p' (by simp)))
  have hqNode := hinside q' (.inr (gap.above q' (by simp)))
  set ptr : Node := .block (a + taken.size) with hptr
  set c' := (((((c.setDataId (a + taken.size) rest).setNext ptr (some q')).setPrev ptr
    (some p')).setNext p' (some ptr)).setPrev q' (some ptr)) with hc'
  have hptrTail : ptr ≠ .tail := by simp [hptr]
  have hptrHead : ptr ≠ .head := by simp [hptr]
  have hnext (n : Node) :
      c'.next n = if n = p' then some ptr else if n = ptr then some q' else c.next n := by
    rw [hc', next_setPrev _ _ _ gap.q_ne_head, next_setNext,
      next_setPrev _ _ _ hptrHead, next_setNext, next_setDataId]
  have hprev (n : Node) :
      c'.prev n = if n = q' then some ptr else if n = ptr then some p' else c.prev n := by
    rw [hc', prev_setPrev, prev_setNext _ _ _ gap.p_ne_tail,
      prev_setPrev, prev_setNext _ _ _ hptrTail, prev_setDataId]
  have hheader : c'.header = Function.update c.header (a + taken.size) rest := by simp [hc']
  refine h.replace [taken, rest] ha ⟨by simp, htakenPos, ?_, hrestPos, ?_⟩
    (fun x hx ↦ ?_) (by simp [hc']) (by simp [hc']) ?_ ?_ ?_
  · have hne : a + taken.size ≠ a := by omega
    rw [header_setDataId, hheader, update_of_ne hne, update_self]
  · show a + taken.size + rest.size = a + block.size
    omega
  · have hne : x ≠ a := by omega
    have hne' : x ≠ a + taken.size := by omega
    simp [hheader, hne, hne']
  · have hlinked : Linked c'.next c'.prev (before ++ p' :: ptr :: q' :: after) := by
      refine gap.fill (by simp [hnext]) ?_ ?_ (by simp [hprev]) ?_ ?_
      · rw [hprev, if_neg hqNode.symm, if_pos rfl]
      · rw [hnext, if_neg hpNode.symm, if_pos rfl]
      · exact fun n hn hne ↦ by rw [hnext, if_neg hne, if_neg (hinside n hn)]
      · exact fun n hn hne ↦ by rw [hprev, if_neg hne, if_neg (hinside n hn)]
    rw [hbefore, hafter, freeNodes_cons, freeNodes_cons, htaken, hrest]
    simpa [hptr] using hlinked
  · show c'.next .tail = none
    rw [hnext, if_neg gap.p_ne_tail.symm, if_neg hptrTail.symm]
    exact h.null
  · simp [htaken, hdead]

/-- The rest of the block keeps its place in the list, when the end of it is taken. -/
theorem WellFormed.take_back
    (hfree : block.isFree = true) (ha : a = c.payloadStart + extent size pre)
    (htaken : taken.isFree = false) (hrest : rest.isFree = true)
    (hdead : rest.isAlive = false) (htakenPos : 1 ≤ taken.size) (hrestPos : 1 ≤ rest.size)
    (hsize : rest.size + taken.size = block.size) :
    WellFormed ((c.setDataId a rest).setDataId (a + rest.size) taken)
      (pre ++ [rest, taken] ++ post) := by
  refine h.replace [rest, taken] ha ⟨?_, hrestPos, by simp, htakenPos, ?_⟩
    (fun x hx ↦ ?_) rfl rfl ?_ h.null ?_
  · have hne : a ≠ a + rest.size := by omega
    rw [header_setDataId, header_setDataId, update_of_ne hne,
      update_self]
  · show a + rest.size + taken.size = a + block.size
    omega
  · have hne : x ≠ a := by omega
    have hne' : x ≠ a + rest.size := by omega
    simp [hne, hne']
  · have hlinked := h.linked
    rw [freeNodes_append, ← ha, freeNodes_cons, hfree] at hlinked
    rw [freeNodes_cons, freeNodes_cons, htaken, hrest]
    simpa using hlinked
  · simp [htaken, hdead]

end

end Carve

/-- What `takeBlocks` leaves: the memory of the carved layout, and the address of the block. -/
theorem takeBlocks_spec (h : WellFormed c (pre ++ block :: post)) (hfree : block.isFree = true)
    (hlength : 1 ≤ length) (hfit : length ≤ block.size) (htype : dataType ≠ .freeBlock)
    (ha : a = c.payloadStart + extent size pre) :
    ∃ c', c.takeBlocks dataType flags length a = some (a + carveOffset flags length block, c') ∧
      c'.payloadStart = c.payloadStart ∧ c'.payloadEnd = c.payloadEnd ∧
      WellFormed c' (pre ++ carve dataType flags length block ++ post) := by
  obtain ⟨before, p, q, after, -, -, gap, -, hp, hq, -⟩ := h.exists_gap hfree ha
  obtain ⟨-, hheader, -, -⟩ := h.tiles_split ha
  have hblock : block.size ≤ 65535 := by
    have hextent := h.extent_le
    simp only [extent_append, extent_cons] at hextent
    omega
  have htaken : (rawId dataType flags length).isFree = false := rawId_isFree htype
  have htakenSize : (rawId dataType flags length).size = length := rawId_size (by omega)
  have hrestSize : (freeId (block.size - length)).size = block.size - length :=
    freeId_size (by omega)
  -- before the contents are zeroed, the taken block is the one carved off at `res`
  obtain ⟨c₁, left, right, hrun, hstart, hend, hwell, hlayout, hres⟩ : ∃ c₁ left right,
      c.takeBlocks dataType flags length a =
        some (a + carveOffset flags length block,
          if flags &&& HeapBlock.initializeToZero ≠ 0 then
            c₁.initializeToZero (a + carveOffset flags length block) else c₁) ∧
      c₁.payloadStart = c.payloadStart ∧ c₁.payloadEnd = c.payloadEnd ∧
      WellFormed c₁ (left ++ rawId dataType flags length :: right) ∧
      pre ++ carve dataType flags length block ++ post =
        left ++ rawId dataType flags length :: right ∧
      a + carveOffset flags length block = c.payloadStart + extent size left := by
    unfold takeBlocks
    rw [hp, hq, hheader]
    by_cases hwhole : block.size = length
    · have hoffset : carveOffset flags length block = 0 := by simp [carveOffset, hwhole]
      have hwell := h.take_whole hfree ha hp hq htaken (by rw [htakenSize, hwhole])
      rw [append_assoc, singleton_append] at hwell
      refine ⟨_, pre, post, ?_, by simp, by simp, hwell, ?_, by omega⟩
      · simp only [bind_eq_bind, bind_some, hwhole, hoffset]
        simp
        split <;> rfl
      · simp [carve, hwhole]
    · have hsub : block.size - length ≠ 0 := by omega
      by_cases hevent : flags &&& HeapBlock.event ≠ 0
      · have hoffset : carveOffset flags length block = block.size - length := if_pos hevent
        have hwell := h.take_back hfree ha htaken (freeId_isFree (block.size - length))
          (freeId_isAlive _) (by omega) (by omega) (by omega)
        have hassoc : pre ++ [freeId (block.size - length), rawId dataType flags length] ++ post =
            pre ++ [freeId (block.size - length)] ++ rawId dataType flags length :: post := by simp
        rw [hassoc] at hwell
        refine ⟨_, pre ++ [freeId (block.size - length)], post, ?_, by simp, by simp,
          hwell, ?_, ?_⟩
        · simp only [bind_eq_bind, bind_some, hoffset, if_pos hevent, if_pos hsub,
            hrestSize]
          split <;> rfl
        · simp [carve, hwhole, hevent]
        · simp [hoffset, hrestSize, ha, Nat.add_assoc]
      · have hoffset : carveOffset flags length block = 0 := if_neg hevent
        have hwell := h.take_front hfree ha hp hq htaken (freeId_isFree (block.size - length))
          (freeId_isAlive _) (by omega) (by omega) (by omega)
        rw [append_assoc, cons_append, singleton_append] at hwell
        refine ⟨_, pre, freeId (block.size - length) :: post, ?_, by simp, by simp,
          hwell, ?_, by omega⟩
        · simp only [bind_eq_bind, bind_some, hoffset, if_neg hevent, if_pos hsub,
            htakenSize]
          split <;> rfl
        · simp [carve, hwhole, hevent]
  refine ⟨_, hrun, ?_, ?_, ?_⟩
  · split
    · exact hstart
    · exact hstart
  · split
    · exact hend
    · exact hend
  · rw [hlayout]
    split
    · exact hwell.initializeToZero htaken (by rw [hres, hstart])
    · exact hwell

/-- Allocation either finds no free block that is large enough, and changes nothing, or carves the
block it returns from one that is. -/
theorem extractBlocks_spec (h : WellFormed c layout) (hlength : 1 ≤ length)
    (htype : dataType ≠ .freeBlock) (flags : UInt32) :
    (c.extractBlocks dataType flags length = some (none, c) ∧
      ∀ block ∈ layout, block.isFree = true → block.size < length) ∨
    ∃ pre block post c', layout = pre ++ block :: post ∧ block.isFree = true ∧
      length ≤ block.size ∧
      c.extractBlocks dataType flags length = some (some (c.payloadStart +
        extent size pre + carveOffset flags length block), c') ∧
      c'.payloadStart = c.payloadStart ∧ c'.payloadEnd = c.payloadEnd ∧
      WellFormed c' (pre ++ carve dataType flags length block ++ post) := by
  rcases findFree_spec h flags length with ⟨hnone, hsmall⟩ | ⟨pre, block, post, hfound, hlayout,
    hfree, hfit⟩
  · exact .inl ⟨by simp [extractBlocks, hnone], hsmall⟩
  · rw [hlayout] at h
    obtain ⟨c', hrun, hstart, hend, hwell⟩ := takeBlocks_spec h hfree hlength hfit htype rfl
    refine .inr ⟨pre, block, post, c', hlayout, hfree, hfit, ?_, hstart, hend, hwell⟩
    simp [extractBlocks, hfound, hrun]

end MicroFramework.Heap
