import MicroFramework.Heap.ClusterInvariant

/-!
# The sweep of a cluster

`recoverFromGC` walks the payload once, turning every run of dead blocks into one free block and
threading the free blocks as it goes.  The list it finds is not read: the sweep needs only that
the payload is tiled.  Its loop invariant splits the payload at the current block, with the
layout swept so far before it and the blocks still to visit after it.
-/

namespace MicroFramework.Heap

open Library Cluster BlockId List

variable {c : Cluster} {layout : List BlockId}

theorem deadRun_spec {run rest : List BlockId} {ptr lenTot fuel : ℕ} (hrun : run ≠ [])
    (hdead : ∀ block ∈ run, block.isAlive = false)
    (hrest : ∀ block ∈ rest.head?, block.isAlive = true)
    (htiled : Tiles size c.header ptr (run ++ rest) c.payloadEnd) (hfuel : run.length ≤ fuel) :
    c.deadRun fuel ptr lenTot = some (ptr + extent size run, lenTot + extent size run) := by
  induction run generalizing ptr lenTot fuel with
  | nil => exact absurd rfl hrun
  | cons block run ih =>
    obtain ⟨fuel, rfl⟩ := Nat.exists_eq_succ_of_ne_zero (Nat.ne_of_gt (Nat.zero_lt_of_lt hfuel))
    obtain ⟨hheader, -, htail⟩ := htiled
    unfold deadRun
    rw [hheader]
    cases run with
    | nil =>
      have hstop : ¬ (ptr + block.size < c.payloadEnd ∧
          (c.header (ptr + block.size)).isAlive = false) := by
        rintro ⟨hlt, hnot⟩
        cases rest with
        | nil =>
          have hend : ptr + block.size = c.payloadEnd := htail
          omega
        | cons next rest =>
          have hnext : c.header (ptr + block.size) = next := htail.1
          rw [hnext, hrest next rfl] at hnot
          exact absurd hnot (by decide)
      simp [hstop]
    | cons next run =>
      have hnext : c.header (ptr + block.size) = next := htail.1
      have hlt : ptr + block.size < c.payloadEnd := by
        have hpos : 1 ≤ next.size := htail.2.1
        have hend := htail.2.2.stop_eq
        omega
      have hgo : ptr + block.size < c.payloadEnd ∧ (c.header (ptr + block.size)).isAlive = false :=
        ⟨hlt, by rw [hnext]; exact hdead next (by simp)⟩
      have hloop := @ih (ptr + block.size) (lenTot + block.size) fuel (by simp)
        (fun b hb ↦ hdead b (by simp [mem_cons.mp hb])) htail (by simpa using hfuel)
      simp only [if_pos hgo, hloop, extent_cons block, Nat.add_assoc]

theorem sweepFrom_run {pending : ℕ} {run rest : List BlockId}
    (hdead : ∀ block ∈ run, block.isAlive = false) :
    sweepFrom pending (run ++ rest) = sweepFrom (pending + extent size run) rest := by
  induction run generalizing pending with
  | nil => simp
  | cons block run ih =>
    have hblock : block.isAlive = false := hdead block (by simp)
    rw [cons_append, sweepFrom, hblock, if_neg (by decide),
      ih fun b hb ↦ hdead b (by simp [hb]), extent_cons, Nat.add_assoc]

theorem sweepFrom_flush {pending : ℕ} {rest : List BlockId} (hpos : 1 ≤ pending)
    (hrest : ∀ block ∈ rest.head?, block.isAlive = true) :
    sweepFrom pending rest = freeId pending :: sweep rest := by
  obtain ⟨pending, rfl⟩ := Nat.exists_eq_succ_of_ne_zero (Nat.ne_of_gt hpos)
  cases rest with
  | nil => rfl
  | cons block rest =>
    have halive := hrest block rfl
    simp [sweepFrom, sweep, flush, halive]

/-- The state of the sweep at `ptr`: the payload before it is swept and its free blocks are
linked, up to `last`. -/
structure Swept (c : Cluster) (done : List BlockId) (ptr : ℕ) (last : Node) : Prop where
  tiled : Tiles size c.header c.payloadStart done ptr
  linked : Linked c.next c.prev (.head :: freeNodes c.payloadStart done)
  last : (Node.head :: freeNodes c.payloadStart done).getLast? = some last
  null : c.null = none

namespace Swept

variable {done : List BlockId} {ptr : ℕ} {last : Node}

section

variable (h : Swept c done ptr last)

include h

/-- The nodes linked so far, `last` set apart. -/
theorem exists_before :
    ∃ before, Node.head :: freeNodes c.payloadStart done = before ++ [last] ∧ last ∉ before ∧
      ∀ n ∈ before ++ [last], n.Below ptr := by
  have hnodup : (Node.head :: freeNodes c.payloadStart done).Nodup := by
    rw [nodup_cons]
    exact ⟨fun hmem ↦ above_of_mem_freeNodes hmem, freeNodes_nodup h.tiled⟩
  obtain ⟨before, hbefore⟩ := getLast?_eq_some_iff.mp h.last
  refine ⟨before, hbefore, fun hmem ↦ ?_, fun n hn ↦ ?_⟩
  · rw [hbefore, List.nodup_append] at hnodup
    exact hnodup.2.2 last hmem last (by simp) rfl
  · rw [← hbefore, mem_cons] at hn
    rcases hn with rfl | hn
    · trivial
    · exact below_of_mem_freeNodes h.tiled hn

theorem last_ne_tail : last ≠ .tail := by
  rintro rfl
  obtain ⟨before, -, -, hbelow⟩ := h.exists_before
  exact hbelow .tail (by simp)

/-- Linking a node past `last` extends the list. -/
theorem link (node : Node) (hnode : ¬ node.Below ptr) (hhead : node ≠ .head) :
    ∃ before, Node.head :: freeNodes c.payloadStart done = before ++ [last] ∧
      Linked ((c.setNext last (some node)).setPrev node (some last)).next
        ((c.setNext last (some node)).setPrev node (some last)).prev (before ++ [last, node]) := by
  obtain ⟨before, hbefore, hfresh, hbelow⟩ := h.exists_before
  have hne : ∀ n ∈ before ++ [last], n ≠ node := by
    rintro n hn rfl
    exact hnode (hbelow n hn)
  have hlinked := h.linked
  rw [hbefore] at hlinked
  refine ⟨before, hbefore, hlinked.splice (linked_singleton node) ?_ ?_ ?_ ?_⟩
  · rw [next_setPrev _ _ _ hhead, next_setNext, if_pos rfl]
  · rw [prev_setPrev, if_pos rfl]
  · intro n hn
    have hnlast : n ≠ last := by
      rintro rfl
      rcases mem_append.mp hn with hn | hn
      · exact hfresh hn
      · exact hne n (by simp) (mem_singleton.mp hn)
    rw [next_setPrev _ _ _ hhead, next_setNext, if_neg hnlast]
  · intro n hn
    rw [prev_setPrev, if_neg (hne n hn), prev_setNext _ _ _ h.last_ne_tail]

/-- One turn of the loop on a run of dead blocks. -/
theorem recover {total : ℕ} (hpos : 1 ≤ total) (hsmall : total ≤ 65535) :
    Swept (((c.setDataId ptr (freeId total)).setNext last (some (.block ptr))).setPrev (.block ptr)
      (some last)) (done ++ [freeId total]) (ptr + total) (.block ptr) := by
  have hptr : c.payloadStart + extent size done = ptr := h.tiled.stop_eq.symm
  have hnodes : freeNodes c.payloadStart (done ++ [freeId total]) =
      freeNodes c.payloadStart done ++ [.block ptr] := by
    simp [freeNodes_append, freeNodes_cons, hptr]
  have hmarked : Swept (c.setDataId ptr (freeId total)) done ptr last := by
    refine ⟨?_, by simpa using h.linked, by simpa using h.last, h.null⟩
    refine h.tiled.congr_of_bounds fun x _ hx ↦ ?_
    have hne : x ≠ ptr := by omega
    simp [hne]
  obtain ⟨before, hbefore, hlinked⟩ := hmarked.link (.block ptr)
    (fun hbelow ↦ Nat.lt_irrefl ptr hbelow) (by simp)
  refine ⟨?_, ?_, ?_, ?_⟩
  · simp only [payloadStart_setPrev, payloadStart_setNext,
      payloadStart_setDataId, header_setPrev, header_setNext]
    rw [tiles_append, hptr]
    exact ⟨hmarked.tiled, by simp, by rwa [freeId_size hsmall], by rw [freeId_size hsmall]; rfl⟩
  · simp only [payloadStart_setPrev, payloadStart_setNext,
      payloadStart_setDataId] at hbefore ⊢
    rw [hnodes, ← cons_append, hbefore]
    simpa using hlinked
  · simp only [payloadStart_setPrev, payloadStart_setNext,
      payloadStart_setDataId]
    rw [hnodes, ← cons_append, getLast?_append]
    rfl
  · show (((c.setDataId ptr (freeId total)).setNext last (some (.block ptr))).setPrev (.block ptr)
      (some last)).next .tail = none
    rw [next_setPrev _ _ _ (by simp), next_setNext, if_neg h.last_ne_tail.symm]
    exact h.null

/-- One turn of the loop on a block that survives. -/
theorem keep (block : BlockId) (hused : block.isFree = false) (hpos : 1 ≤ block.size) :
    Swept (c.setDataId ptr block) (done ++ [block]) (ptr + block.size) last := by
  have hptr : c.payloadStart + extent size done = ptr := h.tiled.stop_eq.symm
  have hnodes : freeNodes c.payloadStart (done ++ [block]) = freeNodes c.payloadStart done := by
    simp [freeNodes_append, freeNodes_cons, hused]
  refine ⟨?_, ?_, ?_, h.null⟩
  · rw [payloadStart_setDataId, tiles_append, hptr]
    refine ⟨h.tiled.congr_of_bounds fun x _ hx ↦ ?_, by simp, hpos, rfl⟩
    have hne : x ≠ ptr := by omega
    simp [hne]
  · rw [payloadStart_setDataId, hnodes]
    simpa using h.linked
  · rw [payloadStart_setDataId, hnodes]
    exact h.last

end

/-- Closing the list at the end of the payload gives a well-formed cluster. -/
theorem close (h : Swept c done c.payloadEnd last)
    (hdead : ∀ block ∈ done, block.isFree = true → block.isAlive = false)
    (hsmall : c.payloadEnd ≤ c.payloadStart + 65535) :
    WellFormed (((c.setNext last (some .tail)).setPrev .tail (some last)).setNext .tail none)
      done := by
  obtain ⟨before, hbefore, hlinked⟩ := h.link .tail (fun hbelow ↦ hbelow) (by simp)
  set closed := (c.setNext last (some .tail)).setPrev .tail (some last) with hclosed
  have hnull : closed.null = none := by
    show closed.next .tail = none
    rw [hclosed, next_setPrev _ _ _ (by simp), next_setNext,
      if_neg h.last_ne_tail.symm]
    exact h.null
  -- the last write finds `m_null` cleared already
  have hsame : closed.setNext .tail none = closed := setNext_tail_none hnull
  rw [hsame]
  refine ⟨by simpa [hclosed] using h.tiled, ?_, hnull, hdead, by simpa [hclosed] using hsmall⟩
  simp only [hclosed, payloadStart_setPrev, payloadStart_setNext] at hlinked ⊢
  rw [hbefore, append_assoc, singleton_append]
  exact hlinked

end Swept

theorem sweepLoop_spec (fuel : ℕ) : ∀ {c : Cluster} {done todo : List BlockId} {ptr : ℕ}
    {last : Node}, todo.length < fuel → Swept c done ptr last →
    Tiles size c.header ptr todo c.payloadEnd → extent size todo ≤ 65535 →
    (∀ block ∈ todo, block.isFree = true → block.isAlive = false) →
    ∃ c' last', sweepLoop fuel c ptr last = some (c', last') ∧
      Swept c' (done ++ sweep todo) c.payloadEnd last' ∧ c'.payloadStart = c.payloadStart ∧
      c'.payloadEnd = c.payloadEnd := by
  induction fuel with
  | zero => exact fun hfuel ↦ absurd hfuel (Nat.not_lt_zero _)
  | succ fuel ih =>
    intro c done todo ptr last hfuel hswept htiled hextent hfree
    unfold sweepLoop
    cases todo with
    | nil =>
      have hptr : ptr = c.payloadEnd := htiled
      subst hptr
      exact ⟨c, last, by simp, by simpa [sweep, sweepFrom, flush] using hswept, rfl, rfl⟩
    | cons block rest =>
      obtain ⟨hheader, hpos, hrest⟩ := htiled
      have hstop := hrest.stop_eq
      rw [if_pos (by omega), hheader]
      by_cases halive : block.isAlive = false
      · -- the inner loop takes the maximal dead run that starts here
        obtain ⟨run, rest', htodo, hrun, hrunDead, hrestAlive⟩ : ∃ run rest',
            block :: rest = run ++ rest' ∧ run ≠ [] ∧ (∀ b ∈ run, b.isAlive = false) ∧
              ∀ b ∈ rest'.head?, b.isAlive = true := by
          refine ⟨(block :: rest).takeWhile fun b ↦ !b.isAlive,
            (block :: rest).dropWhile fun b ↦ !b.isAlive,
            (takeWhile_append_dropWhile).symm, by simp [halive], ?_, ?_⟩
          · exact fun b hb ↦ by simpa using all_eq_true.mp all_takeWhile b hb
          · intro b hb
            have hhead := head?_dropWhile_not (fun b : BlockId ↦ !b.isAlive) (block :: rest)
            rw [Option.mem_def.mp hb] at hhead
            simpa using hhead
        have hwhole : Tiles size c.header ptr (run ++ rest') c.payloadEnd := by
          rw [← htodo]
          exact ⟨hheader, hpos, hrest⟩
        obtain ⟨hrunTiled, hrestTiled⟩ := tiles_append.mp hwhole
        have hlength : run.length + rest'.length = (block :: rest).length := by
          rw [htodo, length_append]
        have hrunLength : 1 ≤ run.length := length_pos_iff.mpr hrun
        have hsizes : extent size run + extent size rest' ≤ 65535 := by
          rw [← extent_append, ← htodo]
          exact hextent
        have hrunPos : 1 ≤ extent size run := hrunLength.trans hrunTiled.length_le
        have hinner := @deadRun_spec c run rest' ptr 0 fuel hrun hrunDead hrestAlive hwhole
          (by omega)
        have hnext := hswept.recover hrunPos (by omega : extent size run ≤ 65535)
        have hsweep : sweep (block :: rest) = freeId (extent size run) :: sweep rest' := by
          rw [htodo, sweep, sweepFrom_run hrunDead, Nat.zero_add,
            sweepFrom_flush hrunPos hrestAlive]
        have htail : Tiles size (((c.setDataId ptr (freeId (extent size run))).setNext
            last (some (.block ptr))).setPrev (.block ptr) (some last)).header
            (ptr + extent size run) rest' c.payloadEnd := by
          refine hrestTiled.congr_of_bounds fun x hx _ ↦ ?_
          have hne : x ≠ ptr := by omega
          simp [hne]
        have hfuel' : rest'.length < fuel := by omega
        have hfree' : ∀ b ∈ rest', b.isFree = true → b.isAlive = false :=
          fun b hb ↦ hfree b (by rw [htodo]; simp [hb])
        obtain ⟨c', last', hloop, hdone, hstart, hend⟩ := ih hfuel' hnext
          (by simpa only [payloadEnd_setPrev, payloadEnd_setNext,
            payloadEnd_setDataId] using htail) (by omega) hfree'
        refine ⟨c', last', ?_, ?_, by simpa using hstart, by simpa using hend⟩
        · rw [if_pos halive, hinner]
          simpa [freeId] using hloop
        · rw [hsweep]
          simpa using hdone
      · have hused : block.isFree = false := by
          by_contra hblock
          exact halive (hfree block (by simp) (by simpa using hblock))
        have hkept : (if block.isEvent = false then c.setDataId ptr block.markDead else c) =
            c.setDataId ptr (settle block) := by
          unfold settle
          split
          · rfl
          · rw [← hheader, setDataId_header]
        have hnext := hswept.keep (settle block) (by simpa using hused) (by simpa using hpos)
        rw [settle_size] at hnext
        have htail : Tiles size (c.setDataId ptr (settle block)).header (ptr + block.size)
            rest c.payloadEnd := by
          refine hrest.congr_of_bounds fun x hx _ ↦ ?_
          have hne : x ≠ ptr := by omega
          simp [hne]
        rw [extent_cons] at hextent
        obtain ⟨c', last', hloop, hdone, hstart, hend⟩ := ih (by simpa using hfuel) hnext htail
          (by omega) (fun b hb ↦ hfree b (by simp [hb]))
        have hsweep : sweep (block :: rest) = settle block :: sweep rest := by
          simp only [sweep, sweepFrom, flush, nil_append, if_pos (by simpa using halive)]
        refine ⟨c', last', ?_, ?_, hstart, hend⟩
        · simp only [if_neg halive, hkept]
          simpa using hloop
        · rw [hsweep]
          simpa using hdone

/-- The sweep of a tiled payload, whatever its free list was. -/
theorem recoverFromGC_spec (htiled : Tiles size c.header c.payloadStart layout c.payloadEnd)
    (hdead : ∀ block ∈ layout, block.isFree = true → block.isAlive = false)
    (hsmall : c.payloadEnd ≤ c.payloadStart + 65535) :
    ∃ c', c.recoverFromGC = some c' ∧ WellFormed c' (sweep layout) ∧
      c'.payloadStart = c.payloadStart ∧ c'.payloadEnd = c.payloadEnd := by
  have hlength := htiled.length_le
  have hstop := htiled.stop_eq
  have hopen : Swept (c.setPrev .head none) [] c.payloadStart .head :=
    ⟨rfl, linked_singleton _, rfl, rfl⟩
  obtain ⟨c₁, last, hrun, hswept, hstart, hend⟩ := sweepLoop_spec ((c.setPrev .head none).fuel + 1)
    (by unfold fuel; simp; omega) hopen (by simpa using htiled) (by omega) hdead
  rw [payloadStart_setPrev] at hstart
  rw [payloadEnd_setPrev] at hend hswept
  rw [← hend, nil_append] at hswept
  have hsweptDead : ∀ block ∈ sweep layout, block.isFree = true → block.isAlive = false :=
    fun b hb hblock ↦ dead_of_mem_sweepFrom hdead hb hblock
  refine ⟨_, ?_, hswept.close hsweptDead (by omega), by simp [hstart], by simp [hend]⟩
  unfold recoverFromGC
  simp only [payloadStart_setPrev, hrun]

end MicroFramework.Heap
