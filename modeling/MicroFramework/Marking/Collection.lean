import MicroFramework.Marking.Turn

/-!
# The invariant of a collection

Between two steps of a collection the mark stacks have their shape and the abstract marking has
its invariant: the calls made so far are the roots given, and in `MarkSlow` the blocks the walk
has not reached yet are the debt.
-/

namespace MicroFramework.Marking

open Heap Library List Option Marker

/-- The objects `MarkSlow` has still to look at again. -/
def debt (walk : Option (List (ℕ × ℕ))) (a : ℕ) : Prop :=
  ∃ w, walk = some w ∧ ∃ p ∈ w, p.1 ≤ a ∧ a < p.2

/-- The rest of each cluster of the walk is tiled, and its blocks are the objects there. -/
def Walkable (memory : ℕ → HeapBlock) (nodes : List ℕ) (w : List (ℕ × ℕ)) : Prop :=
  ∀ p ∈ w, ∃ sizes, Tiles id (sizeAt memory) p.1 sizes p.2 ∧
    ∀ a, (a ∈ nodes ∧ p.1 ≤ a ∧ a < p.2) ↔
      (memory a).id.isEvent = false ∧ ∃ n, (a, n) ∈ located id p.1 sizes

/-- The next step does not push onto a full mark stack the wrong way. -/
def Collection.Safe (allocated : ℕ → Bool) (m : Collection) : Prop :=
  m.inLoop = true → m.marker.Safe allocated

/-- What a step can do. -/
inductive Collection.Move (allocated : ℕ → Bool) (clusters : List (ℕ × ℕ)) (m : Collection) :
    Collection → Prop
  | turn {s : Marker} (hloop : m.inLoop = true) (hrun : m.marker.iteration allocated = some s) :
      Move allocated clusters m { m with marker := s }
  | leave (hloop : m.inLoop = true) (hrun : m.marker.iteration allocated = none) :
      Move allocated clusters m { m with marker := m.marker.saveState, inLoop := false }
  | force {ptr stop : ℕ} {rest : List (ℕ × ℕ)} (hloop : m.inLoop = false)
      (hwalk : m.walk = some ((ptr, stop) :: rest)) (hlt : ptr < stop)
      (halive : m.marker.alive ptr = true) (hevent : (m.marker.memory ptr).id.isEvent = false) :
      Move allocated clusters m
        (({ m with walk := some ((ptr + sizeAt m.marker.memory ptr, stop) :: rest) } :
          Collection).call ptr 1)
  | pass {ptr stop : ℕ} {rest : List (ℕ × ℕ)} (hloop : m.inLoop = false)
      (hwalk : m.walk = some ((ptr, stop) :: rest)) (hlt : ptr < stop)
      (hnot : m.marker.alive ptr = false ∨ (m.marker.memory ptr).id.isEvent = true) :
      Move allocated clusters m
        { m with walk := some ((ptr + sizeAt m.marker.memory ptr, stop) :: rest) }
  | nextCluster {ptr stop : ℕ} {rest : List (ℕ × ℕ)} (hloop : m.inLoop = false)
      (hwalk : m.walk = some ((ptr, stop) :: rest)) (hge : stop ≤ ptr) :
      Move allocated clusters m { m with walk := some rest }
  | endPass (hloop : m.inLoop = false) (hwalk : m.walk = some []) :
      Move allocated clusters m { m with walk := none }
  | callRoot {r : RootCall} {rest : List RootCall} {lst num : ℕ} (hloop : m.inLoop = false)
      (hwalk : m.walk = none) (hroots : m.roots = r :: rest)
      (hcells : r.cells = List.range' lst num) :
      Move allocated clusters m (({ m with roots := rest, walk := none } : Collection).call lst num)
  | passRoot {r : RootCall} {rest : List RootCall} (hloop : m.inLoop = false)
      (hwalk : m.walk = none) (hroots : m.roots = r :: rest)
      (hnot : ∀ a ∈ r.cells, r = .singleBlock (some a) ∧ m.marker.alive a = true) :
      Move allocated clusters m { m with roots := rest, walk := none }
  | startPass (hloop : m.inLoop = false) (hwalk : m.walk = none) (hroots : m.roots = [])
      (hflag : m.marker.outOfStackSpace = true) :
      Move allocated clusters m
        { m with
          marker := { m.marker with outOfStackSpace := false }
          roots := []
          walk := some clusters }

variable {allocated : ℕ → Bool} {m : Collection}

theorem Collection.move_of_step {clusters : List (ℕ × ℕ)}
    {m' : Collection} (h : m.step allocated clusters = some m') :
    m.Move allocated clusters m' := by
  unfold Collection.step at h
  cases hloop : m.inLoop with
  | true =>
    rw [if_pos hloop] at h
    cases hrun : m.marker.iteration allocated with
    | some s =>
      rw [hrun] at h
      exact some.inj h ▸ .turn hloop hrun
    | none =>
      rw [hrun] at h
      exact some.inj h ▸ .leave hloop hrun
  | false =>
    rw [if_neg (by simp [hloop])] at h
    cases hwalk : m.walk with
    | some w =>
      rw [hwalk] at h
      cases w with
      | nil => exact some.inj h ▸ .endPass hloop hwalk
      | cons p rest =>
        obtain ⟨ptr, stop⟩ := p
        by_cases hlt : ptr < stop
        · simp only [if_pos hlt] at h
          by_cases hforce : (m.marker.memory ptr).id.isAlive && !(m.marker.memory ptr).id.isEvent
          · have hboth : (m.marker.memory ptr).id.isAlive = true ∧
                (m.marker.memory ptr).id.isEvent = false := by simpa using hforce
            rw [if_pos hforce] at h
            exact some.inj h ▸ .force hloop hwalk hlt hboth.1 hboth.2
          · have hnot : m.marker.alive ptr = false ∨
                (m.marker.memory ptr).id.isEvent = true := by
              cases halive : m.marker.alive ptr with
              | false => exact .inl rfl
              | true =>
                have halive' : (m.marker.memory ptr).id.isAlive = true := halive
                exact .inr (by simpa [halive'] using hforce)
            rw [if_neg hforce] at h
            exact some.inj h ▸ .pass hloop hwalk hlt hnot
        · simp only [if_neg hlt] at h
          exact some.inj h ▸ .nextCluster hloop hwalk (by omega)
    | none =>
      rw [hwalk] at h
      cases hroots : m.roots with
      | nil =>
        rw [hroots] at h
        by_cases hflag : m.marker.outOfStackSpace = true
        · simp only [if_pos hflag] at h
          exact some.inj h ▸ .startPass hloop hwalk hroots hflag
        · simp [hflag] at h
      | cons r rest =>
        rw [hroots] at h
        cases r with
        | multipleBlocks lst num => exact some.inj h ▸ .callRoot hloop hwalk hroots rfl
        | singleBlock obj =>
          cases obj with
          | none => exact some.inj h ▸ .passRoot hloop hwalk hroots (by simp [RootCall.cells])
          | some ptr =>
            by_cases halive : (m.marker.memory ptr).id.isAlive = true
            · simp only [if_pos halive] at h
              refine some.inj h ▸ .passRoot hloop hwalk hroots fun a ha ↦ ?_
              obtain rfl : a = ptr := by simpa [RootCall.cells] using ha
              exact ⟨rfl, halive⟩
            · simp only [if_neg halive] at h
              exact some.inj h ▸ .callRoot hloop hwalk hroots rfl

theorem Collection.stopped_of_step {clusters : List (ℕ × ℕ)} (h : m.step allocated clusters = none) :
    m.inLoop = false ∧ m.walk = none ∧ m.roots = [] ∧ m.marker.outOfStackSpace = false := by
  unfold Collection.step at h
  cases hloop : m.inLoop with
  | true =>
    rw [if_pos hloop] at h
    cases hrun : m.marker.iteration allocated <;> simp [hrun] at h
  | false =>
    rw [if_neg (by simp [hloop])] at h
    cases hwalk : m.walk with
    | some w =>
      cases w with
      | nil => simp [hwalk] at h
      | cons p rest =>
        rw [hwalk] at h
        simp only at h
        split at h
        · split at h <;> simp at h
        · simp at h
    | none =>
      rw [hwalk] at h
      cases hroots : m.roots with
      | nil =>
        rw [hroots] at h
        refine ⟨rfl, rfl, rfl, ?_⟩
        by_contra hflag
        simp [hflag] at h
      | cons r rest =>
        rw [hroots] at h
        cases r with
        | multipleBlocks lst num => simp at h
        | singleBlock obj =>
          cases obj with
          | none => simp at h
          | some ptr =>
            simp only at h
            split at h <;> simp at h

/-- What holds between two steps. -/
structure CollectionInvariant (memory : ℕ → HeapBlock) (roots : List RootCall) (nodes : List ℕ)
    (m : Collection) : Prop where
  shape : m.marker.Shape
  same : SameObjects memory m.marker.memory
  rest : m.inLoop = false → m.marker.num = 0 ∧ m.marker.stackList = 0 ∧ m.marker.stack = 0 ∧
    (m.marker.markStacks 0).top = 0
  origin : 1 < m.marker.num → (m.marker.stackList = 0 ∧ m.marker.stack = 0) ∨
    ∃ b, (graph memory).Reach (rootCells roots) b ∧
      (graph memory).fields b = List.range' m.marker.lst m.marker.num
  given : ∃ made, roots = made ++ m.roots ∧
    m.marker.marking.Invariant (graph memory) (rootCells roots) nodes (rootCells made) (debt m.walk)
  walkable : ∀ w, m.walk = some w → Walkable memory nodes w

section Marker

variable {s : Marker}

theorem Marker.pending_eq_nil (hnum : s.num = 0) (hlist : s.stackList = 0) (hstack : s.stack = 0) :
    s.pending = [] := by
  rw [pending, stacked, hnum, hlist, hstack]
  rfl

theorem Marker.Shape.saveState (h : s.Shape) (hlist : s.stackList = 0) :
    s.saveState.Shape ∧ (s.saveState.markStacks 0).top = s.stack := by
  refine ⟨⟨rfl, h.linked, h.last.trans (h.last_saveState s.stackList).symm, h.bound, fun j hj ↦ ?_,
    h.first.trans_eq (h.last_saveState 0).symm, fun j hj ↦ ?_, fun j hj ↦ ?_,
    fun j hj i hi htop ↦ ?_⟩, ?_⟩
  · exact (h.room j hj).trans_eq (h.last_saveState j).symm
  · have hj' : j < s.stackList := hj
    omega
  · rw [elements_saveState]
    exact h.sentinel j hj
  · have hj' : j = s.stackList := by
      have hle : j ≤ s.stackList := hj
      omega
    rw [elements_saveState]
    refine h.used j hj i hi ?_
    subst hj'
    rw [Shape.topOf_current]
    exact htop.trans_eq (Shape.topOf_current _)
  · rw [h.top_saveState, ← hlist, Shape.topOf_current]

theorem Marker.Shape.enter (h : s.Shape) (hlist : s.stackList = 0) (hstack : s.stack = 0)
    (htop : (s.markStacks 0).top = 0) (lst num : ℕ) :
    s.enter lst num = { s with lst := lst, num := num } := by
  have hcurrent : s.markStack = 0 := h.current.trans hlist
  have hlast : (s.markStacks 0).last = s.stackLast := by rw [h.last, hlist]
  simp [Marker.enter, Marker.loadState, hcurrent, htop, hlast, hlist, hstack]

end Marker

namespace CollectionInvariant

variable {memory : ℕ → HeapBlock} {clusters : List (ℕ × ℕ)} {roots : List RootCall}
  {nodes : List ℕ} {allocated : ℕ → Bool} {m m' : Collection}

theorem call (h : CollectionInvariant memory roots nodes m) (hloop : m.inLoop = false)
    (lst num : ℕ) (rest made : List RootCall) (walk : Option (List (ℕ × ℕ)))
    (hroots : roots = made ++ rest)
    (hmarking : (⟨m.marker.alive, List.range' lst num, m.marker.outOfStackSpace⟩ :
      Marking ℕ).Invariant (graph memory) (rootCells roots) nodes (rootCells made) (debt walk))
    (hwalk : ∀ w, walk = some w → Walkable memory nodes w) :
    CollectionInvariant memory roots nodes
      (({ m with roots := rest, walk := walk } : Collection).call lst num) := by
  obtain ⟨hnum, hlist, hstack, htop⟩ := h.rest hloop
  have henter := h.shape.enter hlist hstack htop lst num
  have hshape := h.shape
  unfold Collection.call
  rw [henter]
  refine ⟨⟨hshape.current, hshape.linked, hshape.last, hshape.bound, hshape.room, hshape.first,
    hshape.full, hshape.sentinel, hshape.used⟩, h.same, fun hfalse ↦ by simp at hfalse,
    fun _ ↦ .inl ⟨hlist, hstack⟩, ⟨made, hroots, ?_⟩, hwalk⟩
  have hpending : ({ m.marker with lst := lst, num := num } : Marker).pending =
      List.range' lst num := by
    have hnil := pending_eq_nil hnum hlist hstack
    rw [pending, hnum] at hnil
    show List.range' lst num ++ m.marker.stacked = _
    rw [show m.marker.stacked = [] from hnil, append_nil]
  have heq : ({ m.marker with lst := lst, num := num } : Marker).marking =
      ⟨m.marker.alive, List.range' lst num, m.marker.outOfStackSpace⟩ := by
    rw [marking, hpending]
    rfl
  show Marking.Invariant _ _ _ _ _ ({ m.marker with lst := lst, num := num } : Marker).marking
  rw [heq]
  exact hmarking

theorem skip (h : CollectionInvariant memory roots nodes m) (rest made : List RootCall)
    (walk : Option (List (ℕ × ℕ))) (hroots : roots = made ++ rest)
    (hmarking : m.marker.marking.Invariant (graph memory) (rootCells roots) nodes (rootCells made)
      (debt walk)) (hwalk : ∀ w, walk = some w → Walkable memory nodes w) :
    CollectionInvariant memory roots nodes { m with roots := rest, walk := walk } :=
  ⟨h.shape, h.same, h.rest, h.origin, ⟨made, hroots, hmarking⟩, hwalk⟩

theorem turn (hheap : (graph memory).Managed (rootCells roots) nodes)
    (h : CollectionInvariant memory roots nodes m) {s : Marker} (hshape : s.Shape)
    (hturn : m.marker.Turn s) (hsame : SameObjects m.marker.memory s.memory)
    (hloop : m.inLoop = true) : CollectionInvariant memory roots nodes { m with marker := s } := by
  obtain ⟨made, hroots, hmarking⟩ := h.given
  have hsame' := h.same.trans hsame
  have hgraph := h.same.graph
  refine ⟨hshape, hsame', fun hfalse ↦ by simp [hloop] at hfalse, ?_, ⟨made, hroots, ?_⟩,
    h.walkable⟩
  · intro hnum
    cases hturn with
    | visit a hpending hmarked hrun hplace =>
      have hreach : (graph memory).Reach (rootCells roots) a :=
        hmarking.pending a (by
          show a ∈ m.marker.pending
          rw [hpending]
          exact mem_cons_self)
      -- a run of several blocks is never the object a cell refers to
      refine .inr ⟨a, hreach, ?_⟩
      show _ = List.range' s.lst s.num
      rw [hrun, hgraph, Graph.expand]
      cases hlink : (graph memory).link a with
      | none => simp
      | some t =>
        have hlength : (List.range' s.lst s.num).length ≤ 1 := by
          rw [hrun, hgraph, Graph.expand, hlink, fields_eq_nil_of_link hlink]
          cases s.alive t <;> simp [Option.filter]
        rw [length_range'] at hlength
        have hnum' : 1 < s.num := hnum
        omega
    | dropRun hlong hfull hmarked hnum' =>
      have hnum' : 1 < s.num := hnum
      omega
  · show s.marking.Invariant (graph memory) (rootCells roots) nodes (rootCells made) (debt m.walk)
    cases hturn with
    | visit a hpending hmarked hrun hplace =>
      rw [hmarked, hgraph]
      exact hmarking.visit hpending
    | dropRun hlong hfull hmarked hnum' =>
      have horigin := h.origin hlong
      have hnotFirst : ¬ (m.marker.stackList = 0 ∧ m.marker.stack = 0) := by
        rintro ⟨hlist, hstack⟩
        have hroom := h.shape.first
        have hlast := h.shape.last
        rw [hlist] at hlast
        omega
      obtain ⟨b, hreach, hfields⟩ := horigin.resolve_left hnotFirst
      rw [hmarked]
      refine hmarking.giveUp hheap hreach ?_
      rw [hfields]
      rfl

theorem leave (h : CollectionInvariant memory roots nodes m) (hnum : m.marker.num = 0)
    (hlist : m.marker.stackList = 0) (hstack : m.marker.stack = 0) :
    CollectionInvariant memory roots nodes
      { m with marker := m.marker.saveState, inLoop := false } := by
  obtain ⟨hshape, htop⟩ := h.shape.saveState hlist
  obtain ⟨made, hroots, hmarking⟩ := h.given
  have hpending := pending_eq_nil hnum hlist hstack
  have hpending' : m.marker.saveState.pending = [] := pending_eq_nil hnum hlist hstack
  have heq : m.marker.saveState.marking = m.marker.marking := by
    rw [marking, marking, hpending, hpending']
    rfl
  refine ⟨hshape, h.same, fun _ ↦ ⟨hnum, hlist, hstack, htop.trans hstack⟩,
    fun hlong ↦ .inl ⟨hlist, hstack⟩, ⟨made, hroots, ?_⟩, h.walkable⟩
  show m.marker.saveState.marking.Invariant _ _ _ _ _
  rw [heq]
  exact hmarking

variable {ptr stop : ℕ} {rest : List (ℕ × ℕ)}

/-- Walking past a block that needs no second look. -/
theorem debt_advance {size : ℕ} {a : ℕ}
    (hgap : ∀ b, ptr < b → b < ptr + size → b ≠ a) (h : debt (some ((ptr, stop) :: rest)) a) :
    a = ptr ∨ debt (some ((ptr + size, stop) :: rest)) a := by
  obtain ⟨w, hw, p, hp, hstart, hstop⟩ := h
  obtain rfl := some.inj hw
  rcases mem_cons.mp hp with rfl | hp
  · by_cases hptr : a = ptr
    · exact .inl hptr
    · have hge : ptr + size ≤ a := by
        by_contra hlt
        exact hgap a (by simp only at hstart; omega) (by omega) rfl
      exact .inr ⟨_, rfl, (ptr + size, stop), mem_cons_self, hge, hstop⟩
  · exact .inr ⟨_, rfl, p, mem_cons_of_mem _ hp, hstart, hstop⟩

/-- The walk stays on the blocks of the heap. -/
theorem walk_advance (h : CollectionInvariant memory roots nodes m)
    (hwalk : m.walk = some ((ptr, stop) :: rest)) (hlt : ptr < stop) :
    1 ≤ sizeAt m.marker.memory ptr ∧
      Walkable memory nodes ((ptr + sizeAt m.marker.memory ptr, stop) :: rest) ∧
      ((memory ptr).id.isEvent = false → ptr ∈ nodes) ∧
      ∀ a ∈ nodes, debt m.walk a → a = ptr ∨
        debt (some ((ptr + sizeAt m.marker.memory ptr, stop) :: rest)) a := by
  have hwalkable := h.walkable _ hwalk
  have hsize : sizeAt m.marker.memory ptr = sizeAt memory ptr := h.same.size ptr
  obtain ⟨sizes, htiled, hplaces⟩ := hwalkable (ptr, stop) mem_cons_self
  cases sizes with
  | nil =>
    have hstop : ptr = stop := htiled
    omega
  | cons n sizes =>
    obtain ⟨hn, hpos, hrest⟩ := htiled
    have hn' : sizeAt memory ptr = n := hn
    simp only [id] at hpos hrest
    rw [hsize, hn']
    -- between this block and the next there is no object
    have hgap : ∀ a ∈ nodes, ∀ b, ptr < b → b < ptr + n → b ≠ a := by
      rintro a ha b hb hb' rfl
      have hstop := hrest.stop_eq
      obtain ⟨-, k, hk⟩ := (hplaces b).mp ⟨ha, by simp only; omega, by simp only; omega⟩
      rw [located_cons, mem_cons] at hk
      rcases hk with hk | hk
      · have : b = ptr := congrArg Prod.fst hk
        omega
      · have hbounds := bounds_of_mem_located hk
        simp only [id] at hbounds
        omega
    refine ⟨hpos, ?_, fun hevent ↦ ?_, fun a ha hdebt ↦ ?_⟩
    · intro p hp
      rcases mem_cons.mp hp with rfl | hp
      · refine ⟨sizes, hrest, fun a ↦ ⟨fun ha ↦ ?_, fun ha ↦ ?_⟩⟩
        · obtain ⟨hevent, k, hk⟩ := (hplaces a).mp ⟨ha.1, by simp only; omega, ha.2.2⟩
          rw [located_cons, mem_cons] at hk
          rcases hk with hk | hk
          · have : a = ptr := congrArg Prod.fst hk
            simp only at ha
            omega
          · exact ⟨hevent, k, hk⟩
        · obtain ⟨hevent, k, hk⟩ := ha
          obtain ⟨hnode, -, hstop⟩ := (hplaces a).mpr
            ⟨hevent, k, by rw [located_cons]; exact mem_cons_of_mem _ hk⟩
          have hbounds := bounds_of_mem_located hk
          simp only [id] at hbounds
          exact ⟨hnode, hbounds.1, hstop⟩
      · exact hwalkable p (mem_cons_of_mem _ hp)
    · exact ((hplaces ptr).mpr ⟨hevent, n, by simp⟩).1
    · rw [hwalk] at hdebt
      exact debt_advance (hgap a ha) hdebt

section

variable (hheap : ManagedHeap memory clusters roots)

include hheap

section

variable (hnodes : ∀ a, a ∈ nodes ↔ IsObject memory clusters a)

include hnodes

theorem step (h : CollectionInvariant memory roots nodes m) (hsafe : m.Safe allocated)
    (hmove : m.Move allocated clusters m') : CollectionInvariant memory roots nodes m' := by
  have hmanaged := hheap.managed hnodes
  obtain ⟨made, hroots, hmarking⟩ := h.given
  have hpending (hloop : m.inLoop = false) : m.marker.marking.pending = [] := by
    obtain ⟨hnum, hlist, hstack, -⟩ := h.rest hloop
    exact pending_eq_nil hnum hlist hstack
  have hiteration (hloop : m.inLoop = true) := iteration_spec h.shape (hsafe hloop)
  cases hmove with
  | turn hloop hrun =>
    rcases hiteration hloop with ⟨hnone, -⟩ | ⟨s, hsome, hshape, hturn, hsame⟩
    · simp [hnone] at hrun
    · obtain rfl := some.inj (hsome.symm.trans hrun)
      exact h.turn hmanaged hshape hturn hsame hloop
  | leave hloop hrun =>
    rcases hiteration hloop with ⟨-, hnum, hlist, hstack⟩ | ⟨s, hsome, -⟩
    · exact h.leave hnum hlist hstack
    · simp [hsome] at hrun
  | force hloop hwalk hlt halive hevent =>
    obtain ⟨-, hwalkable, hnode, hdebt⟩ := h.walk_advance hwalk hlt
    have hmem := hnode ((h.same.event _).symm.trans hevent)
    refine h.call hloop _ 1 m.roots made _ hroots ?_ fun w hw ↦ some.inj hw ▸ hwalkable
    refine hmarking.start (hpending hloop) _ (fun b hb ↦ ?_) (fun r hr ↦ ?_) fun b hb _ hb' ↦ ?_
    · obtain rfl : b = _ := by simpa using hb
      exact hmarking.sound b hmem halive
    · exact ⟨(hmarking.given r hr).1, .inl hr⟩
    · exact (hdebt b hb hb').symm.imp id fun hb'' ↦ by simp [hb'']
  | pass hloop hwalk hlt hnot =>
    obtain ⟨-, hwalkable, hnode, hdebt⟩ := h.walk_advance hwalk hlt
    refine h.skip m.roots made _ hroots ?_ fun w hw ↦ some.inj hw ▸ hwalkable
    refine hmarking.pay fun b hb halive hb' ↦ (hdebt b hb hb').resolve_left ?_
    rintro rfl
    rcases hnot with hdead | hevent
    · have halive' : m.marker.alive b = true := halive
      simp [hdead] at halive'
    · rw [h.same.event b] at hevent
      simp [((hnodes b).mp hb).1] at hevent
  | nextCluster hloop hwalk hge =>
    refine h.skip m.roots made _ hroots ?_ fun w hw ↦ ?_
    · refine hmarking.pay fun b _ _ hb' ↦ ?_
      obtain ⟨w, hw, p, hp, hbounds⟩ := hb'
      obtain rfl := some.inj (hwalk.symm.trans hw)
      rcases mem_cons.mp hp with rfl | hp
      · simp only at hbounds
        omega
      · exact ⟨_, rfl, p, hp, hbounds⟩
    · obtain rfl := some.inj hw
      exact fun p hp ↦ h.walkable _ hwalk p (mem_cons_of_mem _ hp)
  | endPass hloop hwalk =>
    refine h.skip m.roots made _ hroots ?_ fun w hw ↦ by simp at hw
    refine hmarking.pay fun b _ _ hb' ↦ ?_
    obtain ⟨w, hw, p, hp, -⟩ := hb'
    obtain rfl := some.inj (hwalk.symm.trans hw)
    exact absurd hp not_mem_nil
  | @callRoot r rest lst num hloop hwalk hrest hcells =>
    have hroots' : roots = (made ++ [r]) ++ rest := by rw [hroots, hrest, append_assoc]; rfl
    refine h.call hloop lst num rest (made ++ [r]) none hroots' ?_ fun w hw ↦ by simp at hw
    rw [← hcells]
    have hroot : ∀ a ∈ r.cells, rootCells roots a := fun a ha ↦ ⟨r, by rw [hroots']; simp, ha⟩
    refine hmarking.start (hpending hloop) _ (fun b hb ↦ .root (hroot b hb)) ?_ fun b _ _ hb ↦ ?_
    · rintro a ⟨r', hr', ha⟩
      rcases mem_append.mp hr' with hr' | hr'
      · exact ⟨(hmarking.given a ⟨r', hr', ha⟩).1, .inl ⟨r', hr', ha⟩⟩
      · obtain rfl := mem_singleton.mp hr'
        exact ⟨hroot a ha, .inr ha⟩
    · rw [hwalk] at hb
      exact .inl hb
  | @passRoot r rest hloop hwalk hrest hnot =>
    have hroots' : roots = (made ++ [r]) ++ rest := by rw [hroots, hrest, append_assoc]; rfl
    refine h.skip rest (made ++ [r]) none hroots' ?_ fun w hw ↦ by simp at hw
    rw [← hwalk]
    refine hmarking.give ?_
    rintro a ⟨r', hr', ha⟩
    have hroot : rootCells roots a := by
      refine ⟨r', ?_, ha⟩
      rw [hroots']
      exact mem_append_left _ hr'
    refine ⟨hroot, ?_⟩
    rcases mem_append.mp hr' with hr' | hr'
    · exact .inl ⟨r', hr', ha⟩
    · -- a single root is skipped when it is an object marked before
      obtain rfl := mem_singleton.mp hr'
      obtain ⟨hsingle, halive⟩ := hnot a ha
      have hobject := hheap.single a (by rw [← hsingle, hroots']; simp)
      have hmem := (hnodes a).mpr hobject
      exact .inr (.inr ⟨fun _ ↦ halive, hmarking.followed a hmem halive⟩)
  | startPass hloop hwalk hrest hflag =>
    have hshape := h.shape
    have hnew : (m.marker.marking.pending) = [] := hpending hloop
    refine ⟨⟨hshape.current, hshape.linked, hshape.last, hshape.bound, hshape.room, hshape.first,
      hshape.full, hshape.sentinel, hshape.used⟩, h.same, h.rest, h.origin,
      ⟨made, by rw [hroots, hrest], ?_⟩, ?_⟩
    · refine hmarking.reset fun b hb ↦ ?_
      obtain ⟨p, hp, hstart, hstop, hpos⟩ := ((hnodes b).mp hb).bounds
      exact ⟨clusters, rfl, p, hp, hstart, by omega⟩
    · intro w hw p hp
      obtain rfl := some.inj hw
      obtain ⟨sizes, htiled⟩ := hheap.tiled p hp
      refine ⟨sizes, htiled, fun a ↦ ⟨fun ha ↦ ?_, fun ha ↦ ?_⟩⟩
      · obtain ⟨hmem, hstart, hstop⟩ := ha
        have hobject := (hnodes a).mp hmem
        obtain ⟨hevent, q, hq, sizes', n, htiled', hplace⟩ := hobject
        have hbounds := bounds_of_mem_located hplace
        have hpos : 1 ≤ n := htiled'.pos (mem_of_mem_located hplace)
        have hstop' := htiled'.stop_eq
        simp only [id] at hbounds
        have hpq : p = q := hheap.cluster_unique hp hq (a := a) ⟨hstart, hstop⟩ (by omega)
        subst hpq
        obtain rfl := htiled.unique htiled'
        exact ⟨hevent, n, hplace⟩
      · obtain ⟨hevent, n, hplace⟩ := ha
        have hbounds := bounds_of_mem_located hplace
        have hpos : 1 ≤ n := htiled.pos (mem_of_mem_located hplace)
        have hstop := htiled.stop_eq
        simp only [id] at hbounds
        exact ⟨(hnodes a).mpr ⟨hevent, p, hp, sizes, n, htiled, hplace⟩, hbounds.1, by omega⟩

theorem create : CollectionInvariant memory roots nodes (Collection.create memory roots) := by
  refine ⟨⟨rfl, Nat.zero_lt_one, rfl, Nat.zero_le _, fun _ _ ↦ (by decide : 1 ≤ minimumSpaceForGC - 1),
    (by decide : 2 ≤ minimumSpaceForGC - 1), ?_, ?_, ?_⟩,
    SameObjects.refl memory, fun _ ↦ ⟨rfl, rfl, rfl, rfl⟩, fun hlong ↦ ?_, ⟨[], rfl, ?_⟩, ?_⟩
  · exact fun j hj ↦ absurd hj (Nat.not_lt_zero j)
  · exact fun j _ ↦ rfl
  · intro j hj i hi htop
    have hj' : j = 0 := Nat.le_zero.mp hj
    subst hj'
    have htop' : i ≤ 0 := htop
    omega
  · have hlong' : 1 < 0 := hlong
    omega
  · have hdead : ∀ a ∈ nodes, (memory a).id.isAlive = false :=
      fun a ha ↦ hheap.unmarked a ((hnodes a).mp ha)
    refine ⟨fun a ha halive ↦ ?_, fun a ha ↦ absurd ha not_mem_nil, fun r hr ↦ ?_,
      fun a ha halive ↦ ?_, .inr fun a ha halive ↦ ?_⟩
    · exact absurd ((hdead a ha).symm.trans halive) (by decide)
    · obtain ⟨r', hr', -⟩ := hr
      exact absurd hr' not_mem_nil
    · exact absurd ((hdead a ha).symm.trans halive) (by decide)
    · exact absurd ((hdead a ha).symm.trans halive) (by decide)
  · exact fun w hw ↦ by simp [Collection.create] at hw

theorem exact
    (h : CollectionInvariant memory roots nodes m) (hstop : m.step allocated clusters = none) :
    ∀ a, IsObject memory clusters a →
      (m.marker.alive a = true ↔ (graph memory).Reach (rootCells roots) a) := by
  obtain ⟨hloop, hwalk, hrest, hflag⟩ := Collection.stopped_of_step hstop
  obtain ⟨hnum, hlist, hstack, -⟩ := h.rest hloop
  obtain ⟨made, hroots, hmarking⟩ := h.given
  have hall : roots = made := by rw [hroots, hrest, append_nil]
  subst hall
  intro a ha
  refine hmarking.exact (hheap.managed hnodes) (pending_eq_nil hnum hlist hstack) hflag
    (fun r hr ↦ hr) (fun b _ hb ↦ ?_) a ((hnodes a).mpr ha)
  obtain ⟨w, hw, -⟩ := hb
  simp [hwalk] at hw

end

end

end CollectionInvariant

end MicroFramework.Marking
