import MicroFramework.Marking.MarkStacks

/-!
# One turn of the marking loop

Whatever branch a safe turn takes, it visits the first of the pending blocks or drops the run at
`lst`; the stacks keep their shape either way.
-/

namespace MicroFramework.Marking

open Heap Library List

/-- The memories differ in mark bits only. -/
structure SameObjects (memory memory' : ℕ → HeapBlock) : Prop where
  graph : graph memory' = graph memory
  size : ∀ a, (memory' a).id.size = (memory a).id.size
  event : ∀ a, (memory' a).id.isEvent = (memory a).id.isEvent

theorem SameObjects.refl (memory : ℕ → HeapBlock) : SameObjects memory memory :=
  ⟨rfl, fun _ ↦ rfl, fun _ ↦ rfl⟩

theorem SameObjects.trans {memory₁ memory₂ memory₃ : ℕ → HeapBlock}
    (h₁ : SameObjects memory₁ memory₂) (h₂ : SameObjects memory₂ memory₃) :
    SameObjects memory₁ memory₃ :=
  ⟨h₂.graph.trans h₁.graph, fun a ↦ (h₂.size a).trans (h₁.size a),
    fun a ↦ (h₂.event a).trans (h₁.event a)⟩

theorem sameObjects_markAlive (memory : ℕ → HeapBlock) (a : ℕ) :
    SameObjects memory (Marker.markAlive memory a) :=
  ⟨Marker.graph_markAlive memory a, Marker.markAlive_size memory a,
    Marker.markAlive_isEvent memory a⟩

namespace Marker

inductive Turn (s s' : Marker) : Prop
  | visit (a : ℕ) (hpending : s.pending = a :: s'.stacked)
      (hmarking : s'.marking = s.marking.visit (graph s.memory) a s'.stacked)
      (hrun : range' s'.lst s'.num = (graph s.memory).expand s'.alive a)
      (hplace : s.stackList = 0 →
        (s.num ≤ 1 → s'.stackList = 0 ∧ s'.stack ≤ s.stack) ∧
        (s.stack < s.stackLast → s'.stackList = 0 ∧ s'.stack ≤ s.stack + 1))
  | dropRun (hnum : 1 < s.num) (hfull : s.stack = s.stackLast)
      (hmarking : s'.marking = s.marking.giveUp s.stacked) (hnum' : s'.num = 0)
      (hplace : s'.stackList = s.stackList ∧ s'.stack = s.stack ∧ s'.stacked = s.stacked)

variable {s : Marker} {allocated : ℕ → Bool}

/-- A visit after the stacks have been rearranged is a turn. -/
theorem Turn.of_visit {s₁ : Marker} {a : ℕ} (hmemory : s₁.memory = s.memory)
    (hflag : s₁.outOfStackSpace = s.outOfStackSpace) (hpending : s.pending = a :: s₁.stacked)
    (hplace : s.stackList = 0 →
      (s.num ≤ 1 → s₁.stackList = 0 ∧ s₁.stack ≤ s.stack) ∧
      (s.stack < s.stackLast → s₁.stackList = 0 ∧ s₁.stack ≤ s.stack + 1)) :
    s.Turn (s₁.visit a) := by
  obtain ⟨lst, num, heq, hrange⟩ := visit_eq s₁ a
  have hstacked : (s₁.visit a).stacked = s₁.stacked := by rw [heq]; rfl
  have halive : (s₁.visit a).alive = Function.update s₁.alive a true := by
    rw [heq]
    exact isAlive_markAlive s₁.memory a
  refine .visit a (by rw [hstacked, hpending]) ?_ ?_ ?_
  · have hsame : s₁.alive = s.alive := by
      funext b
      rw [alive, hmemory]
      rfl
    rw [hstacked, marking_visit, hmemory]
    simp [Marking.visit, marking, hsame, hflag]
  · rw [halive, ← hmemory, ← hrange, heq]
  · rw [heq]
    exact hplace

theorem sameObjects_visit {s₁ : Marker} (hmemory : s₁.memory = s.memory) (a : ℕ) :
    SameObjects s.memory (s₁.visit a).memory := by
  obtain ⟨lst, num, heq, -⟩ := visit_eq s₁ a
  rw [heq, ← hmemory]
  exact sameObjects_markAlive s₁.memory a

/-- Attempts are counted, and succeed with one of the sizes tried. -/
theorem allocate_mem {sizes : List ℕ} {attempts cElement : ℕ}
    (h : (allocate allocated sizes attempts).1 = some cElement) : cElement ∈ sizes := by
  induction sizes generalizing attempts with
  | nil => simp [allocate] at h
  | cons size rest ih =>
    unfold allocate at h
    by_cases hsuccess : allocated attempts
    · have hsize : size = cElement := by simpa [hsuccess] using h
      simp [hsize]
    · rw [if_neg hsuccess] at h
      exact mem_cons_of_mem size (ih h)

theorem stackSizes_cases {cElement : ℕ} (h : cElement ∈ stackSizes) (hone : cElement ≠ 1) :
    2 ≤ cElement := by
  simp only [stackSizes, mem_cons, not_mem_nil, or_false] at h
  omega

theorem Shape.dropRun (h : s.Shape) : s.dropRun.Shape :=
  ⟨h.current, h.linked, h.last, h.bound, h.room, h.first, h.full, h.sentinel, h.used⟩

theorem Shape.setAttempts (h : s.Shape) (attempts : ℕ) : Shape { s with attempts := attempts } :=
  ⟨h.current, h.linked, h.last, h.bound, h.room, h.first, h.full, h.sentinel, h.used⟩

theorem turn_dropRun (s : Marker) (attempts : ℕ) (hnum : 1 < s.num) (hfull : s.stack = s.stackLast) :
    s.Turn ({ s with attempts := attempts }.dropRun) :=
  .dropRun hnum hfull rfl rfl ⟨rfl, rfl, rfl⟩

/-- The loop body for a longer run. -/
theorem pushRun_spec (h : s.Shape) (hsafe : s.Safe allocated) (hnum : 1 < s.num) :
    (s.pushRun allocated).Shape ∧ s.Turn (s.pushRun allocated) ∧
      SameObjects s.memory (s.pushRun allocated).memory := by
  unfold pushRun
  by_cases hfull : s.stack = s.stackLast
  · obtain ⟨hlast, hsize⟩ := hsafe hnum hfull
    rw [if_pos hfull, if_neg hlast]
    by_cases hflag : s.outOfStackSpace
    · rw [if_pos hflag]
      exact ⟨h.dropRun, turn_dropRun s s.attempts hnum hfull, SameObjects.refl _⟩
    · rw [if_neg hflag]
      have hone := hsize (by simpa using hflag)
      cases halloc : allocate allocated stackSizes s.attempts with
      | mk result attempts =>
        cases result with
        | none =>
          exact ⟨(h.setAttempts attempts).dropRun, turn_dropRun s attempts hnum hfull,
            SameObjects.refl _⟩
        | some cElement =>
          have hmem : (allocate allocated stackSizes s.attempts).1 = some cElement := by rw [halloc]
          have hcElement : 2 ≤ cElement :=
            stackSizes_cases (allocate_mem hmem) fun hc ↦ hone (by rw [hmem, hc])
          obtain ⟨hshape, hroom, hstacked⟩ := (h.setAttempts attempts).extend hfull hlast hcElement
          set s₁ := { s with attempts := attempts }.extend cElement with hs₁
          have hnum₁ : 1 < s₁.num := hnum
          have hpending : s.pending = s.lst :: s₁.pushRest.stacked := by
            have hpending₁ := pending_pushRest hnum₁
            rw [pending, hstacked] at hpending₁
            exact hpending₁
          have hsame := @sameObjects_visit s s₁.pushRest rfl s₁.lst
          refine ⟨(hshape.pushRest hroom hnum₁).visit, ?_, hsame⟩
          exact Turn.of_visit rfl rfl hpending fun hzero ↦ ⟨fun hle ↦ by omega, fun hlt ↦ by omega⟩
  · rw [if_neg hfull]
    have hroom : s.stack < s.stackLast := by
      have := h.bound
      omega
    have hsame := @sameObjects_visit s s.pushRest rfl s.lst
    refine ⟨(h.pushRest hroom hnum).visit, ?_, hsame⟩
    refine Turn.of_visit rfl rfl (pending_pushRest hnum) fun hzero ↦ ⟨fun hle ↦ by omega, fun _ ↦ ?_⟩
    exact ⟨hzero, Nat.le_refl _⟩

theorem takeTop_memory (s : Marker) : s.takeTop.memory = s.memory := by
  rw [takeTop_eq]
  rfl

/-- Taking a block off the stack and visiting it. -/
theorem pop_spec (h : s.Shape) (hstack : 1 ≤ s.stack) (hnum : s.num = 0) :
    s.pop.Shape ∧ s.Turn s.pop ∧ SameObjects s.memory s.pop.memory := by
  have hpending : s.pending = s.element.ptr :: s.takeTop.stacked := by
    rw [pending, hnum, ← stacked_takeTop h hstack]
    rfl
  refine ⟨(h.takeTop hstack).visit, Turn.of_visit (takeTop_memory s) ?_ hpending fun hzero ↦ ?_,
    sameObjects_visit (takeTop_memory s) _⟩
  · rw [takeTop_eq]
    rfl
  · have hle : s.takeTop.stack ≤ s.stack := by
      rw [takeTop_eq]
      show (if s.element.num - 1 = 0 then s.stack - 1 else s.stack) ≤ s.stack
      split <;> omega
    have hlist : s.takeTop.stackList = 0 := by
      rw [takeTop_eq]
      exact hzero
    exact ⟨fun _ ↦ ⟨hlist, hle⟩, fun _ ↦ ⟨hlist, by omega⟩⟩

/-- A safe turn of the loop visits a block or drops a run, or the loop is left with nothing to
do. -/
theorem iteration_spec (h : s.Shape) (hsafe : s.Safe allocated) :
    (s.iteration allocated = none ∧ s.num = 0 ∧ s.stackList = 0 ∧ s.stack = 0) ∨
    ∃ s', s.iteration allocated = some s' ∧ s'.Shape ∧ s.Turn s' ∧
      SameObjects s.memory s'.memory := by
  unfold iteration
  by_cases hnum : s.num = 0
  · rw [if_pos hnum]
    by_cases helement : s.element.num = 0
    · have hstack := h.stack_eq_zero helement
      rw [if_pos helement]
      by_cases hlist : s.stackList = 0
      · exact .inl ⟨if_pos hlist, hnum, hlist, hstack⟩
      · obtain ⟨hshape, hpos, hstacked⟩ := h.previous hstack hlist
        have hnum₁ : s.previous.num = 0 := hnum
        obtain ⟨hshape', hturn, hsame⟩ := pop_spec hshape hpos hnum₁
        refine .inr ⟨_, if_neg hlist, hshape', ?_, hsame⟩
        have hpending : s.previous.pending = s.pending := by
          rw [pending, pending, hstacked]
          rfl
        cases hturn with
        | visit a hp hmarking hrun hplace =>
          refine .visit a (by rw [← hpending, hp]) ?_ hrun fun hzero ↦ absurd hzero hlist
          rw [hmarking]
          rfl
        | dropRun hlong => exact absurd hlong (by omega)
    · rw [if_neg helement]
      have hstack : 1 ≤ s.stack := by
        by_contra hstack
        refine helement ?_
        rw [element, show s.stack = 0 by omega]
        exact h.sentinel s.stackList (Nat.le_refl _)
      obtain ⟨hshape', hturn, hsame⟩ := pop_spec h hstack hnum
      exact .inr ⟨_, rfl, hshape', hturn, hsame⟩
  · rw [if_neg hnum]
    by_cases hlong : 1 < s.num
    · rw [if_pos hlong]
      obtain ⟨hshape', hturn, hsame⟩ := pushRun_spec h hsafe hlong
      exact .inr ⟨_, rfl, hshape', hturn, hsame⟩
    · rw [if_neg hlong]
      have hone : s.num = 1 := by omega
      have hpending : s.pending = s.lst :: s.stacked := by
        rw [pending, hone]
        rfl
      refine .inr ⟨_, rfl, h.visit, Turn.of_visit rfl rfl hpending fun hzero ↦ ?_,
        sameObjects_visit rfl _⟩
      exact ⟨fun _ ↦ ⟨hzero, Nat.le_refl _⟩, fun _ ↦ ⟨hzero, Nat.le_succ _⟩⟩

end Marker

/-!
## Managed heaps

What the marker is promised about the heap: clusters tiled by blocks, references that lead to
objects, arrays whose elements lie inside them, and roots that are objects or cells outside the
heap.  On such a heap the marker's graph is an object graph.
-/

def RootCall.cells : RootCall → List ℕ
  | .multipleBlocks lst num => List.range' lst num
  | .singleBlock obj => obj.toList

def rootCells (roots : List RootCall) (a : ℕ) : Prop :=
  ∃ r ∈ roots, a ∈ r.cells

def sizeAt (memory : ℕ → HeapBlock) (a : ℕ) : ℕ :=
  (memory a).id.size

/-- An object of the heap: a block of a cluster's tiling that is not an event block. -/
def IsObject (memory : ℕ → HeapBlock) (clusters : List (ℕ × ℕ)) (a : ℕ) : Prop :=
  (memory a).id.isEvent = false ∧ ∃ p ∈ clusters, ∃ sizes n,
    Tiles id (sizeAt memory) p.1 sizes p.2 ∧ (a, n) ∈ located id p.1 sizes

structure ManagedHeap (memory : ℕ → HeapBlock) (clusters : List (ℕ × ℕ)) (roots : List RootCall) :
    Prop where
  tiled : ∀ p ∈ clusters, ∃ sizes, Tiles id (sizeAt memory) p.1 sizes p.2
  disjoint : clusters.Pairwise fun p q ↦ p.2 ≤ q.1 ∨ q.2 ≤ p.1
  unmarked : ∀ a, IsObject memory clusters a → (memory a).id.isAlive = false
  reference : ∀ a t, (graph memory).Reach (rootCells roots) a → (graph memory).link a = some t →
    IsObject memory clusters t
  header : ∀ a, (graph memory).Reach (rootCells roots) a → (graph memory).fields a ≠ [] →
    IsObject memory clusters a
  inside : ∀ a, IsObject memory clusters a → ∀ f ∈ (graph memory).fields a, f < a + sizeAt memory a
  outside : ∀ r, rootCells roots r → IsObject memory clusters r ∨
    ∀ p ∈ clusters, ¬ (p.1 ≤ r ∧ r < p.2)
  single : ∀ ptr, .singleBlock (some ptr) ∈ roots → IsObject memory clusters ptr

variable {memory : ℕ → HeapBlock} {clusters : List (ℕ × ℕ)} {roots : List RootCall}

theorem IsObject.bounds {a : ℕ} (h : IsObject memory clusters a) :
    ∃ p ∈ clusters, p.1 ≤ a ∧ a + sizeAt memory a ≤ p.2 ∧ 1 ≤ sizeAt memory a := by
  obtain ⟨-, p, hp, sizes, n, htiled, hplace⟩ := h
  have hbounds := bounds_of_mem_located hplace
  have hsize : sizeAt memory a = n := htiled.header_eq hplace
  have hpos : 1 ≤ n := htiled.pos (mem_of_mem_located hplace)
  have hstop := htiled.stop_eq
  simp only [id] at hbounds
  exact ⟨p, hp, hbounds.1, by omega, by omega⟩

theorem exists_objects (clusters : List (ℕ × ℕ))
    (htiled : ∀ p ∈ clusters, ∃ sizes, Tiles id (sizeAt memory) p.1 sizes p.2) :
    ∃ nodes : List ℕ, ∀ a, a ∈ nodes ↔ IsObject memory clusters a := by
  induction clusters with
  | nil => exact ⟨[], fun a ↦ by simp [IsObject]⟩
  | cons p clusters ih =>
    obtain ⟨nodes, hnodes⟩ := ih fun q hq ↦ htiled q (List.mem_cons_of_mem p hq)
    obtain ⟨sizes, hsizes⟩ := htiled p List.mem_cons_self
    refine ⟨((located id p.1 sizes).map Prod.fst).filter (fun a ↦ !(memory a).id.isEvent) ++ nodes,
      fun a ↦ ?_⟩
    rw [List.mem_append, List.mem_filter, List.mem_map, hnodes]
    constructor
    · rintro (⟨⟨⟨b, n⟩, hplace, rfl⟩, hevent⟩ | ⟨hevent, q, hq, hobject⟩)
      · exact ⟨by simpa using hevent, p, List.mem_cons_self, sizes, n, hsizes, hplace⟩
      · exact ⟨hevent, q, List.mem_cons_of_mem p hq, hobject⟩
    · rintro ⟨hevent, q, hq, sizes', n, htiled', hplace⟩
      rcases List.mem_cons.mp hq with rfl | hq
      · obtain rfl := hsizes.unique htiled'
        exact .inl ⟨⟨(a, n), hplace, rfl⟩, by simpa using hevent⟩
      · exact .inr ⟨hevent, q, hq, sizes', n, htiled', hplace⟩

namespace ManagedHeap

variable {nodes : List ℕ}

theorem cluster_unique (h : ManagedHeap memory clusters roots) {p q : ℕ × ℕ} (hp : p ∈ clusters)
    (hq : q ∈ clusters) {a : ℕ} (hpa : p.1 ≤ a ∧ a < p.2) (hqa : q.1 ≤ a ∧ a < q.2) : p = q := by
  by_contra hne
  have hsymm : Std.Symm fun x y : ℕ × ℕ ↦ x.2 ≤ y.1 ∨ y.2 ≤ x.1 := ⟨fun _ _ hxy ↦ hxy.symm⟩
  have hdisjoint := h.disjoint.forall hp hq hne
  omega

theorem not_isObject (h : ManagedHeap memory clusters roots) {a f : ℕ}
    (ha : IsObject memory clusters a) (hlt : a < f) (hf : f < a + sizeAt memory a) :
    ¬ IsObject memory clusters f := by
  rintro hobject
  have hfBounds := hobject.bounds
  obtain ⟨-, p, hp, sizes, n, htiled, hplace⟩ := ha
  obtain ⟨-, q, hq, sizes', n', htiled', hplace'⟩ := hobject
  have hsize : sizeAt memory a = n := htiled.header_eq hplace
  have hbounds := bounds_of_mem_located hplace
  have hbounds' := bounds_of_mem_located hplace'
  have hpos : 1 ≤ n' := htiled'.pos (mem_of_mem_located hplace')
  have hstop := htiled.stop_eq
  have hstop' := htiled'.stop_eq
  simp only [id] at hbounds hbounds'
  have hpq : p = q := h.cluster_unique hp hq (a := f) (by omega) (by omega)
  subst hpq
  obtain rfl := htiled.unique htiled'
  -- the blocks of one tiling do not overlap
  obtain ⟨left, right, hsizes, hstart⟩ := exists_split_of_mem_located hplace
  rw [hsizes, located_append, located_cons, List.mem_append, List.mem_cons] at hplace'
  rcases hplace' with hplace' | hplace' | hplace'
  · have hleft := bounds_of_mem_located hplace'
    simp only [id] at hleft hstart
    omega
  · have hsame : f = p.1 + extent id left := congrArg Prod.fst hplace'
    simp only at hstart
    omega
  · have hright := bounds_of_mem_located hplace'
    simp only [id] at hright hstart
    omega

theorem lt_of_mem_fields {a f : ℕ} (hf : f ∈ (graph memory).fields a) : a < f := by
  have hrange {num : ℕ} (h : f ∈ List.range' (a + 1) num) : a < f := by
    have := List.mem_range'_1.mp h
    omega
  unfold graph at hf
  cases htype : (memory a).id.dataType
  case classType | valueType => exact hrange (by simpa [htype] using hf)
  case szArray =>
    cases hdata : (memory a).data with
    | array numOfElements fReference =>
      cases fReference with
      | true => exact hrange (by simpa [htype, hdata] using hf)
      | false => simp [htype, hdata] at hf
    | _ => simp [htype, hdata] at hf
  all_goals simp [htype] at hf

/-- The marker's graph is an object graph. -/
theorem managed (h : ManagedHeap memory clusters roots)
    (hnodes : ∀ a, a ∈ nodes ↔ IsObject memory clusters a) :
    (graph memory).Managed (rootCells roots) nodes := by
  have hfield : ∀ a f, (graph memory).Reach (rootCells roots) a → f ∈ (graph memory).fields a →
      IsObject memory clusters a ∧ a < f ∧ f < a + sizeAt memory a := by
    intro a f ha hf
    have hobject := h.header a ha (List.ne_nil_of_mem hf)
    exact ⟨hobject, lt_of_mem_fields hf, h.inside a hobject f hf⟩
  refine ⟨fun a t ha ht ↦ (hnodes t).mpr (h.reference a t ha ht),
    fun a ha hne ↦ (hnodes a).mpr (h.header a ha hne), fun a f ha hf hmem ↦ ?_,
    fun a r ha hr hf ↦ ?_⟩
  · obtain ⟨hobject, hlt, hinside⟩ := hfield a f ha hf
    exact h.not_isObject hobject hlt hinside ((hnodes f).mp hmem)
  · obtain ⟨hobject, hlt, hinside⟩ := hfield a r ha hf
    rcases h.outside r hr with hroot | hroot
    · exact h.not_isObject hobject hlt hinside hroot
    · obtain ⟨p, hp, hstart, hstop, -⟩ := hobject.bounds
      exact hroot p hp (by omega)

end ManagedHeap

theorem fields_eq_nil_of_link {a t : ℕ} (h : (graph memory).link a = some t) :
    (graph memory).fields a = [] := by
  unfold graph at h ⊢
  cases htype : (memory a).id.dataType <;> simp [htype] at h ⊢

end MicroFramework.Marking
