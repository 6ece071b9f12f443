import MicroFramework.Marking.Termination

/-!
# Marking is exact as long as it stays inside its mark stacks

A collection in which no turn pushes onto a full mark stack by way of `descend`, nor onto a new
mark stack of one element, keeps its invariant, stops, and has then marked exactly the objects that
can be reached from the roots.  A turn that does push so stores an element past the end of a
buffer.
-/

namespace MicroFramework.Marking

open Heap Library Collection List Function

variable {memory : ℕ → HeapBlock} {clusters : List (ℕ × ℕ)} {roots : List RootCall}
  {nodes : List ℕ} {allocated : ℕ → Bool}

namespace Marker

variable {s : Marker}

/-- A push ends one element above the top it starts from. -/
theorem inBounds_push : s.push.InBounds ↔ s.stack + 1 ≤ (s.markStacks s.stackList).last := by
  obtain ⟨lst, num, hvisit, -⟩ := visit_eq s.pushRest s.lst
  have hlast : (s.pushRest.markStacks s.stackList).last = (s.markStacks s.stackList).last := by
    rw [pushRest_eq]
    exact last_write s _ _ _ s.stackList
  have hpush : s.push = s.pushRest.visit s.lst := rfl
  rw [hpush, hvisit, InBounds]
  show s.stack + 1 ≤ (s.pushRest.markStacks s.stackList).last ↔ _
  rw [hlast]

/-- Moving to a mark stack that is linked already reads the full one again. -/
theorem Shape.descend_push (h : s.Shape) (hfull : s.stack = s.stackLast) :
    ¬ s.descend.push.InBounds := by
  rw [inBounds_push]
  have hstack : s.descend.stack = s.stack := by
    show (s.saveState.markStacks s.stackList).top = s.stack
    rw [h.top_saveState, Shape.topOf_current]
  have hlast : (s.descend.markStacks s.descend.stackList).last = s.stackLast := by
    show (s.saveState.markStacks s.stackList).last = s.stackLast
    rw [h.last_saveState, h.last]
  omega

/-- A new mark stack of one element has room for its sentinel only. -/
theorem extend_one_push (s : Marker) : ¬ (s.extend 1).push.InBounds := by
  rw [inBounds_push]
  have hlast : ((s.extend 1).markStacks (s.extend 1).stackList).last = 0 := by
    simp [extend, loadState, MarkStack.create]
  omega

/-- A turn that is not safe stores an element past the end of its mark stack. -/
theorem Shape.not_inBounds (h : s.Shape) (hsafe : ¬ s.Safe allocated) :
    ∃ s', s.iteration allocated = some s' ∧ ¬ s'.InBounds := by
  unfold Safe at hsafe
  push Not at hsafe
  obtain ⟨hnum, hfull, hwrong⟩ := hsafe
  have hiteration : s.iteration allocated = some (s.pushRun allocated) := by
    rw [iteration, if_neg (by omega), if_pos hnum]
  refine ⟨_, hiteration, ?_⟩
  rw [pushRun, if_pos hfull]
  by_cases hlinked : s.stackList + 1 < s.linked
  · rw [if_pos hlinked]
    exact h.descend_push hfull
  · obtain ⟨hflag, hone⟩ := hwrong (by omega)
    rw [if_neg hlinked, hflag, if_neg Bool.false_ne_true]
    cases halloc : allocate allocated stackSizes s.attempts with
    | mk result attempts =>
      rw [halloc] at hone
      obtain rfl : result = some 1 := hone
      exact extend_one_push _

end Marker

namespace Collection

variable {m m' : Collection}

theorem after_eq_of_step {n : ℕ}
    (h : (m.after allocated clusters n).step allocated clusters = some m') :
    m.after allocated clusters (n + 1) = m' := by
  rw [after, h, Option.getD_some]

/-- A run whose steps so far were all safe has kept the invariant. -/
theorem after_invariant (hheap : ManagedHeap memory clusters roots)
    (hnodes : ∀ a, a ∈ nodes ↔ IsObject memory clusters a)
    (h : CollectionInvariant memory roots nodes m) (n : ℕ)
    (hsafe : ∀ k < n, (m.after allocated clusters k).Safe allocated) :
    CollectionInvariant memory roots nodes (m.after allocated clusters n) := by
  induction n with
  | zero => exact h
  | succ n ih =>
    have hn := ih fun k hk ↦ hsafe k (Nat.lt_succ_of_lt hk)
    rw [after]
    cases hstep : (m.after allocated clusters n).step allocated clusters with
    | none => exact hn
    | some m' => exact hn.step hheap hnodes (hsafe n (Nat.lt_succ_self n)) (move_of_step hstep)

theorem not_inBounds_of_not_safe (h : CollectionInvariant memory roots nodes m)
    (hsafe : ¬ m.Safe allocated) :
    ∃ m', m.step allocated clusters = some m' ∧ ¬ m'.marker.InBounds := by
  unfold Collection.Safe at hsafe
  push Not at hsafe
  obtain ⟨hloop, hunsafe⟩ := hsafe
  obtain ⟨s, hiteration, hbounds⟩ := h.shape.not_inBounds hunsafe
  exact ⟨{ m with marker := s }, by rw [step, if_pos hloop, hiteration], hbounds⟩

end Collection

/-- A chain of `n` objects, each of which refers to the next one with the first of its two
fields. -/
def chain (n a : ℕ) : HeapBlock :=
  if a % 3 = 0 ∧ a < 3 * n then ⟨⟨.classType, 0, 3⟩, .other⟩
  else if a % 3 = 1 ∧ a + 2 < 3 * n then ⟨⟨.object, 0, 1⟩, .objectReference (some (a + 2))⟩
  else ⟨⟨.object, 0, 1⟩, .objectReference none⟩

section Chain

variable {n k : ℕ}

theorem chain_object (hk : k < n) : chain n (3 * k) = ⟨⟨.classType, 0, 3⟩, .other⟩ :=
  if_pos (by omega)

theorem chain_next (hk : k + 1 < n) :
    chain n (3 * k + 1) = ⟨⟨.object, 0, 1⟩, .objectReference (some (3 * (k + 1)))⟩ := by
  rw [chain, if_neg (by omega), if_pos (by omega)]
  rfl

theorem chain_isAlive (n a : ℕ) : (chain n a).id.isAlive = false := by
  have hflags : (chain n a).id.flags = 0 := by
    unfold chain
    split
    · rfl
    · split <;> rfl
  rw [BlockId.isAlive, BlockId.isFlagSet, hflags]
  rfl

theorem chain_tiles (start count : ℕ) (h : 3 * start + 3 * count ≤ 3 * n) :
    Tiles id (sizeAt (chain n)) (3 * start) (replicate count 3) (3 * (start + count)) := by
  induction count generalizing start with
  | zero => exact rfl
  | succ count ih =>
    refine ⟨?_, by decide, ?_⟩
    · rw [sizeAt, chain_object (by omega)]
    · have hrest := ih (start + 1) (by omega)
      rw [show start + (count + 1) = start + 1 + count by omega]
      exact hrest

theorem mem_located_chain (start : ℕ) {count : ℕ} (hk : k < count) :
    (3 * (start + k), 3) ∈ located id (3 * start) (replicate count 3) := by
  induction count generalizing start k with
  | zero => omega
  | succ count ih =>
    rw [replicate_succ, located_cons]
    cases k with
    | zero => exact mem_cons_self
    | succ k =>
      have hrest := ih (start + 1) (by omega : k < count)
      rw [show start + (k + 1) = start + 1 + k by omega]
      exact mem_cons_of_mem _ hrest

theorem chain_isObject (hk : k < n) : IsObject (chain n) [(0, 3 * n)] (3 * k) := by
  refine ⟨by rw [chain_object hk]; rfl, (0, 3 * n), mem_singleton_self _,
    replicate n 3, 3, ?_, ?_⟩
  · simpa using @chain_tiles n 0 n (by omega)
  · simpa using mem_located_chain 0 hk

theorem chain_cases (n a : ℕ) :
    (∃ k < n, a = 3 * k ∧ (graph (chain n)).link a = none ∧
      (graph (chain n)).fields a = [a + 1, a + 2]) ∨
    (∃ k, k + 1 < n ∧ (graph (chain n)).link a = some (3 * (k + 1)) ∧
      (graph (chain n)).fields a = []) ∨
    ((graph (chain n)).link a = none ∧ (graph (chain n)).fields a = []) := by
  by_cases hobject : a % 3 = 0 ∧ a < 3 * n
  · refine .inl ⟨a / 3, by omega, by omega, ?_⟩
    simp [graph, chain, hobject, List.range'_succ]
  · by_cases hnext : a % 3 = 1 ∧ a + 2 < 3 * n
    · refine .inr (.inl ⟨a / 3, by omega, ?_⟩)
      have hplace : a = 3 * (a / 3) + 1 := by omega
      have hblock := @chain_next n (a / 3) (by omega)
      rw [← hplace] at hblock
      simp [graph, hblock, HeapBlock.dereference]
    · refine .inr (.inr ?_)
      simp [graph, chain, hobject, hnext, HeapBlock.dereference]

theorem chain_managedHeap (hn : 0 < n) :
    ManagedHeap (chain n) [(0, 3 * n)] [.singleBlock (some 0)] := by
  have hroot : IsObject (chain n) [(0, 3 * n)] 0 := @chain_isObject n 0 hn
  have htiles := @chain_tiles n 0 n (by omega)
  rw [Nat.mul_zero, Nat.zero_add] at htiles
  refine ⟨fun p hp ↦ ?_, pairwise_singleton _ _, fun a _ ↦ chain_isAlive n a, fun a t _ ht ↦ ?_,
    fun a _ hfields ↦ ?_, fun a _ f hf ↦ ?_, fun r hr ↦ ?_, fun ptr hptr ↦ ?_⟩
  · obtain rfl := mem_singleton.mp hp
    exact ⟨_, htiles⟩
  · obtain ⟨k, hk, rfl, hlink, -⟩ | ⟨k, hk, hlink, -⟩ | ⟨hlink, -⟩ := chain_cases n a
    · simp [hlink] at ht
    · obtain rfl : 3 * (k + 1) = t := by simpa [hlink] using ht
      exact chain_isObject hk
    · simp [hlink] at ht
  · obtain ⟨k, hk, rfl, -, -⟩ | ⟨k, -, -, hnil⟩ | ⟨-, hnil⟩ := chain_cases n a
    · exact chain_isObject hk
    · exact absurd hnil hfields
    · exact absurd hnil hfields
  · obtain ⟨k, hk, rfl, -, htwo⟩ | ⟨k, -, -, hnil⟩ | ⟨-, hnil⟩ := chain_cases n a
    · have hsize : sizeAt (chain n) (3 * k) = 3 := by rw [sizeAt, chain_object hk]
      rw [htwo] at hf
      simp only [mem_cons, not_mem_nil, or_false] at hf
      omega
    · simp [hnil] at hf
    · simp [hnil] at hf
  · obtain ⟨c, hc, hcell⟩ := hr
    obtain rfl := mem_singleton.mp hc
    obtain rfl : r = 0 := by simpa [RootCall.cells] using hcell
    exact .inl hroot
  · obtain rfl : ptr = 0 := by simpa using hptr
    exact hroot

/-- The marker has followed a chain down to its object `k`. -/
structure Descended (n k : ℕ) (m : Collection) : Prop where
  inLoop : m.inLoop = true
  num : m.marker.num = 2
  lst : m.marker.lst = 3 * k + 1
  stack : m.marker.stack = k
  stackLast : m.marker.stackLast = 127
  stackList : m.marker.stackList = 0
  linked : m.marker.linked = 1
  outOfStackSpace : m.marker.outOfStackSpace = false
  attempts : m.marker.attempts = 0
  ahead : ∀ a, 3 * k < a → m.marker.memory a = chain n a

end Chain

section Descent

namespace Marker

variable {s : Marker} {a t : ℕ}

theorem visit_object (h : s.memory a = ⟨⟨.classType, 0, 3⟩, .other⟩) :
    s.visit a = { s with memory := markAlive s.memory a, lst := a + 1, num := 2 } := by
  have hblock : markAlive s.memory a a = ⟨(⟨.classType, 0, 3⟩ : BlockId).markAlive, .other⟩ := by
    rw [markAlive, update_self, h]
  simp only [visit, hblock]
  rfl

theorem visit_next (h : s.memory a = ⟨⟨.object, 0, 1⟩, .objectReference (some t)⟩) (hne : t ≠ a)
    (halive : (s.memory t).id.isAlive = false) :
    s.visit a = { s with memory := markAlive s.memory a, lst := t, num := 1 } := by
  have hblock : markAlive s.memory a a =
      ⟨(⟨.object, 0, 1⟩ : BlockId).markAlive, .objectReference (some t)⟩ := by
    rw [markAlive, update_self, h]
  have htarget : markAlive s.memory a t = s.memory t := by rw [markAlive, update_of_ne hne]
  have hdead : (markAlive s.memory a t).id.isAlive = false := by rw [htarget, halive]
  simp only [visit, hblock, HeapBlock.dereference, hdead, BlockId.markAlive_dataType, if_true]

end Marker

variable {n k : ℕ} {allocated : ℕ → Bool} {clusters : List (ℕ × ℕ)} {m : Collection}

theorem markAlive_ahead {memory : ℕ → HeapBlock} {a b : ℕ} (h : b < a) :
    Marker.markAlive memory b a = memory a :=
  update_of_ne (by omega) _ _

theorem descended_create (hn : 0 < n) :
    Descended n 0 ((create (chain n) [.singleBlock (some 0)]).after allocated clusters 2) := by
  set m := create (chain n) [.singleBlock (some 0)] with hm
  have hcall : m.step allocated clusters =
      some (({ m with roots := [] } : Collection).call 0 1) := by
    show (if (chain n 0).id.isAlive then _ else _) = _
    rw [chain_isAlive]
    rfl
  set m₁ := ({ m with roots := [] } : Collection).call 0 1 with hm₁
  have hturn : m₁.step allocated clusters = some { m₁ with marker := m₁.marker.visit 0 } := rfl
  have hobject : m₁.marker.memory 0 = ⟨⟨.classType, 0, 3⟩, .other⟩ := chain_object hn
  have hafter : m.after allocated clusters 2 = { m₁ with marker := m₁.marker.visit 0 } := by
    rw [after_succ hcall, after_eq_of_step hturn]
  rw [hafter, Marker.visit_object hobject]
  exact ⟨rfl, rfl, rfl, rfl, rfl, rfl, rfl, rfl, rfl, fun a ha ↦ markAlive_ahead ha⟩

/-- Two turns for an object: push its second field and visit the first, then visit the next
object. -/
theorem Descended.next (h : Descended n k m) (hk : k + 1 < n) (hroom : k < 127) :
    Descended n (k + 1) (m.after allocated clusters 2) := by
  have hnext : m.marker.pushRest.memory m.marker.lst =
      ⟨⟨.object, 0, 1⟩, .objectReference (some (3 * (k + 1)))⟩ := by
    rw [h.lst, ← chain_next hk]
    exact h.ahead _ (by omega)
  have hdead : (m.marker.pushRest.memory (3 * (k + 1))).id.isAlive = false := by
    rw [show m.marker.pushRest.memory (3 * (k + 1)) = chain n (3 * (k + 1)) from
      h.ahead _ (by omega), chain_isAlive]
  have hpush : m.marker.push = { m.marker.pushRest with
      memory := Marker.markAlive m.marker.memory m.marker.lst, lst := 3 * (k + 1), num := 1 } :=
    Marker.visit_next hnext (by rw [h.lst]; omega) hdead
  have hturn : m.step allocated clusters = some { m with marker := m.marker.push } := by
    rw [step, if_pos h.inLoop, Marker.iteration, if_neg (by rw [h.num]; decide),
      if_pos (by rw [h.num]; decide), Marker.pushRun,
      if_neg (by rw [h.stack, h.stackLast]; omega)]
  set m₁ : Collection := { m with marker := m.marker.push } with hm₁
  have hlst : m₁.marker.lst = 3 * (k + 1) := by rw [hm₁, hpush]
  have hnum : m₁.marker.num = 1 := by rw [hm₁, hpush]
  have hahead (a : ℕ) (ha : 3 * k + 1 < a) : m₁.marker.memory a = chain n a := by
    rw [hm₁, hpush]
    show Marker.markAlive m.marker.memory m.marker.lst a = chain n a
    rw [markAlive_ahead (by rw [h.lst]; omega)]
    exact h.ahead a (by omega)
  have hobject : m₁.marker.memory m₁.marker.lst = ⟨⟨.classType, 0, 3⟩, .other⟩ := by
    rw [hlst, hahead _ (by omega), chain_object hk]
  have hvisit : m₁.step allocated clusters =
      some { m₁ with marker := m₁.marker.visit m₁.marker.lst } := by
    rw [step, if_pos h.inLoop, Marker.iteration, if_neg (by rw [hnum]; decide),
      if_neg (by rw [hnum]; decide)]
  have hafter : m.after allocated clusters 2 =
      { m₁ with marker := m₁.marker.visit m₁.marker.lst } := by
    rw [after_succ hturn, after_eq_of_step hvisit]
  rw [hafter, Marker.visit_object hobject, hlst]
  refine ⟨h.inLoop, rfl, rfl, ?_, ?_, ?_, ?_, ?_, ?_, fun a ha ↦ ?_⟩
  all_goals simp only [hm₁, hpush]
  · exact congrArg Nat.succ h.stack
  · exact h.stackLast
  · exact h.stackList
  · exact h.linked
  · exact h.outOfStackSpace
  · exact h.attempts
  · rw [← hahead a (by omega), hm₁, hpush]
    exact markAlive_ahead ha

theorem Collection.after_add (i j : ℕ) : m.after allocated clusters (i + j) =
    (m.after allocated clusters i).after allocated clusters j := by
  induction j with
  | zero => rfl
  | succ j ih => rw [← Nat.add_assoc, after, ih, after]

/-- The marker follows a chain down to any of its first 128 objects. -/
theorem descended_after (hk : k < n) (hroom : k ≤ 127) :
    Descended n k ((create (chain n) [.singleBlock (some 0)]).after allocated
      clusters (2 * k + 2)) := by
  induction k with
  | zero => exact descended_create hk
  | succ k ih =>
    rw [show 2 * (k + 1) + 2 = 2 * k + 2 + 2 by omega, after_add]
    exact (ih (by omega) (by omega)).next hk (by omega)

/-- With 128 objects of a chain on the way and only the last of the eight allocations granted, the
next turn leaves the mark stack. -/
theorem Descended.overflow (h : Descended n 127 m) :
    ¬ (m.after (fun attempt ↦ attempt == 7) clusters 1).marker.InBounds := by
  have halloc : Marker.allocate (fun attempt ↦ attempt == 7) stackSizes m.marker.attempts =
      (some 1, 8) := by
    rw [h.attempts]
    rfl
  have hturn : m.step (fun attempt ↦ attempt == 7) clusters =
      some { m with marker := (({ m.marker with attempts := 8 } : Marker).extend 1).push } := by
    rw [step, if_pos h.inLoop, Marker.iteration, if_neg (by rw [h.num]; decide),
      if_pos (by rw [h.num]; decide), Marker.pushRun, if_pos (by rw [h.stack, h.stackLast]),
      if_neg (by rw [h.stackList, h.linked]; decide),
      if_neg (by rw [h.outOfStackSpace]; exact Bool.false_ne_true), halloc]
  rw [after_eq_of_step hturn]
  exact Marker.extend_one_push _

end Descent

/-- On every managed heap, with any roots and any outcome of the allocations, marking stays inside
the mark stacks, stops and marks exactly what can be reached, if and only if no turn pushes onto a
full mark stack by moving to one that is linked already or to a new one of a single element. -/
theorem marking_exact_iff_safe (hheap : ManagedHeap memory clusters roots) (allocated : ℕ → Bool) :
    ((∀ n, ((create memory roots).after allocated clusters n).marker.InBounds) ∧
      ∃ n, ((create memory roots).after allocated clusters n).step allocated clusters = none ∧
        ∀ a, IsObject memory clusters a →
          (((create memory roots).after allocated clusters n).marker.alive a = true ↔
            (graph memory).Reach (rootCells roots) a)) ↔
      ∀ n, ((create memory roots).after allocated clusters n).Safe allocated := by
  obtain ⟨nodes, hnodes⟩ := exists_objects clusters hheap.tiled
  have hcreate := CollectionInvariant.create hheap hnodes
  set m := create memory roots with hm
  constructor
  · rintro ⟨hbounds, -⟩ n
    induction n using Nat.strong_induction_on with
    | _ n ih =>
      by_contra hsafe
      have hn := after_invariant hheap hnodes hcreate n ih
      obtain ⟨m', hstep, hout⟩ := not_inBounds_of_not_safe hn hsafe
      have hin := hbounds (n + 1)
      rw [after_eq_of_step hstep] at hin
      exact hout hin
  · intro hsafe
    have hinvariant (n : ℕ) := after_invariant hheap hnodes hcreate n fun k _ ↦ hsafe k
    have hpass : m.walk ≠ none → PassInvariant nodes 0 m := fun hwalk ↦ absurd rfl hwalk
    obtain ⟨n, hstop⟩ := exists_stop hheap hnodes hcreate hpass hsafe
    exact ⟨fun k ↦ (hinvariant k).shape.inBounds, n, hstop, (hinvariant n).exact hheap hnodes hstop⟩

/-- On a chain of two objects the run is safe exactly when marking does what it is for. -/
theorem marking_exact_iff_safe_chain :
    ((∀ n, ((create (chain 2) [.singleBlock (some 0)]).after (fun _ ↦ true)
          [(0, 3 * 2)] n).marker.InBounds) ∧
      ∃ n, ((create (chain 2) [.singleBlock (some 0)]).after (fun _ ↦ true)
          [(0, 3 * 2)] n).step (fun _ ↦ true) [(0, 3 * 2)] = none ∧
        ∀ a, IsObject (chain 2) [(0, 3 * 2)] a →
          (((create (chain 2) [.singleBlock (some 0)]).after (fun _ ↦ true)
              [(0, 3 * 2)] n).marker.alive a = true ↔
            (graph (chain 2)).Reach (rootCells [.singleBlock (some 0)]) a)) ↔
      ∀ n, ((create (chain 2) [.singleBlock (some 0)]).after (fun _ ↦ true)
        [(0, 3 * 2)] n).Safe (fun _ ↦ true) :=
  marking_exact_iff_safe (chain_managedHeap (by decide)) fun _ ↦ true

/-- A chain of 128 objects overflows a mark stack when only an allocation of one element is
granted. -/
theorem chain_not_inBounds :
    ManagedHeap (chain 128) [(0, 3 * 128)] [.singleBlock (some 0)] ∧
      ¬ ((create (chain 128) [.singleBlock (some 0)]).after
        (fun attempt ↦ attempt == 7) [(0, 3 * 128)] 257).marker.InBounds := by
  have hdescended : Descended 128 127 ((create (chain 128) [.singleBlock (some 0)]).after
      (fun attempt ↦ attempt == 7) [(0, 3 * 128)] 256) :=
    descended_after (by decide) (by decide)
  constructor
  · exact chain_managedHeap (by decide)
  · rw [after_add 256 1]
    exact hdescended.overflow

end MicroFramework.Marking
