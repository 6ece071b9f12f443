import Mathlib.Data.List.Chain

/-!
# Doubly linked lists

A list threaded through its nodes is described by two functions, the successor and the
predecessor of a node.  `Linked` says that consecutive nodes of a list point at each other; the
edits a program makes (unlinking a node, putting a node between two others) keep it, because each
of them changes the pointers of one gap only.  `search` is the loop that follows one of the
pointers until a node satisfies a test or the list ends.
-/

namespace MicroFramework.Library

open List

variable {ν : Type*} {next prev next' prev' : ν → Option ν}

/-- Consecutive nodes point at each other. -/
def Linked (next prev : ν → Option ν) (nodes : List ν) : Prop :=
  nodes.IsChain fun a b ↦ next a = some b ∧ prev b = some a

@[simp]
theorem linked_singleton (node : ν) : Linked next prev [node] := List.IsChain.singleton node

variable {a b : ν} {nodes after before : List ν}

theorem linked_cons_cons :
    Linked next prev (a :: b :: nodes) ↔
      (next a = some b ∧ prev b = some a) ∧ Linked next prev (b :: nodes) :=
  isChain_cons_cons

/-- Links of a list that passes through `a` and then `b`: both halves and the gap. -/
theorem linked_append_cons_cons :
    Linked next prev (before ++ a :: b :: after) ↔
      Linked next prev (before ++ [a]) ∧ (next a = some b ∧ prev b = some a) ∧
        Linked next prev (b :: after) :=
  isChain_append_cons_cons

/-- Only the successors of all nodes but the last and the predecessors of all but the first
matter. -/
theorem Linked.congr (h : Linked next prev nodes) (hnext : ∀ a ∈ nodes.dropLast, next' a = next a)
    (hprev : ∀ b ∈ nodes.tail, prev' b = prev b) : Linked next' prev' nodes := by
  induction nodes with
  | nil => exact List.IsChain.nil
  | cons a rest ih =>
    cases rest with
    | nil => exact linked_singleton a
    | cons b rest =>
      obtain ⟨⟨hab, hba⟩, hrest⟩ := linked_cons_cons.mp h
      refine linked_cons_cons.mpr ⟨⟨?_, ?_⟩, ih hrest ?_ ?_⟩
      · rw [hnext a (by simp), hab]
      · rw [hprev b (by simp), hba]
      · exact fun c hc ↦ hnext c (by simp [hc])
      · exact fun c hc ↦ hprev c (mem_of_mem_tail hc)

/-- Read backwards, the two pointers exchange their roles. -/
theorem linked_reverse : Linked prev next nodes.reverse ↔ Linked next prev nodes := by
  unfold Linked
  rw [isChain_reverse]
  constructor
  · exact fun h ↦ h.imp fun _ _ hab ↦ hab.symm
  · exact fun h ↦ h.imp fun _ _ hab ↦ hab.symm

/-- A segment is unaffected by a change of its last node's successor. -/
theorem Linked.congr_before (h : Linked next prev (before ++ [a]))
    (hnext : ∀ c ∈ before, next' c = next c) (hprev : ∀ c ∈ before ++ [a], prev' c = prev c) :
    Linked next' prev' (before ++ [a]) := by
  refine h.congr (fun c hc ↦ ?_) (fun c hc ↦ hprev c (mem_of_mem_tail hc))
  rw [dropLast_concat] at hc
  exact hnext c hc

/-- A segment is unaffected by a change of its first node's predecessor. -/
theorem Linked.congr_after (h : Linked next prev (b :: after))
    (hnext : ∀ c ∈ b :: after, next' c = next c) (hprev : ∀ c ∈ after, prev' c = prev c) :
    Linked next' prev' (b :: after) :=
  h.congr (fun c hc ↦ hnext c ((dropLast_sublist _).subset hc)) hprev

/-- Close a gap: two linked segments are joined by pointing their ends at each other. -/
theorem Linked.splice
    (hbefore : Linked next prev (before ++ [a])) (hafter : Linked next prev (b :: after))
    (hab : next' a = some b) (hba : prev' b = some a)
    (hnext : ∀ c ∈ before ++ b :: after, next' c = next c)
    (hprev : ∀ c ∈ before ++ a :: after, prev' c = prev c) :
    Linked next' prev' (before ++ a :: b :: after) := by
  have hleft : Linked next' prev' (before ++ [a]) :=
    hbefore.congr_before (fun c hc ↦ hnext c (by simp [hc]))
      (fun c hc ↦ hprev c (by simp at hc ⊢; tauto))
  have hright : Linked next' prev' (b :: after) :=
    hafter.congr_after (fun c hc ↦ hnext c (mem_append_right before hc))
      (fun c hc ↦ hprev c (by simp [hc]))
  exact linked_append_cons_cons.mpr ⟨hleft, ⟨hab, hba⟩, hright⟩

/-- Fill a gap: a node put between two linked segments. -/
theorem Linked.splice_node {node : ν}
    (hbefore : Linked next prev (before ++ [a])) (hafter : Linked next prev (b :: after))
    (han : next' a = some node) (hna : prev' node = some a)
    (hnb : next' node = some b) (hbn : prev' b = some node)
    (hnext : ∀ c ∈ before ++ b :: after, next' c = next c)
    (hprev : ∀ c ∈ before ++ a :: after, prev' c = prev c) :
    Linked next' prev' (before ++ a :: node :: b :: after) := by
  have hleft : Linked next' prev' (before ++ [a]) :=
    hbefore.congr_before (fun c hc ↦ hnext c (by simp [hc]))
      (fun c hc ↦ hprev c (by simp at hc ⊢; tauto))
  have hright : Linked next' prev' (b :: after) :=
    hafter.congr_after (fun c hc ↦ hnext c (mem_append_right before hc))
      (fun c hc ↦ hprev c (by simp [hc]))
  exact linked_append_cons_cons.mpr ⟨hleft, ⟨han, hna⟩, linked_cons_cons.mpr ⟨⟨hnb, hbn⟩, hright⟩⟩

/-- Follow a pointer from `node` until one node passes the test; the node without a successor ends
the list and is not tested.  The outer option is the fuel. -/
def search (follow : ν → Option ν) (hit : ν → Bool) : ℕ → ν → Option (Option ν)
  | 0, _ => none
  | fuel + 1, node =>
    match follow node with
    | none => some none
    | some following => if hit node then some (some node) else search follow hit fuel following

variable {back follow : ν → Option ν} {hit : ν → Bool} {last : ν}

/-- On a linked list the loop finds the first node that passes the test. -/
theorem search_linked
    (hlast : follow last = none) (nodes : List ν) (fuel : ℕ) (hfuel : nodes.length < fuel)
    (first : ν) (hfirst : (nodes ++ [last]).head? = some first)
    (h : Linked follow back (nodes ++ [last])) :
    search follow hit fuel first = some (nodes.find? hit) := by
  induction nodes generalizing fuel first with
  | nil =>
    obtain ⟨fuel, rfl⟩ := Nat.exists_eq_succ_of_ne_zero (Nat.ne_of_gt hfuel)
    have hfirst' : last = first := by simpa using hfirst
    subst hfirst'
    simp [search, hlast]
  | cons node rest ih =>
    obtain ⟨fuel, rfl⟩ := Nat.exists_eq_succ_of_ne_zero (Nat.ne_of_gt (Nat.zero_lt_of_lt hfuel))
    have hnode : node = first := by simpa using hfirst
    subst hnode
    obtain ⟨following, hfollowing⟩ : ∃ following, (rest ++ [last]).head? = some following := by
      cases rest <;> simp
    have hcons : rest ++ [last] = following :: (rest ++ [last]).tail := by
      cases hrest : rest ++ [last] with
      | nil => simp at hrest
      | cons b after =>
        rw [hrest] at hfollowing
        simpa using hfollowing
    have hchain : Linked follow back (node :: following :: (rest ++ [last]).tail) := by
      rw [← hcons]
      exact h
    obtain ⟨⟨hstep, -⟩, hrest⟩ := linked_cons_cons.mp hchain
    rw [← hcons] at hrest
    have hrun : search follow hit fuel following = some (rest.find? hit) :=
      ih fuel (by simpa using hfuel) following hfollowing hrest
    unfold search
    rw [hstep]
    by_cases hhit : hit node
    · simp [hhit]
    · simp [hhit, hrun]

/-- Started at the node after `first`, the loop searches what lies between the two ends. -/
theorem search_after {first : ν}
    (hlast : follow last = none) (nodes : List ν) (fuel : ℕ) (hfuel : nodes.length < fuel)
    (h : Linked follow back (first :: nodes ++ [last])) :
    (follow first).bind (search follow hit fuel) = some (nodes.find? hit) := by
  obtain ⟨second, after, hcons⟩ : ∃ second after, nodes ++ [last] = second :: after :=
    exists_cons_of_ne_nil (by simp)
  rw [cons_append, hcons] at h
  obtain ⟨⟨hsecond, -⟩, hrest⟩ := linked_cons_cons.mp h
  rw [hsecond, Option.bind_some]
  exact search_linked hlast nodes fuel hfuel second (by rw [hcons]; rfl) (by rwa [hcons])

end MicroFramework.Library
