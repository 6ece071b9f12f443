import Mathlib.Data.Prod.Lex
import Mathlib.Data.UInt

/-!
# Marking a graph with a bounded memory

Cells are of two kinds: a node is an object that is marked once, and a cell inside a node is a
field.  A cell may refer to a node (`link`), and a node may have fields.  A marker keeps a list of
cells still to visit; visiting a cell marks it and puts its fields, and the node it refers to if
that is not marked yet, in front of the list.  When it runs out of memory it gives up: it forgets
the fields of one node it has marked.

`Marking.Invariant` is what such a marker keeps.  Giving up loses nothing but the promise that
every marked node has been scanned, so a marker that finishes without giving up, with every marked
node looked at again since the last time it did, has marked exactly the reachable nodes.
-/

namespace MicroFramework.Library

open List

variable {ν : Type*}

/-- What each cell refers to and which fields it has. -/
structure Graph (ν : Type*) where
  link : ν → Option ν
  fields : ν → List ν

namespace Graph

inductive Reach (g : Graph ν) (roots : ν → Prop) : ν → Prop
  | root {a : ν} (h : roots a) : Reach g roots a
  | link {a t : ν} (h : Reach g roots a) (ht : g.link a = some t) : Reach g roots t
  | field {a f : ν} (h : Reach g roots a) (hf : f ∈ g.fields a) : Reach g roots f

/-- The reachable part of the graph is an object graph over the list `nodes`: references lead to
nodes, only nodes have fields, and fields are no nodes; no root is a field. -/
structure Managed (g : Graph ν) (roots : ν → Prop) (nodes : List ν) : Prop where
  link_mem : ∀ a t, g.Reach roots a → g.link a = some t → t ∈ nodes
  fields_mem : ∀ a, g.Reach roots a → g.fields a ≠ [] → a ∈ nodes
  field_not_mem : ∀ a f, g.Reach roots a → f ∈ g.fields a → f ∉ nodes
  root_not_field : ∀ a r, g.Reach roots a → roots r → r ∉ g.fields a

/-- What visiting a cell leaves to visit. -/
def expand (g : Graph ν) (alive : ν → Bool) (a : ν) : List ν :=
  g.fields a ++ ((g.link a).filter fun t ↦ !alive t).toList

end Graph

structure Marking (ν : Type*) where
  alive : ν → Bool
  pending : List ν
  gaveUp : Bool

namespace Marking

def visit [DecidableEq ν] (g : Graph ν) (m : Marking ν) (a : ν) (rest : List ν) : Marking ν where
  alive := Function.update m.alive a true
  pending := g.expand (Function.update m.alive a true) a ++ rest
  gaveUp := m.gaveUp

/-- Forget everything before `rest`. -/
def giveUp (m : Marking ν) (rest : List ν) : Marking ν where
  alive := m.alive
  pending := rest
  gaveUp := true

/-- Everything the cell refers to is marked or will be visited. -/
def Followed (g : Graph ν) (m : Marking ν) (a : ν) : Prop :=
  ∀ t, g.link a = some t → m.alive t = true ∨ t ∈ m.pending

/-- The cell is visited or will be. -/
def Settled (g : Graph ν) (nodes : List ν) (m : Marking ν) (a : ν) : Prop :=
  a ∈ m.pending ∨ ((a ∈ nodes → m.alive a = true) ∧ m.Followed g a)

/-- The node's fields are visited or will be. -/
def Scanned (g : Graph ν) (nodes : List ν) (m : Marking ν) (a : ν) : Prop :=
  ∀ f ∈ g.fields a, m.Settled g nodes f

/-- What a marker keeps.  `roots` are the cells it may start from, `given` those it has been given
so far, and `debt` the marked nodes that are still to be looked at again. -/
structure Invariant (g : Graph ν) (roots : ν → Prop) (nodes : List ν) (given debt : ν → Prop)
    (m : Marking ν) : Prop where
  sound : ∀ a ∈ nodes, m.alive a = true → g.Reach roots a
  pending : ∀ a ∈ m.pending, g.Reach roots a
  given : ∀ r, given r → roots r ∧ m.Settled g nodes r
  followed : ∀ a ∈ nodes, m.alive a = true → m.Followed g a
  scanned : m.gaveUp = true ∨ ∀ a ∈ nodes, m.alive a = true →
    debt a ∨ a ∈ m.pending ∨ m.Scanned g nodes a

section Visit

variable [DecidableEq ν] {g : Graph ν} {roots given debt : ν → Prop} {nodes rest : List ν}
  {m : Marking ν} {a : ν}

variable {b : ν}

theorem alive_visit (h : m.alive b = true) : (m.visit g a rest).alive b = true := by
  unfold visit
  by_cases hb : b = a
  · simp [hb]
  · simpa [hb] using h

theorem alive_visit_self : (m.visit g a rest).alive a = true := by simp [visit]

/-- What was followed stays followed: only `a` leaves the list, and it is marked. -/
theorem Followed.visit (hpending : m.pending = a :: rest) (h : m.Followed g b) :
    (m.visit g a rest).Followed g b := by
  intro t ht
  rcases h t ht with halive | hmem
  · exact .inl (alive_visit halive)
  · rw [hpending, mem_cons] at hmem
    rcases hmem with rfl | hmem
    · exact .inl alive_visit_self
    · exact .inr (mem_append_right _ hmem)

theorem followed_visit_self : (m.visit g a rest).Followed g a := by
  intro t ht
  by_cases halive : Function.update m.alive a true t = true
  · exact .inl halive
  · refine .inr (mem_append_left _ (mem_append_right _ ?_))
    rw [ht]
    simpa using halive

theorem settled_visit_self : (m.visit g a rest).Settled g nodes a :=
  .inr ⟨fun _ ↦ alive_visit_self, followed_visit_self⟩

theorem Settled.visit (hpending : m.pending = a :: rest) (h : m.Settled g nodes b) :
    (m.visit g a rest).Settled g nodes b := by
  rcases h with hmem | ⟨halive, hfollowed⟩
  · rw [hpending, mem_cons] at hmem
    rcases hmem with rfl | hmem
    · exact settled_visit_self
    · exact .inl (mem_append_right _ hmem)
  · exact .inr ⟨fun hb ↦ alive_visit (halive hb), hfollowed.visit hpending⟩

theorem scanned_visit_self : (m.visit g a rest).Scanned g nodes a :=
  fun _ hf ↦ .inl (mem_append_left _ (mem_append_left _ hf))

/-- Visiting the first cell of the list keeps the invariant. -/
theorem Invariant.visit (h : m.Invariant g roots nodes given debt)
    (hpending : m.pending = a :: rest) :
    (m.visit g a rest).Invariant g roots nodes given debt := by
  have hreach : g.Reach roots a := h.pending a (by rw [hpending]; exact mem_cons_self)
  refine ⟨?_, ?_, fun r hr ↦ ⟨(h.given r hr).1, (h.given r hr).2.visit hpending⟩, ?_, ?_⟩
  · intro b hb halive
    by_cases hba : b = a
    · rw [hba]
      exact hreach
    · exact h.sound b hb (by simpa [Marking.visit, hba] using halive)
  · intro b hb
    rcases mem_append.mp hb with hb | hb
    · rcases mem_append.mp hb with hb | hb
      · exact hreach.field hb
      · rw [Option.mem_toList, Option.filter_eq_some_iff] at hb
        exact hreach.link hb.1
    · exact h.pending b (by rw [hpending]; exact mem_cons_of_mem a hb)
  · intro b hb halive
    by_cases hba : b = a
    · rw [hba]
      exact followed_visit_self
    · exact (h.followed b hb (by simpa [Marking.visit, hba] using halive)).visit hpending
  · refine h.scanned.imp id fun hscanned b hb halive ↦ ?_
    by_cases hba : b = a
    · rw [hba]
      exact .inr (.inr scanned_visit_self)
    · have hold := hscanned b hb (by simpa [Marking.visit, hba] using halive)
      refine hold.imp id (Or.imp (fun hmem ↦ ?_) fun hscan ↦ ?_)
      · rw [hpending, mem_cons] at hmem
        exact mem_append_right _ (hmem.resolve_left hba)
      · exact fun f hf ↦ (hscan f hf).visit hpending

end Visit

section Run

variable {g : Graph ν} {roots given debt given' debt' : ν → Prop} {nodes rest : List ν}
  {m : Marking ν} {a : ν}

/-- Forgetting the fields of a reachable node keeps the invariant. -/
theorem Invariant.giveUp (hg : g.Managed roots nodes) (h : m.Invariant g roots nodes given debt)
    (hreach : g.Reach roots a) (hpending : m.pending = g.fields a ++ rest) :
    (m.giveUp rest).Invariant g roots nodes given debt := by
  -- the nodes that are still to be visited are not forgotten
  have hfollowed {b : ν} (hb : g.Reach roots b) (hfollowed : m.Followed g b) :
      (m.giveUp rest).Followed g b := by
    refine fun t ht ↦ (hfollowed t ht).imp id fun hmem ↦ ?_
    have hnode : t ∈ nodes := hg.link_mem b t hb ht
    rw [hpending, mem_append] at hmem
    exact hmem.resolve_left fun hfield ↦ hg.field_not_mem a t hreach hfield hnode
  refine ⟨h.sound, fun b hb ↦ ?_, fun r hr ↦ ⟨(h.given r hr).1, ?_⟩, fun b hb halive ↦ ?_, .inl rfl⟩
  · exact h.pending b (by rw [hpending]; exact mem_append_right _ hb)
  · obtain ⟨hroot, hsettled⟩ := h.given r hr
    rcases hsettled with hmem | ⟨halive, hold⟩
    · rw [hpending, mem_append] at hmem
      exact .inl (hmem.resolve_left (hg.root_not_field a r hreach hroot))
    · exact .inr ⟨halive, hfollowed (.root hroot) hold⟩
  · exact hfollowed (h.sound b hb halive) (h.followed b hb halive)

section

variable (h : m.Invariant g roots nodes given debt)

include h

/-- The marker is given more cells to start from: new roots, or nodes it has marked before. -/
theorem Invariant.start (hdone : m.pending = []) (new : List ν) (hnew : ∀ b ∈ new, g.Reach roots b)
    (hgiven : ∀ r, given' r → roots r ∧ (given r ∨ r ∈ new))
    (hdebt : ∀ b ∈ nodes, m.alive b = true → debt b → debt' b ∨ b ∈ new) :
    (⟨m.alive, new, m.gaveUp⟩ : Marking ν).Invariant g roots nodes given' debt' := by
  have hfollowed {b : ν} (hb : m.Followed g b) :
      (⟨m.alive, new, m.gaveUp⟩ : Marking ν).Followed g b := fun t ht ↦
    .inl ((hb t ht).resolve_right (by rw [hdone]; exact not_mem_nil))
  have hsettled {b : ν} (hb : m.Settled g nodes b) :
      (⟨m.alive, new, m.gaveUp⟩ : Marking ν).Settled g nodes b := by
    have hvisited := hb.resolve_left (by rw [hdone]; exact not_mem_nil)
    exact .inr ⟨hvisited.1, hfollowed hvisited.2⟩
  refine ⟨h.sound, hnew, fun r hr ↦ ?_, fun b hb halive ↦ hfollowed (h.followed b hb halive),
    h.scanned.imp id fun hscanned b hb halive ↦ ?_⟩
  · obtain ⟨hroot, hr | hr⟩ := hgiven r hr
    · exact ⟨hroot, hsettled (h.given r hr).2⟩
    · exact ⟨hroot, .inl hr⟩
  · rcases hscanned b hb halive with hb' | hb' | hb'
    · exact (hdebt b hb halive hb').imp id .inl
    · rw [hdone] at hb'
      exact absurd hb' not_mem_nil
    · exact .inr (.inr fun f hf ↦ hsettled (hb' f hf))

theorem Invariant.give (hgiven : ∀ r, given' r → roots r ∧ (given r ∨ m.Settled g nodes r)) :
    m.Invariant g roots nodes given' debt :=
  ⟨h.sound, h.pending, fun r hr ↦
    ⟨(hgiven r hr).1, (hgiven r hr).2.elim (fun hr' ↦ (h.given r hr').2) id⟩,
    h.followed, h.scanned⟩

theorem Invariant.pay (hdebt : ∀ b ∈ nodes, m.alive b = true → debt b → debt' b) :
    m.Invariant g roots nodes given debt' :=
  ⟨h.sound, h.pending, h.given, h.followed,
    h.scanned.imp id fun hscanned b hb halive ↦ (hscanned b hb halive).imp (hdebt b hb halive) id⟩

/-- Whatever the debt was, all marked nodes may be put into it and the failure forgotten. -/
theorem Invariant.reset (hall : ∀ b ∈ nodes, debt' b) :
    (⟨m.alive, m.pending, false⟩ : Marking ν).Invariant g roots nodes given debt' :=
  ⟨h.sound, h.pending, h.given, h.followed, .inr fun b hb _ ↦ .inl (hall b hb)⟩

end

/-- A marker that has nothing left to do, has not given up and has no debt has marked exactly the
reachable nodes. -/
theorem Invariant.exact (hg : g.Managed roots nodes) (h : m.Invariant g roots nodes given debt)
    (hdone : m.pending = []) (hgaveUp : m.gaveUp = false) (hgiven : ∀ r, roots r → given r)
    (hdebt : ∀ b ∈ nodes, ¬ debt b) :
    ∀ b ∈ nodes, m.alive b = true ↔ g.Reach roots b := by
  have hscanned (b : ν) (hb : b ∈ nodes) (halive : m.alive b = true) : m.Scanned g nodes b := by
    have hcases := (h.scanned.resolve_left (by simp [hgaveUp])) b hb halive
    exact (hcases.resolve_left (hdebt b hb)).resolve_left (by rw [hdone]; exact not_mem_nil)
  have hvisited (b : ν) (hb : m.Settled g nodes b) :
      (b ∈ nodes → m.alive b = true) ∧ m.Followed g b :=
    hb.resolve_left (by rw [hdone]; exact not_mem_nil)
  have hreach (b : ν) (hb : g.Reach roots b) : (b ∈ nodes → m.alive b = true) ∧ m.Followed g b := by
    induction hb with
    | root hr => exact hvisited _ (h.given _ (hgiven _ hr)).2
    | link ha ht ih =>
      have halive := (ih.2 _ ht).resolve_right (by rw [hdone]; exact not_mem_nil)
      exact ⟨fun _ ↦ halive, h.followed _ (hg.link_mem _ _ ha ht) halive⟩
    | field ha hf ih =>
      have hnode := hg.fields_mem _ ha (ne_nil_of_mem hf)
      exact hvisited _ (hscanned _ hnode (ih.1 hnode) _ hf)
  exact fun b hb ↦ ⟨h.sound b hb, fun hb' ↦ (hreach b hb').1 hb⟩

end Run

section Measure

variable {g : Graph ν} {roots : ν → Prop} {nodes rest : List ν} {m : Marking ν} {a : ν}

def dead (nodes : List ν) (alive : ν → Bool) : ℕ :=
  nodes.countP fun a ↦ !alive a

variable {alive alive' : ν → Bool}

theorem dead_le (h : ∀ a ∈ nodes, alive a = true → alive' a = true) :
    dead nodes alive' ≤ dead nodes alive := by
  refine countP_mono_left fun a ha halive ↦ ?_
  cases hold : alive a with
  | false => rfl
  | true => simp [h a ha hold] at halive

theorem dead_lt (h : ∀ a ∈ nodes, alive a = true → alive' a = true)
    (ha : a ∈ nodes) (hdead : alive a = false) (halive : alive' a = true) :
    dead nodes alive' < dead nodes alive := by
  induction nodes with
  | nil => simp at ha
  | cons b nodes ih =>
    have hrest : ∀ c ∈ nodes, alive c = true → alive' c = true :=
      fun c hc ↦ h c (mem_cons_of_mem b hc)
    have hle := dead_le hrest
    unfold dead at *
    rcases mem_cons.mp ha with rfl | ha
    · rw [countP_cons_of_neg (by simp [halive]), countP_cons_of_pos (by simp [hdead])]
      omega
    · have hlt := ih hrest ha
      by_cases hb : alive b = true
      · rw [countP_cons_of_neg (by simp [h b (by simp) hb]),
          countP_cons_of_neg (by simp [hb])]
        exact hlt
      · rw [countP_cons_of_pos (by simpa using hb) (l := nodes) (p := fun a ↦ !alive a)]
        by_cases hb' : alive' b = true
        · rw [countP_cons_of_neg (by simp [hb'])]
          omega
        · rw [countP_cons_of_pos (by simpa using hb')]
          omega

variable [DecidableEq ν]

/-- What a cell costs to visit: a marked node also pays for its fields. -/
def cost (g : Graph ν) (nodes : List ν) (alive : ν → Bool) (a : ν) : ℕ :=
  if a ∈ nodes then if alive a then 3 + 2 * (g.fields a).length else 1 else 2

/-- The work left: nodes to mark first, then cells to visit. -/
def work (g : Graph ν) (nodes : List ν) (m : Marking ν) : ℕ ×ₗ ℕ :=
  toLex (dead nodes m.alive, (m.pending.map (cost g nodes m.alive)).sum)

theorem cost_pos (alive : ν → Bool) : 1 ≤ cost g nodes alive a := by
  unfold cost
  split
  · split <;> omega
  · omega

theorem sum_cost_fields (alive : ν → Bool) {fields : List ν} (h : ∀ f ∈ fields, f ∉ nodes) :
    (fields.map (cost g nodes alive)).sum = 2 * fields.length := by
  induction fields with
  | nil => rfl
  | cons f fields ih =>
    have hf : cost g nodes alive f = 2 := if_neg (h f (by simp))
    rw [map_cons, sum_cons, hf, ih fun c hc ↦ h c (by simp [hc]), length_cons]
    omega

theorem work_visit_lt (hg : g.Managed roots nodes) (hreach : g.Reach roots a)
    (hpending : m.pending = a :: rest) : work g nodes (m.visit g a rest) < work g nodes m := by
  have hmono : ∀ b ∈ nodes, m.alive b = true → (m.visit g a rest).alive b = true :=
    fun b _ hb ↦ alive_visit hb
  rw [work, work, Prod.Lex.toLex_lt_toLex]
  by_cases hnew : a ∈ nodes ∧ m.alive a = false
  · exact .inl (dead_lt hmono hnew.1 hnew.2 alive_visit_self)
  · -- no node changes its mark, so costs are unchanged
    have hsame (b : ν) (hb : b ∈ nodes) : (m.visit g a rest).alive b = m.alive b := by
      by_cases hba : b = a
      · subst hba
        have halive : m.alive b = true := by simpa [hb] using hnew
        rw [halive]
        exact alive_visit_self
      · simp [visit, hba]
    have hcost : cost g nodes (m.visit g a rest).alive = cost g nodes m.alive := by
      funext b
      unfold cost
      by_cases hb : b ∈ nodes
      · rw [if_pos hb, if_pos hb, hsame b hb]
      · rw [if_neg hb, if_neg hb]
    have hdead : dead nodes (m.visit g a rest).alive = dead nodes m.alive :=
      countP_congr fun b hb ↦ by rw [hsame b hb]
    have hlink : (((g.link a).filter fun t ↦ !(m.visit g a rest).alive t).toList.map
        (cost g nodes m.alive)).sum ≤ 1 := by
      cases ht : (g.link a).filter fun t ↦ !(m.visit g a rest).alive t with
      | none => simp
      | some t =>
        obtain ⟨ht, hnot⟩ := Option.filter_eq_some_iff.mp ht
        have hnode := hg.link_mem a t hreach ht
        have hold : m.alive t = false := by
          rw [← hsame t hnode]
          simpa using hnot
        simp [cost, hnode, hold]
    have hfields := sum_cost_fields (g := g) m.alive fun f hf ↦ hg.field_not_mem a f hreach hf
    refine .inr ⟨hdead, ?_⟩
    rw [hcost, hpending]
    show ((g.expand (m.visit g a rest).alive a ++ rest).map (cost g nodes m.alive)).sum < _
    rw [Graph.expand, map_append, map_append, sum_append, sum_append, hfields,
      map_cons, sum_cons]
    have hself : 2 + 2 * (g.fields a).length ≤ cost g nodes m.alive a := by
      unfold cost
      by_cases ha : a ∈ nodes
      · have halive : m.alive a = true := by simpa [ha] using hnew
        rw [if_pos ha, if_pos halive]
        omega
      · have hempty : g.fields a = [] := by
          by_contra hne
          exact ha (hg.fields_mem a hreach hne)
        rw [if_neg ha, hempty]
        simp
    omega

theorem work_giveUp_lt {dropped : List ν} (hdropped : dropped ≠ [])
    (hpending : m.pending = dropped ++ rest) :
    work g nodes (m.giveUp rest) < work g nodes m := by
  rw [work, work, Prod.Lex.toLex_lt_toLex]
  refine .inr ⟨rfl, ?_⟩
  cases dropped with
  | nil => exact absurd rfl hdropped
  | cons b dropped =>
    have hpos : 1 ≤ cost g nodes m.alive b := cost_pos m.alive
    rw [hpending]
    simp only [giveUp, cons_append, map_cons, map_append, sum_cons,
      sum_append]
    omega

end Measure

end Marking

end MicroFramework.Library
