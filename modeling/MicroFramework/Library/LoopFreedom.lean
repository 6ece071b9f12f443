import Mathlib.Data.Prod.Lex

/-!
# Loop freedom by labels

Next hops lead from node to node.  When every hop that does not end at the destination moves to a
strictly higher label, no chain of next hops returns to its start.  The labels that routing protocols
use for this are a sequence number and, among equal numbers, a cost: a higher number is fresher, and a
lower cost is better.
-/

namespace MicroFramework.Library

variable {ν ι : Type*}

/-- The next hops lead from one node to another in one hop or more. -/
def Leads (next : ν → Option ν) : ν → ν → Prop :=
  Relation.TransGen fun node hop ↦ next node = some hop

/-- No chain of next hops forms a cycle. -/
def LoopFree (next : ν → Option ν) : Prop :=
  ∀ node, ¬Leads next node node

variable {next : ν → Option ν} {node node' : ν}

theorem Leads.start_ne_none (h : Leads next node node') :
    next node ≠ none := by
  obtain ⟨hop, hhop, -⟩ := Relation.TransGen.head'_iff.mp h
  simp [hhop]

variable {label : ν → ι}

/-- A chain that does not end at the destination has climbed. -/
theorem Leads.lt [Preorder ι]
    (hclimb : ∀ node hop, next node = some hop → next hop ≠ none → label node < label hop)
    (h : Leads next node node') (hon : next node' ≠ none) :
    label node < label node' := by
  induction h with
  | single hhop => exact hclimb _ _ hhop hon
  | tail hleads hhop ih =>
    calc
      label node < label _ := ih (by simp [hhop])
      _ < label _ := hclimb _ _ hhop hon

/-- Next hops that climb in a label form no cycle. -/
theorem loopFree_of_climb [Preorder ι]
    (hclimb : ∀ node hop, next node = some hop → next hop ≠ none → label node < label hop) :
    LoopFree next := by
  intro node hcycle
  exact lt_irrefl _ (hcycle.lt hclimb hcycle.start_ne_none)

/-! ## Freshness -/

/-- A sequence number and, among equal numbers, the cost turned round. -/
abbrev Label := ℕ ×ₗ ℕᵒᵈ

def Label.mk (seq cost : ℕ) : Label := toLex (seq, OrderDual.toDual cost)

variable {cost cost' seq seq' : ℕ}

theorem Label.mk_lt_iff :
    Label.mk seq cost < Label.mk seq' cost' ↔ seq < seq' ∨ (seq = seq' ∧ cost' < cost) := by
  simp [Label.mk, Prod.Lex.toLex_lt_toLex]

theorem Label.mk_le_iff :
    Label.mk seq cost ≤ Label.mk seq' cost' ↔ seq < seq' ∨ (seq = seq' ∧ cost' ≤ cost) := by
  simp [Label.mk, Prod.Lex.toLex_le_toLex]

end MicroFramework.Library
