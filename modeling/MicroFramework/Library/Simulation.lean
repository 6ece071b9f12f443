import Mathlib.Data.List.Basic

/-!
# Data refinement

A machine answers operations one after the other and may get stuck; a specification relates an
abstract state, an operation, its answer and the next abstract state.  If every clean operation of
the machine is matched by the specification, a run of clean operations does not get stuck and its
answers are those of a run of the specification.
-/

namespace MicroFramework.Library

variable {σ A Op Ans : Type*}

def runOps (step : σ → Op → Option (σ × Ans)) : σ → List Op → Option (σ × List Ans)
  | s, [] => some (s, [])
  | s, op :: ops =>
    match step s op with
    | none => none
    | some (s', ans) => (runOps step s' ops).map fun r ↦ (r.1, ans :: r.2)

/-- The specification allows these answers to a list of operations. -/
inductive Follows (spec : A → Op → Ans → A → Prop) : A → List Op → List Ans → A → Prop
  | nil (a : A) : Follows spec a [] [] a
  | cons {a a' b : A} {op : Op} {ans : Ans} {ops : List Op} {answers : List Ans} :
      spec a op ans a' → Follows spec a' ops answers b →
        Follows spec a (op :: ops) (ans :: answers) b

/-- Every operation of the run is clean in the state in which it is performed. -/
def CleanRun (step : σ → Op → Option (σ × Ans)) (clean : σ → Op → Prop) : σ → List Op → Prop
  | _, [] => True
  | s, op :: ops => clean s op ∧ ∀ s' ans, step s op = some (s', ans) → CleanRun step clean s' ops

variable {clean : σ → Op → Prop} {step : σ → Op → Option (σ × Ans)}

variable {ans : Ans} {op : Op} {ops : List Op} {s : σ}

theorem cleanRun_cons {s' : σ} (hclean : clean s op) (hstep : step s op = some (s', ans))
    (hrest : CleanRun step clean s' ops) : CleanRun step clean s (op :: ops) := by
  refine ⟨hclean, ?_⟩
  intro t answer hstep'
  rw [hstep] at hstep'
  obtain ⟨rfl, rfl⟩ := Prod.mk.inj (Option.some.inj hstep')
  exact hrest

variable {spec : A → Op → Ans → A → Prop}

theorem follows_cons {a b : A} {answers : List Ans} (h : Follows spec a (op :: ops) (ans :: answers) b) :
    ∃ a', spec a op ans a' ∧ Follows spec a' ops answers b := by
  cases h with
  | cons hspec hrest => exact ⟨_, hspec, hrest⟩

theorem cleanRun_of_forall
    (hclean : ∀ s op, clean s op) (ops : List Op) : CleanRun step clean s ops := by
  induction ops generalizing s with
  | nil => exact trivial
  | cons op ops ih => exact ⟨hclean s op, fun s' ans _ ↦ ih⟩

/-- Clean operations of the machine are matched by the specification, through the relation `R`. -/
def Simulates (step : σ → Op → Option (σ × Ans)) (clean : σ → Op → Prop)
    (spec : A → Op → Ans → A → Prop) (R : σ → A → Prop) : Prop :=
  ∀ s a op, R s a → clean s op →
    ∃ s' ans a', step s op = some (s', ans) ∧ spec a op ans a' ∧ R s' a'

/-- From related states, every clean run ends, gives answers that the specification allows, and leads
to related states. -/
def Refines (step : σ → Op → Option (σ × Ans)) (clean : σ → Op → Prop)
    (spec : A → Op → Ans → A → Prop) (R : σ → A → Prop) : Prop :=
  ∀ s a, R s a → ∀ ops, CleanRun step clean s ops →
    ∃ t answers b, runOps step s ops = some (t, answers) ∧ Follows spec a ops answers b ∧ R t b

theorem Simulates.refines {R : σ → A → Prop} (h : Simulates step clean spec R) :
    Refines step clean spec R := by
  intro s a hR ops hclean
  induction ops generalizing s a with
  | nil => exact ⟨s, [], a, rfl, .nil a, hR⟩
  | cons op ops ih =>
    obtain ⟨s', ans, a', hstep, hspec, hR'⟩ := h s a op hR hclean.1
    obtain ⟨t, answers, b, hrun, hfollows, hR''⟩ := ih s' a' hR' (hclean.2 s' ans hstep)
    refine ⟨t, ans :: answers, b, ?_, .cons hspec hfollows, hR''⟩
    rw [runOps, hstep]
    simp only [hrun, Option.map_some]

/-!
## Transducers fed one symbol at a time

A transducer consumes symbols and emits observations.  Feeding is a fold, so what it emits on a
concatenation is what it emits on the two halves in sequence: nothing depends on how the input
was cut.  A buffered implementation is related to a transducer by an abstraction that may still
owe observations; `Owes` is the step relation such an implementation has to keep.  Two transducers
emit the same if a relation between their states is kept by every step.
-/

variable {σ β ε τ : Type*}

/-- A machine that consumes one symbol at a time. -/
structure Transducer (σ β ε : Type*) where
  step : σ → β → σ × List ε

namespace Transducer

def feed (machine : Transducer σ β ε) (state : σ) : List β → σ × List ε
  | [] => (state, [])
  | symbol :: rest =>
    let first := machine.step state symbol
    let later := machine.feed first.1 rest
    (later.1, first.2 ++ later.2)

section

variable (machine : Transducer σ β ε)

include machine

@[simp]
theorem feed_nil (state : σ) : machine.feed state [] = (state, []) :=
  rfl

theorem feed_cons (state : σ) (symbol : β) (rest : List β) :
    machine.feed state (symbol :: rest) =
      ((machine.feed (machine.step state symbol).1 rest).1,
        (machine.step state symbol).2 ++ (machine.feed (machine.step state symbol).1 rest).2) :=
  rfl

@[simp]
theorem feed_singleton (state : σ) (symbol : β) :
    machine.feed state [symbol] = machine.step state symbol := by
  simp [feed_cons]

theorem feed_append (state : σ) (left right : List β) :
    machine.feed state (left ++ right) =
      ((machine.feed (machine.feed state left).1 right).1,
        (machine.feed state left).2 ++ (machine.feed (machine.feed state left).1 right).2) := by
  induction left generalizing state with
  | nil => simp
  | cons symbol rest ih => simp [feed_cons, ih]

end

/-- An implementation whose abstraction is `before`, a state and the observations still owed,
moves by consuming `input` and emitting `output` to one whose abstraction is `after`. -/
def Owes (machine : Transducer σ β ε) (before : σ × List ε) (input : List β) (output : List ε)
    (after : σ × List ε) : Prop :=
  (machine.feed before.1 input).1 = after.1 ∧
    before.2 ++ (machine.feed before.1 input).2 = output ++ after.2

theorem Owes.refl (machine : Transducer σ β ε) (before : σ × List ε) :
    machine.Owes before [] [] before := by
  simp [Owes]

/-- Consecutive moves of the implementation compose. -/
theorem Owes.trans {machine : Transducer σ β ε} {first second third : σ × List ε}
    {input₁ input₂ : List β} {output₁ output₂ : List ε}
    (h₁ : machine.Owes first input₁ output₁ second)
    (h₂ : machine.Owes second input₂ output₂ third) :
    machine.Owes first (input₁ ++ input₂) (output₁ ++ output₂) third := by
  obtain ⟨hstate₁, hout₁⟩ := h₁
  obtain ⟨hstate₂, hout₂⟩ := h₂
  refine ⟨by rw [feed_append, hstate₁, hstate₂], ?_⟩
  calc
    first.2 ++ (machine.feed first.1 (input₁ ++ input₂)).2 =
        (first.2 ++ (machine.feed first.1 input₁).2) ++ (machine.feed second.1 input₂).2 := by
      rw [feed_append, hstate₁, List.append_assoc]
    _ = output₁ ++ (second.2 ++ (machine.feed second.1 input₂).2) := by
      rw [hout₁, List.append_assoc]
    _ = output₁ ++ output₂ ++ third.2 := by rw [hout₂, List.append_assoc]

end Transducer

end MicroFramework.Library
