import Mathlib.Data.List.Basic
import Mathlib.Data.Option.Basic

/-!
# Runs of a transition system and what has held since

The states that a partial step function reaches by steps a guard allows, the rule that an invariant
kept by every such step holds of all of them, and the past-time operator "since" on the history of
a run, with the latest entry first.
-/

namespace MicroFramework.Library

open List

section Runs

variable {σ α : Type*} {step : σ → α → Option σ} {allowed allowed' : σ → α → Prop}
  {start : σ → Prop} {s s' : σ}

/-- The states reached from a start state by steps that `allowed` permits. -/
inductive Reachable (step : σ → α → Option σ) (allowed : σ → α → Prop) (start : σ → Prop) :
    σ → Prop
  | start {s : σ} : start s → Reachable step allowed start s
  | step {s s' : σ} (a : α) :
      Reachable step allowed start s → allowed s a → step s a = some s' →
        Reachable step allowed start s'

namespace Reachable

/-- What holds at the start and is kept by every allowed step holds in every state reached. -/
theorem invariant {I : σ → Prop} (hstart : ∀ s, start s → I s)
    (hstep : ∀ s a s', I s → allowed s a → step s a = some s' → I s')
    (h : Reachable step allowed start s) : I s := by
  induction h with
  | start hs => exact hstart _ hs
  | step a _ hallowed hs ih => exact hstep _ a _ ih hallowed hs

theorem mono (hmono : ∀ s a, allowed s a → allowed' s a)
    (h : Reachable step allowed start s) : Reachable step allowed' start s := by
  induction h with
  | start hs => exact .start hs
  | step a _ hallowed hs ih => exact .step a ih (hmono _ a hallowed) hs

/-- A list of allowed actions that runs to its end leads to a reachable state. -/
theorem foldlM_of_mem {actions : List α} (hallowed : ∀ s, ∀ a ∈ actions, allowed s a)
    (h : Reachable step allowed start s) (hrun : actions.foldlM step s = some s') :
    Reachable step allowed start s' := by
  induction actions generalizing s with
  | nil =>
    obtain rfl : s = s' := by simpa using hrun
    exact h
  | cons a actions ih =>
    rw [foldlM_cons] at hrun
    cases hs : step s a with
    | none => simp [hs] at hrun
    | some t =>
      rw [hs] at hrun
      exact ih (fun s b hb ↦ hallowed s b (mem_cons_of_mem a hb))
        (.step a h (hallowed s a mem_cons_self) hs) hrun

theorem foldlM (hallowed : ∀ s a, allowed s a) (actions : List α)
    (h : Reachable step allowed start s) (hrun : actions.foldlM step s = some s') :
    Reachable step allowed start s' :=
  h.foldlM_of_mem (fun s a _ ↦ hallowed s a) hrun

end Reachable

/-- In a run that keeps `I` as long as its steps are clean, and where a good state behind a step
tells that the step was clean, all states are good exactly when all steps are clean. -/
theorem good_iff_clean {I good : σ → Prop} {clean : σ → α → Prop} {final : σ}
    (hkeep : ∀ s a s', I s → clean s a → step s a = some s' → I s') (hgood : ∀ s, I s → good s)
    (hclean : ∀ s a s', I s → step s a = some s' → good s' → clean s a)
    (actions : List α) (hs : I s) (hrun : actions.foldlM step s = some final) :
    (∀ done rest t, done ++ rest = actions → done.foldlM step s = some t → good t) ↔
      ∀ done a rest t, done ++ a :: rest = actions → done.foldlM step s = some t → clean t a := by
  induction actions generalizing s with
  | nil =>
    constructor
    · intro _ done a rest t hsplit
      simp at hsplit
    · intro _ done rest t hsplit ht
      have hdone : done = [] := (append_eq_nil_iff.mp hsplit).1
      rw [hdone] at ht
      cases ht
      exact hgood s hs
  | cons a actions ih =>
    rw [foldlM_cons] at hrun
    cases hstep : step s a with
    | none =>
      rw [hstep] at hrun
      cases hrun
    | some s' =>
      rw [hstep] at hrun
      constructor
      · intro hall
        have hfirst : clean s a := by
          apply hclean s a s' hs hstep
          apply hall [a] actions s' rfl
          simp [hstep]
        intro done b rest t hsplit ht
        cases done with
        | nil =>
          cases hsplit
          cases ht
          exact hfirst
        | cons c done =>
          cases hsplit
          rw [foldlM_cons, hstep] at ht
          refine (ih (hkeep s a s' hs hfirst hstep) hrun).mp ?_ done b rest t rfl ht
          intro done' rest' t' hsplit' ht'
          apply hall (a :: done') rest' t' (congrArg (a :: ·) hsplit')
          rw [foldlM_cons, hstep]
          exact ht'
      · intro hall
        have hfirst : clean s a := hall [] a actions s rfl rfl
        intro done rest t hsplit ht
        cases done with
        | nil =>
          cases ht
          exact hgood s hs
        | cons c done =>
          cases hsplit
          rw [foldlM_cons, hstep] at ht
          refine (ih (hkeep s a s' hs hfirst hstep) hrun).mpr ?_ done rest t rfl ht
          intro done' b rest' t' hsplit' ht'
          apply hall (a :: done') b rest' t' (congrArg (a :: ·) hsplit')
          rw [foldlM_cons, hstep]
          exact ht'

end Runs

section Since

variable {α : Type*} {p p' q q' : α → Prop} {x y : α} {history : List α}

/-- At some entry of the history `q` held, and at every later entry `p` held. -/
def Since (p q : α → Prop) : List α → Prop
  | [] => False
  | x :: history => q x ∨ p x ∧ Since p q history

@[simp] theorem since_nil : ¬ Since p q [] := id

@[simp] theorem since_cons : Since p q (x :: history) ↔ q x ∨ p x ∧ Since p q history := Iff.rfl

/-- A next entry that inherits `p` and `q` from the latest one continues the history. -/
theorem Since.next (h : Since p q (x :: history)) (hp : p x → p y) (hq : q x → q y) :
    Since p q (y :: x :: history) := by
  rcases h with hqx | ⟨hpx, hsince⟩
  · exact .inl (hq hqx)
  · exact .inr ⟨hp hpx, .inr ⟨hpx, hsince⟩⟩

theorem Since.imp (h : Since p q history) (hp : ∀ x, p x → p' x) (hq : ∀ x, q x → q' x) :
    Since p' q' history := by
  induction history with
  | nil => exact h
  | cons x history ih => exact Or.imp (hq x) (fun hx ↦ ⟨hp x hx.1, ih hx.2⟩) h

/-- Two things that held last, with nothing in between for either, held at one entry. -/
theorem Since.meet (h : Since p q history) (h' : Since p q' history) (hq : ∀ x, q x → ¬ p x)
    (hq' : ∀ x, q' x → ¬ p x) : ∃ x, q x ∧ q' x := by
  induction history with
  | nil => exact h.elim
  | cons x history ih =>
    rcases h with hx | ⟨hx, hsince⟩ <;> rcases h' with hx' | ⟨hx', hsince'⟩
    · exact ⟨x, hx, hx'⟩
    · exact absurd hx' (hq x hx)
    · exact absurd hx (hq' x hx')
    · exact ih hsince hsince'

/-- Entries that each answer an earlier request, with no other answer in between, are at most as
many as the requests. -/
theorem countP_le_of_since [DecidablePred p] [DecidablePred q] (hp : ∀ x, p x → ¬ q x)
    (h : ∀ x older, x :: older <:+ history → p x → Since (fun x ↦ ¬ p x) q older) :
    history.countP (fun x ↦ p x) ≤ history.countP (fun x ↦ q x) ∧
      (Since (fun x ↦ ¬ p x) q history →
        history.countP (fun x ↦ p x) < history.countP (fun x ↦ q x)) := by
  induction history with
  | nil => simp
  | cons x history ih =>
    obtain ⟨hle, hlt⟩ := ih fun y older hsuffix ↦ h y older (suffix_cons_iff.mpr (.inr hsuffix))
    by_cases hx : p x
    · have hless := hlt (h x history suffix_rfl hx)
      simp only [countP_cons, hx, hp x hx, since_cons, decide_true, decide_false, if_true,
        Bool.false_eq_true, if_false, not_true, false_and, or_false, false_implies, and_true]
      omega
    · by_cases hqx : q x
      · simp only [countP_cons, hx, hqx, decide_true, decide_false, Bool.false_eq_true,
          if_false, if_true]
        omega
      · simp only [countP_cons, hx, hqx, since_cons, decide_false, Bool.false_eq_true,
          if_false, not_false_eq_true, true_and, false_or]
        exact ⟨hle, hlt⟩

end Since

end MicroFramework.Library
