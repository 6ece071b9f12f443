import Mathlib.Data.List.Basic

/-!
# Brackets and what is open between them

A list of tokens in which some open a bracket and some close one: the brackets open after it, the
innermost first, and the lists that close every bracket they open.
-/

namespace MicroFramework.Library

open List

/-- What a token does to the brackets: it opens one, closes the innermost one or does neither. -/
inductive Bracket (α : Type*) where
  | opening (a : α)
  | closing
  | neither

section Nesting

variable {τ α : Type*} (bracket : τ → Bracket α)

def nest (opened : List α) (token : τ) : List α :=
  match bracket token with
  | .opening a => a :: opened
  | .closing => opened.tail
  | .neither => opened

def nesting (tokens : List τ) : List α :=
  tokens.foldl (nest bracket) []

theorem nesting_concat (tokens : List τ) (token : τ) :
    nesting bracket (tokens ++ [token]) = nest bracket (nesting bracket tokens) token := by
  rw [nesting, foldl_append, foldl_cons, foldl_nil, nesting]

/-- Tokens that close every bracket they open, and no other. -/
inductive Balanced : List τ → Prop
  | nil : Balanced []
  | neither {token : τ} {rest : List τ} :
      bracket token = .neither → Balanced rest → Balanced (token :: rest)
  | enclosed {first last : τ} {a : α} {inner rest : List τ} :
      bracket first = .opening a → Balanced inner → bracket last = .closing → Balanced rest →
        Balanced (first :: inner ++ last :: rest)

theorem Balanced.foldl_nest {tokens : List τ} (h : Balanced bracket tokens) (opened : List α) :
    tokens.foldl (nest bracket) opened = opened := by
  induction h generalizing opened with
  | nil => rfl
  | @neither token rest htoken _ ih =>
    have hnest : nest bracket opened token = opened := by rw [nest, htoken]
    rw [foldl_cons, hnest, ih]
  | @enclosed first last a inner rest hfirst _ hlast _ ihinner ihrest =>
    have hopens : nest bracket opened first = a :: opened := by rw [nest, hfirst]
    have hcloses : nest bracket (a :: opened) last = opened := by rw [nest, hlast, tail_cons]
    rw [cons_append, foldl_cons, hopens, foldl_append, ihinner, foldl_cons,
      hcloses, ihrest]

theorem nesting_append_balanced {tokens : List τ} (before : List τ) (h : Balanced bracket tokens) :
    nesting bracket (before ++ tokens) = nesting bracket before := by
  rw [nesting, foldl_append, h.foldl_nest, nesting]

end Nesting

/-- In a list with one match at most the search may go either way. -/
theorem find?_reverse_of_unique {α : Type*} {p : α → Bool} {xs : List α}
    (h : xs.Pairwise fun a b ↦ ¬ (p a ∧ p b)) : xs.reverse.find? p = xs.find? p := by
  induction xs with
  | nil => rfl
  | cons x xs ih =>
    rw [pairwise_cons] at h
    rw [reverse_cons, find?_append, ih h.2, find?_cons, find?_cons,
      find?_nil]
    cases hx : p x with
    | false => simp
    | true =>
      have hnone : xs.find? p = none := find?_eq_none.mpr fun b hb hp ↦ h.1 b hb ⟨hx, hp⟩
      rw [hnone]
      rfl

end MicroFramework.Library
