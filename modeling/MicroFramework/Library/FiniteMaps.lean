import Mathlib.Data.Finmap

/-!
# Lists of keys and values

A list of keys with their values lists a finite map on the classes of an equivalence of keys if every
class is in it once.  Adding a pair to the list, taking one out and giving one another value are then
`insert` and `erase`.
-/

namespace MicroFramework.Library

open List Quotient Finmap

variable {K V : Type*} {s : Setoid K}

def classed (s : Setoid K) (pair : K × V) : Σ _ : Quotient s, V := ⟨Quotient.mk s pair.1, pair.2⟩

def Lists (m : Finmap fun _ : Quotient s ↦ V) (pairs : List (K × V)) : Prop :=
  m.entries = ↑(pairs.map (classed s))

namespace Lists

variable {m : Finmap fun _ : Quotient s ↦ V} {pairs rest : List (K × V)} {key key' : K} {value : V}

theorem nil : Lists (∅ : Finmap fun _ : Quotient s ↦ V) [] := rfl

section

variable (h : Lists m pairs)

include h

theorem perm (hperm : pairs.Perm rest) : Lists m rest := by
  rw [Lists, h]
  exact Multiset.coe_eq_coe.mpr (hperm.map _)

theorem mem_entries {q : Quotient s} :
    Sigma.mk q value ∈ m.entries ↔ ∃ key, Quotient.mk s key = q ∧ (key, value) ∈ pairs := by
  rw [h, Multiset.mem_coe, mem_map]
  constructor
  · rintro ⟨⟨key, value'⟩, hmem, heq⟩
    obtain ⟨rfl, hvalue⟩ := Sigma.mk.inj heq
    obtain rfl := eq_of_heq hvalue
    exact ⟨key, rfl, hmem⟩
  · rintro ⟨key, rfl, hmem⟩
    exact ⟨(key, value), hmem, rfl⟩

/-- A key is in the map if an equivalent one is in the list. -/
theorem mem_iff [DecidableEq (Quotient s)] :
    Quotient.mk s key ∈ m ↔ ∃ pair ∈ pairs, s pair.1 key := by
  rw [Finmap.mem_iff]
  constructor
  · rintro ⟨value, hlookup⟩
    obtain ⟨key', hclass, hmem⟩ := h.mem_entries.mp (Finmap.lookup_eq_some_iff.mp hlookup)
    exact ⟨(key', value), hmem, exact hclass⟩
  · rintro ⟨⟨key', value⟩, hmem, hclass⟩
    exact ⟨value, Finmap.lookup_eq_some_iff.mpr (h.mem_entries.mpr ⟨key', sound hclass, hmem⟩)⟩

theorem lookup_eq [DecidableEq (Quotient s)] (hmem : (key', value) ∈ pairs)
    (hclass : s key' key) : m.lookup (Quotient.mk s key) = some value := by
  apply Finmap.lookup_eq_some_iff.mpr
  exact h.mem_entries.mpr ⟨key', sound hclass, hmem⟩

theorem card_eq : m.keys.card = pairs.length := by
  show Multiset.card (m.entries.keys) = _
  rw [h, Multiset.keys, Multiset.card_map, Multiset.coe_card, length_map]

/-- The keys of the list are in different classes. -/
theorem pairwise : pairs.Pairwise fun p q ↦ ¬ s p.1 q.1 := by
  have hnodup := m.nodupKeys
  rw [h, Multiset.coe_nodupKeys, nodupKeys_iff_pairwise, pairwise_map] at hnodup
  apply hnodup.imp
  intro p q hne hclass
  exact hne (Quotient.sound hclass)

/-- A key of a class of its own is inserted. -/
theorem cons [DecidableEq (Quotient s)] (value : V) (hnew : ¬ ∃ pair ∈ pairs, s pair.1 key) :
    Lists (m.insert (Quotient.mk s key) value) ((key, value) :: pairs) := by
  rw [Lists, entries_insert_of_notMem (mt h.mem_iff.mp hnew), h, map_cons]
  rfl

end

theorem erase [DecidableEq (Quotient s)] (h : Lists m ((key', value) :: rest))
    (hclass : s key' key) : Lists (m.erase (Quotient.mk s key)) rest := by
  have hnodup : (↑(rest.map (classed s)) : Multiset (Σ _ : Quotient s, V)).NodupKeys := by
    have hnodup := m.nodupKeys
    rw [h, Multiset.coe_nodupKeys, map_cons] at hnodup
    exact nodupKeys_of_nodupKeys_cons hnodup
  have hlists : Lists (mk _ hnodup) rest := rfl
  have hnew : ¬ ∃ pair ∈ rest, s pair.1 key := by
    rintro ⟨pair, hpair, heq⟩
    exact rel_of_pairwise_cons h.pairwise hpair (s.trans hclass (s.symm heq))
  have heq : m.erase (Quotient.mk s key) = mk _ hnodup := by
    apply ext_lookup
    intro q
    by_cases hq : q = Quotient.mk s key
    · rw [hq, lookup_erase]
      exact (lookup_eq_none.mpr (mt hlists.mem_iff.mp hnew)).symm
    · apply Option.ext
      intro w
      rw [lookup_erase_ne hq]
      apply Finmap.lookup_eq_some_iff.trans
      apply Iff.trans _ Finmap.lookup_eq_some_iff.symm
      rw [h.mem_entries, hlists.mem_entries]
      apply exists_congr
      intro other
      constructor
      · rintro ⟨hother, hmem⟩
        rcases mem_cons.mp hmem with heq | hmem
        · have hfirst : other = key' := congrArg Prod.fst heq
          rw [← hother, hfirst] at hq
          exact absurd (sound hclass) hq
        · exact ⟨hother, hmem⟩
      · rintro ⟨hother, hmem⟩
        exact ⟨hother, mem_cons_of_mem _ hmem⟩
  rw [heq]
  exact hlists

/-- The pair of a class gets another value. -/
theorem replace [DecidableEq (Quotient s)] (h : Lists m ((key', value) :: rest)) (value' : V)
    (hclass : s key' key) :
    Lists (m.insert (Quotient.mk s key) value') ((key', value') :: rest) := by
  have hnew : ¬ ∃ pair ∈ rest, s pair.1 key' := by
    rintro ⟨pair, hpair, heq⟩
    exact rel_of_pairwise_cons h.pairwise hpair (s.symm heq)
  have hinsert : m.insert (Quotient.mk s key) value' =
      (m.erase (Quotient.mk s key)).insert (Quotient.mk s key) value' := by
    apply ext_lookup
    intro q
    by_cases hq : q = Quotient.mk s key
    · rw [hq, lookup_insert, lookup_insert]
    · rw [lookup_insert_of_ne _ hq, lookup_insert_of_ne _ hq,
        lookup_erase_ne hq]
  rw [hinsert, ← sound hclass]
  have herase := h.erase (s.refl key')
  exact herase.cons value' hnew

end Lists

end MicroFramework.Library
