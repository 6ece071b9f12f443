import MicroFramework.Collections.HashtableRemoval
import MicroFramework.Library.Simulation

/-!
# The hash tables refine finite maps

Several tables over one heap of entries behave as finite maps, as long as no value is overwritten
without a rehash behind it, which would count the key twice, no entry of another table is changed, and
the indices of the keys are indices of buckets.
-/

namespace MicroFramework.Collections

open Library Option List

variable {K V G : Type*}

/-! ## The operations of maps -/

namespace Hashtable

variable {keys : Keys K} {doubles : Doubles G} {heap : Heap K V} {table : Hashtable G}
  {m : Map keys V}

/-- What an operation returns on a finite map, and the map that it leaves. -/
def Specified (m : Map keys V) : Op K V G → Answer K V → Map keys V → Prop
  | .add none _, answer, m' | .set none _, answer, m' | .get none, answer, m'
  | .contains none, answer, m' | .remove none, answer, m' => answer = .threw .argumentNull ∧ m' = m
  | .add (some key) value, answer, m' =>
    if classOf keys key ∈ m then answer = .threw .keyExists ∧ m' = m
    else answer = .done ∧ m' = m.insert (classOf keys key) value
  | .set (some key) value, answer, m' => answer = .done ∧ m' = m.insert (classOf keys key) value
  | .get (some key), answer, m' => answer = .value (m.lookup (classOf keys key)).join ∧ m' = m
  | .contains (some key), answer, m' => answer = .contains (decide (classOf keys key ∈ m)) ∧ m' = m
  | .remove (some key), answer, m' => answer = .done ∧ m' = m.erase (classOf keys key)
  | .clear, answer, m' => answer = .done ∧ m' = ∅
  | .count, answer, m' => answer = .count m.keys.card ∧ m' = m
  | .enumerate, answer, m' => (∃ pairs, answer = .entries pairs ∧ Lists m pairs) ∧ m' = m
  | .setMaxLoadFactor _, answer, m' | .setGrowthFactor _, answer, m' => answer = .done ∧ m' = m

/-- An operation keeps to the map: the index of the key is one of a bucket; a new key can be stored;
a value is overwritten only where the table is rehashed and the entry belongs to no other table; and
the entry that comes before a removed one belongs to no other table. -/
def Safe (keys : Keys K) (doubles : Doubles G) (heap : Heap K V) (table : Hashtable G)
    (shared : Option ℕ → Prop) : Op K V G → Prop
  | .add (some key) _ => Indexed keys key table.numberOfBuckets ∧
      ((∀ pair ∈ contents heap table.buckets, ¬ keys.equals pair.1 key = true) →
        Storable keys doubles heap table key)
  | .set (some key) _ => Storable keys doubles heap table key ∧
      ∀ index head cur entry, find keys heap table key = .ok (index, head, some (cur, entry)) →
        table.Overloaded ∧ ∀ other, shared other → Avoids heap other cur
  | .get (some key) | .contains (some key) => Indexed keys key table.numberOfBuckets
  | .remove (some key) => Indexed keys key table.numberOfBuckets ∧
      ∀ before, Unlinks keys heap table key before → ∀ other, shared other →
        Avoids heap other before
  | _ => True

/-- The result of an operation: what the map allows, with the other chains as they were. -/
def Obeys (keys : Keys K) (heap : Heap K V) (m : Map keys V) (shared : Option ℕ → Prop)
    (op : Op K V G) (result : Heap K V × Hashtable G × Answer K V) : Prop :=
  ∃ m', Specified m op result.2.2 m' ∧ Descending result.1 ∧ Holds keys result.1 result.2.1 m' ∧
    ∀ head, shared head → Keeps heap result.1 head

variable {shared : Option ℕ → Prop}

theorem obeys_same {op : Op K V G} {table' : Hashtable G} {answer : Answer K V}
    {m' : Map keys V} (hheap : Descending heap) (hshared : ∀ head, shared head → Below heap head)
    (hspec : Specified m op answer m') (h : Holds keys heap table' m') :
    Obeys keys heap m shared op (heap, table', answer) :=
  ⟨m', hspec, hheap, h, fun head hhead ↦ ⟨hshared head hhead, rfl⟩⟩

variable {key : K}

theorem mem_iff_isSome {found : Option (ℕ × Entry K V)}
    (hlookup : m.lookup (classOf keys key) = found.map fun cell ↦ cell.2.value) :
    classOf keys key ∈ m ↔ found.isSome = true := by
  rw [← Finmap.lookup_isSome, hlookup, isSome_map]

variable {value : Option V}

theorem add_obeys (hheap : Descending heap) (h : Holds keys heap table m)
    (hshared : ∀ head, shared head → Below heap head)
    (hsafe : Safe keys doubles heap table shared (.add (some key) value)) :
    Obeys keys heap m shared (.add (some key) value)
      (perform keys doubles heap table (.add (some key) value)) := by
  obtain ⟨hkey, hstorable⟩ := hsafe
  obtain ⟨index, head, hfind, hwhich, -, hlookup⟩ := find_spec h hkey
  rw [perform]
  by_cases hmem : classOf keys key ∈ m
  · obtain ⟨cell, hfound⟩ := isSome_iff_exists.mp ((mem_iff_isSome hlookup).mp hmem)
    rw [store, addTo_exists hwhich hfound]
    apply obeys_same hheap hshared _ h
    rw [Specified, if_pos hmem]
    exact ⟨rfl, rfl⟩
  · have hnone : ∀ pair ∈ contents heap table.buckets, ¬ keys.equals pair.1 key = true := by
      intro pair hpair hequals
      exact hmem (h.lists.mem_iff.mpr ⟨pair, hpair, hequals⟩)
    obtain ⟨heap', table', hstore, hgrown, hholds⟩ :=
      store_new hheap h (hstorable hnone) hmem value false
    rw [hstore]
    refine ⟨_, ?_, hgrown.descending, hholds, fun head hhead ↦ hgrown.keeps head (hshared head hhead)⟩
    rw [Specified, if_neg hmem]
    exact ⟨rfl, rfl⟩

theorem set_obeys (hheap : Descending heap) (h : Holds keys heap table m)
    (hshared : ∀ head, shared head → Below heap head)
    (hsafe : Safe keys doubles heap table shared (.set (some key) value)) :
    Obeys keys heap m shared (.set (some key) value)
      (perform keys doubles heap table (.set (some key) value)) := by
  obtain ⟨hstorable, hold⟩ := hsafe
  obtain ⟨index, head, hfind, -, -, hlookup⟩ := find_spec h hstorable.indexed
  rw [perform]
  cases hfound : entryForKey keys heap key head with
  | none =>
    rw [hfound] at hlookup
    have hnew : classOf keys key ∉ m := Finmap.lookup_eq_none.mp hlookup
    obtain ⟨heap', table', hstore, hgrown, hholds⟩ := store_new hheap h hstorable hnew value true
    rw [hstore]
    exact ⟨_, ⟨rfl, rfl⟩, hgrown.descending, hholds,
      fun head hhead ↦ hgrown.keeps head (hshared head hhead)⟩
  | some cell =>
    obtain ⟨cur, entry⟩ := cell
    rw [hfound] at hfind
    obtain ⟨hoverloaded, havoids⟩ := hold index head cur entry hfind
    obtain ⟨heap', table', hstore, hheap', hholds, hkeeps⟩ :=
      store_old hheap h hstorable hoverloaded hfind value
    rw [hstore]
    exact ⟨_, ⟨rfl, rfl⟩, hheap', hholds,
      fun other hother ↦ hkeeps other (hshared other hother) (havoids other hother)⟩

/-- Every safe operation obeys the map. -/
theorem perform_obeys (hheap : Descending heap) (h : Holds keys heap table m)
    (hshared : ∀ head, shared head → Below heap head) (op : Op K V G)
    (hsafe : Safe keys doubles heap table shared op) :
    Obeys keys heap m shared op (perform keys doubles heap table op) := by
  cases op with
  | add key value =>
    cases key with
    | none => exact obeys_same hheap hshared ⟨rfl, rfl⟩ h
    | some key => exact add_obeys hheap h hshared hsafe
  | set key value =>
    cases key with
    | none => exact obeys_same hheap hshared ⟨rfl, rfl⟩ h
    | some key => exact set_obeys hheap h hshared hsafe
  | get key =>
    cases key with
    | none => exact obeys_same hheap hshared ⟨rfl, rfl⟩ h
    | some key =>
      obtain ⟨index, head, hfind, -, -, hlookup⟩ := find_spec h hsafe
      rw [perform, hfind]
      apply obeys_same hheap hshared _ h
      rw [Specified, hlookup]
      cases entryForKey keys heap key head <;> exact ⟨rfl, rfl⟩
  | contains key =>
    cases key with
    | none => exact obeys_same hheap hshared ⟨rfl, rfl⟩ h
    | some key =>
      obtain ⟨index, head, hfind, -, -, hlookup⟩ := find_spec h hsafe
      rw [perform, hfind]
      apply obeys_same hheap hshared _ h
      refine ⟨?_, rfl⟩
      have hiff := mem_iff_isSome hlookup
      exact congrArg Answer.contains (Bool.eq_iff_iff.mpr (hiff.symm.trans decide_eq_true_iff.symm))
  | remove key =>
    cases key with
    | none => exact obeys_same hheap hshared ⟨rfl, rfl⟩ h
    | some key =>
      obtain ⟨hkey, hunlinks⟩ := hsafe
      obtain ⟨heap', table', hremove, hheap', hholds, hkeeps⟩ := remove_spec hheap h hkey
      rw [perform, hremove]
      exact ⟨_, ⟨rfl, rfl⟩, hheap', hholds, fun head hhead ↦ hkeeps head (hshared head hhead)
        fun before hbefore ↦ hunlinks before hbefore head hhead⟩
  | clear => exact obeys_same hheap hshared ⟨rfl, rfl⟩ (clear_spec heap table)
  | count =>
    apply obeys_same hheap hshared _ h
    refine ⟨?_, rfl⟩
    rw [h.count, h.lists.card_eq]
  | enumerate =>
    rw [perform, enumerate_eq hheap h.fits]
    exact obeys_same hheap hshared ⟨⟨_, rfl, h.lists⟩, rfl⟩ h
  | setMaxLoadFactor value | setGrowthFactor value =>
    exact obeys_same hheap hshared ⟨rfl, rfl⟩ ⟨h.fits, h.lists, h.count, h.room⟩

end Hashtable

/-! ## Several maps -/

namespace Tables

open Hashtable

variable (keys : Keys K) (doubles : Doubles G)

def Specified (maps : List (Map keys V)) : Op K V G → Answer K V → List (Map keys V) → Prop
  | .new _ _, answer, maps' => answer = .table maps.length ∧ maps' = maps ++ [∅]
  | .clone number, answer, maps' => ∃ m, maps[number]? = some m ∧
      answer = .table maps.length ∧ maps' = maps ++ [m]
  | .on number op, answer, maps' => ∃ m m', maps[number]? = some m ∧
      Hashtable.Specified m op answer m' ∧ maps' = maps.set number m'

def Shared (w : Tables K V G) (number : ℕ) (head : Option ℕ) : Prop :=
  ∃ other table, other ≠ number ∧ w.tables[other]? = some table ∧ head ∈ table.buckets

/-- A new table has buckets, and the other operations are safe and on a table that there is. -/
def Clean (w : Tables K V G) : Op K V G → Prop
  | .new capacity _ => 0 < capacity
  | .clone number => number < w.tables.length
  | .on number op => ∃ table, w.tables[number]? = some table ∧
      Safe keys doubles w.heap table (w.Shared number) op

structure Represents (w : Tables K V G) (maps : List (Map keys V)) : Prop where
  descending : Descending w.heap
  length : w.tables.length = maps.length
  holds : ∀ (number : ℕ) (table : Hashtable G) (m : Map keys V), w.tables[number]? = some table →
    maps[number]? = some m → Holds keys w.heap table m

variable {keys doubles} {w : Tables K V G} {maps : List (Map keys V)}

theorem represents_empty : Represents keys (Tables.empty : Tables K V G) [] := by
  refine ⟨?_, rfl, ?_⟩
  · intro cur entry hentry
    cases hentry
  · intro number table m htable
    cases htable

section

variable (hw : Represents keys w maps)

include hw

theorem push_ok (table : Hashtable G) :
    w.push (.ok table) = (⟨w.heap, w.tables ++ [table]⟩, (.table maps.length : Answer K V)) := by
  rw [push, hw.length]

variable {m : Map keys V}

/-- Another table, with its map. -/
theorem represents_push {table : Hashtable G} (h : Holds keys w.heap table m) :
    Represents keys ⟨w.heap, w.tables ++ [table]⟩ (maps ++ [m]) := by
  refine ⟨hw.descending, by simp [hw.length], ?_⟩
  intro number table' m' htable hm
  rcases Nat.lt_or_ge number w.tables.length with hlt | hge
  · rw [getElem?_append_left hlt] at htable
    rw [getElem?_append_left (hw.length ▸ hlt)] at hm
    exact hw.holds number table' m' htable hm
  · rw [getElem?_append_right hge, getElem?_singleton] at htable
    rw [getElem?_append_right (hw.length ▸ hge), getElem?_singleton] at hm
    split at htable
    · split at hm
      · rw [← some.inj htable, ← some.inj hm]
        exact h
      · cases hm
    · cases htable

variable {number : ℕ}

theorem exists_map (hlt : number < w.tables.length) : ∃ m, maps[number]? = some m := by
  rw [hw.length] at hlt
  exact ⟨_, getElem?_eq_getElem hlt⟩

/-- One table and its map change, and the chains of the others are kept. -/
theorem represents_set {heap : Hashtable.Heap K V}
    {table : Hashtable G} (hheap : Descending heap) (h : Holds keys heap table m)
    (hkeeps : ∀ head, w.Shared number head → Keeps w.heap heap head) :
    Represents keys ⟨heap, w.tables.set number table⟩ (maps.set number m) := by
  refine ⟨hheap, by rw [length_set, length_set, hw.length], ?_⟩
  intro other table' m' htable hm
  by_cases heq : number = other
  · subst heq
    rw [getElem?_set_self'] at htable hm
    obtain ⟨_, -, rfl⟩ := map_eq_some_iff.mp htable
    obtain ⟨_, -, rfl⟩ := map_eq_some_iff.mp hm
    exact h
  · rw [getElem?_set_ne heq] at htable hm
    apply (hw.holds other table' m' htable hm).keeps
    intro head hhead
    exact hkeeps head ⟨other, table', Ne.symm heq, htable, hhead⟩

theorem below_of_shared {head : Option ℕ} (hshared : w.Shared number head) : Below w.heap head := by
  obtain ⟨other, table, -, htable, hhead⟩ := hshared
  obtain ⟨m, hm⟩ := exists_map hw (List.getElem?_eq_some_iff.mp htable).1
  exact (hw.holds other table m htable hm).fits.below head hhead

end

/-- Clean operations are those of the maps. -/
theorem step_simulates :
    Simulates (step keys doubles) (Clean keys doubles)
      (Specified keys : List (Map keys V) → _ → _ → _ → Prop) (Represents keys) := by
  intro w maps op hw hclean
  cases op with
  | new capacity maxLoadFactor =>
    obtain ⟨table, hnew, hholds⟩ := new_spec w.heap hclean maxLoadFactor
    exact ⟨_, _, _, by rw [step, hnew, push_ok hw], ⟨rfl, rfl⟩, represents_push hw hholds⟩
  | clone number =>
    obtain ⟨m, hm⟩ := exists_map hw hclean
    have htable := getElem?_eq_getElem hclean
    obtain ⟨table', hclone, hholds⟩ := clone_spec (hw.holds number _ m htable hm)
    refine ⟨_, _, _, ?_, ⟨m, hm, rfl, rfl⟩, represents_push hw hholds⟩
    rw [step, htable, map_some, hclone, push_ok hw]
  | on number op =>
    obtain ⟨table, htable, hsafe⟩ := hclean
    obtain ⟨m, hm⟩ := exists_map hw (List.getElem?_eq_some_iff.mp htable).1
    obtain ⟨m', hspec, hheap, hholds, hkeeps⟩ := perform_obeys hw.descending
      (hw.holds number table m htable hm) (fun head hshared ↦ below_of_shared hw hshared) op hsafe
    refine ⟨_, _, _, ?_, ⟨m, m', hm, hspec, rfl⟩, represents_set hw hheap hholds hkeeps⟩
    rw [step, htable]
    rfl

/-- In every run of clean operations the hash tables answer as finite maps: lookups give what was
stored last, the count is the number of keys, an enumeration gives every entry once, adding a key that
is there throws and changes nothing, and a clone is a map of its own. -/
theorem hashtables_refine_maps (keys : Keys K) (doubles : Doubles G) (ops : List (Op K V G))
    (hclean : CleanRun (step keys doubles) (Clean keys doubles) Tables.empty ops) :
    ∃ w answers maps, runOps (step keys doubles) Tables.empty ops = some (w, answers) ∧
      Follows (Specified keys) [] ops answers maps ∧ Represents keys w maps :=
  step_simulates.refines _ _ represents_empty ops hclean

/-! ## Runs -/

/-- Numbers as keys, with the remainder by four as their hash code. -/
def numberKeys : Keys ℕ where
  equals a b := decide (a = b)
  getHashCode a := ((a % 4 : ℕ) : ℤ)
  refl a := decide_eq_true rfl
  symm h := decide_eq_true (of_decide_eq_true h).symm
  trans h h' := decide_eq_true ((of_decide_eq_true h).trans (of_decide_eq_true h'))
  consistent h := by rw [of_decide_eq_true h]
  range a := by omega

def wholeDoubles : Doubles ℤ := ⟨2, fun n factor ↦ n * factor⟩

/-- A run on a clone, which leaves the original alone. -/
def cloneRun : List (Op ℕ ℕ ℤ) :=
  [.new 4 2, .on 0 (.add (some 1) (some 10)), .clone 0, .on 1 (.remove (some 1)),
    .on 0 (.get (some 1))]

theorem hashtables_refine_maps_clone :
    ∃ w answers maps, runOps (step numberKeys wholeDoubles) Tables.empty cloneRun =
        some (w, answers) ∧
      Follows (Specified numberKeys) [] cloneRun answers maps ∧ Represents numberKeys w maps := by
  apply hashtables_refine_maps numberKeys wholeDoubles cloneRun
  refine cleanRun_cons ?_ rfl (cleanRun_cons ?_ rfl (cleanRun_cons ?_ rfl
    (cleanRun_cons ?_ rfl (cleanRun_cons ?_ rfl trivial))))
  · show (0 : ℤ) < 4
    decide
  · refine ⟨_, rfl, Or.inl (by decide), fun _ ↦ ⟨Or.inl (by decide), by decide, ?_, ?_⟩⟩
    · intro hoverloaded
      exact absurd hoverloaded (by decide)
    · intro hoverloaded
      exact absurd hoverloaded (by decide)
  · show 0 < 1
    decide
  · refine ⟨_, rfl, Or.inl (by decide), ?_⟩
    rintro before ⟨index, head, cur, entry, previous, hfind, hne, -⟩
    cases hfind
    exact absurd rfl hne
  · exact ⟨_, rfl, Or.inl (by decide)⟩

/-- The answers to a run that are not those of maps. -/
def Strays (keys : Keys K) (doubles : Doubles G) (ops : List (Op K V G)) : Prop :=
  ∃ w answers, runOps (step keys doubles) Tables.empty ops = some (w, answers) ∧
    ∀ maps, ¬ Follows (Specified keys) [] ops answers maps

def overwriteRun : List (Op ℕ ℕ ℤ) :=
  [.new 4 2, .on 0 (.set (some 1) (some 10)), .on 0 (.set (some 1) (some 11)), .on 0 .count]

/-- A value that is overwritten in a clone. -/
def sharedRun : List (Op ℕ ℕ ℤ) :=
  [.new 4 2, .on 0 (.set (some 1) (some 10)), .clone 0, .on 1 (.set (some 1) (some 11)),
    .on 0 (.get (some 1))]

def leastKeys : Keys Unit where
  equals _ _ := true
  getHashCode _ := -2 ^ 31
  refl _ := rfl
  symm _ := rfl
  trans _ _ := rfl
  consistent _ := rfl
  range _ := by decide

def leastRun : List (Op Unit ℕ ℤ) := [.new 3 2, .on 0 (.add (some ()) none)]

variable {answer : Answer K V} {answers : List (Answer K V)} {ops : List (Op K V G)}

theorem follows_new {keys : Keys K} {capacity maxLoadFactor : ℤ} {maps : List (Map keys V)}
    (h : Follows (Specified keys) [] (.new capacity maxLoadFactor :: ops) (answer :: answers) maps) :
    Follows (Specified keys) [∅] ops answers maps := by
  obtain ⟨_, ⟨-, rfl⟩, hrest⟩ := follows_cons h
  exact hrest

theorem follows_on {keys : Keys K} {op : Hashtable.Op K V G} {m : Map keys V}
    {others maps : List (Map keys V)}
    (h : Follows (Specified keys) (m :: others) (.on 0 op :: ops) (answer :: answers) maps) :
    ∃ m', Hashtable.Specified m op answer m' ∧
      Follows (Specified keys) (m' :: others) ops answers maps := by
  obtain ⟨_, ⟨_, m', hm, hspec, rfl⟩, hrest⟩ := follows_cons h
  obtain rfl := some.inj hm
  exact ⟨m', hspec, hrest⟩

/-- The key that is overwritten is counted twice, the original has the value of its clone, and the
least hash code has no bucket. -/
theorem overwritten_counted_twice :
    Strays numberKeys wholeDoubles overwriteRun ∧ Strays numberKeys wholeDoubles sharedRun ∧
      Strays leastKeys wholeDoubles leastRun := by
  refine ⟨⟨_, _, rfl, ?_⟩, ⟨_, _, rfl, ?_⟩, ⟨_, _, rfl, ?_⟩⟩
  · intro maps h
    obtain ⟨_, ⟨-, rfl⟩, h⟩ := follows_on (follows_new h)
    obtain ⟨_, ⟨-, rfl⟩, h⟩ := follows_on h
    obtain ⟨_, ⟨hanswer, -⟩, -⟩ := follows_on h
    have hcount : (2 : ℤ) = _ := Answer.count.inj hanswer
    have hnew : ¬ ∃ pair ∈ ([] : List (ℕ × Option ℕ)), setoid numberKeys pair.1 1 := by simp
    have hcard := (lists_empty.cons (some 11) hnew).card_eq
    rw [Finmap.insert_insert] at hcount
    change _ = ((Finmap.insert (Quotient.mk (setoid numberKeys) 1) (some 11) ∅).keys.card : ℤ)
      at hcount
    rw [hcard] at hcount
    exact absurd hcount (by decide)
  · intro maps h
    obtain ⟨_, ⟨-, rfl⟩, h⟩ := follows_on (follows_new h)
    obtain ⟨_, ⟨m, hm, -, rfl⟩, h⟩ := follows_cons h
    obtain rfl := some.inj hm
    obtain ⟨_, ⟨_, _, -, -, rfl⟩, h⟩ := follows_cons h
    obtain ⟨_, ⟨hanswer, -⟩, -⟩ := follows_on h
    have hvalue : some 11 = _ := Answer.value.inj hanswer
    rw [Finmap.lookup_insert] at hvalue
    exact absurd hvalue (by decide)
  · intro maps h
    obtain ⟨m, hspec, -⟩ := follows_on (follows_new h)
    rw [Hashtable.Specified, if_neg Finmap.notMem_empty] at hspec
    exact absurd hspec.1 (by decide)

end Tables

end MicroFramework.Collections
