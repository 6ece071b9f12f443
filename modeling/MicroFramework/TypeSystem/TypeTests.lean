import Mathlib.Data.Nat.Notation
import Mathlib.Logic.Relation

/-!
# Type tests

`IsInstanceOf` takes the array levels off two type descriptors at once and then climbs the class
hierarchy.  The types of the loaded assemblies are a table over any type of indexes, with the
references between assemblies resolved.
-/

namespace MicroFramework.TypeSystem

/-! ### The types -/

/-- `TD_Semantics_Mask` in the flags of a type. -/
inductive Semantics
  | classType
  | valueType
  | interfaceType
  | enumType
  deriving DecidableEq

/-- `CLR_RECORD_TYPEDEF`, as far as type tests read it. -/
structure TypeRecord (ι : Type) where
  semantics : Semantics
  extendsType : Option ι
  interfaces : List ι

/-- The types of the loaded assemblies.  As compilers emit them, no type is its own ancestor, only
classes have derived types, interfaces derive from nothing, and the lists of interfaces are
transitively closed. -/
structure LoadedTypes (ι : Type) where
  target : ι → TypeRecord ι
  depth : ι → ℕ
  depth_lt : ∀ {c p}, (target c).extendsType = some p → depth p < depth c
  parent_class : ∀ {c p}, (target c).extendsType = some p → (target p).semantics = .classType
  interface_top : ∀ {c}, (target c).semantics = .interfaceType → (target c).extendsType = none
  interfaces_semantics : ∀ {c i}, i ∈ (target c).interfaces →
    (target i).semantics = .interfaceType
  interfaces_closed : ∀ {c i j}, i ∈ (target c).interfaces → j ∈ (target i).interfaces →
    j ∈ (target c).interfaces
  arrayType : ι
  objectType : ι
  iListType : ι
  iCloneableType : ι
  array_semantics : (target arrayType).semantics = .classType
  object_semantics : (target objectType).semantics = .classType
  iList_semantics : (target iListType).semantics = .interfaceType
  iCloneable_semantics : (target iCloneableType).semantics = .interfaceType

structure ReflectionIndex (ι : Type) where
  levels : ℕ
  type : ι

structure TypeDescriptor (ι : Type) where
  handlerCls : ι
  reflex : ReflectionIndex ι

namespace LoadedTypes

variable {ι : Type} [DecidableEq ι] (types : LoadedTypes ι)

/-! ### Descriptors -/

def initializeFromType (cls : ι) : TypeDescriptor ι :=
  ⟨cls, ⟨0, cls⟩⟩

def convertToArray (desc : TypeDescriptor ι) : TypeDescriptor ι :=
  { desc with handlerCls := types.arrayType }

def initializeFromReflection (reflex : ReflectionIndex ι) : TypeDescriptor ι :=
  let desc := initializeFromType reflex.type
  if reflex.levels ≠ 0 then
    types.convertToArray { desc with reflex := { desc.reflex with levels := reflex.levels } }
  else desc

/-- `GetElementType`: what it returns, and what it leaves in the other descriptor. -/
def getElementType (desc sub : TypeDescriptor ι) : Bool × TypeDescriptor ι :=
  match desc.reflex.levels with
  | 0 => (false, sub)
  | 1 => (true, initializeFromType desc.reflex.type)
  | levels + 2 => (true, { desc with reflex := { desc.reflex with levels := levels + 1 } })

/-! ### The test -/

/-- The two descriptors of a test, and whether both were arrays. -/
structure ElementTest (ι : Type) where
  desc : TypeDescriptor ι
  descTarget : TypeDescriptor ι
  fArray : Bool

def takeElements (desc descTarget : TypeDescriptor ι) (fArray : Bool) : ElementTest ι :=
  if 0 < desc.reflex.levels ∧ 0 < descTarget.reflex.levels then
    takeElements (getElementType desc desc).2 (getElementType descTarget descTarget).2 true
  else ⟨desc, descTarget, fArray⟩
termination_by desc.reflex.levels
decreasing_by
  rename_i h
  obtain ⟨handlerCls, ⟨levels, type⟩⟩ := desc
  match levels, h with
  | 1, _ => exact Nat.one_pos
  | levels + 2, _ => exact Nat.lt_succ_self _

/-- The loop from a class to its parents. -/
def climb (inst instTarget : ι) : Bool :=
  if inst = instTarget then true
  else if (types.target instTarget).semantics = .interfaceType ∧
      instTarget ∈ (types.target inst).interfaces then true
  else
    match _h : (types.target inst).extendsType with
    | some parent => climb parent instTarget
    | none => false
termination_by types.depth inst
decreasing_by exact types.depth_lt _h

/-- `System.Array`, `System.Object`, `IList` and `ICloneable`, which all arrays pass for. -/
def arrayBases : List ι :=
  [types.arrayType, types.objectType, types.iListType, types.iCloneableType]

/-- `IsInstanceOf`, behind the loop. -/
def isInstanceOfElement (test : ElementTest ι) : Bool :=
  if test.desc.reflex.levels < test.descTarget.reflex.levels then false
  else if test.descTarget.reflex.levels < test.desc.reflex.levels then
    if test.descTarget.reflex.levels = 0 then
      decide (test.descTarget.handlerCls ∈ types.arrayBases)
    else false
  else if test.fArray ∧ (types.target test.desc.handlerCls).semantics ≠
      (types.target test.descTarget.handlerCls).semantics then false
  else types.climb test.desc.handlerCls test.descTarget.handlerCls

def isInstanceOf (desc descTarget : TypeDescriptor ι) : Bool :=
  types.isInstanceOfElement (takeElements desc descTarget false)

end LoadedTypes

/-! ### What types are assignable -/

inductive RuntimeType (ι : Type)
  | type (cls : ι)
  | array (element : RuntimeType ι)

namespace RuntimeType

variable {ι : Type}

def reflex : RuntimeType ι → ReflectionIndex ι
  | type cls => ⟨0, cls⟩
  | array element => ⟨element.reflex.levels + 1, element.reflex.type⟩

end RuntimeType

namespace LoadedTypes

variable {ι : Type} (types : LoadedTypes ι)

/-- The class that a class is derived from. -/
def Extends (c p : ι) : Prop :=
  (types.target c).extendsType = some p

def Ancestor : ι → ι → Prop :=
  Relation.TransGen types.Extends

def IsReference : RuntimeType ι → Prop
  | .type cls => (types.target cls).semantics = .classType ∨
      (types.target cls).semantics = .interfaceType
  | .array _ => True

/-- Assignability of runtime types.  What is asked of the element types of two arrays beyond their
own assignability is a parameter. -/
inductive Assignable (elements : RuntimeType ι → RuntimeType ι → Prop) :
    RuntimeType ι → RuntimeType ι → Prop
  | refl (a) : Assignable elements a a
  | ancestor {c d} : types.Ancestor c d → Assignable elements (.type c) (.type d)
  | implemented {c i} : i ∈ (types.target c).interfaces →
      Assignable elements (.type c) (.type i)
  | inherited {c d i} : types.Ancestor c d → i ∈ (types.target d).interfaces →
      Assignable elements (.type c) (.type i)
  | arrayBase {x d} : d ∈ types.arrayBases → Assignable elements (.array x) (.type d)
  | element {x y} : elements x y → Assignable elements x y →
      Assignable elements (.array x) (.array y)

def BothReferences (x y : RuntimeType ι) : Prop :=
  types.IsReference x ∧ types.IsReference y

def ClassToInterface : RuntimeType ι → RuntimeType ι → Prop
  | .type c, .type d => (types.target c).semantics = .classType ∧
      (types.target d).semantics = .interfaceType
  | _, _ => False

/-- The element types are reference types, and the test does not go from a class to an interface. -/
def Covariant (x y : RuntimeType ι) : Prop :=
  types.BothReferences x y ∧ ¬ types.ClassToInterface x y

/-! ### Ancestors and interfaces -/

theorem Ancestor.semantics {types : LoadedTypes ι} {c d : ι} (h : types.Ancestor c d) :
    (types.target d).semantics = .classType := by
  cases h with
  | single hstep | tail _ hstep => exact types.parent_class hstep

theorem Ancestor.not_interface {types : LoadedTypes ι} {c d : ι} (h : types.Ancestor c d) :
    (types.target c).semantics ≠ .interfaceType := by
  intro hinterface
  obtain ⟨p, hstep, -⟩ := Relation.TransGen.head'_iff.1 h
  exact Option.some_ne_none p (hstep.symm.trans (types.interface_top hinterface))

/-- A class is a type, one of its ancestors or an interface of them. -/
def Passes (c d : ι) : Prop :=
  ∃ e, Relation.ReflTransGen types.Extends c e ∧ (e = d ∨ d ∈ (types.target e).interfaces)

/-- The classes a class passes for are those it is assignable to. -/
theorem passes_iff (elements : RuntimeType ι → RuntimeType ι → Prop) (c d : ι) :
    types.Passes c d ↔ types.Assignable elements (.type c) (.type d) := by
  constructor
  · rintro ⟨e, hclimb, hfound⟩
    cases Relation.reflTransGen_iff_eq_or_transGen.1 hclimb with
    | inl hsame =>
      cases hfound with
      | inl heq => exact heq ▸ hsame ▸ .refl _
      | inr hmem => exact .implemented (hsame ▸ hmem)
    | inr hancestor =>
      cases hfound with
      | inl heq => exact .ancestor (heq ▸ hancestor)
      | inr hmem => exact .inherited hancestor hmem
  · intro h
    cases h with
    | refl => exact ⟨c, .refl, .inl rfl⟩
    | ancestor hancestor => exact ⟨d, hancestor.to_reflTransGen, .inl rfl⟩
    | implemented hmem => exact ⟨c, .refl, .inr hmem⟩
    | inherited hancestor hmem => exact ⟨_, hancestor.to_reflTransGen, .inr hmem⟩

/-- Classes pass transitively. -/
theorem Passes.trans {types : LoadedTypes ι} {c d e : ι} (hcd : types.Passes c d)
    (hde : types.Passes d e) : types.Passes c e := by
  obtain ⟨f, hf, hfd⟩ := hcd
  obtain ⟨g, hg, hge⟩ := hde
  cases hfd with
  | inl heq => exact ⟨g, hf.trans (heq ▸ hg), hge⟩
  | inr hmem =>
    -- an interface has no ancestors, and its own interfaces are in the list
    cases Relation.reflTransGen_iff_eq_or_transGen.1 hg with
    | inr hancestor =>
      exact absurd (types.interfaces_semantics hmem) (Ancestor.not_interface hancestor)
    | inl hsame =>
      cases hge with
      | inl heq => exact ⟨f, hf, .inr (heq ▸ hsame ▸ hmem)⟩
      | inr hin => exact ⟨f, hf, .inr (types.interfaces_closed hmem (hsame ▸ hin))⟩

theorem isReference_arrayBase {d : ι} (h : d ∈ types.arrayBases) : types.IsReference (.type d) := by
  simp only [arrayBases, List.mem_cons, List.not_mem_nil, or_false] at h
  obtain rfl | rfl | rfl | rfl := h
  · exact .inl types.array_semantics
  · exact .inl types.object_semantics
  · exact .inr types.iList_semantics
  · exact .inr types.iCloneable_semantics

theorem assignable_array_type (elements : RuntimeType ι → RuntimeType ι → Prop)
    (x : RuntimeType ι) (d : ι) :
    types.Assignable elements (.array x) (.type d) ↔ d ∈ types.arrayBases := by
  constructor
  · intro h
    cases h with
    | arrayBase hmem => exact hmem
  · exact .arrayBase

theorem assignable_array_array (elements : RuntimeType ι → RuntimeType ι → Prop)
    (x y : RuntimeType ι) :
    types.Assignable elements (.array x) (.array y) ↔
      x = y ∨ elements x y ∧ types.Assignable elements x y := by
  constructor
  · intro h
    cases h with
    | refl => exact .inl rfl
    | element helements hassignable => exact .inr ⟨helements, hassignable⟩
  · intro h
    cases h with
    | inl heq => exact heq ▸ .refl _
    | inr helements => exact .element helements.1 helements.2

/-! ### The steps of a test -/

def describe (a : RuntimeType ι) : TypeDescriptor ι :=
  types.initializeFromReflection a.reflex

theorem getElementType_array (x : RuntimeType ι) (sub : TypeDescriptor ι) :
    (getElementType (types.describe (.array x)) sub).2 = types.describe x := by
  cases x with
  | type cls | array y => rfl

section test

variable [DecidableEq ι]

def isInstanceOfType (a b : RuntimeType ι) : Bool :=
  types.isInstanceOf (types.describe a) (types.describe b)

def testFrom (fArray : Bool) (a b : RuntimeType ι) : Bool :=
  types.isInstanceOfElement (takeElements (types.describe a) (types.describe b) fArray)

theorem testFrom_array_array (fArray : Bool) (x y : RuntimeType ι) :
    types.testFrom fArray (.array x) (.array y) = types.testFrom true x y := by
  rw [testFrom, takeElements, if_pos ⟨Nat.succ_pos _, Nat.succ_pos _⟩, getElementType_array,
    getElementType_array]
  rfl

theorem testFrom_type_array (fArray : Bool) (c : ι) (y : RuntimeType ι) :
    types.testFrom fArray (.type c) (.array y) = false := by
  rw [testFrom, takeElements, if_neg (fun h ↦ absurd h.1 (Nat.lt_irrefl 0)), isInstanceOfElement]
  exact if_pos (Nat.succ_pos _)

theorem testFrom_array_type (fArray : Bool) (x : RuntimeType ι) (d : ι) :
    types.testFrom fArray (.array x) (.type d) = decide (d ∈ types.arrayBases) := by
  rw [testFrom, takeElements, if_neg (fun h ↦ absurd h.2 (Nat.lt_irrefl 0)), isInstanceOfElement]
  exact (if_neg (Nat.not_lt_zero _)).trans ((if_pos (Nat.succ_pos _)).trans (if_pos rfl))

theorem testFrom_type_type (fArray : Bool) (c d : ι) :
    types.testFrom fArray (.type c) (.type d) =
      if fArray ∧ (types.target c).semantics ≠ (types.target d).semantics then false
      else types.climb c d := by
  rw [testFrom, takeElements, if_neg (fun h ↦ absurd h.1 (Nat.lt_irrefl 0)), isInstanceOfElement]
  exact (if_neg (Nat.lt_irrefl 0)).trans (if_neg (Nat.lt_irrefl 0))

theorem climb_iff (c d : ι) : types.climb c d = true ↔ types.Passes c d := by
  induction hn : types.depth c using Nat.strongRecOn generalizing c with
  | _ n ih =>
    rw [climb]
    by_cases heq : c = d
    · rw [if_pos heq]
      exact iff_of_true rfl ⟨c, .refl, .inl heq⟩
    · rw [if_neg heq]
      by_cases hmem : d ∈ (types.target c).interfaces
      · rw [if_pos ⟨types.interfaces_semantics hmem, hmem⟩]
        exact iff_of_true rfl ⟨c, .refl, .inr hmem⟩
      · rw [if_neg (fun h ↦ hmem h.2)]
        split
        · next parent hparent =>
          rw [ih _ (hn ▸ types.depth_lt hparent) parent rfl]
          constructor
          · rintro ⟨e, hclimb, hfound⟩
            exact ⟨e, .head hparent hclimb, hfound⟩
          · rintro ⟨e, hclimb, hfound⟩
            cases Relation.ReflTransGen.cases_head hclimb with
            | inl hsame => exact absurd hfound (hsame ▸ not_or.2 ⟨heq, hmem⟩)
            | inr hstep =>
              obtain ⟨p, hp, hclimb⟩ := hstep
              obtain rfl : parent = p := Option.some.inj (hparent.symm.trans hp)
              exact ⟨e, hclimb, hfound⟩
        · next htop =>
          refine iff_of_false Bool.false_ne_true ?_
          rintro ⟨e, hclimb, hfound⟩
          cases Relation.ReflTransGen.cases_head hclimb with
          | inl hsame => exact absurd hfound (hsame ▸ not_or.2 ⟨heq, hmem⟩)
          | inr hstep =>
            obtain ⟨p, hp, -⟩ := hstep
            exact Option.some_ne_none p (hp.symm.trans htop)

/-! ### The test decides assignability -/

theorem climb_element_iff (c d : ι) :
    types.testFrom true (.type c) (.type d) = true ↔
      c = d ∨ types.Covariant (.type c) (.type d) ∧
        types.Assignable types.Covariant (.type c) (.type d) := by
  rw [testFrom_type_type]
  constructor
  · intro h
    split at h
    · exact absurd h Bool.false_ne_true
    · next hsame =>
      have hsemantics : (types.target c).semantics = (types.target d).semantics :=
        Decidable.of_not_not fun hne ↦ hsame ⟨rfl, hne⟩
      have hpasses := (types.passes_iff types.Covariant c d).1 ((types.climb_iff c d).1 h)
      -- a type that another one passes for is a class or an interface
      have hreference : ∀ {s : Semantics}, (types.target d).semantics = s →
          s = .classType ∨ s = .interfaceType → types.Covariant (.type c) (.type d) := by
        intro s hd hs
        refine ⟨⟨?_, ?_⟩, fun hcross ↦ ?_⟩
        · have hc := hsemantics.trans hd
          exact hs.imp (hc.trans ·) (hc.trans ·)
        · exact hs.imp (hd.trans ·) (hd.trans ·)
        · exact absurd (hcross.1.symm.trans (hsemantics.trans hcross.2)) nofun
      cases hpasses with
      | refl => exact .inl rfl
      | ancestor hancestor =>
        exact .inr ⟨hreference hancestor.semantics (.inl rfl), .ancestor hancestor⟩
      | implemented hmem =>
        exact .inr ⟨hreference (types.interfaces_semantics hmem) (.inr rfl), .implemented hmem⟩
      | inherited hancestor hmem =>
        exact .inr ⟨hreference (types.interfaces_semantics hmem) (.inr rfl),
          .inherited hancestor hmem⟩
  · intro h
    have hpasses : types.Passes c d := by
      cases h with
      | inl heq => exact ⟨c, .refl, .inl heq⟩
      | inr hcovariant => exact (types.passes_iff _ c d).2 hcovariant.2
    have hsemantics : (types.target c).semantics = (types.target d).semantics := by
      cases h with
      | inl heq => exact heq ▸ rfl
      | inr hcovariant =>
        obtain ⟨⟨⟨hc, -⟩, hcross⟩, hassignable⟩ := hcovariant
        cases hassignable with
        | refl => rfl
        | ancestor hancestor =>
          exact (hc.resolve_right hancestor.not_interface).trans hancestor.semantics.symm
        | implemented hmem =>
          have hd := types.interfaces_semantics hmem
          exact (hc.resolve_left fun hclass ↦ hcross ⟨hclass, hd⟩).trans hd.symm
        | inherited hancestor hmem =>
          have hclass := hc.resolve_right hancestor.not_interface
          exact absurd ⟨hclass, types.interfaces_semantics hmem⟩ hcross
    rw [if_neg (fun hne ↦ hne.2 hsemantics)]
    exact (types.climb_iff c d).2 hpasses

/-- Behind a level, a test decides whether the elements are the same, or assignable and of one
kind. -/
theorem testFrom_element_iff (x y : RuntimeType ι) :
    types.testFrom true x y = true ↔
      x = y ∨ types.Covariant x y ∧ types.Assignable types.Covariant x y := by
  induction x generalizing y with
  | type c =>
    cases y with
    | type d => rw [climb_element_iff, RuntimeType.type.injEq]
    | array y =>
      rw [testFrom_type_array]
      refine iff_of_false Bool.false_ne_true ?_
      rintro (heq | ⟨-, hassignable⟩)
      · exact absurd heq nofun
      · exact absurd hassignable nofun
  | array x ih =>
    cases y with
    | type d =>
      rw [testFrom_array_type, decide_eq_true_iff, assignable_array_type]
      constructor
      · intro hmem
        exact .inr ⟨⟨⟨trivial, types.isReference_arrayBase hmem⟩, id⟩, hmem⟩
      · rintro (heq | ⟨-, hmem⟩)
        · exact absurd heq nofun
        · exact hmem
    | array y =>
      rw [testFrom_array_array, ih, assignable_array_array, RuntimeType.array.injEq]
      constructor
      · rintro (heq | hboth)
        · exact .inl heq
        · exact .inr ⟨⟨⟨trivial, trivial⟩, id⟩, .inr hboth⟩
      · rintro (heq | ⟨-, hboth⟩)
        · exact .inl heq
        · exact hboth

/-- A test decides assignability, with element types of one kind. -/
theorem isInstanceOfType_iff (a b : RuntimeType ι) :
    types.isInstanceOfType a b = true ↔ types.Assignable types.Covariant a b := by
  change types.testFrom false a b = true ↔ _
  cases a with
  | type c =>
    cases b with
    | type d =>
      rw [testFrom_type_type, if_neg (fun h ↦ absurd h.1 Bool.false_ne_true), climb_iff, passes_iff]
    | array y =>
      rw [testFrom_type_array]
      exact iff_of_false Bool.false_ne_true nofun
  | array x =>
    cases b with
    | type d => rw [testFrom_array_type, decide_eq_true_iff, assignable_array_type]
    | array y => rw [testFrom_array_array, testFrom_element_iff, assignable_array_array]

/-- An array that passes as one of the four types does not pass for what that type passes for. -/
def Bypassed : RuntimeType ι → RuntimeType ι → RuntimeType ι → Prop
  | .array _, .type _, .type e => e ∉ types.arrayBases
  | .array x, .array y, .array z => Bypassed x y z
  | _, _, _ => False

theorem testFrom_trans {fArray : Bool} {a b c : RuntimeType ι}
    (hab : types.testFrom fArray a b = true) (hbc : types.testFrom fArray b c = true) :
    types.testFrom fArray a c = true ↔ ¬ types.Bypassed a b c := by
  induction a generalizing fArray b c with
  | type i =>
    cases b with
    | array y =>
      rw [testFrom_type_array] at hab
      exact absurd hab Bool.false_ne_true
    | type j =>
      cases c with
      | array z =>
        rw [testFrom_type_array] at hbc
        exact absurd hbc Bool.false_ne_true
      | type k =>
        refine iff_of_true ?_ id
        rw [testFrom_type_type] at hab hbc ⊢
        split at hab
        · exact absurd hab Bool.false_ne_true
        · next hij =>
          split at hbc
          · exact absurd hbc Bool.false_ne_true
          · next hjk =>
            have hpasses : types.Passes i k :=
              ((types.climb_iff i j).1 hab).trans ((types.climb_iff j k).1 hbc)
            have hsame : ¬ (fArray = true ∧
                (types.target i).semantics ≠ (types.target k).semantics) := by
              intro hne
              have hsij := Decidable.of_not_not fun h ↦ hij ⟨hne.1, h⟩
              have hsjk := Decidable.of_not_not fun h ↦ hjk ⟨hne.1, h⟩
              exact hne.2 (hsij.trans hsjk)
            rw [if_neg hsame]
            exact (types.climb_iff i k).2 hpasses
  | array x ih =>
    cases b with
    | type j =>
      cases c with
      | array z =>
        rw [testFrom_type_array] at hbc
        exact absurd hbc Bool.false_ne_true
      | type k =>
        rw [testFrom_array_type, decide_eq_true_iff]
        exact Decidable.not_not.symm
    | array y =>
      cases c with
      | type k =>
        refine iff_of_true ?_ id
        rw [testFrom_array_type] at hbc ⊢
        exact hbc
      | array z =>
        rw [testFrom_array_array] at hab hbc ⊢
        exact ih hab hbc

/-- A type test follows assignability, is reflexive, and is transitive but for arrays that pass as
one of the four types. -/
theorem isInstanceOfType_assignable :
    (∀ a b, types.isInstanceOfType a b = true ↔ types.Assignable types.Covariant a b) ∧
    (∀ a, types.isInstanceOfType a a = true) ∧
    ∀ a b c, types.isInstanceOfType a b = true → types.isInstanceOfType b c = true →
      (types.isInstanceOfType a c = true ↔ ¬ types.Bypassed a b c) :=
  ⟨types.isInstanceOfType_iff, fun a ↦ (types.isInstanceOfType_iff a a).2 (.refl a),
    fun _ _ _ hab hbc ↦ types.testFrom_trans hab hbc⟩

end test

end LoadedTypes

/-! ### An array of an interface -/

/-- Types of the library, and a class with its interface. -/
inductive SampleIndex
  | object
  | array
  | iCloneable
  | iEnumerable
  | iCollection
  | iList
  | iShape
  | circle
  deriving DecidableEq

def sampleTarget : SampleIndex → TypeRecord SampleIndex
  | .object => ⟨.classType, none, []⟩
  | .array => ⟨.classType, some .object, [.iCloneable, .iList, .iCollection, .iEnumerable]⟩
  | .iCloneable => ⟨.interfaceType, none, []⟩
  | .iEnumerable => ⟨.interfaceType, none, []⟩
  | .iCollection => ⟨.interfaceType, none, [.iEnumerable]⟩
  | .iList => ⟨.interfaceType, none, [.iCollection, .iEnumerable]⟩
  | .iShape => ⟨.interfaceType, none, []⟩
  | .circle => ⟨.classType, some .object, [.iShape]⟩

def sampleTypes : LoadedTypes SampleIndex where
  target := sampleTarget
  depth c := if c = .object then 0 else 1
  depth_lt {c p} := by cases c <;> cases p <;> decide
  parent_class {c p} := by cases c <;> cases p <;> decide
  interface_top {c} := by cases c <;> decide
  interfaces_semantics {c i} := by cases c <;> cases i <;> decide
  interfaces_closed {c i j} := by cases c <;> cases i <;> cases j <;> decide
  arrayType := .array
  objectType := .object
  iListType := .iList
  iCloneableType := .iCloneable
  array_semantics := rfl
  object_semantics := rfl
  iList_semantics := rfl
  iCloneable_semantics := rfl

/-- An array of a class does not pass for the array of its interface. -/
theorem not_instance_circleArray :
    ¬ ∀ a b, sampleTypes.isInstanceOfType a b = true ↔
      sampleTypes.Assignable sampleTypes.BothReferences a b := by
  intro hall
  have hassignable : sampleTypes.Assignable sampleTypes.BothReferences
      (.array (.type .circle)) (.array (.type .iShape)) :=
    .element ⟨.inl rfl, .inr rfl⟩ (.implemented (List.mem_singleton.2 rfl))
  have hpasses := (hall _ _).2 hassignable
  have hfails : sampleTypes.isInstanceOfType (.array (.type .circle)) (.array (.type .iShape)) =
      false :=
    (sampleTypes.testFrom_array_array false _ _).trans
      ((sampleTypes.testFrom_type_type true _ _).trans (if_pos ⟨rfl, nofun⟩))
  exact absurd (hpasses.symm.trans hfails) nofun

end MicroFramework.TypeSystem
