import MicroFramework.Library.Nesting
import MicroFramework.Xml.Reader

/-!
# Scopes of an XML document

What the start tags of a document say of its scopes: the namespaces they declare, the namespace
that a prefix stands for inside them, the attributes that repeat one another, and which start tags
are open after some of the tokens.

The namespace stack, from its top, lists the declarations of the open tags from the innermost one
outwards.  A lookup on it is the lookup in scope, and the attributes of a tag that do not repeat one
another leave entries that the flags of its node account for.
-/

namespace MicroFramework.Xml

open Library List Option

namespace NamedValue

/-- The prefix and the namespace that an attribute declares; the prefix `xml` has its namespace
once and for all. -/
def declaration? (v : NamedValue) : Option (Text × Text) :=
  if v.name.pre = xmlns then
    if v.name.localName = xml then none else some (v.name.localName, v.value)
  else if v.name.pre = [] ∧ v.name.localName = xmlns then some ([], v.value)
  else none

/-- What an attribute says of white space. -/
def space? (v : NamedValue) : Option XmlSpace :=
  if v.name.pre = xml ∧ v.name.localName = space then
    if v.value = preserve then some .preserve
    else if v.value = default then some .default
    else none
  else none

/-- What an attribute says of the language. -/
def lang? (v : NamedValue) : Option Text :=
  if v.name.pre = xml ∧ v.name.localName = lang then some v.value else none

end NamedValue

namespace StartTag

/-- The namespaces that a start tag declares, in the order of the document. -/
def declarations (tag : StartTag) : List (Text × Text) :=
  tag.attributes.filterMap NamedValue.declaration?

def spaces (tag : StartTag) : List XmlSpace :=
  tag.attributes.filterMap NamedValue.space?

def langs (tag : StartTag) : List Text :=
  tag.attributes.filterMap NamedValue.lang?

def declared (tag : StartTag) (pre : Text) : Option Text :=
  (tag.declarations.find? fun declaration ↦ declaration.1 = pre).map Prod.snd

end StartTag

/-- The namespaces that hold in every document. -/
def predefined (pre : Text) : Option Text :=
  if pre = [] then some []
  else if pre = xml then some xmlNamespace
  else if pre = xmlns then some xmlnsNamespace
  else none

/-- The namespace of the innermost declaration in scope below the open start tags, the innermost
tag first. -/
def inScope : List StartTag → Text → Option Text
  | [], pre => predefined pre
  | tag :: outer, pre => (tag.declared pre).or (inScope outer pre)

/-- The namespace of an attribute's name: one without a prefix is in no namespace, but for the
declaration of the default namespace. -/
def attributeScope (opened : List StartTag) (q : QName) : Option Text :=
  if q.pre = [] then some (if q.localName = xmlns then xmlnsNamespace else [])
  else inScope opened q.pre

/-- Two attributes have the same local name and the same resolved namespace. -/
def Repeats (opened : List StartTag) (v w : NamedValue) : Prop :=
  v.name.localName = w.name.localName ∧
    ∃ ns, attributeScope opened v.name = some ns ∧ attributeScope opened w.name = some ns

/-- Two attributes of the tag repeat one another in the scope that the tag opens. -/
def Duplicated (opened : List StartTag) (tag : StartTag) : Prop :=
  ∃ (i j : ℕ) (v w : NamedValue), i < j ∧ tag.attributes[i]? = some v ∧
    tag.attributes[j]? = some w ∧ Repeats (tag :: opened) v w

theorem not_duplicated_iff {opened : List StartTag} {tag : StartTag} :
    ¬ Duplicated opened tag ↔
      tag.attributes.Pairwise fun v w ↦ ¬ Repeats (tag :: opened) v w := by
  rw [pairwise_iff_getElem]
  constructor
  · intro h i j hi hj hij hrepeats
    exact h ⟨i, j, _, _, hij, getElem?_eq_getElem hi, getElem?_eq_getElem hj, hrepeats⟩
  · rintro h ⟨i, j, v, w, hij, hv, hw, hrepeats⟩
    obtain ⟨hi, rfl⟩ := List.getElem?_eq_some_iff.mp hv
    obtain ⟨hj, rfl⟩ := List.getElem?_eq_some_iff.mp hw
    exact h i j hi hj hij hrepeats

def Token.bracket : Token → Bracket StartTag
  | .startTag tag => if tag.isEmpty then .neither else .opening tag
  | .endTag _ => .closing
  | _ => .neither

def openTags (tokens : List Token) : List StartTag :=
  nesting Token.bracket tokens

/-- A whole element: the tag of an empty one, or a start tag, what it contains and an end tag. -/
inductive IsElement : List Token → Prop
  | empty {tag : StartTag} : tag.isEmpty → IsElement [.startTag tag]
  | whole {tag : StartTag} {inner : List Token} {name : Text} :
      ¬ tag.isEmpty → Balanced Token.bracket inner →
        IsElement (.startTag tag :: inner ++ [.endTag name])

theorem IsElement.balanced {tokens : List Token} (h : IsElement tokens) :
    Balanced Token.bracket tokens := by
  cases h with
  | empty hempty => exact .neither (by rw [Token.bracket, if_pos hempty]) .nil
  | whole hopen hinner => exact .enclosed (by rw [Token.bracket, if_neg hopen]) hinner rfl .nil

theorem openTags_append_element {element : List Token} (before : List Token)
    (h : IsElement element) : openTags (before ++ element) = openTags before :=
  nesting_append_balanced _ before h.balanced

/-! ### Tags without a defect -/

/-- What keeps the entries of a start tag apart: it does not declare the prefix `xmlns`, no prefix
twice, `xml:space` and `xml:lang` once at most, and not so many namespaces that their count runs
into the flags beside it. -/
structure StartTag.Regular (tag : StartTag) : Prop where
  xmlns_notMem : ∀ v ∈ tag.attributes, ¬ (v.name.pre = xmlns ∧ v.name.localName = xmlns)
  declarations : tag.declarations.Pairwise fun d e ↦ d.1 ≠ e.1
  spaces : tag.spaces.length ≤ 1
  langs : tag.langs.length ≤ 1
  count : tag.declarations.length < 2 ^ 30

/-! ### What a prefix stands for -/

variable {opened : List StartTag} {tag : StartTag} {v : NamedValue}

/-- A tag declares the prefix `xmlns` only by name, and never the prefix `xml`. -/
theorem declaration?_fst {d : Text × Text} (h : v.declaration? = some d) :
    v.name.pre = xmlns ∧ v.name.localName = d.1 ∧ d.1 ≠ xml ∧ d.1 ≠ [] ∨
      v.name.pre = [] ∧ v.name.localName = xmlns ∧ d.1 = [] := by
  rw [NamedValue.declaration?] at h
  split at h
  case isTrue hpre =>
    split at h
    · cases h
    case isFalse hlocal =>
      obtain rfl := some.inj h
      exact .inl ⟨hpre, rfl, hlocal, v.name.localName_ne_nil⟩
  case isFalse =>
    split at h
    case isTrue hdefault =>
      obtain rfl := some.inj h
      exact .inr ⟨hdefault.1, hdefault.2, rfl⟩
    · cases h

theorem declared_eq_none {pre : Text}
    (h : ∀ v ∈ tag.attributes, ∀ d, v.declaration? = some d → d.1 ≠ pre) :
    tag.declared pre = none := by
  rw [StartTag.declared, map_eq_none_iff, find?_eq_none]
  intro d hd
  obtain ⟨v, hv, hvd⟩ := mem_filterMap.mp hd
  simpa using h v hv d hvd

/-- Tags that leave the prefix `xmlns` alone. -/
def KeepsXmlns (tag : StartTag) : Prop :=
  ∀ v ∈ tag.attributes, ¬ (v.name.pre = xmlns ∧ v.name.localName = xmlns)

theorem inScope_xmlns (h : ∀ tag ∈ opened, KeepsXmlns tag) :
    inScope opened xmlns = some xmlnsNamespace := by
  induction opened with
  | nil => rfl
  | cons tag outer ih =>
    have hnone : tag.declared xmlns = none := by
      apply declared_eq_none
      intro v hv d hd heq
      rcases declaration?_fst hd with ⟨hpre, hlocal, _⟩ | ⟨_, _, hnil⟩
      · exact h tag mem_cons_self v hv ⟨hpre, hlocal.trans heq⟩
      · exact absurd (hnil.symm.trans heq) (by decide)
    rw [inScope, hnone, none_or]
    exact ih fun t ht ↦ h t (mem_cons_of_mem _ ht)

theorem inScope_xml : inScope opened xml = some xmlNamespace := by
  induction opened with
  | nil => rfl
  | cons tag outer ih =>
    have hnone : tag.declared xml = none := by
      apply declared_eq_none
      intro v _ d hd heq
      rcases declaration?_fst hd with ⟨_, _, hxml, _⟩ | ⟨_, _, hnil⟩
      · exact hxml heq
      · exact absurd (hnil.symm.trans heq) (by decide)
    rw [inScope, hnone, none_or, ih]

/-! ### Tags whose attributes do not repeat one another -/

theorem length_le_one_of_pairwise {α : Type*} {xs : List α}
    (h : xs.Pairwise fun _ _ ↦ False) : xs.length ≤ 1 := by
  match xs, h with
  | [], _ => exact Nat.zero_le 1
  | [_], _ => exact Nat.le_refl 1
  | x :: y :: xs, h => exact (rel_of_pairwise_cons h mem_cons_self).elim

/-- A tag without repeated attributes keeps its entries apart. -/
theorem regular_of_not_duplicated (hopened : ∀ tag ∈ opened, KeepsXmlns tag)
    (htag : KeepsXmlns tag) (hdistinct : ¬ Duplicated opened tag)
    (hcount : tag.declarations.length < 2 ^ 30) : tag.Regular := by
  have hpairs := not_duplicated_iff.mp hdistinct
  have hxmlns : inScope (tag :: opened) xmlns = some xmlnsNamespace :=
    inScope_xmlns (forall_mem_cons.mpr ⟨htag, hopened⟩)
  have hdeclares {v : NamedValue} (hpre : v.name.pre = xmlns) :
      attributeScope (tag :: opened) v.name = some xmlnsNamespace := by
    rw [attributeScope, if_neg (by rw [hpre]; decide), hpre, hxmlns]
  have hreserved {v : NamedValue} (hpre : v.name.pre = xml) :
      attributeScope (tag :: opened) v.name = some xmlNamespace := by
    rw [attributeScope, if_neg (by rw [hpre]; decide), hpre, inScope_xml]
  have hdefault {v : NamedValue} (hpre : v.name.pre = []) (hlocal : v.name.localName = xmlns) :
      attributeScope (tag :: opened) v.name = some xmlnsNamespace := by
    rw [attributeScope, if_pos hpre, if_pos hlocal]
  refine ⟨htag, ?_, ?_, ?_, hcount⟩
  · rw [StartTag.declarations, pairwise_filterMap]
    refine hpairs.imp fun {v w} hvw d hd e he heq ↦ hvw ?_
    rcases declaration?_fst hd with ⟨hv, hvl, _, hne⟩ | ⟨hv, hvl, hnil⟩ <;>
      rcases declaration?_fst he with ⟨hw, hwl, _, hne'⟩ | ⟨hw, hwl, hnil'⟩
    · exact ⟨hvl.trans (heq.trans hwl.symm), _, hdeclares hv, hdeclares hw⟩
    · exact absurd (heq.trans hnil') hne
    · exact absurd (heq.symm.trans hnil) hne'
    · exact ⟨hvl.trans hwl.symm, _, hdefault hv hvl, hdefault hw hwl⟩
  · apply length_le_one_of_pairwise
    rw [StartTag.spaces, pairwise_filterMap]
    refine hpairs.imp fun {v w} hvw d hd e he ↦ hvw ?_
    have hname {v : NamedValue} {d : XmlSpace} (hd : v.space? = some d) :
        v.name.pre = xml ∧ v.name.localName = space := by
      by_contra hnot
      rw [NamedValue.space?, if_neg hnot] at hd
      cases hd
    exact ⟨(hname hd).2.trans (hname he).2.symm, _, hreserved (hname hd).1,
      hreserved (hname he).1⟩
  · apply length_le_one_of_pairwise
    rw [StartTag.langs, pairwise_filterMap]
    refine hpairs.imp fun {v w} hvw d hd e he ↦ hvw ?_
    have hname {v : NamedValue} {d : Text} (hd : v.lang? = some d) :
        v.name.pre = xml ∧ v.name.localName = lang := by
      by_contra hnot
      rw [NamedValue.lang?, if_neg hnot] at hd
      cases hd
    exact ⟨(hname hd).2.trans (hname he).2.symm, _, hreserved (hname hd).1,
      hreserved (hname he).1⟩

/-! ### The stacks of the open tags -/

def entryOf (declaration : Text × Text) : NamespaceEntry :=
  ⟨declaration.1, declaration.2⟩

/-- The namespace stack below the open tags. -/
def scope : List StartTag → List NamespaceEntry
  | [] => initialNamespaces
  | tag :: outer => (tag.declarations.map entryOf).reverse ++ scope outer

def spaceStack : List StartTag → List XmlSpace
  | [] => [.none]
  | tag :: outer => tag.spaces.reverse ++ spaceStack outer

def langStack : List StartTag → List Text
  | [] => [[]]
  | tag :: outer => tag.langs.reverse ++ langStack outer

theorem lookupNamespace_append (xs ys : List NamespaceEntry) (pre : Text) :
    lookupNamespace (xs ++ ys) pre = (lookupNamespace xs pre).or (lookupNamespace ys pre) := by
  induction xs with
  | nil => rfl
  | cons x xs ih =>
    rw [cons_append, lookupNamespace, lookupNamespace, ih]
    split <;> rfl

theorem lookupNamespace_map (declarations : List (Text × Text)) (pre : Text) :
    lookupNamespace (declarations.map entryOf) pre =
      (declarations.find? fun d ↦ d.1 = pre).map Prod.snd := by
  induction declarations with
  | nil => rfl
  | cons d declarations ih =>
    rw [map_cons, lookupNamespace, find?_cons, ih]
    by_cases hd : d.1 = pre
    · simp [entryOf, hd]
    · simp [entryOf, hd]

theorem lookupNamespace_declarations (h : tag.Regular) (pre : Text) :
    lookupNamespace (tag.declarations.map entryOf).reverse pre = tag.declared pre := by
  have hunique : tag.declarations.Pairwise fun d e ↦
      ¬ ((decide (d.1 = pre) : Bool) ∧ (decide (e.1 = pre) : Bool)) :=
    h.declarations.imp fun {d e} hne hboth ↦
      hne ((of_decide_eq_true hboth.1).trans (of_decide_eq_true hboth.2).symm)
  rw [← map_reverse, lookupNamespace_map, find?_reverse_of_unique hunique]
  rfl

theorem lookupNamespace_initial (pre : Text) :
    lookupNamespace initialNamespaces pre = predefined pre := by
  rw [initialNamespaces, lookupNamespace, lookupNamespace, lookupNamespace, lookupNamespace,
    predefined]
  by_cases hxmlns : xmlns = pre
  · subst hxmlns
    rfl
  by_cases hxml : xml = pre
  · subst hxml
    rfl
  by_cases hnil : [] = pre
  · subst hnil
    rfl
  · rw [if_neg hxmlns, if_neg hxml, if_neg hnil, if_neg fun h ↦ hnil h.symm,
      if_neg fun h ↦ hxml h.symm, if_neg fun h ↦ hxmlns h.symm]

theorem lookupNamespace_scope (h : ∀ tag ∈ opened, tag.Regular) (pre : Text) :
    lookupNamespace (scope opened) pre = inScope opened pre := by
  induction opened with
  | nil => exact lookupNamespace_initial pre
  | cons tag outer ih =>
    rw [forall_mem_cons] at h
    rw [scope, lookupNamespace_append, lookupNamespace_declarations h.1, ih h.2, inScope]

end MicroFramework.Xml
