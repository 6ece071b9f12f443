import MicroFramework.Xml.Names

/-!
# What a start tag does to the stacks

Each attribute pushes what it declares and marks the node of the tag; at the end of the tag the
prefixes are resolved.  An attribute has no namespace until the loop comes to it, so that the
search for a duplicate finds none.
-/

namespace MicroFramework.Xml

open Library NamedValue List

namespace NamedValue

def given (v : NamedValue) : XmlAttribute :=
  ⟨v.name.name, none, v.name.pre, v.name.localName, v.value⟩

def inNamespace (v : NamedValue) (ns : Option Text) : XmlAttribute :=
  { v.given with namespaceURI := ns }

/-- What an attribute leaves in the flags of its node. -/
def mark (v : NamedValue) (node : XmlNode) : XmlNode :=
  if v.declaration?.isSome then node.incrementNamespaceCount
  else if v.space?.isSome then node.setXmlSpace
  else if v.lang?.isSome then node.setXmlLang
  else node

end NamedValue

namespace Reader

def bring (s : Reader) (v : NamedValue) : Reader :=
  { s with
    xmlNodes := s.xmlNodes.modifyHead v.mark
    namespaces := v.declaration?.toList.map entryOf ++ s.namespaces
    xmlSpaces := v.space?.toList ++ s.xmlSpaces
    xmlLangs := v.lang?.toList ++ s.xmlLangs
    attributes := s.attributes ++ [v.given] }

/-- An error that has nothing to do with the namespace of a name: the document has another root,
or an attribute has a value that its name does not allow. -/
def Unrelated (e : Error) : Prop :=
  e ∈ [.multipleRoots, .namespaceDeclXmlXmlns, .invalidXmlPrefixMapping, .invalidXmlSpace]

theorem Unrelated.ne {e : Error} (h : Unrelated e) :
    e ≠ .undeclaredNamespace ∧ e ≠ .dupAttributeName := by
  constructor
  all_goals
    rintro rfl
    simp [Unrelated] at h

theorem inAttributeValue_eq (s : Reader) (q : QName) (value : Text) :
    (s.inAttributeName q).inAttributeValue value =
      (if isDeclaration q.name then
        (s.inAttributeName q).declareNamespace ⟨q.name, none, q.pre, q.localName, []⟩ value
      else if equalUpTo q.pre xml 4 then
        (s.inAttributeName q).reservedAttribute ⟨q.name, none, q.pre, q.localName, []⟩ value
      else .ok (s.inAttributeName q)) >>= fun t ↦
        .ok { t with
          attributes := t.attributes.dropLast ++ [⟨q.name, none, q.pre, q.localName, value⟩] } := by
  have hlast : (s.inAttributeName q).attributes.getLast? =
      some ⟨q.name, none, q.pre, q.localName, []⟩ := getLast?_concat
  rw [inAttributeValue, hlast]
  dsimp only
  by_cases hdeclares : isDeclaration q.name
  · rw [if_pos hdeclares, if_pos hdeclares]
    rfl
  · rw [if_neg hdeclares, if_neg hdeclares]
    by_cases hxml : equalUpTo q.pre xml 4
    · rw [if_pos hxml, if_pos hxml]
      rfl
    · rw [if_neg hxml, if_neg hxml]
      rfl

variable {s : Reader} {v : NamedValue}

section

variable (h : v.name.pre = xmlns ∨ v.name.pre = [] ∧ v.name.localName = xmlns)

include h

private theorem declared_or : v.space? = none ∧ v.lang? = none := by
  have hpre : v.name.pre ≠ xml := by rcases h with h | ⟨h, _⟩ <;> rw [h] <;> decide
  rw [space?, lang?, if_neg fun h ↦ hpre h.1, if_neg fun h ↦ hpre h.1]
  exact ⟨rfl, rfl⟩

theorem declareNamespace_cases :
    (s.inAttributeName v.name).inAttributeValue v.value = .ok (s.bring v) ∨
      ∃ e, (s.inAttributeName v.name).inAttributeValue v.value = .error e ∧ Unrelated e := by
  have hxml : equalUpTo v.name.localName xml 4 = true ↔ v.name.localName = xml :=
    equalUpTo_iff v.name.zero_notMem_localName (by decide)
  obtain ⟨hspace, hlang⟩ := declared_or h
  rw [inAttributeValue_eq, if_pos (v.name.isDeclaration_iff.mpr h), declareNamespace]
  simp only [hxml, Bool.not_eq_true', v.name.getD_name_eq_zero_iff h]
  by_cases hforbidden : v.value = xmlnsNamespace ∨
      v.value = xmlNamespace ∧ equalUpTo v.name.localName xml 4 = false
  · rw [if_pos hforbidden]
    exact .inr ⟨_, rfl, by simp [Unrelated]⟩
  rw [if_neg hforbidden]
  by_cases hlocal : v.name.localName = xml
  · rw [if_pos hlocal]
    by_cases hvalue : v.value = xmlNamespace
    · -- the prefix `xml` has this namespace already
      have hnone : v.declaration? = none := by
        have hpre : v.name.pre = xmlns :=
          h.resolve_right fun h ↦ absurd (hlocal.symm.trans h.2) (by decide)
        rw [declaration?, if_pos hpre, if_pos hlocal]
      have hmark : v.mark = id := by
        funext node
        rw [mark, hnone, hspace, hlang]
        rfl
      rw [if_pos hvalue]
      refine .inl (congrArg Except.ok ?_)
      simp [bring, inAttributeName, given, hmark, hnone, hspace, hlang]
    · rw [if_neg hvalue]
      exact .inr ⟨_, rfl, by simp [Unrelated]⟩
  · rw [if_neg hlocal]
    have hsome : v.declaration? =
        some (if v.name.pre = [] then [] else v.name.localName, v.value) := by
      rcases h with h | h
      · rw [declaration?, if_pos h, if_neg hlocal, if_neg (by rw [h]; decide)]
      · rw [declaration?, if_neg (by rw [h.1]; decide), if_pos h, if_pos h.1]
    have hmark : v.mark = XmlNode.incrementNamespaceCount := by
      funext node
      rw [mark, hsome]
      rfl
    refine .inl (congrArg Except.ok ?_)
    simp [bring, inAttributeName, given, hmark, hsome, hspace, hlang, addNamespace,
      onTop, entryOf]

end

theorem reservedAttribute_cases (h : v.name.pre = xml) :
    (s.inAttributeName v.name).inAttributeValue v.value = .ok (s.bring v) ∨
      ∃ e, (s.inAttributeName v.name).inAttributeValue v.value = .error e ∧ Unrelated e := by
  have hdeclares : ¬ (v.name.pre = xmlns ∨ v.name.pre = [] ∧ v.name.localName = xmlns) := by
    rw [h]
    exact fun h ↦ h.elim (by decide) fun h ↦ absurd h.1 (by decide)
  have hdeclaration : v.declaration? = none := by
    rw [declaration?, if_neg fun h ↦ hdeclares (.inl h),
      if_neg fun h ↦ hdeclares (.inr h)]
  have hxml : equalUpTo v.name.pre xml 4 = true :=
    (equalUpTo_iff v.name.zero_notMem_pre (by decide)).mpr h
  have hlocal : equalUpTo v.name.localName space 6 = true ↔ v.name.localName = space :=
    equalUpTo_iff v.name.zero_notMem_localName (by decide)
  have hlocal' : equalUpTo v.name.localName lang 5 = true ↔ v.name.localName = lang :=
    equalUpTo_iff v.name.zero_notMem_localName (by decide)
  have hpreserve : equalUpTo v.value preserve 9 = true ↔ v.value = preserve :=
    equalUpTo_iff v.zero_notMem (by decide)
  have hdefault : equalUpTo v.value default 8 = true ↔ v.value = default :=
    equalUpTo_iff v.zero_notMem (by decide)
  rw [inAttributeValue_eq, if_neg fun h ↦ hdeclares (v.name.isDeclaration_iff.mp h), if_pos hxml,
    reservedAttribute]
  simp only [hlocal, hlocal', hpreserve, hdefault]
  by_cases hspace : v.name.localName = space
  · have hlang : v.lang? = none := by
      rw [lang?, if_neg fun h ↦ absurd (hspace.symm.trans h.2) (by decide)]
    have hmark (hsome : v.space?.isSome) : v.mark = XmlNode.setXmlSpace := by
      funext node
      rw [mark, hdeclaration, if_pos hsome]
      rfl
    rw [if_pos hspace]
    by_cases hvalue : v.value = preserve
    · have hsome : v.space? = some .preserve := by
        rw [space?, if_pos ⟨h, hspace⟩, if_pos hvalue]
      rw [if_pos hvalue]
      refine .inl (congrArg Except.ok ?_)
      simp [bring, inAttributeName, given, hmark (by rw [hsome]; rfl), hdeclaration,
        hsome, hlang, onTop]
    · rw [if_neg hvalue]
      by_cases hvalue' : v.value = default
      · have hsome : v.space? = some .default := by
          rw [space?, if_pos ⟨h, hspace⟩, if_neg hvalue, if_pos hvalue']
        rw [if_pos hvalue']
        refine .inl (congrArg Except.ok ?_)
        simp [bring, inAttributeName, given, hmark (by rw [hsome]; rfl), hdeclaration,
          hsome, hlang, onTop]
      · rw [if_neg hvalue']
        exact .inr ⟨_, rfl, by simp [Unrelated]⟩
  · have hnospace : v.space? = none := by
      rw [space?, if_neg fun h ↦ hspace h.2]
    rw [if_neg hspace]
    by_cases hlang : v.name.localName = lang
    · have hsome : v.lang? = some v.value := by rw [lang?, if_pos ⟨h, hlang⟩]
      have hmark : v.mark = XmlNode.setXmlLang := by
        funext node
        rw [mark, hdeclaration, hnospace, hsome]
        rfl
      rw [if_pos hlang]
      refine .inl (congrArg Except.ok ?_)
      simp [bring, inAttributeName, given, hmark, hdeclaration, hnospace, hsome, onTop]
    · have hnone : v.lang? = none := by rw [lang?, if_neg fun h ↦ hlang h.2]
      have hmark : v.mark = id := by
        funext node
        rw [mark, hdeclaration, hnospace, hnone]
        rfl
      rw [if_neg hlang]
      refine .inl (congrArg Except.ok ?_)
      simp [bring, inAttributeName, given, hmark, hdeclaration, hnospace, hnone]

theorem inAttributeValue_cases (s : Reader) (v : NamedValue) :
    (s.inAttributeName v.name).inAttributeValue v.value = .ok (s.bring v) ∨
      ∃ e, (s.inAttributeName v.name).inAttributeValue v.value = .error e ∧ Unrelated e := by
  by_cases hdeclares : v.name.pre = xmlns ∨ v.name.pre = [] ∧ v.name.localName = xmlns
  · exact declareNamespace_cases hdeclares
  by_cases hxml : v.name.pre = xml
  · exact reservedAttribute_cases hxml
  · have hnoxml : ¬ equalUpTo v.name.pre xml 4 = true := fun h ↦
      hxml ((equalUpTo_iff v.name.zero_notMem_pre (by decide)).mp h)
    have hdeclaration : v.declaration? = none := by
      rw [declaration?, if_neg fun h ↦ hdeclares (.inl h),
        if_neg fun h ↦ hdeclares (.inr h)]
    have hspace : v.space? = none := by rw [space?, if_neg fun h ↦ hxml h.1]
    have hlang : v.lang? = none := by rw [lang?, if_neg fun h ↦ hxml h.1]
    have hmark : v.mark = id := by
      funext node
      rw [mark, hdeclaration, hspace, hlang]
      rfl
    rw [inAttributeValue_eq, if_neg fun h ↦ hdeclares (v.name.isDeclaration_iff.mp h),
      if_neg hnoxml]
    refine .inl (congrArg Except.ok ?_)
    simp [bring, inAttributeName, given, hmark, hdeclaration, hspace, hlang]

/-! ### All attributes of a tag -/

/-- The reader after some attributes. -/
def bringAll (s : Reader) (vs : List NamedValue) : Reader :=
  vs.foldl bring s

theorem readAttributes_cases (s : Reader) (vs : List NamedValue) :
    s.readAttributes vs = .ok (s.bringAll vs) ∨
      ∃ e, s.readAttributes vs = .error e ∧ Unrelated e := by
  induction vs generalizing s with
  | nil => exact .inl rfl
  | cons v vs ih =>
    rw [readAttributes, foldlM_cons, bringAll, foldl_cons]
    rcases inAttributeValue_cases s v with h | ⟨e, h, he⟩
    · rw [h]
      exact ih (s.bring v)
    · rw [h]
      exact .inr ⟨e, rfl, he⟩

section Fields

variable (s : Reader) (vs : List NamedValue)

theorem bringAll_attributes : (s.bringAll vs).attributes = s.attributes ++ vs.map given := by
  induction vs generalizing s with
  | nil => exact (append_nil _).symm
  | cons v vs ih =>
    rw [bringAll, foldl_cons]
    refine (ih (s.bring v)).trans ?_
    rw [bring, append_assoc, map_cons, singleton_append]

theorem bringAll_namespaces :
    (s.bringAll vs).namespaces =
      ((vs.filterMap declaration?).map entryOf).reverse ++ s.namespaces := by
  induction vs generalizing s with
  | nil => rfl
  | cons v vs ih =>
    rw [bringAll, foldl_cons]
    refine (ih (s.bring v)).trans ?_
    cases hv : v.declaration? <;> simp [bring, hv]

theorem bringAll_xmlSpaces :
    (s.bringAll vs).xmlSpaces = (vs.filterMap space?).reverse ++ s.xmlSpaces := by
  induction vs generalizing s with
  | nil => rfl
  | cons v vs ih =>
    rw [bringAll, foldl_cons]
    refine (ih (s.bring v)).trans ?_
    cases hv : v.space? <;> simp [bring, hv]

theorem bringAll_xmlLangs :
    (s.bringAll vs).xmlLangs = (vs.filterMap lang?).reverse ++ s.xmlLangs := by
  induction vs generalizing s with
  | nil => rfl
  | cons v vs ih =>
    rw [bringAll, foldl_cons]
    refine (ih (s.bring v)).trans ?_
    cases hv : v.lang? <;> simp [bring, hv]

theorem bringAll_xmlNodes {node : XmlNode} {nodes : List XmlNode} (h : s.xmlNodes = node :: nodes) :
    (s.bringAll vs).xmlNodes = vs.foldl (fun node v ↦ v.mark node) node :: nodes := by
  induction vs generalizing s node with
  | nil => exact h
  | cons v vs ih =>
    rw [bringAll, foldl_cons, foldl_cons]
    exact ih (s.bring v) (by rw [bring, h, modifyHead_cons])

end Fields

/-! ### The flags of a tag's node -/

/-- Marking changes only the flags. -/
theorem foldl_mark_fields (vs : List NamedValue) (node : XmlNode) :
    let marked := vs.foldl (fun node v ↦ v.mark node) node
    marked.name = node.name ∧ marked.pre = node.pre := by
  induction vs generalizing node with
  | nil => exact ⟨rfl, rfl⟩
  | cons v vs ih =>
    rw [foldl_cons]
    refine (ih (v.mark node)).imp (fun h ↦ h.trans ?_) fun h ↦ h.trans ?_
    all_goals
      rw [mark]
      split
      · rfl
      · split
        · rfl
        · split <;> rfl

/-- The flags after some attributes that together declare fewer than `2 ^ 30` namespaces. -/
theorem foldl_mark_flags (vs : List NamedValue) {node : XmlNode} {count : ℕ}
    {hasSpace hasLang : Bool} (hflags : node.flags = marks count hasSpace hasLang)
    (hcount : count + (vs.filterMap declaration?).length < 2 ^ 30) :
    (vs.foldl (fun node v ↦ v.mark node) node).flags =
      marks (count + (vs.filterMap declaration?).length)
        (hasSpace || !(vs.filterMap space?).isEmpty)
        (hasLang || !(vs.filterMap lang?).isEmpty) := by
  induction vs generalizing node count hasSpace hasLang with
  | nil => simpa using hflags
  | cons v vs ih =>
    rw [foldl_cons]
    cases hd : v.declaration? with
    | some d =>
      have hpre : v.name.pre ≠ xml := by
        intro hpre
        rw [declaration?, if_neg (by rw [hpre]; decide),
          if_neg fun h ↦ absurd (hpre.symm.trans h.1) (by decide)] at hd
        cases hd
      have hspace : v.space? = none := by rw [space?, if_neg fun h ↦ hpre h.1]
      have hlang : v.lang? = none := by rw [lang?, if_neg fun h ↦ hpre h.1]
      simp only [filterMap_cons, hd, hspace, hlang, length_cons] at hcount ⊢
      have hmark : (v.mark node).flags = marks (count + 1) hasSpace hasLang := by
        rw [mark, hd, Option.isSome_some, if_pos rfl, XmlNode.incrementNamespaceCount,
          hflags, marks_succ (by omega)]
      rw [ih hmark (by omega)]
      congr 1
      omega
    | none =>
      cases hs : v.space? with
      | some sp =>
        have hlang : v.lang? = none := by
          rw [lang?, if_neg]
          intro h
          rw [space?, if_neg] at hs
          · cases hs
          · exact fun h' ↦ absurd (h.2.symm.trans h'.2) (by decide)
        simp only [filterMap_cons, hd, hs, hlang] at hcount ⊢
        have hmark : (v.mark node).flags = marks count true hasLang := by
          rw [mark, hd, hs]
          exact (congrArg (· ||| 0x80000000) hflags).trans marks_or_space
        rw [ih hmark hcount]
        simp
      | none =>
        cases hl : v.lang? with
        | some l =>
          simp only [filterMap_cons, hd, hs, hl] at hcount ⊢
          have hmark : (v.mark node).flags = marks count hasSpace true := by
            rw [mark, hd, hs, hl]
            exact (congrArg (· ||| 0x40000000) hflags).trans marks_or_lang
          rw [ih hmark hcount]
          simp
        | none =>
          simp only [filterMap_cons, hd, hs, hl] at hcount ⊢
          have hmark : v.mark node = node := by
            rw [mark, hd, hs, hl]
            rfl
          rw [hmark]
          exact ih hflags hcount

/-! ### The end of the tag -/

/-- No attribute has a namespace yet in front of the one that the loop is at. -/
theorem hasDuplicate_eq_false {attributes : List XmlAttribute} {ns localName : Text} {i : ℕ}
    (h : ∀ j < i, ∀ attr ∈ attributes[j]?, attr.namespaceURI = none) :
    hasDuplicate attributes ns localName i = false := by
  induction i with
  | zero => rfl
  | succ i ih =>
    rw [hasDuplicate]
    cases hattr : attributes[i]? with
    | none => rfl
    | some attr =>
      have hnone : attr.namespaceURI = none := h i i.lt_succ_self attr hattr
      have hrest := ih fun j hj ↦ h j (hj.trans i.lt_succ_self)
      simp [hnone, hrest]

/-- A prefix without a declaration is an error. -/
def outcome : Option Text → Except Error Text
  | some ns => .ok ns
  | none => .error .undeclaredNamespace

/-- The loop gives every attribute its namespace, from the last to the first, or reports a prefix
without a declaration; it finds no duplicate. -/
theorem assignNamespaces_eq {namespaces : List NamespaceEntry} (vs : List NamedValue)
    {f : QName → Option Text}
    (h : ∀ v ∈ vs, attributeNamespace namespaces v.given = outcome (f v.name))
    (ys : List XmlAttribute) :
    assignNamespaces namespaces vs.length (vs.map given ++ ys) =
      if ∀ v ∈ vs, (f v.name).isSome then
        .ok (vs.map (fun v ↦ v.inNamespace (f v.name)) ++ ys)
      else .error .undeclaredNamespace := by
  induction vs using List.reverseRecOn generalizing ys with
  | nil => rfl
  | append_singleton vs v ih =>
    have hlength : (vs.map given).length = vs.length := length_map _
    have hget : (vs.map given ++ v.given :: ys)[vs.length]? = some v.given := by
      rw [getElem?_append_right hlength.le, hlength, Nat.sub_self, getElem?_cons_zero]
    have hv : attributeNamespace namespaces v.given = outcome (f v.name) :=
      h v (mem_append_right _ mem_cons_self)
    rw [length_append, length_singleton, map_append, map_cons, map_nil,
      append_assoc, singleton_append, assignNamespaces, hget]
    dsimp only
    rw [hv]
    cases hf : f v.name with
    | none =>
      rw [if_neg fun hall ↦ by simpa [hf] using hall v (mem_append_right _ mem_cons_self)]
      rfl
    | some ns =>
      have hset : (vs.map given ++ v.given :: ys).set vs.length
          { v.given with namespaceURI := some ns } =
          vs.map given ++ v.inNamespace (some ns) :: ys := by
        rw [set_append_right _ _ hlength.le, hlength, Nat.sub_self, set_cons_zero]
        rfl
      have hnone : hasDuplicate (vs.map given ++
          v.inNamespace (some ns) :: ys) ns v.given.localName vs.length =
            false := by
        apply hasDuplicate_eq_false
        intro j hj attr hattr
        rw [getElem?_append_left (hlength.symm ▸ hj), getElem?_map,
          Option.mem_def, Option.map_eq_some_iff] at hattr
        obtain ⟨w, _, rfl⟩ := hattr
        rfl
      have hrest := ih (fun w hw ↦ h w (mem_append_left _ hw)) (v.inNamespace (some ns) :: ys)
      have hall : (∀ w ∈ vs ++ [v], (f w.name).isSome) ↔ ∀ w ∈ vs, (f w.name).isSome := by
        refine ⟨fun h w hw ↦ h w (mem_append_left _ hw), fun h w hw ↦ ?_⟩
        rcases mem_append.mp hw with hw | hw
        · exact h w hw
        · rw [mem_singleton.mp hw, hf, Option.isSome_some]
      simp only [outcome, Except.bind, bind, hset, hnone, Bool.false_eq_true, if_false, hall]
      rw [hrest]
      simp [hf]

structure Entered (opened : List StartTag) (tag : StartTag) (s s' : Reader) : Prop where
  top : ∃ node, s'.xmlNodes = node :: s.xmlNodes.tail ∧ node.name = tag.name.name ∧
    node.flags = marks tag.declarations.length (!tag.spaces.isEmpty) (!tag.langs.isEmpty) ∧
    inScope (tag :: opened) tag.name.pre = some node.namespaceURI
  namespaces : s'.namespaces = (tag.declarations.map entryOf).reverse ++ s.namespaces
  xmlSpaces : s'.xmlSpaces = tag.spaces.reverse ++ s.xmlSpaces
  xmlLangs : s'.xmlLangs = tag.langs.reverse ++ s.xmlLangs
  attributes : s'.attributes = tag.attributes.map fun v ↦
    v.inNamespace (attributeScope (tag :: opened) v.name)
  resolved : ∀ v ∈ tag.attributes, (attributeScope (tag :: opened) v.name).isSome
  stateFn : s'.stateFn = .betweenElements tag.isEmpty

end Reader

/-- A prefix of the tag has no declaration in scope. -/
def Unresolved (opened : List StartTag) (tag : StartTag) : Prop :=
  inScope (tag :: opened) tag.name.pre = none ∨
    ∃ v ∈ tag.attributes, attributeScope (tag :: opened) v.name = none

namespace Reader

variable {opened : List StartTag} {tag : StartTag} {s t : Reader}

theorem attributeNamespace_given {namespaces : List NamespaceEntry}
    (hlookup : ∀ pre, lookupNamespace namespaces pre = inScope opened pre)
    (hxmlns : inScope opened xmlns = some xmlnsNamespace) (v : NamedValue) :
    attributeNamespace namespaces v.given = outcome (attributeScope opened v.name) := by
  have hgiven : v.given.pre = v.name.pre := rfl
  by_cases hpre : v.name.pre = []
  · have hname : v.given.name = v.name.localName := QName.name_of_pre_eq_nil hpre
    rw [attributeNamespace, hgiven, if_neg (not_not_intro hpre), attributeScope, if_pos hpre, hname]
    rfl
  · rw [attributeNamespace, hgiven, if_pos hpre, attributeScope, if_neg hpre]
    by_cases hdeclares : v.name.pre = xmlns
    · rw [if_pos hdeclares, hdeclares, hxmlns]
      rfl
    · rw [if_neg hdeclares, hlookup]
      cases inScope opened v.name.pre <;> rfl

/-- The end of a start tag whose attributes are read. -/
theorem prepReturn_cases {nodes : List XmlNode} {node : XmlNode}
    (hlookup : ∀ pre, lookupNamespace t.namespaces pre = inScope (tag :: opened) pre)
    (hxmlns : inScope (tag :: opened) xmlns = some xmlnsNamespace)
    (hattributes : t.attributes = tag.attributes.map given)
    (hnodes : t.xmlNodes = node :: nodes) (hpre : node.pre = tag.name.pre) (isEmpty : Bool) :
    (∃ ns, inScope (tag :: opened) tag.name.pre = some ns ∧
      (∀ v ∈ tag.attributes, (attributeScope (tag :: opened) v.name).isSome) ∧
      t.prepReturn isEmpty = .ok { t with
        attributes := tag.attributes.map fun v ↦
          v.inNamespace (attributeScope (tag :: opened) v.name)
        xmlNodes := { node with namespaceURI := ns } :: nodes
        nodeType := .element
        isEmptyElement := isEmpty
        stateFn := .betweenElements isEmpty }) ∨
      t.prepReturn isEmpty = .error .undeclaredNamespace ∧ Unresolved opened tag := by
  have hassign := assignNamespaces_eq tag.attributes
    (fun v _ ↦ attributeNamespace_given hlookup hxmlns v) []
  rw [append_nil, append_nil] at hassign
  rw [prepReturn, hattributes, length_map, hassign]
  by_cases hall : ∀ v ∈ tag.attributes, (attributeScope (tag :: opened) v.name).isSome
  · rw [if_pos hall, hnodes]
    have hlookup' :
        lookupNamespace t.namespaces node.pre = inScope (tag :: opened) tag.name.pre := by
      rw [hlookup, hpre]
    cases hns : inScope (tag :: opened) tag.name.pre with
    | none =>
      right
      refine ⟨?_, .inl hns⟩
      simp only [bind, Except.bind, hlookup', hns]
      rfl
    | some ns =>
      left
      refine ⟨ns, rfl, hall, ?_⟩
      simp only [bind, Except.bind, hlookup', hns]
      rfl
  · rw [if_neg hall]
    right
    push Not at hall
    obtain ⟨v, hv, hnone⟩ := hall
    exact ⟨rfl, .inr ⟨v, hv, by simpa using hnone⟩⟩

theorem tagBody_cases {node : XmlNode} (hnodes : s.xmlNodes = node :: s.xmlNodes.tail)
    (hflags : node.flags = 0) (hattributes : s.attributes = [])
    (hcount : tag.declarations.length < 2 ^ 30)
    (hlookup : ∀ pre, lookupNamespace
      ((tag.declarations.map entryOf).reverse ++ s.namespaces) pre = inScope (tag :: opened) pre)
    (hxmlns : inScope (tag :: opened) xmlns = some xmlnsNamespace) :
    let body := s.inName tag.name.name tag.name.pre tag.name.localName >>= fun s ↦
      s.readAttributes tag.attributes >>= fun s ↦ s.inStartElement tag.isEmpty
    (∃ s', body = .ok s' ∧ Entered opened tag s s') ∨ (∃ e, body = .error e ∧ Unrelated e) ∨
      body = .error .undeclaredNamespace ∧ Unresolved opened tag := by
  intro body
  -- the node with the name of the tag, and the reader that has it on top
  let named : XmlNode :=
    { node with name := tag.name.name, pre := tag.name.pre, localName := tag.name.localName }
  let s₁ : Reader := { s with xmlNodes := named :: s.xmlNodes.tail }
  have hname : s.inName tag.name.name tag.name.pre tag.name.localName = .ok s₁ := by
    rw [inName, hnodes]
  have hbody : body =
      s₁.readAttributes tag.attributes >>= fun s ↦ s.inStartElement tag.isEmpty := by
    change s.inName _ _ _ >>= _ = _
    rw [hname]
    rfl
  rw [hbody]
  rcases readAttributes_cases s₁ tag.attributes with hread | ⟨e, hread, he⟩
  · rw [hread]
    let t := s₁.bringAll tag.attributes
    let marked := tag.attributes.foldl (fun node v ↦ mark v node) named
    have htnodes : t.xmlNodes = marked :: s.xmlNodes.tail := bringAll_xmlNodes s₁ _ rfl
    have htattributes : t.attributes = tag.attributes.map given :=
      (bringAll_attributes s₁ _).trans (by rw [show s₁.attributes = [] from hattributes]; rfl)
    have htnamespaces : t.namespaces = (tag.declarations.map entryOf).reverse ++ s.namespaces :=
      bringAll_namespaces s₁ _
    have hfields := foldl_mark_fields tag.attributes named
    have hmarks : marked.flags =
        marks tag.declarations.length (!tag.spaces.isEmpty) (!tag.langs.isEmpty) := by
      have hnamed : named.flags = marks 0 false false := hflags
      have h := foldl_mark_flags tag.attributes hnamed ((Nat.zero_add _).symm ▸ hcount)
      rwa [Nat.zero_add, Bool.false_or, Bool.false_or] at h
    -- an empty root element changes what the end of the tag does not read
    have hend : ∀ t' : Reader, t'.xmlNodes = t.xmlNodes → t'.attributes = t.attributes →
        t'.namespaces = t.namespaces → t'.xmlSpaces = t.xmlSpaces → t'.xmlLangs = t.xmlLangs →
        (∃ s', t'.prepReturn tag.isEmpty = .ok s' ∧ Entered opened tag s s') ∨
          (∃ e, t'.prepReturn tag.isEmpty = .error e ∧ Unrelated e) ∨
          t'.prepReturn tag.isEmpty = .error .undeclaredNamespace ∧ Unresolved opened tag := by
      intro t' hn ha hns hs hl
      have hlookup' : ∀ pre,
          lookupNamespace t'.namespaces pre = inScope (tag :: opened) pre := by
        rw [hns, htnamespaces]
        exact hlookup
      rcases prepReturn_cases hlookup' hxmlns (ha.trans htattributes) (hn.trans htnodes)
        hfields.2 tag.isEmpty with ⟨ns, hscope, hall, hok⟩ | herror
      · refine .inl ⟨_, hok, ?_⟩
        exact {
          top := ⟨_, rfl, hfields.1, hmarks, hscope⟩
          namespaces := hns.trans htnamespaces
          xmlSpaces := hs.trans (bringAll_xmlSpaces s₁ _)
          xmlLangs := hl.trans (bringAll_xmlLangs s₁ _)
          attributes := rfl
          resolved := hall
          stateFn := rfl }
      · exact .inr (.inr herror)
    change (∃ s', t.inStartElement tag.isEmpty = .ok s' ∧ _) ∨
      (∃ e, t.inStartElement tag.isEmpty = .error e ∧ _) ∨ t.inStartElement tag.isEmpty = _ ∧ _
    rw [inStartElement]
    split
    · exact hend _ rfl rfl rfl rfl rfl
    · exact hend _ rfl rfl rfl rfl rfl
  · rw [hread]
    exact .inr (.inl ⟨e, rfl, he⟩)

/-- A start tag is entered, refused for a value or the place it stands at, or has a prefix without
a declaration. -/
theorem startTag_cases {node : XmlNode} (hnodes : s.xmlNodes = node :: s.xmlNodes.tail)
    (hflags : node.flags = 0) (hattributes : s.attributes = [])
    (hcount : tag.declarations.length < 2 ^ 30)
    (hlookup : ∀ pre, lookupNamespace
      ((tag.declarations.map entryOf).reverse ++ s.namespaces) pre = inScope (tag :: opened) pre)
    (hxmlns : inScope (tag :: opened) xmlns = some xmlnsNamespace) :
    (∃ s', s.startTag tag = .ok s' ∧ Entered opened tag s s') ∨
      (∃ e, s.startTag tag = .error e ∧ Unrelated e) ∨
        s.startTag tag = .error .undeclaredNamespace ∧ Unresolved opened tag := by
  have hsame := tagBody_cases (s := s) hnodes hflags hattributes hcount hlookup hxmlns
  have hmain := tagBody_cases (s := { s with docState := .mainDocument }) hnodes hflags
    hattributes hcount hlookup hxmlns
  rw [startTag]
  cases hdoc : s.docState with
  | start | mainDocument => exact hsame
  | doneWithXmlDeclaration =>
    refine hmain.imp (fun ⟨s', hs', h⟩ ↦ ⟨s', hs', ?_⟩) id
    exact {
      top := h.top
      namespaces := h.namespaces
      xmlSpaces := h.xmlSpaces
      xmlLangs := h.xmlLangs
      attributes := h.attributes
      resolved := h.resolved
      stateFn := h.stateFn }
  | doneWithMainDocument => exact .inr (.inl ⟨_, rfl, by simp [Unrelated]⟩)

end Reader

end MicroFramework.Xml
