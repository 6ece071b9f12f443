import MicroFramework.Xml.StartTags

/-!
# Scopes and well-formedness over a document

While no start tag repeats an attribute, the stacks of the reader are those of the open tags: end
tags are matched with the innermost of them, prefixes are resolved in their scope, and an element
leaves the stacks as it found them.
-/

namespace MicroFramework.Xml

open Library List Reader NamedValue

/-! ### The reader between two tokens -/

/-- The name and the flags of a node are those of the start tag it stands for. -/
def NodeOf (node : XmlNode) (tag : StartTag) : Prop :=
  node.name = tag.name.name ∧
    node.flags = marks tag.declarations.length (!tag.spaces.isEmpty) (!tag.langs.isEmpty)

/-- The reader inside the open tags, in front of a token: the node on top stands for none of
them. -/
structure Settled (opened : List StartTag) (s : Reader) : Prop where
  nodes : ∃ top nodes, s.xmlNodes = top :: nodes ∧ top.flags = 0 ∧ nodes.Forall₂ NodeOf opened
  namespaces : s.namespaces = scope opened
  xmlSpaces : s.xmlSpaces = spaceStack opened
  xmlLangs : s.xmlLangs = langStack opened
  attributes : s.attributes = []
  regular : ∀ tag ∈ opened, tag.Regular

/-- The reader behind an end tag, or what else needs no node of its own: the node on top accounts
for what lies on the stacks above the scopes of the open tags. -/
structure Leaving (opened : List StartTag) (s : Reader) : Prop where
  nodes : ∃ top nodes entries spaces langs, s.xmlNodes = top :: nodes ∧
    top.flags = marks entries.length (!spaces.isEmpty) (!langs.isEmpty) ∧
    nodes.Forall₂ NodeOf opened ∧ entries.length < 2 ^ 30 ∧ spaces.length ≤ 1 ∧
    langs.length ≤ 1 ∧ s.namespaces = entries ++ scope opened ∧
    s.xmlSpaces = spaces ++ spaceStack opened ∧ s.xmlLangs = langs ++ langStack opened
  regular : ∀ tag ∈ opened, tag.Regular

/-- The reader behind a start tag: the node on top is that of the innermost open tag. -/
structure Entering (opened : List StartTag) (s : Reader) : Prop where
  nodes : s.xmlNodes.Forall₂ NodeOf opened
  namespaces : s.namespaces = scope opened
  xmlSpaces : s.xmlSpaces = spaceStack opened
  xmlLangs : s.xmlLangs = langStack opened
  regular : ∀ tag ∈ opened, tag.Regular

def Stands (opened : List StartTag) (s : Reader) : Prop :=
  match s.stateFn with
  | .betweenElements true => Leaving opened s
  | .betweenElements false => Entering opened s
  | _ => Settled opened s

variable {behind : Text → ℕ → UInt8} {settings : Settings} {opened : List StartTag}
  {s s' t : Reader}

theorem tail_of_length_le_one {α : Type*} {xs ys : List α} (h : xs.length ≤ 1) :
    (if !xs.isEmpty then (xs ++ ys).tail else xs ++ ys) = ys := by
  match xs, h with
  | [], _ => rfl
  | [_], _ => rfl

/-- Before the next token the reader gives back what the last one left. -/
theorem settle_of_stands (h : Stands opened s) :
    ∃ t, s.settle = .ok t ∧ Settled opened t ∧ t.stateFn = s.stateFn := by
  rw [Stands] at h
  rw [settle]
  split at h
  case h_1 hstate =>
    obtain ⟨top, nodes, entries, spaces, langs, hnodes, hflags, hopen, hcount, hspaces, hlangs,
      hns, hsp, hl⟩ := h.nodes
    let t : Reader := { s with
      namespaces := popScope s.namespaces top.namespaceCount
      xmlSpaces := if top.hasXmlSpace then s.xmlSpaces.tail else s.xmlSpaces
      xmlLangs := if top.hasXmlLang then s.xmlLangs.tail else s.xmlLangs
      isEmptyElement := false
      xmlNodes := XmlNode.clear :: nodes
      attributes := [] }
    have hok : s.betweenElements true = .ok t := by rw [betweenElements, if_pos rfl, hnodes]
    rw [hstate]
    refine ⟨t, hok, ?_, hstate⟩
    refine ⟨⟨_, _, rfl, rfl, hopen⟩, ?_, ?_, ?_, rfl, h.regular⟩
    · change popScope s.namespaces top.namespaceCount = _
      rw [popScope, XmlNode.namespaceCount, hflags, marks_and_mask hcount, hns, drop_left]
    · change (if top.hasXmlSpace then _ else _) = _
      rw [XmlNode.hasXmlSpace, hflags, marks_and_space hcount, hsp]
      exact tail_of_length_le_one hspaces
    · change (if top.hasXmlLang then _ else _) = _
      rw [XmlNode.hasXmlLang, hflags, marks_and_lang hcount, hl]
      exact tail_of_length_le_one hlangs
  case h_2 hstate =>
    rw [hstate]
    exact ⟨_, rfl, ⟨⟨_, _, rfl, rfl, h.nodes⟩, h.namespaces, h.xmlSpaces, h.xmlLangs, rfl,
      h.regular⟩, hstate⟩
  case h_3 hnot hnot' =>
    refine ⟨s, ?_, h, rfl⟩
    split
    case h_1 fromEndElement hstate =>
      cases fromEndElement with
      | true => exact absurd hstate hnot
      | false => exact absurd hstate hnot'
    · rfl

theorem read_eq (token : Token) :
    s.read behind settings token =
      s.settle >>= fun t ↦ (if t.stateFn = .start then t.start token else .ok t) >>= fun t ↦
        t.token behind settings token := by
  rw [Reader.read]
  congr 1
  funext t
  by_cases hstart : t.stateFn = .start
  · rw [if_pos hstart, if_pos hstart]
  · rw [if_neg hstart, if_neg hstart]
    rfl

/-- The reader looks at a token from a settled state. -/
theorem read_of_stands (behind : Text → ℕ → UInt8) (settings : Settings) (h : Stands opened s)
    (token : Token) :
    ∃ t, Settled opened t ∧ (s.read behind settings token = t.token behind settings token ∨
      (∃ e, s.read behind settings token = .error e) ∧ token = .text false) := by
  obtain ⟨t, hsettle, ht, -⟩ := settle_of_stands h
  have hread : s.read behind settings token =
      (if t.stateFn = .start then t.start token else .ok t) >>= fun t ↦
        t.token behind settings token := by
    rw [read_eq, hsettle]
    rfl
  rw [hread]
  by_cases hstart : t.stateFn = .start
  · have hmoved : Settled opened { t with docState := .doneWithXmlDeclaration } :=
      ⟨ht.nodes, ht.namespaces, ht.xmlSpaces, ht.xmlLangs, ht.attributes, ht.regular⟩
    rw [if_pos hstart]
    cases token with
    | processingInstruction target attributes => exact ⟨t, ht, .inl rfl⟩
    | text afterSpace =>
      cases afterSpace with
      | true => exact ⟨_, hmoved, .inl rfl⟩
      | false => exact ⟨t, ht, .inr ⟨⟨_, rfl⟩, rfl⟩⟩
    | startTag tag | endTag name | comment | cdata | whitespace => exact ⟨_, hmoved, .inl rfl⟩
  · rw [if_neg hstart]
    exact ⟨t, ht, .inl rfl⟩

/-! ### What one token does -/

/-- The condition on a token: a start tag has no two attributes with one local name and one
namespace, does not declare the prefix `xmlns` and declares fewer than `2 ^ 30` namespaces; the
name of an end tag does not go on behind a zero byte after the name of the start tag. -/
def MeetsAt (opened : List StartTag) : Token → Prop
  | .startTag tag => ¬ Duplicated opened tag ∧ KeepsXmlns tag ∧ tag.declarations.length < 2 ^ 30
  | .endTag name => ∀ tag ∈ opened.head?, ¬ ∃ rest, name = tag.name.name ++ 0 :: rest
  | _ => True

section

variable (h : Settled opened s)

include h

theorem Settled.keepsXmlns : ∀ tag ∈ opened, KeepsXmlns tag :=
  fun tag htag ↦ (h.regular tag htag).xmlns_notMem

variable {tag : StartTag}

theorem Settled.startTag_cases (hmeets : MeetsAt opened (.startTag tag)) :
    (∃ s', s.startTag tag = .ok s' ∧ Reader.Entered opened tag s s') ∨
      (∃ e, s.startTag tag = .error e ∧ Reader.Unrelated e) ∨
        s.startTag tag = .error .undeclaredNamespace ∧ Unresolved opened tag := by
  obtain ⟨top, nodes, hnodes, hflags, -⟩ := h.nodes
  have hregular : ∀ t ∈ tag :: opened, t.Regular := forall_mem_cons.mpr
    ⟨regular_of_not_duplicated h.keepsXmlns hmeets.2.1 hmeets.1 hmeets.2.2, h.regular⟩
  have hcons : s.xmlNodes = top :: s.xmlNodes.tail := by rw [hnodes, tail_cons]
  refine Reader.startTag_cases hcons hflags h.attributes hmeets.2.2 (fun pre ↦ ?_)
    (inScope_xmlns fun t ht ↦ (hregular t ht).xmlns_notMem)
  rw [h.namespaces]
  exact lookupNamespace_scope hregular pre

variable {name : Text}

/-- The end tag closes the innermost open tag, and only if it has its name. -/
theorem Settled.inEndElement_ok_iff (hmeets : MeetsAt opened (.endTag name)) :
    (∃ s', s.inEndElement behind name = .ok s') ↔
      ∃ tag, opened.head? = some tag ∧ name = tag.name.name := by
  obtain ⟨top, nodes, hnodes, -, hopen⟩ := h.nodes
  rw [inEndElement, hnodes]
  cases hopen with
  | nil => simp
  | @cons node tag nodes outer hnode _ =>
    have hmatch : equalUpTo node.name name name.length = true ∧
        byteAt behind node.name name.length = 0 ↔ name = tag.name.name := by
      rw [hnode.1, equalUpTo_name_iff tag.name.zero_notMem_name,
        or_iff_left (hmeets tag (by simp))]
      constructor
      · rintro ⟨⟨rest, hrest⟩, hbyte⟩
        cases rest with
        | nil => rw [hrest, append_nil]
        | cons b rest =>
          -- the name of the start tag goes on with a byte that is not zero
          rw [byteAt, hrest, if_pos (by simp), getD_append_right _ _ _ _ le_rfl,
            Nat.sub_self, getD_cons_zero] at hbyte
          exact absurd (hrest ▸ mem_append_right _ (hbyte ▸ mem_cons_self))
            tag.name.zero_notMem_name
      · rintro rfl
        refine ⟨⟨[], (append_nil _).symm⟩, ?_⟩
        rw [byteAt, if_neg (lt_irrefl _), if_pos rfl]
    dsimp only
    rw [head?_cons]
    by_cases hname : name = tag.name.name
    · have hboth := hmatch.mpr hname
      rw [if_neg (by simp [hboth.1, hboth.2])]
      exact iff_of_true ⟨_, rfl⟩ ⟨tag, rfl, hname⟩
    · have hbad : (!equalUpTo node.name name name.length) = true ∨
          byteAt behind node.name name.length ≠ 0 := by
        by_contra hgood
        push Not at hgood
        exact hname (hmatch.mp ⟨by simpa using hgood.1, hgood.2⟩)
      rw [if_pos hbad]
      refine iff_of_false (fun ⟨_, hs⟩ ↦ by cases hs) fun ⟨t, ht, heq⟩ ↦ hname ?_
      rwa [← Option.some.inj ht] at heq

/-- An end tag that is accepted leaves the node of its start tag on top. -/
theorem Settled.leaving_of_inEndElement
    (hs : s.inEndElement behind name = .ok s') : Stands opened.tail s' := by
  obtain ⟨top, nodes, hnodes, -, hopen⟩ := h.nodes
  rw [inEndElement, hnodes] at hs
  cases hopen with
  | nil => cases hs
  | @cons node tag nodes outer hnode hrest =>
    dsimp only at hs
    split at hs
    · cases hs
    obtain rfl := Except.ok.inj hs
    have hregular := forall_mem_cons.mp h.regular
    refine ⟨⟨node, nodes, (tag.declarations.map entryOf).reverse, tag.spaces.reverse,
      tag.langs.reverse, rfl, ?_, hrest, ?_, ?_, ?_, h.namespaces, h.xmlSpaces, h.xmlLangs⟩,
      hregular.2⟩
    · rw [hnode.2, length_reverse, length_map, isEmpty_reverse,
        isEmpty_reverse]
    · rw [length_reverse, length_map]
      exact hregular.1.count
    · rw [length_reverse]
      exact hregular.1.spaces
    · rw [length_reverse]
      exact hregular.1.langs

/-- A start tag that is entered opens its scope, unless its element is empty. -/
theorem Settled.stands_of_entered
    (hmeets : MeetsAt opened (.startTag tag)) (hentered : Reader.Entered opened tag s s') :
    Stands (nest Token.bracket opened (.startTag tag)) s' := by
  obtain ⟨top, nodes, hnodes, -, hopen⟩ := h.nodes
  obtain ⟨node, hnode, hname, hflags, -⟩ := hentered.top
  rw [hnodes, tail_cons] at hnode
  have hregular : tag.Regular :=
    regular_of_not_duplicated h.keepsXmlns hmeets.2.1 hmeets.1 hmeets.2.2
  have hns := hentered.namespaces
  have hsp := hentered.xmlSpaces
  have hl := hentered.xmlLangs
  rw [h.namespaces] at hns
  rw [h.xmlSpaces] at hsp
  rw [h.xmlLangs] at hl
  rw [Stands, hentered.stateFn, nest, Token.bracket]
  cases hempty : tag.isEmpty with
  | true =>
    refine ⟨⟨node, nodes, (tag.declarations.map entryOf).reverse, tag.spaces.reverse,
      tag.langs.reverse, hnode, ?_, hopen, ?_, ?_, ?_, hns, hsp, hl⟩, h.regular⟩
    · rw [hflags, length_reverse, length_map, isEmpty_reverse,
        isEmpty_reverse]
    · rw [length_reverse, length_map]
      exact hregular.count
    · rw [length_reverse]
      exact hregular.spaces
    · rw [length_reverse]
      exact hregular.langs
  | false =>
    refine ⟨?_, hns, hsp, hl, forall_mem_cons.mpr ⟨hregular, h.regular⟩⟩
    rw [hnode]
    exact .cons ⟨hname, hflags⟩ hopen

/-- Without an entry of its own the node on top leaves the stacks alone. -/
theorem Settled.leaving (hnodes : s'.xmlNodes.tail = s.xmlNodes.tail)
    (hflags : ∀ node ∈ s'.xmlNodes.head?, node.flags = 0) (hne : s'.xmlNodes ≠ [])
    (hns : s'.namespaces = s.namespaces) (hsp : s'.xmlSpaces = s.xmlSpaces)
    (hl : s'.xmlLangs = s.xmlLangs) : Leaving opened s' := by
  obtain ⟨top, nodes, hs, -, hopen⟩ := h.nodes
  obtain ⟨top', nodes', hs'⟩ := exists_cons_of_ne_nil hne
  rw [hs', hs, tail_cons, tail_cons] at hnodes
  subst hnodes
  exact ⟨⟨top', nodes', [], [], [], hs', hflags top' (by rw [hs']; rfl), hopen, by decide,
    by decide, by decide, hns.trans h.namespaces, hsp.trans h.xmlSpaces, hl.trans h.xmlLangs⟩,
    h.regular⟩

end

/-! ### The XML declaration -/

variable {state state' : Reader.DeclState}

/-- The attributes of an XML declaration are none that push anything. -/
theorem declarationStep_name {v : NamedValue}
    (h : declarationStep state v.name.name v.value = some state') :
    v.declaration? = none ∧ v.space? = none ∧ v.lang? = none := by
  have hnames : v.name.name ∈ [version, encoding, standalone] := by
    rw [declarationStep] at h
    split at h
    case isTrue hversion =>
      rw [(equalUpTo_iff v.name.zero_notMem_name (by decide)).mp hversion.2.1]
      exact mem_cons_self
    split at h
    case isTrue hencoding =>
      rw [(equalUpTo_iff v.name.zero_notMem_name (by decide)).mp hencoding.2.1]
      exact mem_cons_of_mem _ mem_cons_self
    split at h
    case isTrue hstandalone =>
      rw [(equalUpTo_iff v.name.zero_notMem_name (by decide)).mp hstandalone.2.1]
      exact mem_cons_of_mem _ (mem_cons_of_mem _ mem_cons_self)
    · cases h
  have hcolon : 58 ∉ v.name.name := by
    have hwords : ∀ word ∈ [version, encoding, standalone], 58 ∉ word := by
      decide
    exact hwords _ hnames
  obtain ⟨hpre, hlocal⟩ := QName.pre_eq_nil_of_name hcolon rfl
  have hxmlns : v.name.localName ≠ xmlns := by
    rw [hlocal]
    intro heq
    rw [heq] at hnames
    exact absurd hnames (by decide)
  have hxml : v.name.pre ≠ xml := by
    rw [hpre]
    decide
  refine ⟨?_, ?_, ?_⟩
  · rw [declaration?, if_neg (by rw [hpre]; decide), if_neg fun h ↦ hxmlns h.2]
  · rw [space?, if_neg fun h ↦ hxml h.1]
  · rw [lang?, if_neg fun h ↦ hxml h.1]

variable {vs : List NamedValue}

theorem declaration_names (h : (vs.map given).foldlM
      (fun state a ↦ declarationStep state a.name a.value) state = some state') :
    ∀ v ∈ vs, v.declaration? = none ∧ v.space? = none ∧ v.lang? = none := by
  induction vs generalizing state with
  | nil => exact fun v hv ↦ absurd hv not_mem_nil
  | cons v vs ih =>
    rw [map_cons, foldlM_cons, Option.bind_eq_bind, Option.bind_eq_some_iff] at h
    obtain ⟨next, hstep, hrest⟩ := h
    exact forall_mem_cons.mpr ⟨declarationStep_name hstep, ih hrest⟩

theorem bringAll_eq (h : ∀ v ∈ vs, v.declaration? = none ∧ v.space? = none ∧ v.lang? = none) :
    s.bringAll vs = { s with attributes := s.attributes ++ vs.map given } := by
  induction vs generalizing s with
  | nil => simp [bringAll]
  | cons v vs ih =>
    obtain ⟨⟨hd, hs, hl⟩, hrest⟩ := forall_mem_cons.mp h
    have hmark : v.mark = id := by
      funext node
      rw [mark, hd, hs, hl]
      rfl
    rw [bringAll, foldl_cons]
    refine (ih hrest).trans ?_
    simp [bring, hd, hs, hl, hmark]

theorem Settled.leaving_of_inXmlDeclaration (h : Settled opened s)
    (hs : s.inXmlDeclaration vs = .ok s') : Stands opened s' := by
  obtain ⟨top, nodes, hnodes, hflags, -⟩ := h.nodes
  rw [inXmlDeclaration] at hs
  rcases readAttributes_cases s vs with hread | ⟨e, hread, -⟩
  · rw [hread] at hs
    change (if (s.bringAll vs).attributes = [] ∨
      (s.bringAll vs).attributes.foldlM _ Reader.DeclState.atVersion = none then _ else _) = _ at hs
    split at hs
    · cases hs
    case isFalse hverified =>
      push Not at hverified
      obtain rfl := Except.ok.inj hs
      obtain ⟨state, hstate⟩ := Option.ne_none_iff_exists'.mp hverified.2
      rw [bringAll_attributes, h.attributes, nil_append] at hstate
      have hplain := bringAll_eq (s := s) (declaration_names hstate)
      change Leaving opened _
      refine h.leaving ?_ ?_ ?_ ?_ ?_ ?_ <;> dsimp only <;> rw [hplain]
      · rw [hnodes]
        intro node hnode
        obtain rfl := Option.some.inj hnode
        exact hflags
      · rw [hnodes]
        exact cons_ne_nil _ _
  · rw [hread] at hs
    cases hs

/-- A processing instruction names the node on top and leaves the stacks alone. -/
theorem Settled.leaving_of_processingInstruction {target : Text}
    (h : Settled opened s) (hs : s.processingInstruction settings target vs = .ok s') :
    Stands opened s' := by
  obtain ⟨top, nodes, hnodes, hflags, hopen⟩ := h.nodes
  rw [processingInstruction, inName, hnodes] at hs
  change (if _ then _ else _) = _ at hs
  split at hs
  · split at hs
    · split at hs
      · refine Settled.leaving_of_inXmlDeclaration ?_ hs
        exact ⟨⟨_, _, rfl, hflags, hopen⟩, h.namespaces, h.xmlSpaces, h.xmlLangs, h.attributes,
          h.regular⟩
      · cases hs
    · cases hs
  · obtain rfl := Except.ok.inj hs
    change Leaving opened _
    refine h.leaving ?_ ?_ ?_ ?_ ?_ ?_ <;>
      simp only [doneAfterRoot, afterValue] <;> split <;> simp [hnodes, hflags]

/-! ### Runs -/

variable {token : Token}

theorem stands_of_read (h : Stands opened s) (hmeets : MeetsAt opened token)
    (hs : s.read behind settings token = .ok s') :
    Stands (nest Token.bracket opened token) s' := by
  obtain ⟨t, ht, hread | ⟨⟨e, hread⟩, -⟩⟩ := read_of_stands behind settings h token
  swap
  · rw [hread] at hs
    cases hs
  rw [hread] at hs
  have hdone : Settled opened { t with isDone := false } :=
    ⟨ht.nodes, ht.namespaces, ht.xmlSpaces, ht.xmlLangs, ht.attributes, ht.regular⟩
  obtain ⟨top, nodes, hnodes, hflags, hopen⟩ := ht.nodes
  cases token with
  | startTag tag =>
    rcases hdone.startTag_cases hmeets with ⟨u, hu, hentered⟩ | ⟨e, he, -⟩ | ⟨he, -⟩
    · obtain rfl := Except.ok.inj (hu.symm.trans hs)
      exact hdone.stands_of_entered hmeets hentered
    · cases he.symm.trans hs
    · cases he.symm.trans hs
  | endTag name => exact hdone.leaving_of_inEndElement hs
  | processingInstruction target attributes => exact hdone.leaving_of_processingInstruction hs
  | comment =>
    obtain rfl := Except.ok.inj hs
    change Leaving opened _
    refine ht.leaving rfl ?_ ?_ rfl rfl rfl <;>
      simp [doneAfterRoot, afterValue, hnodes, hflags]
  | cdata =>
    rw [token] at hs
    split at hs
    · cases hs
    obtain rfl := Except.ok.inj hs
    change Leaving opened _
    refine ht.leaving rfl ?_ ?_ rfl rfl rfl <;> simp [afterValue, hnodes, hflags]
  | text afterSpace =>
    rw [token, text] at hs
    split at hs
    · cases hs
    obtain rfl := Except.ok.inj hs
    exact ⟨ht.nodes, ht.namespaces, ht.xmlSpaces, ht.xmlLangs, ht.attributes, ht.regular⟩
  | whitespace =>
    rw [token, whitespace] at hs
    split at hs
    · cases hs
    split at hs
    · obtain rfl := Except.ok.inj hs
      exact ⟨ht.nodes, ht.namespaces, ht.xmlSpaces, ht.xmlLangs, ht.attributes, ht.regular⟩
    · split at hs <;> obtain rfl := Except.ok.inj hs <;>
        exact ⟨ht.nodes, ht.namespaces, ht.xmlSpaces, ht.xmlLangs, ht.attributes, ht.regular⟩

/-- Every token of a document meets the condition in the scope it stands in. -/
def Meets (tokens : List Token) : Prop :=
  ∀ before token after, tokens = before ++ token :: after → MeetsAt (openTags before) token

theorem stands_create : Stands [] create :=
  ⟨⟨_, _, rfl, rfl, .nil⟩, rfl, rfl, rfl, rfl, fun _ h ↦ absurd h not_mem_nil⟩

/-- After any part of such a document the reader stands inside the open tags. -/
theorem stands_of_run {tokens : List Token} (hmeets : Meets tokens)
    (hs : run behind settings tokens = .ok s) : Stands (openTags tokens) s := by
  induction tokens using List.reverseRecOn generalizing s with
  | nil =>
    obtain rfl := Except.ok.inj hs
    exact stands_create
  | append_singleton tokens token ih =>
    rw [run, foldlM_append] at hs
    cases hrun : tokens.foldlM (read behind settings) create with
    | error e =>
      rw [hrun] at hs
      cases hs
    | ok u =>
      rw [hrun] at hs
      have hlast : u.read behind settings token >>= pure = .ok s := hs
      rw [bind_pure] at hlast
      have hu : Stands (openTags tokens) u := by
        refine ih (fun before t after heq ↦ ?_) hrun
        exact hmeets before t (after ++ [token]) (by rw [heq]; simp)
      rw [openTags, nesting_concat]
      exact stands_of_read hu (hmeets tokens token [] rfl) hlast

/-! ### What is asked of the reader -/

/-- What is asked of one token inside the open tags.  An end tag is accepted if it has the name of
the innermost open tag, and only then.  A start tag that is accepted has the namespace in scope on
its node and on each attribute; a prefix without a declaration is reported only where there is one;
a duplicate attribute is reported if there is one, and only then; no other error has to do with
names. -/
def Honours (behind : Text → ℕ → UInt8) (settings : Settings) (opened : List StartTag)
    (s : Reader) : Token → Prop
  | .endTag name =>
    (∃ s', s.read behind settings (.endTag name) = .ok s') ↔
      ∃ tag, opened.head? = some tag ∧ name = tag.name.name
  | .startTag tag =>
    (∀ s', s.read behind settings (.startTag tag) = .ok s' →
      (∃ node nodes, s'.xmlNodes = node :: nodes ∧
        inScope (tag :: opened) tag.name.pre = some node.namespaceURI) ∧
      s'.attributes.map XmlAttribute.namespaceURI =
        tag.attributes.map (fun v ↦ attributeScope (tag :: opened) v.name) ∧
      ∀ v ∈ tag.attributes, (attributeScope (tag :: opened) v.name).isSome) ∧
    (s.read behind settings (.startTag tag) = .error .undeclaredNamespace →
      Unresolved opened tag) ∧
    (s.read behind settings (.startTag tag) = .error .dupAttributeName ↔ Duplicated opened tag) ∧
    ∀ e, s.read behind settings (.startTag tag) = .error e →
      Reader.Unrelated e ∨ e = .undeclaredNamespace ∨ e = .dupAttributeName
  | _ => True

/-- The stacks that the reader has in front of the next token. -/
def SameStacks (s t : Reader) : Prop :=
  ∃ s' t', s.settle = .ok s' ∧ t.settle = .ok t' ∧ s'.namespaces = t'.namespaces ∧
    s'.xmlSpaces = t'.xmlSpaces ∧ s'.xmlLangs = t'.xmlLangs

/-- What is asked of the reader over a document: every token is treated as it should be, and a
whole element leaves the stacks as they were before its start tag. -/
structure WellScoped (behind : Text → ℕ → UInt8) (settings : Settings) (tokens : List Token) :
    Prop where
  honours : ∀ before token after s, tokens = before ++ token :: after →
    run behind settings before = .ok s →
      Honours behind settings (openTags before) s token
  restores : ∀ before element after s t, tokens = before ++ element ++ after →
    IsElement element → run behind settings before = .ok s →
      run behind settings (before ++ element) = .ok t → SameStacks s t

theorem honours_of_stands (h : Stands opened s) (hmeets : MeetsAt opened token) :
    Honours behind settings opened s token := by
  obtain ⟨t, ht, hread | ⟨-, htext⟩⟩ := read_of_stands behind settings h token
  swap
  · rw [htext]
    trivial
  have hdone : Settled opened { t with isDone := false } :=
    ⟨ht.nodes, ht.namespaces, ht.xmlSpaces, ht.xmlLangs, ht.attributes, ht.regular⟩
  cases token with
  | endTag name =>
    rw [Honours, hread]
    exact hdone.inEndElement_ok_iff hmeets
  | startTag tag =>
    rw [Honours, hread]
    change (∀ s', startTag _ tag = .ok s' → _) ∧ (startTag _ tag = _ → _) ∧
      (startTag _ tag = _ ↔ _) ∧ ∀ e, startTag _ tag = .error e → _
    rcases hdone.startTag_cases hmeets with ⟨u, hu, hentered⟩ | ⟨e, he, hunrelated⟩ |
      ⟨he, hunresolved⟩
    · rw [hu]
      refine ⟨fun s' hs' ↦ ?_, fun h ↦ (by cases h), iff_of_false (fun h ↦ by cases h) hmeets.1,
        fun e h ↦ by cases h⟩
      obtain rfl := Except.ok.inj hs'
      obtain ⟨node, hnodes, -, -, hscope⟩ := hentered.top
      refine ⟨⟨node, _, hnodes, hscope⟩, ?_, hentered.resolved⟩
      rw [hentered.attributes, map_map]
      rfl
    · rw [he]
      exact ⟨fun s' h ↦ (by cases h), fun h ↦ absurd (Except.error.inj h) hunrelated.ne.1,
        iff_of_false (fun h ↦ hunrelated.ne.2 (Except.error.inj h)) hmeets.1,
        fun e' h ↦ .inl (Except.error.inj h ▸ hunrelated)⟩
    · rw [he]
      exact ⟨fun s' h ↦ (by cases h), fun _ ↦ hunresolved,
        iff_of_false (fun h ↦ by cases h) hmeets.1, fun e h ↦ .inr (.inl (Except.error.inj h).symm)⟩
  | _ => trivial

/-- `<p:a xmlns:p="u" q="1">` -/
def sampleTag : StartTag where
  name := ⟨[112], [97], by decide, by simp⟩
  attributes :=
    [⟨⟨xmlns, [112], by decide, by simp [xmlns]⟩, [117], by decide⟩,
      ⟨⟨[], [113], by decide, by simp⟩, [49], by decide⟩]
  isEmpty := false

/-- `<a b="1" b="2"/>` -/
def repeatingTag : StartTag where
  name := ⟨[], [97], by decide, by simp⟩
  attributes :=
    [⟨⟨[], [98], by decide, by simp⟩, [49], by decide⟩,
      ⟨⟨[], [98], by decide, by simp⟩, [50], by decide⟩]
  isEmpty := true

end MicroFramework.Xml
