import Mathlib.Data.UInt

/-!
# The tables of the XML reader

The names, nodes and stacks that the native reader works on, and the operations on them: the
namespace stack, the flags of a node and the string comparison.  A string is the list of its bytes
before the zero that ends it; strings of the name table are compared by reference, which is
equality of the bytes.
-/

namespace MicroFramework.Xml

/-- The bytes of a string, without the zero that ends it. -/
abbrev Text := List UInt8

def xml : Text := [120, 109, 108]

def xmlns : Text := [120, 109, 108, 110, 115]

/-- `http://www.w3.org/XML/1998/namespace` -/
def xmlNamespace : Text :=
  [104, 116, 116, 112, 58, 47, 47, 119, 119, 119, 46, 119, 51, 46, 111, 114, 103, 47, 88, 77, 76,
    47, 49, 57, 57, 56, 47, 110, 97, 109, 101, 115, 112, 97, 99, 101]

/-- `http://www.w3.org/2000/xmlns/` -/
def xmlnsNamespace : Text :=
  [104, 116, 116, 112, 58, 47, 47, 119, 119, 119, 46, 119, 51, 46, 111, 114, 103, 47, 50, 48, 48,
    48, 47, 120, 109, 108, 110, 115, 47]

def space : Text := [115, 112, 97, 99, 101]

def lang : Text := [108, 97, 110, 103]

def preserve : Text := [112, 114, 101, 115, 101, 114, 118, 101]

def default : Text := [100, 101, 102, 97, 117, 108, 116]

/-- `hal_strncmp_s( s, t, n ) == 0` for two strings that end with a zero. -/
def equalUpTo : Text → Text → ℕ → Bool
  | _, _, 0 => true
  | [], [], _ + 1 => true
  | [], b :: _, _ + 1 => b == 0
  | a :: _, [], _ + 1 => a == 0
  | a :: s, b :: t, n + 1 => a == b && (a == 0 || equalUpTo s t n)

/-- `s[ i ]`; behind the zero that ends the string stands other memory. -/
def byteAt (behind : Text → ℕ → UInt8) (s : Text) (i : ℕ) : UInt8 :=
  if i < s.length then s.getD i 0 else if i = s.length then 0 else behind s i

/-- The errors that the modelled states report, `XML_E_…` in the source. -/
inductive Error where
  | invalidOperation
  | unknownEncoding
  | tagMismatch
  | unexpectedEndTag
  | multipleRoots
  | invalidRootData
  | xmlDeclNotFirst
  | invalidXmlDecl
  | invalidXmlSpace
  | dupAttributeName
  | undeclaredNamespace
  | invalidXmlPrefixMapping
  | namespaceDeclXmlXmlns
  | invalidPIName
  deriving DecidableEq, Repr

inductive XmlSpace where
  | none
  | default
  | preserve
  deriving DecidableEq, Repr

inductive NodeType where
  | none
  | element
  | text
  | cdata
  | processingInstruction
  | comment
  | whitespace
  | significantWhitespace
  | endElement
  | xmlDeclaration
  deriving DecidableEq, Repr

inductive DocState where
  | start
  | doneWithXmlDeclaration
  | mainDocument
  | doneWithMainDocument
  deriving DecidableEq, Repr

inductive StateFn where
  | start
  | betweenElements (fromEndElement : Bool)
  | newTag
  deriving DecidableEq, Repr

/-- The settings of the reader that say which nodes it passes over. -/
structure Settings where
  ignoreWhitespace : Bool
  ignoreProcessingInstructions : Bool
  ignoreComments : Bool

/-! ### Nodes -/

/-- `CLR_RT_HeapBlock_XmlNode` -/
structure XmlNode where
  name : Text
  namespaceURI : Text
  pre : Text
  localName : Text
  flags : ℕ
  deriving DecidableEq, Repr

namespace XmlNode

def clear : XmlNode where
  name := []
  namespaceURI := []
  pre := []
  localName := []
  flags := 0

/-- The namespace count that `GetFlags` takes from the flags. -/
def namespaceCount (node : XmlNode) : ℕ :=
  node.flags &&& 0x3FFFFFFF

def hasXmlSpace (node : XmlNode) : Bool :=
  node.flags &&& 0x80000000 != 0

def hasXmlLang (node : XmlNode) : Bool :=
  node.flags &&& 0x40000000 != 0

def setXmlSpace (node : XmlNode) : XmlNode :=
  { node with flags := node.flags ||| 0x80000000 }

def setXmlLang (node : XmlNode) : XmlNode :=
  { node with flags := node.flags ||| 0x40000000 }

def incrementNamespaceCount (node : XmlNode) : XmlNode :=
  { node with flags := (node.flags + 1) % 2 ^ 32 }

end XmlNode

/-- `CLR_RT_HeapBlock_XmlAttribute`; a new object has no namespace. -/
structure XmlAttribute where
  name : Text
  namespaceURI : Option Text
  pre : Text
  localName : Text
  value : Text
  deriving DecidableEq, Repr

/-- `CLR_RT_HeapBlock_XmlNamespaceEntry` -/
structure NamespaceEntry where
  pre : Text
  namespaceURI : Text
  deriving DecidableEq, Repr

/-! ### The namespace stack -/

/-- `LookupNamespace`: the search starts at the entry pushed last. -/
def lookupNamespace (namespaces : List NamespaceEntry) (pre : Text) : Option Text :=
  match namespaces with
  | [] => none
  | entry :: rest => if entry.pre = pre then some entry.namespaceURI else lookupNamespace rest pre

def popScope (namespaces : List NamespaceEntry) (namespaceCount : ℕ) : List NamespaceEntry :=
  namespaces.drop namespaceCount

/-! ### The reader -/

/-- `CLR_RT_HeapBlock_XmlReader`, and of its state what outlives a token.  The first entry of a
stack is its top. -/
structure Reader where
  xmlNodes : List XmlNode
  namespaces : List NamespaceEntry
  xmlSpaces : List XmlSpace
  xmlLangs : List Text
  attributes : List XmlAttribute
  nodeType : NodeType
  isEmptyElement : Bool
  isDone : Bool
  docState : DocState
  stateFn : StateFn
  deriving DecidableEq, Repr

/-- The entries that `XmlReader.Create` pushes. -/
def initialNamespaces : List NamespaceEntry :=
  [⟨xmlns, xmlnsNamespace⟩, ⟨xml, xmlNamespace⟩, ⟨[], []⟩]

def Reader.create : Reader where
  xmlNodes := [XmlNode.clear]
  namespaces := initialNamespaces
  xmlSpaces := [.none]
  xmlLangs := [[]]
  attributes := []
  nodeType := .none
  isEmptyElement := false
  isDone := false
  docState := .start
  stateFn := .start

namespace Reader

/-- What is done to the node that `Peek` returns. -/
def onTop (f : XmlNode → XmlNode) (s : Reader) : Reader :=
  { s with xmlNodes := s.xmlNodes.modifyHead f }

def addNamespace (s : Reader) (pre namespaceURI : Text) : Reader :=
  { s with namespaces := ⟨pre, namespaceURI⟩ :: s.namespaces }

end Reader

/-! ### What the document gives -/

/-- A name of the document: the prefix, empty when there is none, and the local name.  A name has
no zero byte, and no colon but the one between the two. -/
structure QName where
  pre : Text
  localName : Text
  localName_ne_nil : localName ≠ []
  bytes : ∀ b ∈ pre ++ localName, b ≠ 0 ∧ b ≠ 58
  deriving DecidableEq

def QName.name (q : QName) : Text :=
  if q.pre = [] then q.localName else q.pre ++ 58 :: q.localName

/-- An attribute as it stands in the document; no zero byte is a legal character of its value. -/
structure NamedValue where
  name : QName
  value : Text
  zero_notMem : 0 ∉ value

structure StartTag where
  name : QName
  attributes : List NamedValue
  isEmpty : Bool

/-- What the document is made of.  The text of an end tag runs up to a space or the closing
bracket, that of a processing instruction is a name, and its attributes count only in an XML
declaration; `afterSpace` says that a text begins with white space. -/
inductive Token where
  | startTag (tag : StartTag)
  | endTag (name : Text)
  | processingInstruction (target : Text) (attributes : List NamedValue)
  | comment
  | cdata
  | text (afterSpace : Bool)
  | whitespace

/-!
## The states of the XML reader

What each state of the native reader does once the text it waits for is complete: names,
attribute values, the end of a start tag, end tags, processing instructions and what stands
between elements.
-/

namespace Reader

/-! ### Start tags -/

/-- `InName` for an element or the target of a processing instruction. -/
def inName (s : Reader) (name pre localName : Text) : Except Error Reader :=
  match s.xmlNodes with
  | [] => .error .invalidOperation
  | node :: nodes =>
    .ok { s with
      xmlNodes := { node with name := name, pre := pre, localName := localName } :: nodes }

def inAttributeName (s : Reader) (q : QName) : Reader :=
  { s with attributes := s.attributes ++ [⟨q.name, none, q.pre, q.localName, []⟩] }

def declareNamespace (s : Reader) (attr : XmlAttribute) (value : Text) :
    Except Error Reader :=
  let isLocalNameXml := equalUpTo attr.localName xml 4
  if value = xmlnsNamespace ∨ value = xmlNamespace ∧ !isLocalNameXml then
    .error .namespaceDeclXmlXmlns
  else if isLocalNameXml then
    if value = xmlNamespace then .ok s else .error .invalidXmlPrefixMapping
  else
    .ok ((s.addNamespace (if attr.name.getD 5 0 = 0 then [] else attr.localName)
      value).onTop XmlNode.incrementNamespaceCount)

def reservedAttribute (s : Reader) (attr : XmlAttribute) (value : Text) :
    Except Error Reader :=
  if equalUpTo attr.localName space 6 then
    if equalUpTo value preserve 9 then
      .ok { s.onTop XmlNode.setXmlSpace with xmlSpaces := .preserve :: s.xmlSpaces }
    else if equalUpTo value default 8 then
      .ok { s.onTop XmlNode.setXmlSpace with xmlSpaces := .default :: s.xmlSpaces }
    else
      .error .invalidXmlSpace
  else if equalUpTo attr.localName lang 5 then
    .ok { s.onTop XmlNode.setXmlLang with xmlLangs := value :: s.xmlLangs }
  else
    .ok s

def isDeclaration (name : Text) : Bool :=
  equalUpTo name xmlns 5 && (name.getD 5 0 == 0 || name.getD 5 0 == 58)

def inAttributeValue (s : Reader) (value : Text) : Except Error Reader :=
  match s.attributes.getLast? with
  | none => .error .invalidOperation
  | some attr => do
    let s ←
      if isDeclaration attr.name then s.declareNamespace attr value
      else if equalUpTo attr.pre xml 4 then s.reservedAttribute attr value
      else pure s
    pure { s with attributes := s.attributes.dropLast ++ [{ attr with value := value }] }

/-- The attributes of a tag, one after the other. -/
def readAttributes (s : Reader) (attributes : List NamedValue) : Except Error Reader :=
  attributes.foldlM (fun s v ↦ (s.inAttributeName v.name).inAttributeValue v.value) s

/-- The namespace that `PrepReturn` gives to an attribute. -/
def attributeNamespace (namespaces : List NamespaceEntry) (attr : XmlAttribute) :
    Except Error Text :=
  if attr.pre ≠ [] then
    if attr.pre = xmlns then .ok xmlnsNamespace
    else match lookupNamespace namespaces attr.pre with
      | some ns => .ok ns
      | none => .error .undeclaredNamespace
  else
    .ok (if attr.name = xmlns then xmlnsNamespace else [])

/-- The inner loop of `PrepReturn`: whether one of the first `j` attributes has this namespace and
this local name. -/
def hasDuplicate (attributes : List XmlAttribute) (ns localName : Text) : ℕ → Bool
  | 0 => false
  | j + 1 =>
    match attributes[j]? with
    | none => false
    | some attr2 =>
      attr2.namespaceURI == some ns && attr2.localName == localName ||
        hasDuplicate attributes ns localName j

/-- The outer loop of `PrepReturn`, which goes through the attributes from the last to the
first. -/
def assignNamespaces (namespaces : List NamespaceEntry) :
    ℕ → List XmlAttribute → Except Error (List XmlAttribute)
  | 0, attributes => .ok attributes
  | i + 1, attributes =>
    match attributes[i]? with
    | none => .error .invalidOperation
    | some attr => do
      let ns ← attributeNamespace namespaces attr
      let attributes := attributes.set i { attr with namespaceURI := some ns }
      if hasDuplicate attributes ns attr.localName i then
        throw .dupAttributeName
      assignNamespaces namespaces i attributes

def prepReturn (s : Reader) (isEmptyElement : Bool) : Except Error Reader := do
  let attributes ← assignNamespaces s.namespaces s.attributes.length s.attributes
  match s.xmlNodes with
  | [] => throw .invalidOperation
  | node :: nodes =>
    match lookupNamespace s.namespaces node.pre with
    | none => throw .undeclaredNamespace
    | some ns =>
      pure { s with
        attributes := attributes
        xmlNodes := { node with namespaceURI := ns } :: nodes
        nodeType := .element
        isEmptyElement := isEmptyElement
        stateFn := .betweenElements isEmptyElement }

/-- `InStartElement`, at the bracket that ends the tag. -/
def inStartElement (s : Reader) (isEmpty : Bool) : Except Error Reader :=
  if isEmpty ∧ s.xmlNodes.length = 1 then
    { s with isDone := true, docState := .doneWithMainDocument }.prepReturn isEmpty
  else
    s.prepReturn isEmpty

def startTag (s : Reader) (tag : StartTag) : Except Error Reader := do
  let s ←
    match s.docState with
    | .doneWithXmlDeclaration => pure { s with docState := .mainDocument }
    | .doneWithMainDocument => throw .multipleRoots
    | _ => pure s
  let s ← s.inName tag.name.name tag.name.pre tag.name.localName
  let s ← s.readAttributes tag.attributes
  s.inStartElement tag.isEmpty

/-! ### End tags -/

def inEndElement (behind : Text → ℕ → UInt8) (s : Reader) (name : Text) : Except Error Reader :=
  match s.xmlNodes with
  | _ :: node :: nodes =>
    if !equalUpTo node.name name name.length ∨ byteAt behind node.name name.length ≠ 0 then
      .error .tagMismatch
    else
      .ok { s with
        xmlNodes := node :: nodes
        isDone := s.isDone || nodes.isEmpty
        docState := if nodes.isEmpty then .doneWithMainDocument else s.docState
        nodeType := .endElement
        stateFn := .betweenElements true }
  | _ => .error .unexpectedEndTag

/-! ### Processing instructions, comments and texts -/

/-- `InValue` for a comment, a processing instruction or a CDATA section. -/
def afterValue (s : Reader) (processOnly : Bool) (nodeType : NodeType) : Reader :=
  { s with
    nodeType := if processOnly then s.nodeType else nodeType
    stateFn := .betweenElements true }

/-- At the end of a comment or a processing instruction. -/
def doneAfterRoot (s : Reader) : Reader :=
  { s with isDone := s.isDone || s.docState == .doneWithMainDocument }

/-- The lower-case form in which `hal_stricmp` compares bytes. -/
def lowerCase (b : UInt8) : UInt8 :=
  if 65 ≤ b ∧ b ≤ 90 then b + 32 else b

/-- The steps of the XML declaration: version, encoding, standalone. -/
inductive DeclState where
  | atVersion
  | atEncoding
  | atStandalone
  | done
  deriving DecidableEq

def version : Text := [118, 101, 114, 115, 105, 111, 110]

/-- `1.0` -/
def versionOne : Text := [49, 46, 48]

def encoding : Text := [101, 110, 99, 111, 100, 105, 110, 103]

/-- `utf-8` -/
def utf8 : Text := [117, 116, 102, 45, 56]

def standalone : Text := [115, 116, 97, 110, 100, 97, 108, 111, 110, 101]

/-- `no` -/
def no : Text := [110, 111]

def yes : Text := [121, 101, 115]

/-- One turn of the loop of `InXmlDeclaration` over the attributes. -/
def declarationStep (state : DeclState) (name value : Text) : Option DeclState :=
  if state = .atVersion ∧ equalUpTo name version 8 ∧ equalUpTo value versionOne 4 then
    some .atEncoding
  else if state = .atEncoding ∧ equalUpTo name encoding 9 ∧ value.map lowerCase = utf8 then
    some .atStandalone
  else if (state = .atEncoding ∨ state = .atStandalone) ∧
      equalUpTo name standalone 11 ∧
      (equalUpTo value no 3 ∨ equalUpTo value yes 4) then
    some .done
  else
    none

/-- `InXmlDeclaration`: its attributes are read like those of an element and then checked. -/
def inXmlDeclaration (s : Reader) (attributes : List NamedValue) : Except Error Reader := do
  let s ← s.readAttributes attributes
  let verified := s.attributes.foldlM (fun state a ↦ declarationStep state a.name a.value)
    DeclState.atVersion
  if s.attributes = [] ∨ verified = none then
    throw .invalidXmlDecl
  pure { s with
    attributes := s.attributes.map fun a ↦ { a with namespaceURI := some [] }
    docState := .doneWithXmlDeclaration
    nodeType := .xmlDeclaration
    stateFn := .betweenElements true }

def processingInstruction (settings : Settings) (s : Reader) (target : Text)
    (attributes : List NamedValue) : Except Error Reader := do
  let s ← s.inName target [] target
  if target.map lowerCase = xml then
    if target = xml then
      if s.docState = .start then
        s.inXmlDeclaration attributes
      else
        throw .xmlDeclNotFirst
    else
      throw .invalidPIName
  else
    let s := if s.docState = .start then { s with docState := .doneWithXmlDeclaration } else s
    pure (s.afterValue settings.ignoreProcessingInstructions .processingInstruction).doneAfterRoot

/-- `InValue` for a text; white space at its start changes nothing but where the check is. -/
def text (s : Reader) : Except Error Reader :=
  if s.docState ≠ .mainDocument then
    .error .invalidRootData
  else
    .ok { s with nodeType := .text, stateFn := .newTag }

/-- `InValue` for white space in front of a tag. -/
def whitespace (settings : Settings) (s : Reader) : Except Error Reader :=
  match s.xmlSpaces with
  | [] => .error .invalidOperation
  | xmlSpace :: _ =>
    if xmlSpace = .preserve then
      .ok { s with nodeType := .significantWhitespace, stateFn := .newTag }
    else if settings.ignoreWhitespace then
      .ok { s with stateFn := .newTag }
    else
      .ok { s with nodeType := .whitespace, stateFn := .newTag }

/-! ### Between elements -/

/-- `BetweenElements`: the node of the element that ended is used again for what follows it, and
below a start tag a new node is pushed. -/
def betweenElements (s : Reader) (fromEndElement : Bool) : Except Error Reader :=
  if fromEndElement then
    match s.xmlNodes with
    | [] => .error .invalidOperation
    | node :: nodes =>
      .ok { s with
        namespaces := popScope s.namespaces node.namespaceCount
        xmlSpaces := if node.hasXmlSpace then s.xmlSpaces.tail else s.xmlSpaces
        xmlLangs := if node.hasXmlLang then s.xmlLangs.tail else s.xmlLangs
        isEmptyElement := false
        xmlNodes := XmlNode.clear :: nodes
        attributes := [] }
  else
    .ok { s with xmlNodes := XmlNode.clear :: s.xmlNodes, attributes := [] }

/-- What the reader does before it looks at the next token. -/
def settle (s : Reader) : Except Error Reader :=
  match s.stateFn with
  | .betweenElements fromEndElement => s.betweenElements fromEndElement
  | _ => .ok s

/-- The state `NewTag`, or `InValue` where the token is a text. -/
def token (behind : Text → ℕ → UInt8) (settings : Settings) (s : Reader) :
    Token → Except Error Reader
  | .startTag tag => { s with isDone := false }.startTag tag
  | .endTag name => { s with isDone := false }.inEndElement behind name
  | .processingInstruction target attributes =>
    { s with isDone := false }.processingInstruction settings target attributes
  | .comment =>
    .ok ({ s with isDone := false }.afterValue settings.ignoreComments .comment).doneAfterRoot
  | .cdata =>
    if s.docState ≠ .mainDocument then .error .invalidRootData
    else .ok ({ s with isDone := false }.afterValue false .cdata)
  | .text _ => s.text
  | .whitespace => s.whitespace settings

/-- The state `Start`: all but a processing instruction ends the place for an XML declaration. -/
def start (s : Reader) : Token → Except Error Reader
  | .processingInstruction _ _ => .ok s
  | .text false => .error .unknownEncoding
  | _ => .ok { s with docState := .doneWithXmlDeclaration }

def read (behind : Text → ℕ → UInt8) (settings : Settings) (s : Reader) (token : Token) :
    Except Error Reader := do
  let s ← s.settle
  let s ← if s.stateFn = .start then s.start token else pure s
  s.token behind settings token

/-- The reader takes in a document from its start. -/
def run (behind : Text → ℕ → UInt8) (settings : Settings) (tokens : List Token) :
    Except Error Reader :=
  tokens.foldlM (read behind settings) create

end Reader

end MicroFramework.Xml
