import ShadeTree.Xml.Token

/-!
# Elements of XML documents

A document is the tree of its elements, each with its attributes under expanded names. Character data
and comments have their rules but no place in the tree.

A namespace declaration binds a qualifier within its element. Every qualifier used has to be bound, and
no two attributes of an element may have the same expanded name.
-/

namespace ShadeTree.Xml

/-- A name with the namespace its qualifier is bound to. -/
structure ExpandedName where
  space : Option String
  base : String
  deriving DecidableEq, Repr, Inhabited

/-- An element. -/
inductive Element where
  | mk (name : ExpandedName) (attributes : List (ExpandedName × String)) (children : List Element)
  deriving Repr, Inhabited

namespace Element

/-- The expanded name of an element. -/
def name : Element → ExpandedName
  | mk n _ _ => n

/-- The attributes of an element, in order. -/
def attributes : Element → List (ExpandedName × String)
  | mk _ as _ => as

/-- The elements directly within an element, in order. -/
def children : Element → List Element
  | mk _ _ cs => cs

/-- The element has a local name, in whatever namespace. -/
def isNamed (e : Element) (base : String) : Bool := e.name.base == base

/-- The value of the attribute of a name in no namespace. -/
def get? (e : Element) (base : String) : Option String := e.attributes.lookup ⟨none, base⟩

end Element

/-! ### Namespaces -/

/-- The namespace of the qualifier `xml`. -/
def xmlSpace : String := "http://www.w3.org/XML/1998/namespace"

/-- The namespace of the qualifier `xmlns`. -/
def xmlnsSpace : String := "http://www.w3.org/2000/xmlns/"

/-- The qualifiers bound within an element, the innermost first. The default namespace is bound to the
empty qualifier. -/
abbrev Scope := List (String × String)

/-- What the declarations among the attributes bind, if each of them may. -/
def declarations? : List (QualifiedName × String) → Scope → Option Scope
  | [], own => some own
  | (name, value) :: rest, own =>
    if name.qualifier = "xmlns" then
      if value = xmlnsSpace then none
      else if name.base = "xml" then
        if value = xmlSpace then declarations? rest own else none
      else if value = xmlSpace then none
      else if own.any (·.1 == name.base) then none
      else declarations? rest ((name.base, value) :: own)
    else if name.base = "xmlns" then
      if value = xmlSpace || value = xmlnsSpace then none
      else declarations? rest (own ++ [("", value)])
    else declarations? rest own

/-- The attribute declares a namespace. -/
def isDeclaration (name : QualifiedName) : Bool :=
  name.qualifier == "xmlns" || name.base == "xmlns"

/-- The expanded name of an attribute. An attribute without a qualifier is in no namespace. -/
def attributeName? (scope : Scope) (name : QualifiedName) : Option ExpandedName :=
  if name.qualifier = "xml" then some ⟨some xmlSpace, name.base⟩
  else if name.qualifier = "" then some ⟨none, name.base⟩
  else (scope.lookup name.qualifier).map fun space => ⟨some space, name.base⟩

/-- The attributes that are no declarations under their expanded names, if these are distinct. -/
def attributeNames? (scope : Scope) :
    List (QualifiedName × String) → Option (List (ExpandedName × String))
  | [] => some []
  | (name, value) :: rest => do
    let others ← attributeNames? scope rest
    if isDeclaration name then some others
    else do
      let name ← attributeName? scope name
      if others.any (·.1 == name) then none else some ((name, value) :: others)

/-- The expanded name of an element. -/
def elementName? (scope : Scope) (name : QualifiedName) : Option ExpandedName :=
  match scope.lookup name.qualifier with
  | some space => some ⟨some space, name.base⟩
  | none => if name.qualifier = "" then some ⟨none, name.base⟩ else none

/-! ### Building the tree -/

/-- An element still open, with its children so far, last first. -/
structure OpenElement where
  /-- The name that the closing tag has to repeat. -/
  tag : QualifiedName
  name : ExpandedName
  attributes : List (ExpandedName × String)
  scope : Scope
  children : List Element

/-- The state between two tokens: the elements still open, innermost first, and the root once it is
complete. -/
structure Reading where
  opened : List OpenElement
  root : Option Element

namespace Reading

/-- Before the first token. -/
def start : Reading := ⟨[], none⟩

/-- A complete element goes into the innermost open one, or is the root. -/
def deliver (e : Element) : List OpenElement → Reading
  | [] => ⟨[], some e⟩
  | o :: rest => ⟨{ o with children := e :: o.children } :: rest, none⟩

/-- A tag that opens an element. There is one root. -/
def openElement (r : Reading) (tag : QualifiedName) (attributes : List (QualifiedName × String))
    (isEmpty : Bool) : Option Reading :=
  if r.root.isSome || tag.qualifier = "xmlns" then none
  else do
    let own ← declarations? attributes []
    let scope := own ++ ((r.opened.head?.map (·.scope)).getD [])
    let attributes ← attributeNames? scope attributes
    let name ← elementName? scope tag
    if isEmpty then some (deliver (.mk name attributes []) r.opened)
    else some ⟨⟨tag, name, attributes, scope, []⟩ :: r.opened, none⟩

/-- A tag that closes the innermost element. -/
def closeElement (r : Reading) (tag : QualifiedName) : Option Reading :=
  match r.opened with
  | [] => none
  | o :: rest =>
    if o.tag = tag then some (deliver (.mk o.name o.attributes o.children.reverse) rest) else none

/-- One token more. Outside the root only blanks and skipped markup may stand. -/
def step (r : Reading) : Token → Option Reading
  | .openTag tag attributes isEmpty => r.openElement tag attributes isEmpty
  | .closeTag tag => r.closeElement tag
  | .text blank => if blank || !r.opened.isEmpty then some r else none
  | .skipped => some r

end Reading

/-! ### Documents -/

/-- A byte order mark at the front is skipped. -/
def skipMark : List Char → List Char
  | '\ufeff' :: rest => rest
  | cs => cs

/-- A text that goes on with a word, which stands for the attribute of that name. -/
def pseudoAttribute? (word : String) (cs : List Char) : Option (List Char) :=
  if word.toList.isPrefixOf cs then do
    let (_, cs) ← qualifiedName? cs
    let (_, cs) ← quotedValue? cs
    some cs
  else none

/-- The blanks that stand between the parts of a declaration, unless it ends there. -/
def separation? (cs : List Char) : Option (List Char) :=
  match cs with
  | [] => some []
  | '?' :: '>' :: _ => some cs
  | c :: _ => if isSpace c then some (skipSpaces cs) else none

/-- What follows the declaration at the front of a document, if there is one: its version, and after
it an encoding and whether the document stands alone. -/
def skipDeclaration? : List Char → Option (List Char)
  | '<' :: '?' :: 'x' :: 'm' :: 'l' :: ' ' :: rest => do
    let cs ← pseudoAttribute? "version" (skipSpaces rest)
    let cs ← separation? cs
    let cs ← match pseudoAttribute? "encoding" cs with
      | some rest => separation? rest
      | none => some cs
    let cs := (pseudoAttribute? "standalone" cs).getD cs
    match skipSpaces cs with
    | '?' :: '>' :: rest => some rest
    | _ => none
  | cs => some cs

/-- The root element of a document. -/
def Element.ofText? (text : String) : Option Element := do
  let cs ← skipDeclaration? (skipMark text.toList)
  let tokens ← tokens? cs
  let reading ← tokens.foldlM Reading.step .start
  if reading.opened.isEmpty then reading.root else none

end ShadeTree.Xml
