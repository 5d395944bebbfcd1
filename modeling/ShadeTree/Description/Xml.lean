import ShadeTree.Description.Basic
import ShadeTree.Xml.Element

/-!
# Descriptions in XML

A `Material` holds its templates as `Node` elements and its properties as `Property` elements. A
property of type `node` describes a node, by its own attributes or by a `Node` within it; one of type
`ref` names a template; any other is a literal. An attribute that is missing stands in the description,
or, for a template, in a warning.
-/

namespace ShadeTree

open Xml (Element)

namespace PropertyValue

/-- The attribute that gives a value, or that it is missing. -/
def ofAttribute (e : Element) (make : String → PropertyValue) : PropertyValue :=
  match e.get? "value" with
  | some text => make text
  | none => .missing "value"

/-- The node that an element describes, given what it describes of its properties. -/
def nodeOfElement (e : Element) (name : Option String) (properties : List (String × PropertyValue)) :
    PropertyValue :=
  match e.get? "node" with
  | some nodeType => .node (.mk nodeType name properties)
  | none => .missing "node"

mutual

/-- The properties that the elements directly within an element describe, in order. -/
def propertiesOfElements : List Element → List (String × PropertyValue)
  | [] => []
  | e :: rest =>
    if e.isNamed "Property" then ofElement e :: propertiesOfElements rest
    else propertiesOfElements rest

/-- The property that an element describes. -/
def ofElement : Element → String × PropertyValue
  | .mk tag attributes children =>
    let e := Element.mk tag attributes children
    match e.get? "name" with
    | none => ("", .missing "name")
    | some name =>
      match e.get? "type" with
      | some "node" =>
        if (e.get? "node").isSome then (name, nodeOfElement e none (propertiesOfElements children))
        else (name, firstNode children)
      | some "ref" => (name, ofAttribute e .reference)
      | _ => (name, ofAttribute e .literal)

/-- The node that the first `Node` among elements describes, under the name the element gives. -/
def firstNode : List Element → PropertyValue
  | [] => .missing "node"
  | .mk tag attributes children :: rest =>
    let e := Element.mk tag attributes children
    if e.isNamed "Node" then nodeOfElement e (e.get? "name") (propertiesOfElements children)
    else firstNode rest

end

end PropertyValue

/-- The templates that the `Node` elements of a scope describe, added to `known`, and what there is to
tell about the others. A template is found at its place among them. -/
def Templates.ofElements (scope : String) (known : Templates) (index : Nat) :
    List Element → Templates × Report
  | [] => (known, [])
  | e :: rest =>
    let path := s!"{scope}/Node[{index}]"
    let skip (what : String) :=
      let (templates, report) := ofElements scope known (index + 1) rest
      (templates, .missingAttribute path what :: report)
    match e.get? "name" with
    | none => skip "name"
    | some name =>
      match PropertyValue.nodeOfElement e (some name)
          (PropertyValue.propertiesOfElements e.children) with
      | .node desc => ofElements scope (known.put name desc) (index + 1) rest
      | _ => skip "node"

/-- The templates of an element. -/
def Templates.ofElement (scope : String) (e : Element) : Templates × Report :=
  ofElements scope [] 0 (e.children.filter (·.isNamed "Node"))

/-- The description of the material an element stands for, over the templates it shares with
others. -/
def GraphDesc.ofElement (shared : Templates) (e : Element) : GraphDesc :=
  let (own, warnings) := Templates.ofElement "Material" e
  { name := e.get? "name"
    output := .output (PropertyValue.propertiesOfElements e.children)
    templates := Named.overlay own shared
    warnings := warnings }

/-- The description of the library an element stands for. -/
def LibraryDesc.ofElement (e : Element) : LibraryDesc :=
  let (shared, warnings) := Templates.ofElement "Materials" e
  { materials := (e.children.filter (·.isNamed "Material")).map (GraphDesc.ofElement shared)
    warnings := warnings }

/-- The root element of a document, if it has the expected name. -/
def rootOfXml (expected text : String) : Except DocumentError Element :=
  match Element.ofText? text with
  | none => .error .xml
  | some e =>
    if e.isNamed expected then .ok e else .error (.unexpectedRoot expected e.name.base)

/-- Read the XML document of a material. -/
def GraphDesc.ofXmlText (text : String) : Except DocumentError GraphDesc :=
  (rootOfXml "Material" text).map (.ofElement [])

/-- Read the XML document of a library. -/
def LibraryDesc.ofXmlText (text : String) : Except DocumentError LibraryDesc :=
  (rootOfXml "Materials" text).map .ofElement

end ShadeTree
