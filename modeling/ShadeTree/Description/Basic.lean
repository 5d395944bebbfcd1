import ShadeTree.Named
import ShadeTree.Warning

/-!
# Descriptions

What a document says about a material before anything is built: node types by name, properties in
order, and templates that references stand for. A property whose value could not be read is kept with
the reason, to be told about when the description is built.
-/

namespace ShadeTree

mutual

/-- A node as it is described. -/
inductive NodeDesc where
  | mk (nodeType : String) (name : Option String) (properties : List (String × PropertyValue))

/-- The value of a property as it is described. -/
inductive PropertyValue where
  /-- The text of a literal. -/
  | literal (text : String)
  /-- A node described on the spot. -/
  | node (desc : NodeDesc)
  /-- The name of a template. -/
  | reference (name : String)
  /-- An attribute that the property needs is missing. -/
  | missing (name : String)
  /-- The value is there but cannot be read. -/
  | invalid (reason : String)

end

namespace NodeDesc

/-- The name of the type of node. -/
def nodeType : NodeDesc → String
  | mk t _ _ => t

/-- The name given to the node. -/
def name : NodeDesc → Option String
  | mk _ n _ => n

/-- The properties in order. -/
def properties : NodeDesc → List (String × PropertyValue)
  | mk _ _ ps => ps

/-- The same description under a name. -/
def withName (d : NodeDesc) (name : String) : NodeDesc := mk d.nodeType (some name) d.properties

end NodeDesc

/-- The node descriptions that references may name. -/
abbrev Templates := Named NodeDesc

/-- The description of a material: the properties of its output node, and the templates visible to
it. -/
structure GraphDesc where
  name : Option String
  output : NodeDesc
  templates : Templates
  /-- What there was to tell about the material's own templates. -/
  warnings : Report

/-- The description of a library: its materials in order. -/
structure LibraryDesc where
  materials : List GraphDesc
  /-- What there was to tell about the templates the materials share. -/
  warnings : Report

/-- The description of an output node. -/
def NodeDesc.output (properties : List (String × PropertyValue)) : NodeDesc :=
  .mk "Output" none properties

/-- Why a document describes nothing. -/
inductive DocumentError where
  /-- The text is no XML document. -/
  | xml
  /-- The text is no JSON document, or not one of the expected fields. -/
  | json
  /-- The root element is another one. -/
  | unexpectedRoot (expected found : String)
  deriving DecidableEq, Repr

/-- The text of the error, where it is this library's own. -/
def DocumentError.message? : DocumentError → Option String
  | unexpectedRoot expected found => some s!"expected <{expected}> root element, found <{found}>"
  | _ => none

end ShadeTree
