import ShadeTree.Description.Basic
import ShadeTree.Description.Literal
import ShadeTree.Json.Record

/-!
# Descriptions in JSON

A material is an object of its name, its templates and its properties. A property's value is an object
with a `node`, an object with a `ref`, or a literal. What cannot be read stands in the description with
the reason; a template that cannot be read is left out with a warning.
-/

namespace ShadeTree

namespace PropertyValue

/-- The literal that a JSON value is, or why it is none. -/
def literalOfJson (value : Json) : PropertyValue :=
  match Literal.text value with
  | .ok text => .literal text
  | .error e => .invalid e.message

/-- The reference to what a JSON value names, or why it is none. -/
def referenceOfJson : Json → PropertyValue
  | .string target => .reference target
  | other => .invalid s!"reference must be a string, got {other.text}"

/-- The name that the members of an object give. -/
def nameOfMembers (members : List (String × Json)) : Option String :=
  match members.lookup "name" with
  | some (.string name) => some name
  | _ => none

/-- The node that the members of an object describe, given what they describe of its properties. -/
def nodeOfMembers (members : List (String × Json)) (properties : List (String × PropertyValue)) :
    PropertyValue :=
  match members.lookup "node" with
  | some (.string nodeType) =>
    match members.lookup "properties" with
    | some (.object _) | none => .node (.mk nodeType (nameOfMembers members) properties)
    | some other => .invalid s!"properties of '{nodeType}' must be an object, got {other.text}"
  | some other => .invalid s!"node type must be a string, got {other.text}"
  | none => .missing "node"

mutual

/-- The value of a property. -/
def ofJson : Json → PropertyValue
  | .object members =>
    if members.any (·.1 == "node") then nodeOfMembers members (propertiesUnder members)
    else
      match members.lookup "ref" with
      | some target => referenceOfJson target
      | none => literalOfJson (.object members)
  | value => literalOfJson value

/-- The properties that the members of an object describe: those of the object under `properties`. -/
def propertiesUnder : List (String × Json) → List (String × PropertyValue)
  | [] => []
  | (name, .object members) :: rest =>
    if name = "properties" then propertiesOfJson members else propertiesUnder rest
  | (name, _) :: rest => if name = "properties" then [] else propertiesUnder rest

/-- A property for each member of an object, in order. -/
def propertiesOfJson : List (String × Json) → List (String × PropertyValue)
  | [] => []
  | (name, value) :: rest => (name, ofJson value) :: propertiesOfJson rest

end

end PropertyValue

/-- The templates that the members of an object describe, added to `known`, and what there is to tell
about the others. -/
def Templates.ofJson (known : Templates) : List (String × Json) → Templates × Report
  | [] => (known, [])
  | (name, value) :: rest =>
    let path := s!"templates/{name}"
    let skip (warning : Warning) :=
      let (templates, report) := ofJson known rest
      (templates, warning :: report)
    match value with
    | .object members =>
      match PropertyValue.nodeOfMembers members (PropertyValue.propertiesUnder members) with
      | .node desc => ofJson (known.put name (desc.withName name)) rest
      | .missing what => skip (.missingAttribute path what)
      | .invalid reason => skip (.malformedTemplate path reason)
      | .literal _ | .reference _ => ofJson known rest
    | other => skip (.malformedTemplate path s!"expected a node object, got {other.text}")

/-- The fields of a material in a JSON document. -/
structure GraphRecord where
  name : Option String
  templates : List (String × Json)
  properties : List (String × Json)
  deriving Repr

/-- The fields of a library in a JSON document. -/
structure LibraryRecord where
  templates : List (String × Json)
  materials : List GraphRecord
  deriving Repr

/-- The fields of a material, in a part of a document. -/
def GraphRecord.ofWritten? (room : Nat) (w : Json.Written) : Option GraphRecord :=
  if room = 0 then none
  else do
    match ← w.fields? ["name", "templates", "properties"] with
    | [name, templates, properties] =>
      let name ← Json.Written.orElse none Json.Written.string? name
      let templates ← Json.Written.orElse [] (Json.Written.members? (room - 1)) templates
      let properties ← Json.Written.orElse [] (Json.Written.members? (room - 1)) properties
      some ⟨name, templates, properties⟩
    | _ => none

/-- The fields of a library, in a part of a document. -/
def LibraryRecord.ofWritten? (room : Nat) (w : Json.Written) : Option LibraryRecord :=
  if room = 0 then none
  else do
    match ← w.fields? ["templates", "materials"] with
    | [templates, materials] =>
      let templates ← Json.Written.orElse [] (Json.Written.members? (room - 1)) templates
      let materials ← Json.Written.orElse [] (Json.Written.items? (room - 1)) materials
      let materials ← materials.mapM (GraphRecord.ofWritten? (room - 2))
      some ⟨templates, materials⟩
    | _ => none

/-- The description of a material, over the templates it shares with others. -/
def GraphDesc.ofRecord (shared : Templates) (record : GraphRecord) : GraphDesc :=
  let (own, warnings) := Templates.ofJson [] record.templates
  { name := record.name
    output := .output (PropertyValue.propertiesOfJson record.properties)
    templates := Named.overlay own shared
    warnings := warnings }

/-- The description of a library. -/
def LibraryDesc.ofRecord (record : LibraryRecord) : LibraryDesc :=
  let (shared, warnings) := Templates.ofJson [] record.templates
  { materials := record.materials.map (GraphDesc.ofRecord shared)
    warnings := warnings }

/-- Read the JSON document of a material. -/
def GraphDesc.ofJsonText (text : String) : Except DocumentError GraphDesc :=
  match (Json.Written.ofText? text).bind (GraphRecord.ofWritten? Json.greatestDepth) with
  | some record => .ok (.ofRecord [] record)
  | none => .error .json

/-- Read the JSON document of a library. -/
def LibraryDesc.ofJsonText (text : String) : Except DocumentError LibraryDesc :=
  match (Json.Written.ofText? text).bind (LibraryRecord.ofWritten? Json.greatestDepth) with
  | some record => .ok (.ofRecord record)
  | none => .error .json

end ShadeTree
