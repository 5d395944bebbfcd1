import ShadeTree.Node.Basic

/-!
# Registries

The node types that descriptions may name. A type is a node to copy; a copy bears the name it was
created under.
-/

namespace ShadeTree

/-- A registry: node types in ascending order of their names. -/
structure Registry where
  types : List (String × Node)

namespace Registry

/-- No type. -/
def empty : Registry := ⟨[]⟩

/-- The name is registered. -/
def contains (r : Registry) (name : String) : Bool := r.types.any (·.1 == name)

/-- The registered names, ascending. -/
def names (r : Registry) : List String := r.types.map (·.1)

/-- A type put at its place in an ascending list, over one of its name. -/
def insert (name : String) (node : Node) : List (String × Node) → List (String × Node)
  | [] => [(name, node)]
  | entry :: rest =>
    if name = entry.1 then (name, node) :: rest
    else if name < entry.1 then (name, node) :: entry :: rest
    else entry :: insert name node rest

/-- Register a type. A type of the same name is replaced. -/
def register (r : Registry) (name : String) (node : Node) : Registry := ⟨insert name node r.types⟩

/-- The registry of the kinds of the schema, the output apart. -/
def builtin : Registry :=
  (NodeKind.all.filter (· != .output)).foldl (fun r kind => r.register kind.name (.new kind)) empty

/-- A fresh node of a registered type. -/
def create? (r : Registry) (name : String) : Option Node :=
  (r.types.lookup name).map fun node => { node with typeName := name }

/-- The text that tells that a type is not registered. -/
def notFoundMessage (name : String) : String := s!"node type '{name}' is not registered"

/-- A registry's description of itself. -/
def describe (r : Registry) : String :=
  s!"NodeRegistry \x7b names: {Quoted.quoteAll r.names} \x7d"

end Registry

end ShadeTree
