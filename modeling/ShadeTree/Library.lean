import ShadeTree.Graph

/-!
# Material libraries

A library imports materials in bulk and hands out counted handles to them. Each description is
assembled, prepared and registered under its name; the first definition of a name stands. A material
holds its textures until the library and every handle to the material are gone.
-/

namespace ShadeTree

/-- A named graph, prepared. -/
structure Material where
  name : String
  graph : Graph

namespace Material

/-- A graph prepared under a name. -/
def prepared (config : Config) (name : String) (graph : Graph) (textures : Pool Image) :
    Material × Pool Image × Report :=
  let (graph, textures, report) := { graph with name := some name }.prepare config textures
  (⟨name, graph⟩, textures, report)

/-- The handles a material holds. -/
def handles (m : Material) : List (Handle Image) := m.graph.root.handles

end Material

/-- What an import did. -/
structure ImportReport where
  /-- The names that were registered. -/
  imported : List String
  /-- The names that were skipped, since they were registered before. -/
  duplicates : List String
  warnings : Report

namespace ImportReport

/-- Before the first description. -/
def start (warnings : Report) : ImportReport := ⟨[], [], warnings⟩

/-- There was nothing to tell. -/
def isClean (r : ImportReport) : Bool := r.warnings.isEmpty

end ImportReport

/-- A library: its materials, and the one to use where none is found. -/
structure Library where
  materials : Pool Material
  fallback : Option Material

namespace Library

/-- The name of the material to use where none is found. -/
def fallbackName : String := "default"

/-- The kind of resource a library's pool holds. -/
def poolKind : String := "material"

/-- The state before the first library: a pool that is not open. -/
def closed : Library := ⟨{ Pool.empty poolKind with isOpen := false }, none⟩

/-- The library has not been torn down. -/
def isOpen (l : Library) : Bool := l.materials.isOpen

/-- A fresh library in the place of one that was torn down. -/
def reopen (ctx : Context) (l : Library) (textures : Pool Image) : Library × Pool Image :=
  let (fallback, textures, _) := Material.prepared ctx.config fallbackName .new textures
  (⟨l.materials.reopen poolKind, some fallback⟩, textures)

/-- The path of a description in an import. -/
def importPath (index : Nat) : String := s!"Materials[{index}]"

/-- Import one description. -/
def importOne (ctx : Context) (index : Nat) (desc : GraphDesc) (l : Library)
    (textures : Pool Image) (r : ImportReport) : Library × Pool Image × ImportReport :=
  match desc.name with
  | none =>
    (l, textures, { r with
      warnings := r.warnings ++ [.missingAttribute (importPath index) "name"] })
  | some name =>
    if l.materials.contains name then
      (l, textures, { r with
        duplicates := r.duplicates ++ [name]
        warnings := r.warnings ++ [.duplicateMaterial (importPath index) name] })
    else
      let (graph, parsed) := Graph.ofDesc ctx desc
      let (material, textures, prepared) := Material.prepared ctx.config name graph textures
      let warnings := r.warnings ++ parsed ++ prepared
      match l.materials.create name material with
      | .ok materials =>
        ({ l with materials := materials }, textures,
          { r with imported := r.imported ++ [name], warnings := warnings })
      | .error _ =>
        (l, textures.releaseAll material.handles,
          { r with duplicates := r.duplicates ++ [name], warnings := warnings })

/-- Import descriptions, the first of them at an index. -/
def importFrom (ctx : Context) (index : Nat) :
    List GraphDesc → Library → Pool Image → ImportReport → Library × Pool Image × ImportReport
  | [], l, textures, r => (l, textures, r)
  | desc :: rest, l, textures, r =>
    let (l, textures, r) := importOne ctx index desc l textures r
    importFrom ctx (index + 1) rest l textures r

/-- Import every description of a library, after what there was to tell about it. -/
def importAll (ctx : Context) (desc : LibraryDesc) (l : Library) (textures : Pool Image) :
    Library × Pool Image × ImportReport :=
  importFrom ctx 0 desc.materials l textures (.start desc.warnings)

/-- A handle to the material of a name. -/
def find? (l : Library) (name : String) : Option (Handle Material × Library) :=
  (l.materials.find? name).map fun (h, materials) => (h, { l with materials := materials })

/-- One more handle to a material. -/
def clone (l : Library) (h : Handle Material) : Library :=
  { l with materials := l.materials.clone h }

/-- One handle to a material fewer. A material that nothing holds any longer releases its textures. -/
def release (l : Library) (h : Handle Material) (textures : Pool Image) : Library × Pool Image :=
  let (materials, freed) := l.materials.release h
  ({ l with materials := materials }, textures.releaseAll (freed.toList.flatMap Material.handles))

/-- What is left of a library as it goes, once its pool is torn down: the materials without handles
release their textures. -/
def close (l : Library) (torn : Teardown × Pool Material × List Material) (textures : Pool Image) :
    Teardown × Library × Pool Image :=
  let (teardown, materials, freed) := torn
  (teardown, ⟨materials, none⟩,
    textures.releaseAll ((freed ++ l.fallback.toList).flatMap Material.handles))

/-- Tear the library down in good order. -/
def shutdown (l : Library) (textures : Pool Image) : Teardown × Library × Pool Image :=
  l.close l.materials.shutdown textures

/-- Let the library go as it is. -/
def drop (l : Library) (textures : Pool Image) : Teardown × Library × Pool Image :=
  l.close l.materials.drop textures

/-- A library's description of itself. -/
def describe (l : Library) : String :=
  s!"MaterialLibrary \x7b materials: {Quoted.quoteAll l.materials.names} \x7d"

end Library

end ShadeTree
