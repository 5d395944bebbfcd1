import ShadeTree.Assembly
import ShadeTree.Node.Validity

/-!
# Material graphs

A material graph is a named tree under an output node. It is assembled from a description, prepared,
and shaded. To edit it is to withdraw it first, so that it shades as an invalid material until it is
prepared again.
-/

namespace ShadeTree

/-- A material graph. -/
structure Graph where
  name : Option String
  root : Node

namespace Graph

/-- An output node with nothing plugged in. -/
def new : Graph := ⟨none, .new .output⟩

/-- The graph of a description, and what there is to tell about it. -/
def ofDesc (ctx : Context) (desc : GraphDesc) : Graph × Report :=
  let assembly := ctx.assemble desc.templates desc.output (.new .output)
  (⟨desc.name, assembly.node⟩, desc.warnings ++ assembly.report)

/-- The graph as it may be edited: nothing found out about it stands any longer, and its handles are
released. -/
def withdraw (g : Graph) (textures : Pool Image) : Graph × Pool Image :=
  let (root, textures) := g.root.withdraw textures
  ({ g with root := root }, textures)

/-- The graph was validated and prepared since it was last edited. -/
def isPrepared (g : Graph) : Bool := g.root.validated && g.root.processed

/-- Validate the graph, then prepare it. -/
def prepare (config : Config) (g : Graph) (textures : Pool Image) : Graph × Pool Image × Report :=
  let (root, textures, report) := g.root.validate.process config textures
  ({ g with root := root }, textures, report)

end Graph

end ShadeTree
