import ShadeTree.Config
import ShadeTree.Node.Shading
import ShadeTree.Warning

/-!
# Preparation

Preparation passes every node once, the nodes plugged in before the node itself. It leaves the
configured colour on an output, a handle to its texture on an image texture, and on a value node that
does not vary the value it resolves to. A texture that is not loaded is told about by the path of the
node: the names of the sockets and types on the way down from the root.

Resetting a tree takes back all that was found out about it; to withdraw it is to release its handles
as well.
-/

namespace ShadeTree

/-- The path of what is plugged into a socket, by the path of the socket and the type plugged in. -/
def childPath (path socket typeName : String) : String := s!"{path}/{socket}({typeName})"

namespace Node

/-- A value node that does not vary, with every node plugged into it folded. -/
def isFoldable (n : Node) : Bool :=
  n.kind.outputKind == .value && !n.kind.intrinsic.varying &&
    n.children.all fun child => child.folded?.isSome

/-- The name in the texture socket, empty when there is no text in it. -/
def textureName (n : Node) : String := ((n.socket? "Texture").bind Socket.text?).getD ""

/-- What preparation leaves on a node once all that is plugged into it was passed. -/
def settle (config : Config) (path : String) (n : Node) (textures : Pool Image) :
    Node × Pool Image × Report :=
  match n.kind with
  | .output => ({ n with prepared := .fallback config.fallbackColor }, textures, [])
  | .imageTexture =>
    match textures.find? n.textureName with
    | some (h, textures) => ({ n with prepared := .texture (some h) }, textures, [])
    | none =>
      ({ n with prepared := .texture none }, textures, [.missingTexture path n.textureName])
  | _ =>
    if config.foldConstants && n.isFoldable then
      ({ n with prepared := .folded (n.resolve .origin) }, textures, [])
    else (n, textures, [])

mutual

/-- The tree prepared, the pool with the handles it took, and what there is to tell. A node that was
passed before is left as it is, with all below it. -/
def processAt (config : Config) (path : String) (n : Node) (textures : Pool Image) :
    Node × Pool Image × Report :=
  match n with
  | ⟨kind, typeName, mask, valid, validated, processed, prepared, sockets⟩ =>
    if processed then (n, textures, [])
    else
      let (sockets, textures, below) := processIn config path sockets textures
      let (n, textures, own) :=
        settle config path ⟨kind, typeName, mask, valid, validated, true, prepared, sockets⟩ textures
      (n, textures, below ++ own)
termination_by structural n

/-- The sockets with the nodes plugged in prepared. -/
def processIn (config : Config) (path : String) (sockets : List (Socket Node))
    (textures : Pool Image) : List (Socket Node) × Pool Image × Report :=
  match sockets with
  | [] => ([], textures, [])
  | ⟨name, kind, .node child⟩ :: rest =>
    let (child, textures, own) :=
      processAt config (childPath path name child.typeName) child textures
    let (rest, textures, others) := processIn config path rest textures
    (⟨name, kind, .node child⟩ :: rest, textures, own ++ others)
  | s :: rest =>
    let (rest, textures, report) := processIn config path rest textures
    (s :: rest, textures, report)
termination_by structural sockets

end

/-- The tree prepared, with paths that start at its own type. -/
def process (config : Config) (n : Node) (textures : Pool Image) : Node × Pool Image × Report :=
  processAt config n.typeName n textures

mutual

/-- The tree as if nothing had been found out about it. -/
def reset (n : Node) : Node :=
  match n with
  | ⟨kind, typeName, _, _, _, _, _, sockets⟩ =>
    ⟨kind, typeName, .none, false, false, false, .none, resetIn sockets⟩
termination_by structural n

/-- The sockets with the nodes plugged in reset. -/
def resetIn : List (Socket Node) → List (Socket Node)
  | [] => []
  | ⟨name, kind, .node child⟩ :: rest => ⟨name, kind, .node child.reset⟩ :: resetIn rest
  | s :: rest => s :: resetIn rest
termination_by structural sockets => sockets

end

/-- The tree reset, and the pool without the handles it held. -/
def withdraw (n : Node) (textures : Pool Image) : Node × Pool Image :=
  (n.reset, textures.releaseAll n.handles)

end Node

end ShadeTree
