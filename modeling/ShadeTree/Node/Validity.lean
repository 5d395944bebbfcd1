import ShadeTree.Node.Basic

/-!
# Validity and capabilities

Two walks over a tree. `infer` finds the capabilities of every subtree. `validate` finds them too, and
beside them whether each subtree is valid: every node plugged in is one its socket accepts, and every
output has a surface that scatters. Both overwrite whatever was found before.
-/

namespace ShadeTree

/-- The capabilities of a kind together with those found for the nodes plugged in. -/
def Capability.ofNode (kind : NodeKind) (sockets : List (Socket Node)) : Capability :=
  (sockets.filterMap Socket.node?).foldl (fun mask child => mask.union child.mask) kind.intrinsic

/-- The node plugged in, if there is one, was found valid, and the socket accepts what it outputs. -/
def Socket.isSound (s : Socket Node) : Bool :=
  match s.node? with
  | some child => child.valid && s.kind.accepts child.kind.outputKind
  | none => true

namespace Node

/-- What is plugged into the surface was found to scatter. -/
def hasScatteringSurface (n : Node) : Bool :=
  ((n.socket? "Surface").bind Socket.node?).any (·.mask.bsdf)

mutual

/-- The tree with the capabilities of every subtree. -/
def infer (n : Node) : Node :=
  match n with
  | ⟨kind, typeName, _, valid, validated, processed, prepared, sockets⟩ =>
    let sockets := inferIn sockets
    ⟨kind, typeName, .ofNode kind sockets, valid, validated, processed, prepared, sockets⟩
termination_by structural n

/-- The sockets with the capabilities of what is plugged in. -/
def inferIn : List (Socket Node) → List (Socket Node)
  | [] => []
  | ⟨name, kind, .node child⟩ :: rest => ⟨name, kind, .node child.infer⟩ :: inferIn rest
  | s :: rest => s :: inferIn rest
termination_by structural sockets => sockets

end

mutual

/-- The tree with the capabilities and the validity of every subtree. -/
def validate (n : Node) : Node :=
  match n with
  | ⟨kind, typeName, _, _, _, processed, prepared, sockets⟩ =>
    let sockets := validateIn sockets
    let found : Node :=
      ⟨kind, typeName, .ofNode kind sockets, true, true, processed, prepared, sockets⟩
    { found with
      valid := sockets.all Socket.isSound && (kind != .output || found.hasScatteringSurface) }
termination_by structural n

/-- The sockets with what was found of the nodes plugged in. -/
def validateIn : List (Socket Node) → List (Socket Node)
  | [] => []
  | ⟨name, kind, .node child⟩ :: rest => ⟨name, kind, .node child.validate⟩ :: validateIn rest
  | s :: rest => s :: validateIn rest
termination_by structural sockets => sockets

end

end Node

end ShadeTree
