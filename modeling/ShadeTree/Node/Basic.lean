import ShadeTree.Image
import ShadeTree.Pool.Basic
import ShadeTree.Schema
import ShadeTree.Tuple

/-!
# Nodes

A shade tree is a tree of nodes. Each socket of a node holds a literal, a text or a node plugged into
it. Besides what the tree says, a node keeps what was found out about it: its validity, the
capabilities of its subtree, and what preparation left, which may be a handle to a texture.

Editing is by socket. A subtree that an edit takes out of a tree comes back with the edited node, for
the caller to keep or to let go of its handles.
-/

namespace ShadeTree

/-- What a socket holds, over a type of nodes. -/
inductive Link (ν : Type) where
  | literal (v : Value)
  | text (s : String)
  | node (n : ν)

/-- A socket, over a type of nodes. -/
structure Socket (ν : Type) where
  name : String
  kind : SocketKind
  link : Link ν

/-- What preparation left on a node. -/
inductive Prepared where
  | none
  /-- The value the node resolves to everywhere. -/
  | folded (v : Value)
  /-- The texture that was looked up, if it was loaded. -/
  | texture (handle : Option (Handle Image))
  /-- The colour to shade with when the material is invalid. -/
  | fallback (color : Spectrum)

/-- A node with everything plugged into it. -/
structure Node where
  kind : NodeKind
  /-- The name of the type the node was created under. -/
  typeName : String
  /-- The capabilities of the subtree, as they were last found. -/
  mask : Capability
  valid : Bool
  /-- The validity was found out since the last reset. -/
  validated : Bool
  /-- Preparation has passed the node since the last reset. -/
  processed : Bool
  prepared : Prepared
  sockets : List (Socket Node)

/-! ### Sockets -/

namespace Socket

variable {ν : Type}

/-- A socket with nothing plugged in: an empty text, or the literal it starts with. -/
def ofSpec (spec : SocketSpec) : Socket ν :=
  match spec.kind with
  | .text => ⟨spec.name, spec.kind, .text ""⟩
  | _ => ⟨spec.name, spec.kind, .literal spec.initial⟩

/-- The node plugged in. -/
def node? (s : Socket ν) : Option ν :=
  match s.link with
  | .node n => some n
  | _ => none

/-- The literal it holds. -/
def literal? (s : Socket ν) : Option Value :=
  match s.link with
  | .literal v => some v
  | _ => none

/-- The text it holds. -/
def text? (s : Socket ν) : Option String :=
  match s.link with
  | .text t => some t
  | _ => none

/-- The socket with a literal in it. A text socket takes the text as it is; any other reads it as a
tuple. -/
def setLiteral (s : Socket ν) (text : String) : Socket ν × Tuple :=
  match s.kind with
  | .text => ({ s with link := .text text }, .zero)
  | _ =>
    let tuple := Tuple.ofText text
    ({ s with link := .literal tuple.value }, tuple)

/-- The socket with a node plugged in. -/
def connect (s : Socket ν) (n : ν) : Socket ν := { s with link := .node n }

/-- The socket with no node plugged in: where there was one, an empty text or zero is left. -/
def disconnect (s : Socket ν) : Socket ν :=
  match s.link with
  | .node _ =>
    match s.kind with
    | .text => { s with link := .text "" }
    | _ => { s with link := .literal .zero }
  | _ => s

end Socket

/-! ### Nodes -/

namespace Node

/-- A node of a kind, with nothing plugged in. -/
def new (kind : NodeKind) : Node :=
  { kind := kind
    typeName := kind.name
    mask := .none
    valid := false
    validated := false
    processed := false
    prepared := .none
    sockets := kind.sockets.map Socket.ofSpec }

/-- The first socket of a name. -/
def socket? (n : Node) (name : String) : Option (Socket Node) := n.sockets.find? (·.name == name)

/-- The nodes plugged into the sockets, in order. -/
def children (n : Node) : List Node := n.sockets.filterMap Socket.node?

/-- The value that preparation folded the node to. -/
def folded? (n : Node) : Option Value :=
  match n.prepared with
  | .folded v => some v
  | _ => none

/-- The texture that preparation bound to the node. -/
def texture? (n : Node) : Option (Handle Image) :=
  match n.prepared with
  | .texture h => h
  | _ => none

mutual

/-- The number of nodes in the tree. -/
def count (n : Node) : Nat :=
  match n with
  | ⟨_, _, _, _, _, _, _, sockets⟩ => 1 + countIn sockets
termination_by structural n

/-- The number of nodes plugged into sockets, with all below them. -/
def countIn : List (Socket Node) → Nat
  | [] => 0
  | ⟨_, _, .node child⟩ :: rest => child.count + countIn rest
  | _ :: rest => countIn rest
termination_by structural sockets => sockets

end

mutual

/-- The handles that the nodes of the tree hold. -/
def handles (n : Node) : List (Handle Image) :=
  match n with
  | ⟨_, _, _, _, _, _, .texture (some h), sockets⟩ => h :: handlesIn sockets
  | ⟨_, _, _, _, _, _, _, sockets⟩ => handlesIn sockets
termination_by structural n

/-- The handles that the nodes plugged into sockets hold, with all below them. -/
def handlesIn : List (Socket Node) → List (Handle Image)
  | [] => []
  | ⟨_, _, .node child⟩ :: rest => child.handles ++ handlesIn rest
  | _ :: rest => handlesIn rest
termination_by structural sockets => sockets

end

/-! ### Editing -/

/-- The sockets with another one in the place of the first of its name. -/
def replaceIn (s : Socket Node) : List (Socket Node) → List (Socket Node)
  | [] => []
  | t :: rest => if t.name = s.name then s :: rest else t :: replaceIn s rest

/-- The node with another socket in the place of the first of its name. -/
def withSocket (n : Node) (s : Socket Node) : Node := { n with sockets := replaceIn s n.sockets }

/-- The node with a literal in the socket of a name, what was read, and the node that was plugged in
there. -/
def setLiteral (n : Node) (name text : String) : Option (Node × Tuple × Option Node) :=
  (n.socket? name).map fun s =>
    let (s', tuple) := s.setLiteral text
    (n.withSocket s', tuple, s.node?)

/-- The node with another plugged into the socket of a name, and the one that was plugged in there. -/
def connect (n : Node) (name : String) (child : Node) : Option (Node × Option Node) :=
  (n.socket? name).map fun s => (n.withSocket (s.connect child), s.node?)

/-- The node with nothing plugged into the socket of a name, and the one that was plugged in there. -/
def disconnect (n : Node) (name : String) : Option (Node × Option Node) :=
  (n.socket? name).map fun s => (n.withSocket s.disconnect, s.node?)

/-- The node reached through the sockets of a path. -/
def at? (n : Node) : List String → Option Node
  | [] => some n
  | name :: path => ((n.socket? name).bind Socket.node?).bind (at? · path)

/-- The tree with another node at a path. -/
def putAt (n : Node) (new : Node) : List String → Node
  | [] => new
  | name :: path =>
    match n.socket? name with
    | some s =>
      match s.node? with
      | some child => n.withSocket (s.connect (putAt child new path))
      | none => n
    | none => n

end Node

end ShadeTree
