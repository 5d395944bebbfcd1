import ShadeTree.Library

/-!
# The workbench

Everything that is alive in a run: named trees and graphs on which nothing else has a hold, the
lobes composed so far, a library with the handles taken from it, and the textures they all refer to.
A command is a step from one workbench to the next. It may fail, and what it did before it failed
stands.

A tree belongs to the workbench until it is plugged into another or let go; what is let go releases
its textures. So the count of a texture is always the number of nodes that hold it.
-/

namespace ShadeTree

/-- Why a command fails. -/
inductive Fault where
  /-- No tree or graph of that name, or nothing plugged in on the way. -/
  | noSuchNode
  /-- No socket of that name. -/
  | noSuchSocket
  /-- No handle of that name. -/
  | noHandle
  /-- There is no library. -/
  | noLibrary
  /-- The type is not registered. -/
  | unregistered (nodeType : String)
  | pool (e : PoolError)
  | image (e : ImageError)
  | document (e : DocumentError)
  deriving Repr

/-- The text of the fault, where it has one. -/
def Fault.message? : Fault → Option String
  | unregistered nodeType => some (Registry.notFoundMessage nodeType)
  | pool e => some e.message
  | image e => some e.message
  | document e => e.message?
  | _ => none

/-! ### Blueprints -/

/-- Where a node comes from. -/
inductive Source where
  /-- A new node of a kind. -/
  | kind (k : NodeKind)
  /-- A fresh node of a registered type. -/
  | type (name : String)
  /-- A tree of the workbench. -/
  | take (id : String)
  deriving Repr

/-- How to build a node: where it comes from, the literals to set, and what to plug in. -/
inductive Blueprint where
  | mk (source : Source) (literals : List (String × String)) (plugs : List (String × Blueprint))
  deriving Repr

/-! ### State -/

/-- Everything that is alive in a run. -/
structure Workbench where
  context : Context
  textures : Pool Image
  /-- The trees that are not plugged in anywhere. -/
  nodes : Named Node
  graphs : Named Graph
  bsdf : Bsdf
  library : Library
  /-- The handles taken from the library. -/
  handles : Named (Handle Material)

/-- A command: a step of the workbench that answers or fails. -/
abbrev Command (β : Type) := ExceptT Fault (StateM Workbench) β

/-- The tree or graph that a command is about. -/
inductive Owner where
  | node (id : String)
  | graph (id : String)
  deriving Repr

/-- The node that a command is about: the one reached through the sockets of a path. -/
structure Target where
  owner : Owner
  path : List String
  deriving Repr

namespace Workbench

/-- The kind of resource the texture pool holds. -/
def textureKind : String := "texture"

/-- A workbench with nothing on it. -/
def new (context : Context) : Workbench :=
  { context := context
    textures := .empty textureKind
    nodes := []
    graphs := []
    bsdf := .empty
    library := .closed
    handles := [] }

/-- A thing, or the fault that there is none. -/
def require {β : Type} (fault : Fault) : Option β → Command β
  | some b => pure b
  | none => throw fault

/-- Let trees go: they release their textures. -/
def letGo (ns : List Node) : Command Unit :=
  modify fun w => { w with textures := w.textures.releaseAll (ns.flatMap Node.handles) }

/-! ### Environment -/

/-- Register a texture. -/
def addTexture (name : String) (image : Image) : Command Unit := do
  match (← get).textures.create name image with
  | .ok textures => modify fun w => { w with textures := textures }
  | .error e => throw (.pool e)

/-- Give up a texture that no node holds. -/
def removeTexture (name : String) : Command Image := do
  match (← get).textures.unregister name with
  | .ok (image, textures) =>
    modify fun w => { w with textures := textures }
    pure image
  | .error e => throw (.pool e)

/-- Tear the textures down. An empty pool takes their place. -/
def shutdownTextures : Command Teardown := do
  let (teardown, textures, _) := (← get).textures.shutdown
  modify fun w => { w with textures := textures.reopen textureKind }
  pure teardown

/-- Go by another configuration from here on. -/
def configure (config : Config) : Command Unit :=
  modify fun w => { w with context := { w.context with config := config } }

/-! ### Building -/

/-- A node from where it comes. A tree is taken off the workbench. -/
def obtain : Source → Command Node
  | .kind k => pure (.new k)
  | .type name => do require (.unregistered name) ((← get).context.registry.create? name)
  | .take id => do
    let n ← require .noSuchNode ((← get).nodes.get? id)
    modify fun w => { w with nodes := w.nodes.erase id }
    pure n

/-- Set literals on a node. If one has no socket the node is let go. -/
def setAll (n : Node) : List (String × String) → Command Node
  | [] => pure n
  | (socket, text) :: rest => do
    match n.setLiteral socket text with
    | some (n', _, old) =>
      letGo old.toList
      setAll n' rest
    | none =>
      letGo [n]
      throw .noSuchSocket

/-- Plug a built node into another. If it has no socket both are let go. -/
def plug (n : Node) (socket : String) (child : Node) : Command Node := do
  match n.connect socket child with
  | some (n', old) =>
    letGo old.toList
    pure n'
  | none =>
    letGo [n, child]
    throw .noSuchSocket

mutual

/-- Build a node. -/
def build : Blueprint → Command Node
  | .mk source literals plugs => do
    let n ← obtain source
    let n ← setAll n literals
    plugAll n plugs

/-- Build nodes and plug them into another, in order. If one cannot be built the node is let go. -/
def plugAll (n : Node) : List (String × Blueprint) → Command Node
  | [] => pure n
  | (socket, b) :: rest => do
    let child ← tryCatch (build b) fun fault => do
      letGo [n]
      throw fault
    let n ← plug n socket child
    plugAll n rest

end

/-- Put a tree on the workbench. The one of its name is let go. -/
def place (id : String) (n : Node) : Command Unit := do
  letGo ((← get).nodes.get? id).toList
  modify fun w => { w with nodes := w.nodes.put id n }

/-- Build a node and put it on the workbench. -/
def buildAs (id : String) (b : Blueprint) : Command Node := do
  let n ← build b
  place id n
  pure n

/-- Register what a blueprint builds as a node type. It answers whether the name was registered. -/
def register (name : String) (b : Blueprint) : Command Bool := do
  let n ← build b
  let known := (← get).context.registry.contains name
  modify fun w =>
    { w with context := { w.context with registry := w.context.registry.register name n } }
  pure known

/-- Put a graph on the workbench. The one of its name is let go. -/
def placeGraph (id : String) (g : Graph) : Command Unit := do
  letGo (((← get).graphs.get? id).map (·.root)).toList
  modify fun w => { w with graphs := w.graphs.put id g }

/-- Assemble a described graph. -/
def loadGraph (id : String) (desc : GraphDesc) : Command Report := do
  let (g, report) := Graph.ofDesc (← get).context desc
  placeGraph id g
  pure report

/-- Let a tree or a graph go. It answers whether there was one. -/
def discard : Owner → Command Bool
  | .node id => do
    let old := (← get).nodes.get? id
    letGo old.toList
    modify fun w => { w with nodes := w.nodes.erase id }
    pure old.isSome
  | .graph id => do
    let old := (← get).graphs.get? id
    letGo (old.map (·.root)).toList
    modify fun w => { w with graphs := w.graphs.erase id }
    pure old.isSome

/-! ### Reaching nodes -/

/-- The root of a tree or graph. -/
def root (owner : Owner) : Command Node := do
  match owner with
  | .node id => require .noSuchNode ((← get).nodes.get? id)
  | .graph id => require .noSuchNode (((← get).graphs.get? id).map (·.root))

/-- Put another root in the place of one. -/
def putRoot (owner : Owner) (n : Node) : Command Unit :=
  match owner with
  | .node id => modify fun w => { w with nodes := w.nodes.put id n }
  | .graph id => modify fun w =>
    match w.graphs.get? id with
    | some g => { w with graphs := w.graphs.put id { g with root := n } }
    | none => w

/-- The node a command looks at. -/
def look (t : Target) : Command Node := do
  require .noSuchNode ((← root t.owner).at? t.path)

/-- The socket a command looks at. -/
def lookAt (t : Target) (socket : String) : Command (Socket Node) := do
  require .noSuchSocket ((← look t).socket? socket)

/-- Reset a node with all below it, which gives its handles back. -/
def withdraw (n : Node) : Command Node := do
  let (n, textures) := n.withdraw (← get).textures
  modify fun w => { w with textures := textures }
  pure n

/-- The root that a command edits. A graph is withdrawn first. -/
def rootToEdit (owner : Owner) : Command Node := do
  let n ← root owner
  match owner with
  | .node _ => pure n
  | .graph _ => do
    let n ← withdraw n
    putRoot owner n
    pure n

/-- Put what becomes of a node in its place in a tree, and the tree in its own. -/
def amend {β : Type} (t : Target) (whole : Node) (f : Node → Command (Node × β)) : Command β := do
  let n ← require .noSuchNode (whole.at? t.path)
  let (n, b) ← f n
  putRoot t.owner (whole.putAt n t.path)
  pure b

/-- Edit a node in its place. A graph that has `lent` its root is not withdrawn again. -/
def edit {β : Type} (t : Target) (f : Node → Command (Node × β)) (lent : Bool := false) :
    Command β := do
  let whole ← if lent then root t.owner else rootToEdit t.owner
  amend t whole f

/-! ### Edits -/

/-- Set a literal. -/
def setLiteral (t : Target) (socket text : String) (lent : Bool := false) : Command Tuple := do
  let (tuple, old) ← edit t (fun n => require .noSuchSocket (n.setLiteral socket text)) lent
  letGo old.toList
  pure tuple

/-- Keep under a name what came out of a tree, or let it go. It answers its type. -/
def keep (old : Option Node) (into : Option String) : Command (Option String) := do
  match old, into with
  | some n, some id => place id n
  | some n, none => letGo [n]
  | none, _ => pure ()
  pure (old.map (·.typeName))

/-- Build a node and plug it in. The node it replaced is kept under a name or let go, and its type
answered. -/
def replace (t : Target) (socket : String) (b : Blueprint) (into : Option String)
    (lent : Bool := false) : Command (Option String) := do
  let child ← build b
  let plugIn := edit t (fun n => require .noSuchSocket (n.connect socket child)) lent
  let old ← tryCatch plugIn fun fault => do
    letGo [child]
    throw fault
  keep old into

/-- Build a node and plug it in. The node it replaced is let go, and its type answered. -/
def connect (t : Target) (socket : String) (b : Blueprint) : Command (Option String) :=
  replace t socket b none

/-- Take out what is plugged in, to be kept under a name or let go. It answers its type. -/
def disconnect (t : Target) (socket : String) (into : Option String) (lent : Bool := false) :
    Command (Option String) := do
  let old ← edit t (fun n => require .noSuchSocket (n.disconnect socket)) lent
  keep old into

/-- Reset a node with all below it. -/
def reset (t : Target) (lent : Bool := false) : Command Unit :=
  edit t (fun n => do pure (← withdraw n, ())) lent

/-- Find the capabilities of a node and of all below it. -/
def infer (t : Target) (lent : Bool := false) : Command Capability :=
  edit t (fun n => pure (n.infer, n.infer.mask)) lent

/-- Assemble a description into a node of a tree. -/
def assemble (t : Target) (desc : NodeDesc) (templates : Templates) (lent : Bool := false) :
    Command Report := do
  let context := (← get).context
  let fill := fun n =>
    let a := context.assemble templates desc n
    pure (a.node, a.report, a.displaced)
  let (report, old) ← edit t fill lent
  letGo old
  pure report

/-- Name a graph. -/
def setName (id name : String) : Command String := do
  let g ← require .noSuchNode ((← get).graphs.get? id)
  modify fun w => { w with graphs := w.graphs.put id { g with name := some name } }
  pure name

/-! ### Preparation -/

/-- The node that a command prepares: of a graph it is the root, if that is not lent. -/
def toPrepare (t : Target) (lent : Bool := false) : Target :=
  match t.owner, lent with
  | .graph _, false => { t with path := [] }
  | _, _ => t

/-- Change a node in its place, without withdrawing a graph. -/
def change {β : Type} (t : Target) (f : Node → Command (Node × β)) (lent : Bool := false) :
    Command β := do
  let t := toPrepare t lent
  let whole ← root t.owner
  amend t whole f

/-- Validate a node with all below it. -/
def check (t : Target) (lent : Bool := false) : Command Bool :=
  change t (fun n => pure (n.validate, n.validate.valid)) lent

/-- What is prepared, with all below it, takes its handles. -/
def settle (n : Node) : Command (Node × Report) := do
  let w ← get
  let (n, textures, report) := n.process w.context.config w.textures
  modify fun w => { w with textures := textures }
  pure (n, report)

/-- Prepare a node with all below it. -/
def process (t : Target) (lent : Bool := false) : Command Report := change t settle lent

/-- Validate and prepare a graph. -/
def prepare (id : String) : Command Report := do
  let w ← get
  let g ← require .noSuchNode (w.graphs.get? id)
  let (g, textures, report) := g.prepare w.context.config w.textures
  modify fun w => { w with textures := textures, graphs := w.graphs.put id g }
  pure report

/-! ### Shading -/

/-- Compose the lobes of a node. It answers how many there are now. -/
def shade (t : Target) (p : ShadingPoint) (weight : Spectrum) : Command Nat := do
  let n ← look t
  modify fun w => { w with bsdf := n.compose p weight w.bsdf }
  pure (← get).bsdf.size

/-- Compose the lobes of what is plugged into a socket. It answers how many there are now. -/
def accumulate (t : Target) (socket : String) (p : ShadingPoint) (weight : Spectrum) :
    Command Nat := do
  let s ← lookAt t socket
  modify fun w => { w with bsdf := s.compose p weight w.bsdf }
  pure (← get).bsdf.size

/-- Take the lobes composed so far. -/
def takeBsdf : Command Bsdf := do
  let b := (← get).bsdf
  modify fun w => { w with bsdf := .empty }
  pure b

/-! ### The library -/

/-- The library, if there is one. -/
def openLibrary : Command Library := do
  let l := (← get).library
  if l.isOpen then pure l else throw .noLibrary

/-- The library that was there is let go, and a new one opened. It answers the material to use where
none is found. -/
def newLibrary : Command (Option Material) := do
  let w ← get
  let (_, library, textures) := w.library.drop w.textures
  let (library, textures) := library.reopen w.context textures
  modify fun w => { w with library := library, textures := textures }
  pure library.fallback

/-- Import descriptions. -/
def importAll (desc : LibraryDesc) : Command ImportReport := do
  let l ← openLibrary
  let w ← get
  let (library, textures, report) := l.importAll w.context desc w.textures
  modify fun w => { w with library := library, textures := textures }
  pure report

/-- Give back the handle of a name, if there is one. -/
def dropHandle (key : String) : Command Unit := do
  let w ← get
  match w.handles.get? key with
  | none => pure ()
  | some h =>
    let (library, textures) := w.library.release h w.textures
    set { w with library := library, textures := textures, handles := w.handles.erase key }

/-- Keep a handle under a name. The one of that name is given back. -/
def keepHandle (key : String) (h : Handle Material) : Command Unit := do
  dropHandle key
  modify fun w => { w with handles := w.handles.put key h }

/-- Take a handle to a material, to be kept under a name. -/
def findMaterial (name key : String) : Command (Option Material) := do
  let l ← openLibrary
  match l.find? name with
  | none => pure none
  | some (h, library) =>
    modify fun w => { w with library := library }
    keepHandle key h
    pure (some h.value)

/-- The handle of a name. -/
def handle (key : String) : Command (Handle Material) := do
  require .noHandle ((← get).handles.get? key)

/-- One more handle like the one of a name, to be kept under another. It answers the count before a
handle of that other name is given back. -/
def cloneHandle (key newKey : String) : Command (String × Nat) := do
  let h ← handle key
  modify fun w => { w with library := w.library.clone h }
  let count := (← get).library.materials.count h
  keepHandle newKey h
  pure (h.name, count)

/-- Give back the handle of a name. -/
def releaseHandle (key : String) : Command Unit := do
  let _ ← handle key
  dropHandle key

/-- Tear the library down. -/
def shutdownLibrary : Command Teardown := do
  let l ← openLibrary
  let (teardown, library, textures) := l.shutdown (← get).textures
  modify fun w => { w with library := library, textures := textures }
  pure teardown

end Workbench

end ShadeTree
