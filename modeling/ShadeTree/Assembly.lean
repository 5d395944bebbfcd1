import ShadeTree.Config
import ShadeTree.Description.Basic
import ShadeTree.Node.Preparation
import ShadeTree.Registry

/-!
# Assembly

A description is assembled into the sockets of a node. Properties apply in order, each to the socket of
its name; a described node is a fresh one of its registered type, assembled in turn. A property that
cannot be applied is skipped with a warning and leaves its socket as it was.

References may go round in circles, so nodes are assembled down to the configured depth only.
-/

namespace ShadeTree

/-- What assembly goes by. -/
structure Context where
  registry : Registry
  config : Config

/-- A node under assembly. -/
structure Assembly where
  node : Node
  /-- The nodes that came out of its sockets. -/
  displaced : List Node
  report : Report

namespace Assembly

/-- Before the first property. -/
def start (node : Node) : Assembly := ⟨node, [], []⟩

/-- With more to tell. -/
def warn (a : Assembly) (ws : Report) : Assembly := { a with report := a.report ++ ws }

/-- With a socket put in place of the one of its name, which held `old`. -/
def put (a : Assembly) (s : Socket Node) (old : Option Node) : Assembly :=
  { a with node := a.node.withSocket s, displaced := a.displaced ++ old.toList }

/-- What there is to tell about a literal that was read. -/
def literalReport (path name : String) (tuple : Tuple) : Report :=
  (tuple.malformed.map fun token =>
    .malformedLiteral path name s!"token '{token}' read as a number prefix") ++
  (if tuple.extra = 0 then [] else [.extraComponents path name tuple.extra])

/-- Apply a literal to a socket. -/
def applyLiteral (path : String) (a : Assembly) (s : Socket Node) (text : String) : Assembly :=
  if s.kind = .bsdf then a.warn [.kindMismatch path s.name .bsdf]
  else
    let (s', tuple) := s.setLiteral text
    (a.put s' s.node?).warn (literalReport path s.name tuple)

/-- Apply a described node to a socket. `assemble` assembles it one level down, unless that is too
deep. -/
def applyNode (ctx : Context) (assemble : Option (NodeDesc → String → Node → Assembly))
    (path : String) (a : Assembly) (s : Socket Node) (desc : NodeDesc) : Assembly :=
  if s.kind = .text then a.warn [.kindMismatch path s.name .text]
  else
    match assemble with
    | none => a.warn [.depthExceeded s!"{path}/{s.name}" ctx.config.maxDepth]
    | some assemble =>
      match ctx.registry.create? desc.nodeType with
      | none => a.warn [.unknownNodeType s!"{path}/{s.name}" desc.nodeType]
      | some fresh =>
        let child := assemble desc (childPath path s.name desc.nodeType) fresh
        let a := a.put (s.connect child.node) s.node?
        { a with displaced := a.displaced ++ child.displaced, report := a.report ++ child.report }

/-- Apply one property. -/
def applyProperty (ctx : Context) (templates : Templates)
    (assemble : Option (NodeDesc → String → Node → Assembly)) (path : String) (a : Assembly)
    (property : String × PropertyValue) : Assembly :=
  let (name, value) := property
  match value with
  | .missing what =>
    a.warn [.missingAttribute (if name = "" then path else s!"{path}/{name}") what]
  | value =>
    match a.node.socket? name with
    | none => a.warn [.unknownProperty path name]
    | some s =>
      match value with
      | .literal text => applyLiteral path a s text
      | .node desc => applyNode ctx assemble path a s desc
      | .reference target =>
        match templates.get? target with
        | some desc => applyNode ctx assemble path a s desc
        | none => a.warn [.unknownReference s!"{path}/{name}" target]
      | .invalid reason => a.warn [.malformedLiteral path name reason]
      | .missing _ => a

/-- Assemble a description into a node at a path, with room for so many levels below it. -/
def fill (ctx : Context) (templates : Templates) :
    Nat → NodeDesc → String → Node → Assembly
  | 0, desc, path, target =>
    desc.properties.foldl (applyProperty ctx templates none path) (start target)
  | room + 1, desc, path, target =>
    desc.properties.foldl (applyProperty ctx templates (some (fill ctx templates room)) path)
      (start target)

end Assembly

/-- Assemble a description into a node, with paths that start at its own type. -/
def Context.assemble (ctx : Context) (templates : Templates) (desc : NodeDesc) (target : Node) :
    Assembly :=
  Assembly.fill ctx templates ctx.config.maxDepth desc target.typeName target

end ShadeTree
