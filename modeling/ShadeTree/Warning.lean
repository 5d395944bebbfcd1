import ShadeTree.Schema

/-!
# Warnings

What is told about a material when a part of it cannot be used. The part is left out and the rest of
the material stands, so a warning is never a failure. Each carries the path of what it is about.
-/

namespace ShadeTree

/-- A warning. -/
inductive Warning where
  | unknownNodeType (path nodeType : String)
  | unknownProperty (path property : String)
  | malformedLiteral (path property detail : String)
  | extraComponents (path property : String) (count : Nat)
  | missingAttribute (path name : String)
  | unknownReference (path reference : String)
  | depthExceeded (path : String) (limit : Nat)
  | kindMismatch (path property : String) (expected : SocketKind)
  | missingTexture (path texture : String)
  | malformedTemplate (path detail : String)
  | duplicateMaterial (path name : String)
  deriving DecidableEq, Repr

namespace Warning

/-- The path of what a warning is about. -/
def path : Warning → String
  | unknownNodeType p _ | unknownProperty p _ | malformedLiteral p _ _ | extraComponents p _ _
  | missingAttribute p _ | unknownReference p _ | depthExceeded p _ | kindMismatch p _ _
  | missingTexture p _ | malformedTemplate p _ | duplicateMaterial p _ => p

/-- The text of a warning. -/
def text : Warning → String
  | unknownNodeType p nodeType => s!"{p}: node type '{nodeType}' is unknown"
  | unknownProperty p property => s!"{p}: node property '{property}' is ignored"
  | malformedLiteral p property detail => s!"{p}: malformed literal for '{property}': {detail}"
  | extraComponents p property count => s!"{p}: {count} extra component(s) for '{property}' ignored"
  | missingAttribute p name => s!"{p}: missing attribute '{name}'"
  | unknownReference p reference => s!"{p}: reference to unknown node '{reference}'"
  | depthExceeded p limit => s!"{p}: nesting deeper than {limit} nodes, subtree dropped"
  | kindMismatch p property expected => s!"{p}: '{property}' expects a {expected.title} input"
  | missingTexture p texture => s!"{p}: texture '{texture}' is not loaded"
  | malformedTemplate p detail => s!"{p}: template ignored: {detail}"
  | duplicateMaterial p name => s!"{p}: material '{name}' already exists, later definition skipped"

end Warning

/-- Warnings in the order they came up. -/
abbrev Report := List Warning

end ShadeTree
