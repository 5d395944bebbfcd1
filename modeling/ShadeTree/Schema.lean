import ShadeTree.Value

/-!
# The schema of node kinds

The kinds of node a shade tree is made of: what each one outputs, which capabilities it brings, and
which sockets it has, in order.
-/

namespace ShadeTree

/-- The kinds of node. -/
inductive NodeKind where
  /-- The root of a material. -/
  | output
  | lambert
  | orenNayar
  | microfacetReflection
  | microfacetRefraction
  /-- Two lobes weighted against each other. -/
  | blend
  /-- Two lobes together. -/
  | add
  | constant
  | multiply
  | mix
  | checker
  | imageTexture
  deriving DecidableEq, Repr, Inhabited

/-- What a node feeds the socket it is plugged into. -/
inductive OutputKind where
  | none
  | bsdf
  | value
  deriving DecidableEq, Repr

/-- What a socket takes. -/
inductive SocketKind where
  | bsdf
  | color
  | float
  | text
  deriving DecidableEq, Repr, Inhabited

/-- A socket takes scattering from scattering nodes and values from value nodes, and text from no
node. -/
def SocketKind.accepts : SocketKind → OutputKind → Bool
  | .bsdf, .bsdf => true
  | .color, .value => true
  | .float, .value => true
  | _, _ => false

/-- The capitalised name of a socket kind, as warnings spell it. -/
def SocketKind.title : SocketKind → String
  | .bsdf => "Bsdf"
  | .color => "Color"
  | .float => "Float"
  | .text => "Text"

/-! ### Capabilities -/

/-- A set of capabilities: to scatter, to be constant, to vary over the surface, to read a texture. -/
structure Capability where
  bsdf : Bool
  constant : Bool
  varying : Bool
  texture : Bool
  deriving DecidableEq, Repr, Inhabited

namespace Capability

/-- No capability. -/
def none : Capability := ⟨false, false, false, false⟩

/-- The capabilities of either set. -/
def union (a b : Capability) : Capability :=
  ⟨a.bsdf || b.bsdf, a.constant || b.constant, a.varying || b.varying, a.texture || b.texture⟩

/-- The set as a number: 1 for scattering, 2 for constant, 4 for varying, 8 for texture. -/
def bits (c : Capability) : Nat :=
  c.bsdf.toNat + 2 * c.constant.toNat + 4 * c.varying.toNat + 8 * c.texture.toNat

end Capability

namespace NodeKind

/-- What a node of the kind feeds its socket. -/
def outputKind : NodeKind → OutputKind
  | output => .none
  | lambert | orenNayar | microfacetReflection | microfacetRefraction | blend | add => .bsdf
  | constant | multiply | mix | checker | imageTexture => .value

/-- The capabilities a node of the kind brings by itself. -/
def intrinsic : NodeKind → Capability
  | output | multiply | mix | blend | add => .none
  | lambert | orenNayar | microfacetReflection | microfacetRefraction =>
    { Capability.none with bsdf := true }
  | constant => { Capability.none with constant := true }
  | checker => { Capability.none with varying := true }
  | imageTexture => { Capability.none with varying := true, texture := true }

/-- The node adds a lobe by itself. -/
def isLobe : NodeKind → Bool
  | lambert | orenNayar | microfacetReflection | microfacetRefraction => true
  | _ => false

end NodeKind

/-! ### Signatures -/

/-- A socket as its node's kind declares it. -/
structure SocketSpec where
  name : String
  kind : SocketKind
  /-- The literal the socket starts with. -/
  initial : Value
  deriving BEq, Repr

namespace SocketSpec

/-- A socket for scattering. -/
def bsdf (name : String) : SocketSpec := ⟨name, .bsdf, .zero⟩

/-- A socket for a colour. -/
def color (name : String) : SocketSpec := ⟨name, .color, .zero⟩

/-- A socket for a scalar. -/
def float (name : String) (initial : Float32) : SocketSpec := ⟨name, .float, .scalar initial⟩

/-- A socket for text. -/
def text (name : String) : SocketSpec := ⟨name, .text, .zero⟩

end SocketSpec

namespace NodeKind

/-- The name of a kind, and of the node type built from it. -/
def name : NodeKind → String
  | output => "Output"
  | lambert => "Lambert"
  | orenNayar => "OrenNayar"
  | microfacetReflection => "MicrofacetReflection"
  | microfacetRefraction => "MicrofacetRefraction"
  | blend => "Blend"
  | add => "Add"
  | constant => "Constant"
  | multiply => "Multiply"
  | mix => "Mix"
  | checker => "Checker"
  | imageTexture => "ImageTexture"

/-- The family a kind is listed under. -/
def category : NodeKind → String
  | output => "Output"
  | lambert | orenNayar | microfacetReflection | microfacetRefraction | blend | add => "Bxdf"
  | constant => "Input"
  | multiply | mix => "Math"
  | checker | imageTexture => "Texture"

/-- The sockets of a kind, in order. -/
def sockets : NodeKind → List SocketSpec
  | output => [.bsdf "Surface"]
  | lambert => [.color "Color"]
  | orenNayar => [.color "Color", .float "Roughness" 0]
  | microfacetReflection => [.color "BaseColor", .float "Roughness" 0.5]
  | microfacetRefraction => [.color "BaseColor", .float "Roughness" 0.5, .float "IOR" 1.5]
  | blend => [.bsdf "Bxdf1", .bsdf "Bxdf2", .float "Factor" 0.5]
  | add => [.bsdf "Bxdf1", .bsdf "Bxdf2"]
  | constant => [.color "Color"]
  | multiply => [.color "Color1", .color "Color2"]
  | mix => [.color "Color1", .color "Color2", .float "Factor" 0.5]
  | checker => [.color "Color1", .color "Color2", .float "Scale" 1]
  | imageTexture => [.text "Texture"]

/-- Every kind, in the order of the schema. -/
def all : List NodeKind :=
  [output, lambert, orenNayar, microfacetReflection, microfacetRefraction, blend, add, constant,
    multiply, mix, checker, imageTexture]

/-- The kind of a name. -/
def ofName? (name : String) : Option NodeKind := all.find? (·.name == name)

end NodeKind

/-- The version of the schema. -/
def schemaVersion : String := "0.1.0"

end ShadeTree
