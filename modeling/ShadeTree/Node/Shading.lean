import ShadeTree.Lobe
import ShadeTree.Node.Basic

/-!
# Shading

At a point of a surface a value node resolves to a value, and a scattering node composes lobes, each
weighted by the way from the root down to it. A branch whose weight is black is not followed.
-/

namespace ShadeTree

/-- The point that is shaded, by its surface coordinates. -/
structure ShadingPoint where
  u : Float32
  v : Float32
  deriving Repr, Inhabited

/-- The point that is shaded when none is given. -/
def ShadingPoint.origin : ShadingPoint := ⟨0, 0⟩

/-- The colour of an invalid material that was not prepared. -/
def unpreparedFallback : Spectrum := ⟨0.3, 0, 0⟩

/-- The cell a point falls in is one of the even ones of a checkerboard. -/
def isEvenCell (p : ShadingPoint) (scale : Float32) : Bool :=
  (Single.cell (p.u * scale) % 2 + Single.cell (p.v * scale) % 2) % 2 = 0

namespace Node

mutual

/-- The value a node outputs at a point. A node that outputs none resolves to zero. -/
def resolve (n : Node) (p : ShadingPoint) : Value :=
  match n with
  | ⟨_, _, _, _, _, _, .folded v, _⟩ => v
  | ⟨kind, _, _, _, _, _, prepared, sockets⟩ =>
    match kind with
    | .constant => input sockets "Color" p
    | .multiply => (input sockets "Color1" p).mul (input sockets "Color2" p)
    | .mix =>
      let f := Single.unitClamp (input sockets "Factor" p).x
      (input sockets "Color1" p).lerp (input sockets "Color2" p) f
    | .checker =>
      if isEvenCell p (input sockets "Scale" p).x then input sockets "Color1" p
      else input sockets "Color2" p
    | .imageTexture =>
      match prepared with
      | .texture (some h) => h.value.sample p.u p.v
      | _ => .zero
    | .output | .lambert | .orenNayar | .microfacetReflection | .microfacetRefraction | .blend
    | .add => .zero
termination_by structural n

/-- The value of the first socket of a name: its literal, or what the node plugged in resolves to. -/
def input (sockets : List (Socket Node)) (name : String) (p : ShadingPoint) : Value :=
  match sockets with
  | [] => .zero
  | ⟨n, _, link⟩ :: rest =>
    if n = name then
      match link with
      | .literal v => v
      | .text _ => .zero
      | .node child => child.resolve p
    else input rest name p
termination_by structural sockets

end

/-- The colour of the first socket of a name. -/
def colorInput (sockets : List (Socket Node)) (name : String) (p : ShadingPoint) : Spectrum :=
  .ofValue (input sockets name p)

/-- The scalar of the first socket of a name. -/
def scalarInput (sockets : List (Socket Node)) (name : String) (p : ShadingPoint) : Float32 :=
  (input sockets name p).x

/-- What a lobe node scatters, with its inputs resolved. -/
def scatter? (kind : NodeKind) (sockets : List (Socket Node)) (p : ShadingPoint) : Option Scatter :=
  match kind with
  | .lambert => some (.lambert (colorInput sockets "Color" p))
  | .orenNayar =>
    some (.orenNayar (colorInput sockets "Color" p) (scalarInput sockets "Roughness" p))
  | .microfacetReflection =>
    some (.microfacetReflection (colorInput sockets "BaseColor" p)
      (scalarInput sockets "Roughness" p))
  | .microfacetRefraction =>
    some (.microfacetRefraction (colorInput sockets "BaseColor" p)
      (scalarInput sockets "Roughness" p) (scalarInput sockets "IOR" p))
  | _ => none

/-- How far a blend leans to its second input. -/
def blendFactor (sockets : List (Socket Node)) (p : ShadingPoint) : Float32 :=
  Single.unitClamp (scalarInput sockets "Factor" p)

/-- The colour an invalid output shades with. -/
def fallbackColor : Prepared → Spectrum
  | .fallback c => c
  | _ => unpreparedFallback

mutual

/-- The lobes composed so far with those of a node, scaled by a weight. A valid output passes full
weight on; an invalid one is a diffuse lobe of the fallback colour. -/
def compose (n : Node) (p : ShadingPoint) (weight : Spectrum) (bsdf : Bsdf) : Bsdf :=
  match n with
  | ⟨kind, _, _, valid, _, _, prepared, sockets⟩ =>
    if weight.isBlack then bsdf
    else
      match kind with
      | .output =>
        if valid then composeInput sockets "Surface" p .white bsdf
        else bsdf.add (.lambert (fallbackColor prepared)) weight
      | .blend =>
        let f := blendFactor sockets p
        composeInput sockets "Bxdf2" p (weight.scale f)
          (composeInput sockets "Bxdf1" p (weight.scale (1 - f)) bsdf)
      | .add => composeInput sockets "Bxdf2" p weight (composeInput sockets "Bxdf1" p weight bsdf)
      | _ =>
        match scatter? kind sockets p with
        | some scatter => bsdf.add scatter weight
        | none => bsdf
termination_by structural n

/-- The lobes composed so far with those of the node plugged into the first socket of a name. -/
def composeInput (sockets : List (Socket Node)) (name : String) (p : ShadingPoint)
    (weight : Spectrum) (bsdf : Bsdf) : Bsdf :=
  match sockets with
  | [] => bsdf
  | ⟨n, _, link⟩ :: rest =>
    if n = name then
      match link with
      | .node child => child.compose p weight bsdf
      | _ => bsdf
    else composeInput rest name p weight bsdf
termination_by structural sockets

end

/-- The lobes of a node at full weight. -/
def evaluate (n : Node) (p : ShadingPoint) : Bsdf := n.compose p .white .empty

end Node

namespace Socket

/-- The value a socket feeds its node: its literal, or what the node plugged in resolves to. A text
reads as zero. -/
def resolve (s : Socket Node) (p : ShadingPoint) : Value :=
  match s.link with
  | .literal v => v
  | .text _ => .zero
  | .node child => child.resolve p

/-- The lobes composed so far with those of the node plugged in. -/
def compose (s : Socket Node) (p : ShadingPoint) (weight : Spectrum) (bsdf : Bsdf) : Bsdf :=
  match s.link with
  | .node child => child.compose p weight bsdf
  | _ => bsdf

end Socket

end ShadeTree
