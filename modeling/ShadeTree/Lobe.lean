import ShadeTree.Value

/-!
# Lobes

What shading produces: a list of scattering lobes, each with the weight it contributes by.
-/

namespace ShadeTree

/-- One kind of scattering, with its inputs resolved. -/
inductive Scatter where
  /-- Diffuse. -/
  | lambert (reflectance : Spectrum)
  /-- Rough diffuse, by the deviation of its facets. -/
  | orenNayar (reflectance : Spectrum) (sigma : Float32)
  /-- Glossy reflection. -/
  | microfacetReflection (base : Spectrum) (roughness : Float32)
  /-- Glossy refraction. -/
  | microfacetRefraction (transmittance : Spectrum) (roughness ior : Float32)
  deriving BEq, Repr, Inhabited

namespace Scatter

/-- The name a lobe goes by. -/
def name : Scatter → String
  | lambert _ => "lambert"
  | orenNayar _ _ => "oren_nayar"
  | microfacetReflection _ _ => "microfacet_reflection"
  | microfacetRefraction _ _ _ => "microfacet_refraction"

/-- The colour it scatters. -/
def color : Scatter → Spectrum
  | lambert c => c
  | orenNayar c _ => c
  | microfacetReflection c _ => c
  | microfacetRefraction c _ _ => c

/-- Its parameters besides the colour. -/
def parameters : Scatter → List Float32
  | lambert _ => []
  | orenNayar _ sigma => [sigma]
  | microfacetReflection _ roughness => [roughness]
  | microfacetRefraction _ roughness ior => [roughness, ior]

end Scatter

/-- A scattering and its weight. -/
structure Lobe where
  scatter : Scatter
  weight : Spectrum
  deriving BEq, Repr, Inhabited

/-- The lobes composed so far, in order. -/
structure Bsdf where
  lobes : List Lobe
  deriving BEq, Repr, Inhabited

namespace Bsdf

/-- No lobe. -/
def empty : Bsdf := ⟨[]⟩

/-- One more lobe at the end. -/
def add (b : Bsdf) (scatter : Scatter) (weight : Spectrum) : Bsdf := ⟨b.lobes ++ [⟨scatter, weight⟩]⟩

/-- The number of lobes. -/
def size (b : Bsdf) : Nat := b.lobes.length

/-- There is no lobe. -/
def isEmpty (b : Bsdf) : Bool := b.lobes.isEmpty

/-- The sum of the weights, from black and in order. -/
def total (b : Bsdf) : Spectrum := b.lobes.foldl (fun sum lobe => sum.add lobe.weight) .black

end Bsdf

end ShadeTree
