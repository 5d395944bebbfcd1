/-!
# Values and spectra

A socket carries a `Value`: three colour channels and an auxiliary one. A `Spectrum` is the colour of
a lobe and the weight it is scaled by. Arithmetic goes component by component, one rounding to an
operation.
-/

namespace ShadeTree

/-- Four components: red, green, blue, and an auxiliary one. A scalar is read off the first. -/
structure Value where
  x : Float32
  y : Float32
  z : Float32
  w : Float32
  deriving BEq, Repr, Inhabited

namespace Value

/-- Zero in every component. -/
def zero : Value := ⟨0, 0, 0, 0⟩

/-- A scalar in every component. -/
def splat (v : Float32) : Value := ⟨v, v, v, v⟩

/-- A scalar in the first component, and zero in the others. -/
def scalar (v : Float32) : Value := ⟨v, 0, 0, 0⟩

/-- The product of each pair of components. -/
def mul (a b : Value) : Value := ⟨a.x * b.x, a.y * b.y, a.z * b.z, a.w * b.w⟩

/-- The way from `a` to `b` as far as `t`: `a + (b - a) * t`. -/
def lerp (a b : Value) (t : Float32) : Value :=
  ⟨a.x + (b.x - a.x) * t, a.y + (b.y - a.y) * t, a.z + (b.z - a.z) * t, a.w + (b.w - a.w) * t⟩

/-- The components of a list in order, zero where it has none. -/
def ofComponents (vs : List Float32) : Value :=
  ⟨vs.getD 0 0, vs.getD 1 0, vs.getD 2 0, vs.getD 3 0⟩

/-- The components in order. -/
def components (v : Value) : List Float32 := [v.x, v.y, v.z, v.w]

end Value

/-- A colour in red, green and blue. -/
structure Spectrum where
  r : Float32
  g : Float32
  b : Float32
  deriving BEq, Repr, Inhabited

namespace Spectrum

/-- No light. -/
def black : Spectrum := ⟨0, 0, 0⟩

/-- Full weight in every channel. -/
def white : Spectrum := ⟨1, 1, 1⟩

/-- The same amount in every channel. -/
def splat (v : Float32) : Spectrum := ⟨v, v, v⟩

/-- The colour channels of a value. -/
def ofValue (v : Value) : Spectrum := ⟨v.x, v.y, v.z⟩

/-- Every channel is a zero, of either sign. -/
def isBlack (s : Spectrum) : Bool := s.r == 0 && s.g == 0 && s.b == 0

/-- The sum of each pair of channels. -/
def add (a b : Spectrum) : Spectrum := ⟨a.r + b.r, a.g + b.g, a.b + b.b⟩

/-- The product of each pair of channels. -/
def mul (a b : Spectrum) : Spectrum := ⟨a.r * b.r, a.g * b.g, a.b * b.b⟩

/-- Every channel scaled by `t`. -/
def scale (s : Spectrum) (t : Float32) : Spectrum := ⟨s.r * t, s.g * t, s.b * t⟩

/-- The channels in order. -/
def channels (s : Spectrum) : List Float32 := [s.r, s.g, s.b]

end Spectrum

end ShadeTree
