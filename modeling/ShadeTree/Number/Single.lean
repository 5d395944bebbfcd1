/-!
# Single-precision numbers

Shading computes in 32-bit floats. Core supplies their arithmetic; this module adds what a shading
rule asks besides: the integer below a float, the floor and the fractional part, the clamp to the
unit interval, the number of the cell a coordinate falls in, and the float nearest to a double.
Each is given by the exact value `± m · 2 ^ e` a float stands for.
-/

namespace ShadeTree.Single

open Float.Model

/-- The greatest integer at most `± m · 2 ^ e`. -/
def floorOf (sign : UnpackedFloat.Sign) (m : Nat) (e : Int) : Int :=
  let signed := sign.apply (m : Int)
  if 0 ≤ e then signed <<< e.toNat else signed >>> (-e).toNat

/-- The greatest integral float at most `x`. Zeros, infinities and NaN are their own floor. -/
def floor (x : Float32) : Float32 :=
  match x.toModel.unpack with
  | .finite sign m e _ =>
    .ofModel (.pack (UnpackedFloat.ofInt .binary32 (floorOf sign m e)))
  | _ => x

/-- What `x` exceeds its floor by, and zero where that is no finite number. -/
def fraction (x : Float32) : Float32 :=
  let f := x - floor x
  if f.isFinite then f else 0

/-- `x` held to the interval from 0 to 1. NaN goes to 0, and a zero keeps its sign. -/
def unitClamp (x : Float32) : Float32 :=
  if x.isNaN then 0 else if x < 0 then 0 else if 1 < x then 1 else x

/-- The least cell number. -/
def leastCell : Int := -9223372036854775808

/-- The greatest cell number. -/
def greatestCell : Int := 9223372036854775807

/-- The number of the unit cell `x` falls in, held to 64 signed bits. NaN falls in cell 0. -/
def cell (x : Float32) : Int :=
  match x.toModel.unpack with
  | .notANumber => 0
  | .zero _ => 0
  | .infinity .positive => greatestCell
  | .infinity .negative => leastCell
  | .finite sign m e _ => max leastCell (min greatestCell (floorOf sign m e))

/-- The single nearest to a double, a tie going to the even neighbour. -/
def ofDouble (x : Float) : Float32 :=
  match x.toModel.unpack with
  | .finite sign m e _ => .ofModel (.pack (UnpackedFloat.round .binary32 sign m e))
  | other => .ofModel (.pack other)

end ShadeTree.Single
