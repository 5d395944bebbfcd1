import ShadeTree.Number.Single
import ShadeTree.Value

/-!
# Images

A texture image in row-major order, and the texel nearest a surface coordinate. The image repeats
beyond the unit square.

The texels are as many as the rows and columns say, and there is at least one: the type carries it,
so a lookup needs no default.
-/

namespace ShadeTree

/-- Why a list of texels is no image. -/
inductive ImageError where
  /-- There is no row or no column. -/
  | empty
  /-- The texels are not as many as the dimensions say. -/
  | sizeMismatch (width height texels : Nat)
  deriving BEq, Repr

/-- The text of the error. -/
def ImageError.message : ImageError → String
  | empty => "image dimensions must be non-zero"
  | sizeMismatch width height texels =>
    s!"image is {width}x{height} but {texels} texels were supplied"

/-- An image. -/
structure Image where
  width : UInt32
  height : UInt32
  texels : Array Value
  width_pos : 0 < width.toNat
  height_pos : 0 < height.toNat
  size_eq : width.toNat * height.toNat = texels.size

namespace Image

/-- The image of the given dimensions, row by row. -/
def new (width height : UInt32) (texels : Array Value) : Except ImageError Image :=
  if hw : 0 < width.toNat then
    if hh : 0 < height.toNat then
      if hs : width.toNat * height.toNat = texels.size then
        .ok ⟨width, height, texels, hw, hh, hs⟩
      else
        .error (.sizeMismatch width.toNat height.toNat texels.size)
    else
      .error .empty
  else
    .error .empty

/-- The image of one texel. -/
def solid (color : Value) : Image := ⟨1, 1, #[color], by decide, by decide, rfl⟩

/-- The place of a texel, with each coordinate held to the last column and row. -/
def index (image : Image) (x y : UInt32) : Nat :=
  min y.toNat (image.height.toNat - 1) * image.width.toNat + min x.toNat (image.width.toNat - 1)

theorem index_lt (image : Image) (x y : UInt32) : image.index x y < image.texels.size := by
  have hw := image.width_pos
  have hh := image.height_pos
  have hx : min x.toNat (image.width.toNat - 1) < image.width.toNat := by omega
  have hy : min y.toNat (image.height.toNat - 1) + 1 ≤ image.height.toNat := by omega
  have hrow := Nat.mul_le_mul_right image.width.toNat hy
  rw [Nat.add_mul, Nat.one_mul, Nat.mul_comm image.height.toNat] at hrow
  rw [← image.size_eq]
  unfold index
  omega

/-- The texel of a column and row, each held to the last one. -/
def texel (image : Image) (x y : UInt32) : Value :=
  have := image.index_lt x y
  image.texels[image.index x y]

/-- The column or row that the fractional part of a coordinate falls in, of `n`. -/
def place (t : Float32) (n : UInt32) : UInt32 := (Single.fraction t * n.toFloat32).toUInt32

/-- The texel nearest a surface coordinate. -/
def sample (image : Image) (u v : Float32) : Value :=
  image.texel (place u image.width) (place v image.height)

end Image

end ShadeTree
