import ShadeTree.Image
import ShadeTree.Proofs.Fractions

/-!
# Lookups in images

An image is read by a column and a row, or by a point of the surface. Here both are proved to stay
within the texels, and to find the one that is meant. Two views of an image serve for that:

* its dimensions and texels alone (`Raster`), of which nothing says that they fit, read with
  arithmetic that has no number outside the machine's words and no texel outside the array;
* its rows (`Image.rows`), which are as many as it is high, each as long as it is wide, and which
  make up the texels one after the other (`Image.laidOut_rows`).

The main statement is `Image.lookups_inside`: of whatever `Image.new` accepts, both kinds of lookup
succeed with such arithmetic, and yield what the rows have at the column and row asked for, each
held to the last.
-/

namespace ShadeTree

open Single (fraction)

/-! ### Reading within words -/

/-- Dimensions and texels, which need not be as many as the dimensions say. -/
structure Raster where
  width : UInt32
  height : UInt32
  texels : Array Value

namespace Raster

/-- A number, if 64 bits hold it. -/
def word? (n : ℕ) : Option ℕ := if n < 2 ^ 64 then some n else none

/-- A difference, if it is not below zero. -/
def difference? (m n : ℕ) : Option ℕ := if n ≤ m then some (m - n) else none

/-- A single, if it is a number and no infinity. -/
def finite? (x : Float32) : Option Float32 := if x.isFinite then some x else none

/-- Whether the texels are as many as the dimensions say. -/
def checked? (r : Raster) : Option (Except ImageError Raster) :=
  if r.width = 0 ∨ r.height = 0 then
    some (.error .empty)
  else do
    let area ← word? (r.width.toNat * r.height.toNat)
    if area = r.texels.size then
      return .ok r
    else
      return .error (.sizeMismatch r.width.toNat r.height.toNat r.texels.size)

/-- The texel of a column and row, each held to the last one. -/
def texel? (r : Raster) (x y : UInt32) : Option Value := do
  let column := min x.toNat (← difference? r.width.toNat 1)
  let row := min y.toNat (← difference? r.height.toNat 1)
  let start ← word? (row * r.width.toNat)
  r.texels[← word? (start + column)]?

/-- The column or row that the fractional part of a coordinate falls in, of `n`. -/
def place? (t : Float32) (n : UInt32) : Option UInt32 :=
  (finite? (fraction t * n.toFloat32)).map Float32.toUInt32

/-- The texel nearest a surface coordinate. -/
def sample? (r : Raster) (u v : Float32) : Option Value := do
  r.texel? (← place? u r.width) (← place? v r.height)

theorem word?_of_lt {n : ℕ} (h : n < 2 ^ 64) : word? n = some n := if_pos h

theorem difference?_of_le {m n : ℕ} (h : n ≤ m) : difference? m n = some (m - n) := if_pos h

theorem finite?_of_isFinite {x : Float32} (h : x.isFinite = true) : finite? x = some x := if_pos h

/-- Two dimensions of 32 bits have a product of 64. -/
theorem area_lt (r : Raster) : r.width.toNat * r.height.toNat < 2 ^ 64 := by
  calc r.width.toNat * r.height.toNat < 2 ^ 32 * 2 ^ 32 :=
        Nat.mul_lt_mul'' r.width.toNat_lt r.height.toNat_lt
    _ = 2 ^ 64 := by decide

/-- However a coordinate is wrapped and scaled, a number comes of it. -/
theorem place?_eq (t : Float32) (n : UInt32) : place? t n = some (Image.place t n) := by
  rw [place?, finite?_of_isFinite (Single.scaled_fraction_mem t n).1]
  rfl

end Raster

namespace Image

/-- What an image is read from. -/
def raster (image : Image) : Raster := ⟨image.width, image.height, image.texels⟩

/-! ### Images -/

variable {image : Image}

theorem toNat_pos_iff {n : UInt32} : 0 < n.toNat ↔ n ≠ 0 :=
  UInt32.lt_iff_toNat_lt.symm.trans UInt32.pos_iff_ne_zero

theorem exists_new_eq_ok_iff {width height : UInt32} {texels : Array Value} :
    (∃ image, new width height texels = .ok image) ↔
      width ≠ 0 ∧ height ≠ 0 ∧ width.toNat * height.toNat = texels.size := by
  rw [← toNat_pos_iff, ← toNat_pos_iff]
  constructor
  · rintro ⟨image, h⟩
    rw [new] at h
    split_ifs at h with hw hh hs
    exact ⟨hw, hh, hs⟩
  · rintro ⟨hw, hh, hs⟩
    exact ⟨_, by rw [new, dif_pos hw, dif_pos hh, dif_pos hs]⟩

/-- Every image is accepted as it stands. -/
theorem new_raster (image : Image) : new image.width image.height image.texels = .ok image := by
  rw [new, dif_pos image.width_pos, dif_pos image.height_pos, dif_pos image.size_eq]

/-- The dimensions are checked without leaving the words, and an image is made of what was given. -/
theorem checked?_eq (r : Raster) :
    r.checked? = some ((new r.width r.height r.texels).map raster) := by
  rw [Raster.checked?, Raster.word?_of_lt r.area_lt, new]
  by_cases hw : r.width = 0
  · rw [if_pos (.inl hw), dif_neg (by rw [hw]; decide)]
    rfl
  by_cases hh : r.height = 0
  · rw [if_pos (.inr hh), dif_pos (toNat_pos_iff.mpr hw), dif_neg (by rw [hh]; decide)]
    rfl
  rw [if_neg (not_or.mpr ⟨hw, hh⟩), dif_pos (toNat_pos_iff.mpr hw), dif_pos (toNat_pos_iff.mpr hh)]
  by_cases hs : r.width.toNat * r.height.toNat = r.texels.size
  · rw [dif_pos hs]
    exact if_pos hs
  · rw [dif_neg hs]
    exact if_neg hs

/-! ### Rows -/

/-- The rows of an image from the top: its texels, cut at every width. -/
def rows (image : Image) : List (List Value) :=
  (List.range image.height.toNat).map fun row =>
    (image.texels.toList.drop (row * image.width.toNat)).take image.width.toNat

/-- What stands at a column of a row, each held to the last one. -/
def entryAt? (image : Image) (column row : ℕ) : Option Value :=
  image.rows[min row (image.height.toNat - 1)]?.bind fun texels =>
    texels[min column (image.width.toNat - 1)]?

/-- The texels are so many rows of such a length, one after the other. -/
structure LaidOut (image : Image) (rows : List (List Value)) : Prop where
  flatten_eq : rows.flatten = image.texels.toList
  length_eq : rows.length = image.height.toNat
  length_row : ∀ row ∈ rows, row.length = image.width.toNat

/-- What is cut into pieces comes back from them, as far as they reach. -/
theorem flatten_cut (texels : List Value) (width height : ℕ) :
    ((List.range height).map fun row => (texels.drop (row * width)).take width).flatten =
      texels.take (height * width) := by
  induction height with
  | zero => rw [zero_mul, List.take_zero]; rfl
  | succ height ih =>
    rw [List.range_succ, List.map_append, List.flatten_append, ih, List.map_singleton,
      List.flatten_singleton, ← List.take_add, Nat.succ_mul]

theorem length_texels (image : Image) :
    image.texels.toList.length = image.height.toNat * image.width.toNat := by
  rw [Array.length_toList, ← image.size_eq, mul_comm]

theorem laidOut_rows (image : Image) : image.LaidOut image.rows where
  flatten_eq := by
    rw [rows, flatten_cut, ← image.length_texels, List.take_length]
  length_eq := by
    rw [rows, List.length_map, List.length_range]
  length_row row hrow := by
    obtain ⟨i, hi, rfl⟩ := List.mem_map.mp hrow
    have hlast : (i + 1) * image.width.toNat ≤ image.height.toNat * image.width.toNat :=
      Nat.mul_le_mul_right _ (List.mem_range.mp hi)
    rw [Nat.succ_mul, ← image.length_texels] at hlast
    rw [List.length_take, List.length_drop]
    omega

theorem getElem?_index (image : Image) (x y : UInt32) :
    image.texels[image.index x y]? = some (image.texel x y) :=
  Array.getElem?_eq_getElem (image.index_lt x y)

/-- The texel at a column and row is what the rows have there. -/
theorem entryAt?_toNat (image : Image) (x y : UInt32) :
    image.entryAt? x.toNat y.toNat = some (image.texel x y) := by
  have hwidth := image.width_pos
  have hheight := image.height_pos
  have hcolumn : min x.toNat (image.width.toNat - 1) < image.width.toNat := by omega
  have hrow : min y.toNat (image.height.toNat - 1) < image.height.toNat := by omega
  simp only [entryAt?, rows, List.getElem?_map, List.getElem?_range hrow, Option.map_some,
    Option.bind_some, List.getElem?_take_of_lt hcolumn, List.getElem?_drop, Array.getElem?_toList]
  exact image.getElem?_index x y

/-! ### Lookups -/

/-- Neither the last column and row nor the way to a texel leave the words: the texels are as many as
the dimensions say. -/
theorem texel?_eq (image : Image) (x y : UInt32) :
    image.raster.texel? x y = some (image.texel x y) := by
  have hcolumn : Raster.difference? image.width.toNat 1 = some (image.width.toNat - 1) :=
    Raster.difference?_of_le image.width_pos
  have hrow : Raster.difference? image.height.toNat 1 = some (image.height.toNat - 1) :=
    Raster.difference?_of_le image.height_pos
  have hindex : min y.toNat (image.height.toNat - 1) * image.width.toNat +
      min x.toNat (image.width.toNat - 1) < 2 ^ 64 := by
    calc image.index x y < image.texels.size := image.index_lt x y
      _ = image.width.toNat * image.height.toNat := image.size_eq.symm
      _ < 2 ^ 64 := image.raster.area_lt
  have hstart := (Nat.le_add_right _ _).trans_lt hindex
  simp only [Raster.texel?, raster, hcolumn, hrow, Raster.word?_of_lt hstart,
    Raster.word?_of_lt hindex, Option.bind_eq_bind, Option.bind_some]
  exact image.getElem?_index x y

theorem sample?_eq (image : Image) (u v : Float32) :
    image.raster.sample? u v = some (image.sample u v) := by
  simp only [Raster.sample?, Raster.place?_eq, Option.bind_eq_bind, Option.bind_some]
  exact image.texel?_eq _ _

/-- How many columns or rows, of `n`, a coordinate lies into the image. -/
def offset (t : Float32) (n : UInt32) : Float32 := fraction t * n.toFloat32

theorem offset_mem (t : Float32) (n : UInt32) :
    Single.place (offset t n) ∈ Set.Icc 0 (Single.place n.toFloat32) :=
  (Single.scaled_fraction_mem t n).2

theorem toNat_place (t : Float32) (n : UInt32) :
    (place t n).toNat = min ⌊Single.place (offset t n)⌋₊ (2 ^ 32 - 1) :=
  Single.toNat_toUInt32 (Single.scaled_fraction_mem t n).1 (offset_mem t n).1

/-- Holding a count to 32 bits makes no difference before it is held to the last column or row. -/
theorem entryAt?_min (image : Image) (column row : ℕ) :
    image.entryAt? (min column (2 ^ 32 - 1)) (min row (2 ^ 32 - 1)) = image.entryAt? column row := by
  have hwidth := image.width.toNat_lt
  have hheight := image.height.toNat_lt
  rw [entryAt?, min_assoc, min_assoc, min_eq_right (by omega : image.width.toNat - 1 ≤ 2 ^ 32 - 1),
    min_eq_right (by omega : image.height.toNat - 1 ≤ 2 ^ 32 - 1), entryAt?]

/-- A point finds what stands as many whole columns and rows into the image as its offsets say. -/
theorem entryAt?_offset (image : Image) (u v : Float32) :
    image.entryAt? ⌊Single.place (offset u image.width)⌋₊ ⌊Single.place (offset v image.height)⌋₊ =
      some (image.sample u v) := by
  rw [← entryAt?_min, ← toNat_place, ← toNat_place]
  exact image.entryAt?_toNat _ _

theorem texel_mem (image : Image) (x y : UInt32) : image.texel x y ∈ image.texels :=
  Array.mem_of_getElem? (image.getElem?_index x y)

/-- **Lookups stay inside the image**: dimensions and texels make an image exactly if there is a
column and a row and the texels are as many as their product; an image of one texel is one of those.
A column and a row find what the rows have there, each held to the last one. A point of the surface,
whatever bits its coordinates have, finds what the rows have at the whole part of its offsets, which
lie between the first edge and the last, both included: a texel of the image. None of the arithmetic
leaves its words, and no texel is asked for that is not there. -/
theorem lookups_inside :
    (∀ r : Raster, r.checked? = some ((new r.width r.height r.texels).map raster) ∧
      ((∃ image, new r.width r.height r.texels = .ok image) ↔
        r.width ≠ 0 ∧ r.height ≠ 0 ∧ r.width.toNat * r.height.toNat = r.texels.size)) ∧
    (∀ color : Value, new 1 1 #[color] = .ok (solid color)) ∧
    ∀ image : Image, new image.width image.height image.texels = .ok image ∧
      image.LaidOut image.rows ∧
      (∀ x y : UInt32, image.raster.texel? x y = some (image.texel x y) ∧
        image.entryAt? x.toNat y.toNat = some (image.texel x y)) ∧
      ∀ u v : Float32, image.raster.sample? u v = some (image.sample u v) ∧
        image.sample u v ∈ image.texels ∧
        Single.place (offset u image.width) ∈ Set.Icc 0 (Single.place image.width.toFloat32) ∧
        Single.place (offset v image.height) ∈ Set.Icc 0 (Single.place image.height.toFloat32) ∧
        image.entryAt? ⌊Single.place (offset u image.width)⌋₊
          ⌊Single.place (offset v image.height)⌋₊ = some (image.sample u v) := by
  refine ⟨fun r => ⟨checked?_eq r, exists_new_eq_ok_iff⟩, fun color => (solid color).new_raster,
    fun image => ⟨image.new_raster, image.laidOut_rows, ?_, ?_⟩⟩
  · intro x y
    exact ⟨image.texel?_eq x y, image.entryAt?_toNat x y⟩
  · intro u v
    exact ⟨image.sample?_eq u v, image.texel_mem _ _, offset_mem u image.width,
      offset_mem v image.height, image.entryAt?_offset u v⟩

/-- A coordinate just below 0 wraps to 1, and comes to one column more than there are. -/
example : fraction (.ofBits 0x80000001) = 1 ∧ place (.ofBits 0x80000001) 2 = 2 := by
  decide +kernel

end Image

end ShadeTree
