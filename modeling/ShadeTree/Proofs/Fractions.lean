import ShadeTree.Proofs.Decimals
import ShadeTree.Proofs.Patterns

/-!
# Fractional parts

What a number exceeds its floor by is a difference of two singles, and scaling it is a product. Each
is rounded to the nearest single (`isNearest_sub`, `isNearest_mul`). The floor itself is exact
(`place_floor`), and rounding does not pass the singles 0 and 1 (`IsNearest.place_le`); so a
fractional part lies between these two, and of a small negative number it is 1 (`fraction_mem`).
Scaled by a count it comes to no more than the count does as a single (`scaled_fraction_mem`), and
what is then counted off is its whole part (`toNat_toUInt32`): neither NaN nor an infinity is met on
the way.
-/

namespace ShadeTree.Single

open Float.Model Float.Model.UnpackedFloat

/-! ### Rounding and order -/

section Order

variable {q : ℚ} {x y : Float32}

/-- Rounding up does not pass a single. -/
theorem IsNearest.place_le (hx : IsNearest q x) (hy : y.isNaN = false) (h : q ≤ place y) :
    place x ≤ place y := by
  by_contra hlt
  have hnear := hx.le y hy
  rw [abs_of_nonpos (by linarith), abs_of_nonpos (by linarith)] at hnear
  linarith

/-- Rounding down does not pass a single. -/
theorem IsNearest.le_place (hx : IsNearest q x) (hy : y.isNaN = false) (h : place y ≤ q) :
    place y ≤ place x := by
  by_contra hlt
  have hnear := hx.le y hy
  rw [abs_of_nonneg (by linarith), abs_of_nonneg (by linarith)] at hnear
  linarith

/-- What stands within the range of singles is finite. -/
theorem isFinite_of_abs_place_lt (hx : x.isNaN = false) (h : |place x| < 2 ^ 128) :
    x.isFinite = true := by
  rw [isNaN_eq] at hx
  rw [isFinite_eq]
  rw [place] at h
  cases hview : view x with rw [hview] at hx h
  | notANumber => cases hx
  | zero | finite => rfl
  | infinity s =>
    rw [placeOf, abs_signed, abs_of_pos (by positivity)] at h
    exact absurd h (lt_irrefl _)

theorem isFinite_of_place_le (hx : x.isNaN = false) (hlow : 0 ≤ place x)
    (hhigh : place x ≤ 2 ^ 32) : x.isFinite = true := by
  refine isFinite_of_abs_place_lt hx ?_
  rw [abs_of_nonneg hlow]
  exact hhigh.trans_lt (by norm_num)

end Order

/-! ### Differences and products -/

theorem signed_neg (s : Sign) (q : ℚ) : signed (-s) q = -signed s q := by
  cases s
  · exact (neg_neg q).symm
  · rfl

theorem signed_mul_signed (s t : Sign) (p q : ℚ) :
    signed s p * signed t q = signed (s * t) (p * q) := by
  cases s <;> cases t
  · exact neg_mul_neg p q
  · exact neg_mul p q
  · exact mul_neg p q
  · rfl

section Operations

variable {x y : Float32}

theorem view_neg (x : Float32) : view (-x) = (view x).neg := by
  rw [neg_eq]
  cases hview : view x with
  | notANumber => rfl
  | infinity s => cases s <;> rfl
  | zero s => exact view_ofView_zero (-s)
  | finite s m e hm => exact view_ofView (canonical_of_view hview) (-s)

theorem isFinite_neg (x : Float32) : (-x).isFinite = x.isFinite := by
  rw [isFinite_eq, isFinite_eq, view_neg]
  cases view x <;> rfl

theorem place_neg (x : Float32) : place (-x) = -place x := by
  rw [place, place, view_neg]
  cases view x with
  | notANumber | zero s => exact neg_zero.symm
  | infinity s | finite s => exact signed_neg s _

/-- Subtracting is adding the opposite. -/
theorem sub_eq_add (x y : Float32) : x - y = x + -y := by
  have happly (s : Sign) (n : ℤ) : (-s).apply n = -s.apply n := by
    cases s
    · exact (neg_neg n).symm
    · rfl
  rw [sub_eq, add_eq, view_neg]
  cases view x with
  | infinity s | notANumber | zero s => cases view y <;> rfl
  | finite s m e hm =>
    cases view y with
    | infinity t | notANumber | zero t => rfl
    | finite t n d hn =>
      simp only [UnpackedFloat.sub, UnpackedFloat.add, UnpackedFloat.neg, happly, sub_eq_add_neg]

/-- A difference is the single nearest to the difference of the two numbers. -/
theorem isNearest_sub (hx : x.isFinite = true) (hy : y.isFinite = true) :
    IsNearest (place x - place y) (x - y) := by
  have hsum := isNearest_add hx ((isFinite_neg y).trans hy)
  rwa [place_neg, ← sub_eq_add_neg, ← sub_eq_add] at hsum

/-- A product is the single nearest to the product of the two numbers. -/
theorem isNearest_mul (hx : x.isFinite = true) (hy : y.isFinite = true) :
    IsNearest (place x * place y) (x * y) := by
  rw [isFinite_eq] at hx hy
  rw [mul_eq, place, place]
  cases hviewx : view x with rw [hviewx] at hx
  | infinity | notANumber => cases hx
  | zero s =>
    rw [placeOf_zero, zero_mul]
    cases hviewy : view y with rw [hviewy] at hy
    | infinity | notANumber => cases hy
    | zero t | finite t => exact isNearest_zero (s * t)
  | finite s m e hm =>
    cases hviewy : view y with rw [hviewy] at hy
    | infinity | notANumber => cases hy
    | zero t =>
      rw [placeOf_zero, mul_zero]
      exact isNearest_zero (s * t)
    | finite t n d hn =>
      -- Of two numbers that both lack bits the product is too small to keep all of its own.
      have hdeep : 2 ^ 23 ≤ m * n ∨ e + d ≤ -149 := by
        rcases (canonical_of_view hviewx).full with hfull | hleast
        · exact .inl (hfull.trans (Nat.le_mul_of_pos_right m hn))
        · rcases (canonical_of_view hviewy).full with hfull | hleast'
          · exact .inl (hfull.trans (Nat.le_mul_of_pos_left n hm))
          · exact .inr (by omega)
      rw [mul_finite s t hm hn hdeep, placeOf, placeOf, signed_mul_signed]
      exact isNearest_near (s * t) (by positivity)

end Operations

/-! ### Whole numbers -/

section Holds

variable {x : Float32} {q : ℚ}

theorem Holds.isFinite (h : Holds x q) : x.isFinite = true := by
  obtain ⟨m, e, hm, hview, -⟩ := h
  rw [isFinite_eq, hview]
  rfl

theorem Holds.place_eq (h : Holds x q) : place x = q := by
  obtain ⟨m, e, hm, hview, -, hscale⟩ := h
  rw [place, hview]
  exact hscale

end Holds

/-- A whole number of at most 24 bits is a single. -/
theorem exists_place_eq_intCast {n : ℤ} (h : n.natAbs < 2 ^ 24) :
    ∃ y : Float32, y.isFinite = true ∧ place y = n := by
  rcases Nat.eq_zero_or_pos n.natAbs with hzero | hpos
  · refine ⟨0, rfl, ?_⟩
    rw [Int.natAbs_eq_zero.mp hzero]
    rfl
  · have hholds := holds_toFloat32 hpos h
    rcases Int.natAbs_eq n with hn | hn
    · refine ⟨_, hholds.isFinite, ?_⟩
      rw [hholds.place_eq, ← Int.cast_natCast, ← hn]
    · refine ⟨_, (isFinite_neg _).trans hholds.isFinite, ?_⟩
      rw [place_neg, hholds.place_eq, ← Int.cast_natCast, ← Int.cast_neg, ← hn]

theorem place_one : place 1 = 1 := by
  rw [place, view_one, placeOf, signed]
  norm_num

/-- A count is taken to the single nearest to it. -/
theorem isNearest_toFloat32 (n : UInt32) : IsNearest n.toNat n.toFloat32 := by
  have hcount := isNearest_normalize n.toNat 0 .positive
  rwa [zpow_zero, MulOneClass.mul_one, Int.cast_natCast] at hcount

section Floor

variable {x : Float32}

theorem isNearest_floor (hx : x.isFinite = true) : IsNearest ⌊place x⌋ (floor x) := by
  rw [isFinite_eq] at hx
  cases hview : view x with rw [hview] at hx
  | infinity | notANumber => cases hx
  | zero s =>
    have hfloor : floor x = x := by rw [floor, show x.toModel.unpack = _ from hview]
    have hplace : place x = 0 := by rw [place, hview, placeOf_zero]
    have hnearest := isNearest_place (x := x) (by rw [isNaN_eq, hview]; rfl)
    rwa [hfloor, hplace, Int.floor_zero, Int.cast_zero, ← hplace]
  | finite s m e hm =>
    have hfloor : floor x = ofView (normalize .binary32 ⌊place x⌋ 0 .positive) := by
      rw [floor, show x.toModel.unpack = _ from hview, floor_place hview]
      rfl
    have hnearest := isNearest_normalize ⌊place x⌋ 0 .positive
    rwa [zpow_zero, MulOneClass.mul_one, ← hfloor] at hnearest

/-- The floor of a single has a single: either the number is whole itself, or it is small. -/
theorem exists_place_eq_floor (hx : x.isFinite = true) :
    ∃ y : Float32, y.isFinite = true ∧ place y = ⌊place x⌋ := by
  rcases place_cases x (g := 0) (by decide) with ⟨j, hj⟩ | ⟨-, hsmall⟩
  · refine ⟨x, hx, ?_⟩
    rw [hj, zpow_zero, MulOneClass.mul_one, Int.floor_intCast]
  · obtain ⟨hlow, hhigh⟩ := abs_le.mp hsmall
    have hlow : -2 ^ 23 ≤ ⌊place x⌋ := Int.le_floor.mpr (by exact_mod_cast hlow)
    have hhigh : ⌊place x⌋ ≤ 2 ^ 23 := by exact_mod_cast (Int.floor_le (place x)).trans hhigh
    exact exists_place_eq_intCast (by omega)

theorem place_floor (hx : x.isFinite = true) : place (floor x) = ⌊place x⌋ := by
  obtain ⟨y, hy, hplace⟩ := exists_place_eq_floor hx
  have hnearest := isNearest_floor hx
  rw [← hplace] at hnearest ⊢
  exact hnearest.place_eq (not_isNaN_of_isFinite hy)

theorem isFinite_floor (hx : x.isFinite = true) : (floor x).isFinite = true := by
  obtain ⟨y, hy, hplace⟩ := exists_place_eq_floor hx
  refine isFinite_of_abs_place_lt (isNearest_floor hx).not_isNaN ?_
  rw [place_floor hx, ← hplace]
  exact abs_place_lt hy

/-! ### Fractional parts -/

/-- What a number exceeds its floor by is rounded once. -/
theorem isNearest_sub_floor (hx : x.isFinite = true) :
    IsNearest (Int.fract (place x)) (x - floor x) := by
  have hnearest := isNearest_sub hx (isFinite_floor hx)
  rwa [place_floor hx] at hnearest

theorem place_sub_floor_mem (hx : x.isFinite = true) : place (x - floor x) ∈ Set.Icc 0 1 := by
  have hnearest := isNearest_sub_floor hx
  constructor
  · exact hnearest.le_place (y := 0) rfl (Int.fract_nonneg (place x))
  · rw [← place_one]
    exact hnearest.place_le rfl (place_one ▸ (Int.fract_lt_one (place x)).le)

theorem isFinite_sub_floor (hx : x.isFinite = true) : (x - floor x).isFinite = true := by
  obtain ⟨hlow, hhigh⟩ := place_sub_floor_mem hx
  exact isFinite_of_place_le (isNearest_sub_floor hx).not_isNaN hlow (hhigh.trans (by norm_num))

/-- An infinity less itself is no number, and counts as zero like NaN. -/
theorem fraction_of_not_isFinite (hx : x.isFinite = false) : fraction x = 0 := by
  have hsub : (x - floor x).isFinite = false := by
    rw [isFinite_eq] at hx
    rw [isFinite_eq, sub_eq]
    cases hview : view x with rw [hview] at hx
    | zero | finite => cases hx
    | infinity s =>
      rw [floor, show x.toModel.unpack = _ from hview, hview]
      cases s <;> rfl
    | notANumber =>
      rw [floor, show x.toModel.unpack = _ from hview, hview]
      rfl
  exact if_neg (by rw [hsub]; exact Bool.false_ne_true)

/-- A fractional part lies between 0 and 1, and may be either. -/
theorem fraction_mem (x : Float32) :
    (fraction x).isFinite = true ∧ place (fraction x) ∈ Set.Icc 0 1 := by
  cases hx : x.isFinite with
  | false =>
    rw [fraction_of_not_isFinite hx]
    exact ⟨rfl, le_rfl, zero_le_one⟩
  | true =>
    have hfinite := isFinite_sub_floor hx
    have hfraction : fraction x = x - floor x := if_pos hfinite
    rw [hfraction]
    exact ⟨hfinite, place_sub_floor_mem hx⟩

end Floor

/-! ### Steps counted off -/

/-- The counts that 32 bits hold stay finite as singles. The greatest is rounded up to 2 ^ 32. -/
theorem toFloat32_mem (n : UInt32) :
    n.toFloat32.isFinite = true ∧ place n.toFloat32 ∈ Set.Icc 0 (2 ^ 32) := by
  have hnearest := isNearest_toFloat32 n
  have hgreatest : place (.ofBits 0x4f800000) = 2 ^ 32 := by
    rw [place, show view (.ofBits 0x4f800000) = .finite .positive (2 ^ 23) 9 (by decide) from rfl,
      placeOf, signed]
    norm_num
  have hlow : 0 ≤ place n.toFloat32 := hnearest.le_place (y := 0) rfl (Nat.cast_nonneg _)
  have hhigh : place n.toFloat32 ≤ 2 ^ 32 := by
    rw [← hgreatest]
    refine hnearest.place_le rfl ?_
    rw [hgreatest]
    exact_mod_cast n.toNat_lt.le
  exact ⟨isFinite_of_place_le hnearest.not_isNaN hlow hhigh, hlow, hhigh⟩

/-- **A fractional part scaled by a count** is finite whatever the number was, and lies between 0 and
the count as a single has it, both included. -/
theorem scaled_fraction_mem (t : Float32) (n : UInt32) :
    (fraction t * n.toFloat32).isFinite = true ∧
      place (fraction t * n.toFloat32) ∈ Set.Icc 0 (place n.toFloat32) := by
  obtain ⟨hfinite, hlow, hhigh⟩ := fraction_mem t
  obtain ⟨hcount, hnonneg, hbound⟩ := toFloat32_mem n
  have hnearest := isNearest_mul hfinite hcount
  have hzero : 0 ≤ place (fraction t * n.toFloat32) :=
    hnearest.le_place (y := 0) rfl (mul_nonneg hlow hnonneg)
  have hle : place (fraction t * n.toFloat32) ≤ place n.toFloat32 :=
    hnearest.place_le (not_isNaN_of_isFinite hcount) (mul_le_of_le_one_left hnonneg hhigh)
  exact ⟨isFinite_of_place_le hnearest.not_isNaN hzero (hle.trans hbound), hzero, hle⟩

theorem toNat_ofNatClamp (n : ℕ) : (UInt32.ofNatClamp n).toNat = min n (2 ^ 32 - 1) := by
  rw [UInt32.ofNatClamp]
  split_ifs with h
  · rw [UInt32.toNat_ofNatLT]
    rw [UInt32.size] at h
    omega
  · rw [UInt32.toNat_ofNatLT]
    rw [UInt32.size] at h ⊢
    omega

/-- Rounding toward zero drops what stands behind the point. -/
theorem toNat_roundToInt (m : ℕ) (e : ℤ) :
    (roundToInt .positive m e).toNat = ⌊(m : ℚ) * 2 ^ e⌋₊ := by
  have hround : roundToInt .positive m e =
      ((dropped (m <<< e.toNat) (-e).toNat).mantissa : ℤ) := by
    have hshift : (0 - (e - e.toNat)).toNat = (-e).toNat := by omega
    simp only [roundToInt, decreaseExponent, shiftToExponent, sub_zero, hshift]
    rfl
  have hscale : (m : ℚ) * 2 ^ e = ((m * 2 ^ e.toNat : ℕ) : ℚ) / ((2 ^ (-e).toNat : ℕ) : ℚ) := by
    obtain ⟨a, ha⟩ : ∃ a, a = e.toNat := ⟨_, rfl⟩
    obtain ⟨b, hb⟩ : ∃ b, b = (-e).toNat := ⟨_, rfl⟩
    rw [← ha, ← hb, show e = (a : ℤ) - b by omega, zpow_sub₀ two_ne_zero]
    push_cast
    rw [zpow_natCast, zpow_natCast, mul_div_assoc]
  rw [hround, Int.toNat_natCast, dropped_mantissa, Nat.shiftLeft_eq, hscale, Nat.floor_div_eq_div]

/-- Counting off takes the whole part of what is not negative, and at most the greatest count. -/
theorem toNat_toUInt32 {x : Float32} (hx : x.isFinite = true) (hnonneg : 0 ≤ place x) :
    x.toUInt32.toNat = min ⌊place x⌋₊ (2 ^ 32 - 1) := by
  have hcast : x.toUInt32 = UInt32.ofNatClamp ((view x).toInt 0 (UInt32.size - 1)).toNat := rfl
  rw [isFinite_eq] at hx
  rw [hcast, toNat_ofNatClamp]
  congr 1
  rw [place] at hnonneg ⊢
  cases hview : view x with rw [hview] at hx hnonneg
  | infinity | notANumber => cases hx
  | zero s => simp [UnpackedFloat.toInt]
  | finite s m e hm =>
    cases s with
    | negative =>
      have hpos : (0 : ℚ) < m * 2 ^ e := by positivity
      exact absurd hnonneg (not_le.mpr (neg_lt_zero.mpr hpos))
    | positive =>
      exact toNat_roundToInt m e

end ShadeTree.Single
