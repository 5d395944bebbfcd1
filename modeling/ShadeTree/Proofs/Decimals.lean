import ShadeTree.Proofs.Rounding
import ShadeTree.Proofs.Numerals

/-!
# Decimals rounded to singles

Reading a decimal takes one of three ways: small ones are one multiplication or one division of
singles, the others a product or a quotient of whole numbers, and those with an exponent out of all
proportion are not computed at all. Whichever is taken, the single depends on the number alone that
the decimal writes, and is the nearest to it (`nearest_eq`).
-/

namespace ShadeTree.Single

open Float.Model Float.Model.UnpackedFloat

/-! ### Numbers at the ends of the range -/

theorem near_zero (s : Sign) : near s 0 = .zero s := by
  have hsteps : steps 0 = 0 := by
    rw [steps, zero_div, ← Nat.cast_zero, nearestNat, extended_natCast]
    rfl
  rw [near, dif_pos hsteps]

/-- What is less than a quarter of the least single comes to nothing. -/
theorem near_of_lt (s : Sign) {q : ℚ} (hq : 0 < q) (h : q < 2 ^ (-151 : ℤ)) :
    near s q = .zero s := by
  have hlog : Int.log 2 q < -151 := (Int.lt_zpow_iff_log_lt (by decide) hq).mp (by exact_mod_cast h)
  have hgrid : grid q = -149 := by
    rw [grid]
    omega
  have hsmall : q / 2 ^ grid q < 1 / 4 := by
    rw [hgrid, div_lt_iff₀ (by positivity)]
    refine h.trans_eq ?_
    norm_num
  have hnear := (abs_le.mp (abs_sub_nearestNat_le (div_pos hq (by positivity) :
    0 < q / 2 ^ grid q).le)).1
  have hsteps : (steps q : ℚ) < 1 := by
    rw [steps]
    linarith
  rw [near, dif_pos (Nat.lt_one_iff.mp (by exact_mod_cast hsteps))]

/-- What is not below the number after the largest comes to infinity. -/
theorem ofView_near_of_ge (s : Sign) {q : ℚ} (h : 2 ^ (128 : ℤ) ≤ q) :
    ofView (near s q) = ofView (.infinity s) := by
  have hq : 0 < q := lt_of_lt_of_le (by positivity) h
  have hlog : 128 ≤ Int.log 2 q := (Int.zpow_le_iff_le_log (by decide) hq).mp (by exact_mod_cast h)
  have hgrid : 105 ≤ grid q := by
    rw [grid]
    omega
  have hsteps : 2 ^ 23 ≤ steps q := le_steps hq (by omega)
  have hview : view (ofView (near s q)) = .infinity s := by
    rw [near]
    split_ifs with hzero hcarry
    · omega
    · exact view_ofView_of_overflow s _ (by omega)
    · exact view_ofView_of_overflow s _ (by omega)
  rw [← ofView_view (ofView (near s q)), hview]

/-- A number that a single has the mantissa and the exponent for is not changed. -/
theorem near_of_canonical (s : Sign) {m : ℕ} {e : ℤ} (h : Canonical m e) :
    near s (m * 2 ^ e) = .finite s m e h.mantissa_pos := by
  obtain ⟨hpos, hlt, hge, -, hfull⟩ := h
  have hpow : (0 : ℚ) < 2 ^ e := by positivity
  have hgrid : grid (m * 2 ^ e) = e := by
    have hlog : m.log2 < 24 := (Nat.log2_lt hpos.ne').mpr hlt
    have hfull : 23 ≤ m.log2 ∨ e = -149 := hfull.imp_left (Nat.le_log2 hpos.ne').mpr
    rw [grid_eq (by positivity) le_rfl (by gcongr; exact lt_add_one _) (.inl hpos)]
    omega
  have hsteps : steps (m * 2 ^ e) = m := by
    rw [steps, hgrid, mul_div_cancel_right₀ _ hpow.ne', nearestNat, extended_natCast]
    rfl
  simp only [near, hsteps, hgrid, hpos.ne', hlt.ne, dite_false, if_false]

theorem isNearest_near_of_nonneg (s : Sign) {q : ℚ} (hq : 0 ≤ q) :
    IsNearest (signed s q) (ofView (near s q)) := by
  rcases hq.eq_or_lt with rfl | hpos
  · rw [near_zero, signed_zero]
    exact isNearest_zero s
  · exact isNearest_near s hpos

theorem neg_eq (x : Float32) : -x = ofView (view x).neg := rfl

theorem neg_near (q : ℚ) : (near .positive q).neg = near .negative q := by
  rw [near, near]
  split_ifs <;> rfl

/-- The opposite of a number is rounded to the opposite. -/
theorem neg_ofView_near {q : ℚ} (hq : 0 ≤ q) :
    -ofView (near .positive q) = ofView (near .negative q) := by
  rw [neg_eq, ← neg_near]
  rcases hq.eq_or_lt with rfl | hpos
  · rw [near_zero, view_ofView_zero]
  · rcases near_cases .positive hpos with hnear | ⟨m, e, hm, hnear, hlt, hge, hfull⟩ <;> rw [hnear]
    · rw [view_ofView_zero]
    · by_cases hle : e ≤ 104
      · rw [view_ofView ⟨hm, hlt, hge, hle, hfull⟩]
      · have hover := view_ofView_of_overflow .negative hm (not_le.mp hle)
        rw [view_ofView_of_overflow .positive hm (not_le.mp hle)]
        exact (congrArg ofView hover).symm.trans (ofView_view _)

/-! ### Products and quotients -/

/-- A product is rounded from as many bits as it has. They have to be those of a single, or its exponent
to be low enough for one. -/
theorem mul_finite (s t : Sign) {m n : ℕ} {e d : ℤ} (hm : 0 < m) (hn : 0 < n)
    (hdeep : 2 ^ 23 ≤ m * n ∨ e + d ≤ -149) :
    UnpackedFloat.mul .binary32 (.finite s m e hm) (.finite t n d hn) =
      near (s * t) (m * 2 ^ e * (n * 2 ^ d)) := by
  have hscale : (m : ℚ) * 2 ^ e * (n * 2 ^ d) / 2 ^ (e + d) = (m * n : ℕ) := by
    rw [zpow_add₀ two_ne_zero]
    push_cast
    field_simp
  refine roundWithAccuracy_eq _ (by positivity) ?_ hdeep
  rw [hscale, extended_natCast]
  rfl

/-- The whole part of a quotient and what a division has left make up the quotient as rounding sees
it. -/
theorem ofMantissaAndAccuracy_div (a : ℕ) {b : ℕ} (hb : 0 < b) :
    ExtendedMantissa.ofMantissaAndAccuracy (a / b) (accuracyOfFraction (a % b) b) =
      extended ((a : ℚ) / b) := by
  have hb' : (0 : ℚ) < b := by exact_mod_cast hb
  have hfloor : ⌊(a : ℚ) / b⌋₊ = a / b := Nat.floor_div_eq_div a b
  have hrest : (a : ℚ) / b - ((a / b : ℕ) : ℚ) = ((a % b : ℕ) : ℚ) / b := by
    have hsplit : (a : ℚ) = b * ((a / b : ℕ) : ℚ) + ((a % b : ℕ) : ℚ) := by
      exact_mod_cast (Nat.div_add_mod a b).symm
    rw [eq_div_iff hb'.ne', sub_mul, div_mul_cancel₀ _ hb'.ne']
    linarith
  have hhalf (r : ℕ) : (1 : ℚ) / 2 ≤ r / b ↔ b ≤ 2 * r := by
    rw [div_le_div_iff₀ two_pos hb', one_mul, mul_comm]
    exact_mod_cast Iff.rfl
  have heq (r : ℕ) : (r : ℚ) / b = 1 / 2 ↔ 2 * r = b := by
    rw [div_eq_div_iff hb'.ne' two_ne_zero, one_mul, mul_comm]
    exact_mod_cast Iff.rfl
  simp only [extended, hfloor, hrest, ne_eq, hhalf, heq, div_eq_zero_iff, Nat.cast_eq_zero, hb.ne',
    or_false]
  rw [accuracyOfFraction]
  rcases Nat.eq_zero_or_pos (a % b) with hzero | hpos
  · simp [hzero, ExtendedMantissa.ofMantissaAndAccuracy, hb.ne']
  · rw [if_neg hpos.ne']
    rcases lt_trichotomy (2 * (a % b)) b with hlt | heq | hgt
    · simp [Nat.compare_eq_lt.mpr hlt, ExtendedMantissa.ofMantissaAndAccuracy]
      omega
    · simp [Nat.compare_eq_eq.mpr heq, ExtendedMantissa.ofMantissaAndAccuracy]
      omega
    · simp [Nat.compare_eq_gt.mpr hgt, ExtendedMantissa.ofMantissaAndAccuracy]
      omega

/-- A quotient is rounded from as many bits as a single has at least. -/
theorem div_finite (s t : Sign) {m n : ℕ} {e d : ℤ} (hm : 0 < m) (hn : 0 < n) :
    UnpackedFloat.div .binary32 (.finite s m e hm) (.finite t n d hn) =
      near (s / t) (m * 2 ^ e / (n * 2 ^ d)) := by
  obtain ⟨target, htarget⟩ : ∃ target, target = min (e - d)
    (Format.binary32.targetExponent (totalExponent m e - totalExponent n d)) := ⟨_, rfl⟩
  obtain ⟨shift, hshift⟩ := Int.eq_ofNat_of_zero_le (show 0 ≤ e - d - target by omega)
  have hdiv : UnpackedFloat.div .binary32 (.finite s m e hm) (.finite t n d hn) =
      roundWithAccuracy .binary32 (s / t) (m * 2 ^ shift / n) target
        (accuracyOfFraction (m * 2 ^ shift % n) n) := by
    simp only [UnpackedFloat.div, divCore, ← htarget, hshift, Int.toNat_natCast, Nat.shiftLeft_eq]
  have hscale : (m : ℚ) * 2 ^ e / (n * 2 ^ d) / 2 ^ target = ((m * 2 ^ shift : ℕ) : ℚ) / n := by
    obtain rfl : e = shift + target + d := by omega
    rw [zpow_add₀ two_ne_zero, zpow_add₀ two_ne_zero, zpow_natCast]
    push_cast
    field_simp
  rw [hdiv]
  refine roundWithAccuracy_eq _ (by positivity) ?_ ?_
  · rw [hscale, ofMantissaAndAccuracy_div _ hn]
  · rcases le_or_gt target (-149) with hleast | hdeep
    · exact .inr hleast
    · have hlog : n.log2 + 1 + 23 ≤ m.log2 + shift := by
        rw [Format.targetExponent, totalExponent, totalExponent,
          show Format.binary32.minExponent = -149 from rfl,
          show Format.binary32.mantissaBits = 24 from rfl] at htarget
        omega
      refine .inl ((Nat.le_div_iff_mul_le hn).mpr ?_)
      calc 2 ^ 23 * n ≤ 2 ^ 23 * 2 ^ (n.log2 + 1) := by
            gcongr
            exact Nat.lt_log2_self.le
        _ = 2 ^ (n.log2 + 1 + 23) := by rw [← pow_add, add_comm]
        _ ≤ 2 ^ (m.log2 + shift) := Nat.pow_le_pow_right two_pos hlog
        _ = 2 ^ m.log2 * 2 ^ shift := pow_add _ _ _
        _ ≤ m * 2 ^ shift := by
            gcongr
            exact Nat.log2_self_le hm.ne'

/-! ### Decimals -/

/-- An exponent so high makes any number too large. -/
theorem zpow_le_mul_ten {n : ℕ} (hn : 0 < n) {e : ℤ} (he : 128 ≤ e) :
    (2 : ℚ) ^ (128 : ℤ) ≤ n * 10 ^ e := by
  have hone : (1 : ℚ) ≤ n := by exact_mod_cast hn
  obtain ⟨k, rfl⟩ := Int.eq_ofNat_of_zero_le (show 0 ≤ e by omega)
  calc (2 : ℚ) ^ (128 : ℤ) ≤ 2 ^ (k : ℤ) := zpow_two_le he
    _ ≤ 10 ^ (k : ℤ) := by
      rw [zpow_natCast, zpow_natCast]
      gcongr
      norm_num
    _ ≤ n * 10 ^ (k : ℤ) := le_mul_of_one_le_left (by positivity) hone

/-- One so low makes it too small, however many digits it has. -/
theorem mul_ten_lt_zpow {n : ℕ} {e : ℤ} (he : e + n.log2 < -151) :
    (n : ℚ) * 10 ^ e < 2 ^ (-151 : ℤ) := by
  have hhigh : (n : ℚ) < 2 ^ (n.log2 + 1) := by exact_mod_cast Nat.lt_log2_self (n := n)
  obtain ⟨k, hk⟩ := Int.eq_ofNat_of_zero_le (show 0 ≤ -e by omega)
  obtain rfl : e = -k := by omega
  calc (n : ℚ) * 10 ^ (-(k : ℤ)) ≤ n * 2 ^ (-(k : ℤ)) := by
        rw [zpow_neg, zpow_neg, zpow_natCast, zpow_natCast]
        gcongr
        norm_num
    _ < 2 ^ (n.log2 + 1) * 2 ^ (-(k : ℤ)) := by gcongr
    _ = 2 ^ ((n.log2 : ℤ) + 1 + -k) := by
        rw [zpow_add₀ two_ne_zero _ (-(k : ℤ))]
        norm_cast
    _ ≤ 2 ^ (-151 : ℤ) := zpow_two_le (by omega)

/-- A decimal rounded by way of whole numbers, or out of all proportion. -/
theorem ofView_ofScientific (n : ℕ) (e : ℤ) :
    ofView (UnpackedFloat.ofScientific .binary32 n e) = ofView (near .positive (n * 10 ^ e)) := by
  rcases Nat.eq_zero_or_pos n with rfl | hn
  · rw [Nat.cast_zero, zero_mul, near_zero]
    rfl
  rw [UnpackedFloat.ofScientific, dif_neg hn.ne']
  split_ifs with hbig hsmall hnonneg
  · have hexponent : (256 : ℤ) < e := hbig
    exact (ofView_near_of_ge _ (zpow_le_mul_ten hn (by omega))).symm
  · have hexponent : e < -((256 : ℤ) + n.log2) := hsmall
    rw [near_of_lt _ (by positivity) (mul_ten_lt_zpow (by omega))]
  · have hpow : ((10 ^ e.toNat : ℕ) : ℚ) = 10 ^ e := by
      rw [← Int.toNat_of_nonneg hnonneg, Int.toNat_natCast]
      norm_cast
    have hfull : 2 ^ 23 ≤ n <<< Format.binary32.mantissaBits := by
      rw [Nat.shiftLeft_eq, show Format.binary32.mantissaBits = 24 from rfl]
      omega
    rw [mul_finite _ _ _ _ (.inl (hfull.trans (Nat.le_mul_of_pos_right _ (by positivity)))), hpow,
      Nat.shiftLeft_eq, zpow_neg, zpow_natCast, zpow_zero]
    congr 2
    push_cast
    field_simp
  · have hpow : ((10 ^ (-e).toNat : ℕ) : ℚ) = (10 ^ e)⁻¹ := by
      rw [← zpow_neg, ← Int.toNat_of_nonneg (show 0 ≤ -e by omega), Int.toNat_natCast]
      norm_cast
    rw [div_finite, hpow, zpow_zero]
    congr 2
    field_simp

/-- A single stands for a positive number and has all of its bits. -/
def Holds (x : Float32) (q : ℚ) : Prop :=
  ∃ m e, ∃ hm : 0 < m, view x = .finite .positive m e hm ∧ 2 ^ 23 ≤ m ∧ (m : ℚ) * 2 ^ e = q

section Holds

variable {x y : Float32} {p q : ℚ}

theorem Holds.mul (hx : Holds x p) (hy : Holds y q) : x * y = ofView (near .positive (p * q)) := by
  obtain ⟨m, e, hm, hviewx, hfull, rfl⟩ := hx
  obtain ⟨n, d, hn, hviewy, -, rfl⟩ := hy
  rw [mul_eq, hviewx, hviewy,
    mul_finite _ _ _ _ (.inl (hfull.trans (Nat.le_mul_of_pos_right m hn)))]
  rfl

theorem div_eq (x y : Float32) :
    x / y = ofView (UnpackedFloat.div .binary32 (view x) (view y)) := rfl

theorem Holds.div (hx : Holds x p) (hy : Holds y q) : x / y = ofView (near .positive (p / q)) := by
  obtain ⟨m, e, hm, hviewx, -, rfl⟩ := hx
  obtain ⟨n, d, hn, hviewy, -, rfl⟩ := hy
  rw [div_eq, hviewx, hviewy, div_finite]
  rfl

/-- A small whole number is a single. -/
theorem holds_toFloat32 {n : ℕ} (hn : 0 < n) (hlt : n < 2 ^ 24) : Holds n.toUInt64.toFloat32 n := by
  obtain ⟨j, hj⟩ : ∃ j, n.log2 + j = 23 :=
    ⟨23 - n.log2, by have := (Nat.log2_lt hn.ne').mpr hlt; omega⟩
  have hfull : 2 ^ 23 ≤ n * 2 ^ j := by
    rw [← hj, pow_add]
    exact Nat.mul_le_mul_right _ (Nat.log2_self_le hn.ne')
  have hcanonical : Canonical (n * 2 ^ j) (-j) := by
    refine ⟨by positivity, ?_, by omega, by omega, .inl hfull⟩
    rw [show 24 = n.log2 + 1 + j by omega, pow_add]
    exact Nat.mul_lt_mul_of_pos_right Nat.lt_log2_self (by positivity)
  have hscale : ((n * 2 ^ j : ℕ) : ℚ) * 2 ^ (-(j : ℤ)) = n := by
    rw [zpow_neg, zpow_natCast]
    push_cast
    field_simp
  have hfloat : n.toUInt64.toFloat32 = ofView (near .positive n) := by
    have hsize : n.toUInt64.toNat = n := by
      rw [Nat.toUInt64_eq, UInt64.toNat_ofNat_of_lt']
      exact hlt.trans (by decide)
    have hnormalize : n.toUInt64.toFloat32 =
        ofView (normalize .binary32 (n.toUInt64.toNat : ℤ) 0 .positive) := rfl
    rw [hnormalize, hsize, normalize_eq, if_neg (by omega), if_neg (by omega), zpow_zero,
      MulOneClass.mul_one, Int.natAbs_natCast]
  refine ⟨_, _, hcanonical.mantissa_pos, ?_, hfull, hscale⟩
  rw [hfloat, ← hscale, near_of_canonical _ hcanonical, view_ofView hcanonical]

/-- The powers of ten that reading has at hand. -/
theorem holds_power {k : ℕ} (hk : k ≤ 10)
    (hsize : k < Float32.exactlyRepresentablePowersOfTen.size) :
    Holds Float32.exactlyRepresentablePowersOfTen[k] (10 ^ k) := by
  interval_cases k
  · change Holds (.ofBits 0x3F800000) _
    exact ⟨8388608, -23, by decide, rfl, by decide, by norm_num⟩
  · change Holds (.ofBits 0x41200000) _
    exact ⟨10485760, -20, by decide, rfl, by decide, by norm_num⟩
  · change Holds (.ofBits 0x42C80000) _
    exact ⟨13107200, -17, by decide, rfl, by decide, by norm_num⟩
  · change Holds (.ofBits 0x447A0000) _
    exact ⟨16384000, -14, by decide, rfl, by decide, by norm_num⟩
  · change Holds (.ofBits 0x461C4000) _
    exact ⟨10240000, -10, by decide, rfl, by decide, by norm_num⟩
  · change Holds (.ofBits 0x47C35000) _
    exact ⟨12800000, -7, by decide, rfl, by decide, by norm_num⟩
  · change Holds (.ofBits 0x49742400) _
    exact ⟨16000000, -4, by decide, rfl, by decide, by norm_num⟩
  · change Holds (.ofBits 0x4B189680) _
    exact ⟨10000000, 0, by decide, rfl, by decide, by norm_num⟩
  · change Holds (.ofBits 0x4CBEBC20) _
    exact ⟨12500000, 3, by decide, rfl, by decide, by norm_num⟩
  · change Holds (.ofBits 0x4E6E6B28) _
    exact ⟨15625000, 6, by decide, rfl, by decide, by norm_num⟩
  · change Holds (.ofBits 0x501502F9) _
    exact ⟨9765625, 10, by decide, rfl, by decide, by norm_num⟩

/-- Zero times a number or divided by one is zero. -/
theorem Holds.zero_mul (hy : Holds y q) :
    ofView (.zero .positive) * y = ofView (.zero .positive) := by
  obtain ⟨n, d, hn, hview, -, -⟩ := hy
  rw [mul_eq, view_ofView_zero, hview]
  rfl

theorem Holds.zero_div (hy : Holds y q) :
    ofView (.zero .positive) / y = ofView (.zero .positive) := by
  obtain ⟨n, d, hn, hview, -, -⟩ := hy
  rw [div_eq, view_ofView_zero, hview]
  rfl

/-- A small decimal is read in one multiplication or one division. -/
theorem Holds.scale {n : ℕ} (hn : n < 2 ^ 23) (hy : Holds y q) :
    n.toUInt64.toFloat32 * y = ofView (near .positive (n * q)) ∧
      n.toUInt64.toFloat32 / y = ofView (near .positive (n / q)) := by
  rcases Nat.eq_zero_or_pos n with rfl | hpos
  · have hzero : (0 : ℕ).toUInt64.toFloat32 = ofView (.zero .positive) := rfl
    rw [hzero, hy.zero_mul, hy.zero_div]
    simp [near_zero]
  · have hfloat := holds_toFloat32 hpos (hn.trans (by decide))
    exact ⟨hfloat.mul hy, hfloat.div hy⟩

end Holds

/-- Reading a decimal takes the single that the number it writes is rounded to. -/
theorem ofScientific_eq (n : ℕ) (e : ℤ) :
    Float32.ofScientific n (e < 0) e.natAbs = ofView (near .positive (n * 10 ^ e)) := by
  by_cases hfast : n < 2 ^ 23 ∧ e.natAbs ≤ 10
  · have hpower := holds_power hfast.2
      (by rw [show Float32.exactlyRepresentablePowersOfTen.size = 11 from rfl]; omega)
    obtain ⟨hmul, hdiv⟩ := hpower.scale hfast.1
    rw [Float32.ofScientific, dif_pos hfast]
    rcases lt_or_ge e 0 with hneg | hnonneg
    · have hpow : (10 : ℚ) ^ e.natAbs = (10 ^ e)⁻¹ := by
        rw [← zpow_natCast, Int.ofNat_natAbs_of_nonpos hneg.le, zpow_neg]
      rw [hpow, div_inv_eq_mul] at hdiv
      rw [decide_eq_true hneg]
      exact hdiv
    · have hpow : (10 : ℚ) ^ e.natAbs = 10 ^ e := by
        rw [← zpow_natCast, Int.natAbs_of_nonneg hnonneg]
      rw [hpow] at hmul
      rw [decide_eq_false (not_lt.mpr hnonneg)]
      exact hmul
  · have hexponent : (if decide (e < 0) = true then Int.negOfNat e.natAbs
        else Int.ofNat e.natAbs) = e := by
      rcases lt_or_ge e 0 with hneg | hnonneg
      · rw [if_pos (by simpa using hneg), Int.negOfNat_eq, Int.ofNat_eq_natCast]
        omega
      · rw [if_neg (by simpa using hnonneg), Int.ofNat_eq_natCast]
        omega
    rw [Float32.ofScientific, dif_neg hfast]
    dsimp only
    rw [hexponent]
    exact ofView_ofScientific n e

end ShadeTree.Single

namespace ShadeTree.Token

open Float.Model Float.Model.UnpackedFloat

/-- The sign that a minus or none stands for. -/
def signOf (negative : Bool) : Sign := if negative then .negative else .positive

theorem nearest_eq (negative : Bool) (n : ℕ) (e : ℤ) :
    nearest negative n e = Single.ofView (Single.near (signOf negative) (n * 10 ^ e)) := by
  rw [nearest, Single.ofScientific_eq]
  cases negative with
  | false => rfl
  | true => exact Single.neg_ofView_near (by positivity)

/-! ### What digits write -/

theorem natural_append (ds fs : List Char) :
    natural (ds ++ fs) = natural ds * 10 ^ fs.length + natural fs := by
  rw [mul_comm]
  exact (Nat.ofDigitChars_append 0).trans Nat.ofDigitChars_eq_ofDigitChars_zero

theorem natural_singleton_lt {d : Char} (hd : d.isDigit = true) : natural [d] < 10 := by
  have hle : d.toNat ≤ 57 := by
    have hrange := Char.isDigit_iff_toNat.mp hd
    exact hrange.2
  change 10 * 0 + (d.toNat - 48) < 10
  omega

theorem natural_lt {ds : List Char} (hds : ∀ c ∈ ds, c.isDigit = true) :
    natural ds < 10 ^ ds.length := by
  induction ds with
  | nil => decide
  | cons d ds ih =>
    rw [List.forall_mem_cons] at hds
    have hd := natural_singleton_lt hds.1
    have hds := ih hds.2
    rw [← List.singleton_append, natural_append, List.length_append, List.length_singleton,
      pow_add]
    calc natural [d] * 10 ^ ds.length + natural ds
        < natural [d] * 10 ^ ds.length + 1 * 10 ^ ds.length := by rw [one_mul]; gcongr
      _ = (natural [d] + 1) * 10 ^ ds.length := (add_mul _ _ _).symm
      _ ≤ 10 ^ 1 * 10 ^ ds.length := Nat.mul_le_mul_right _ hd

end ShadeTree.Token
