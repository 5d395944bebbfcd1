import ShadeTree.Json.Number
import ShadeTree.Proofs.Arithmetic

/-!
# Double arithmetic

An operation on doubles computes exactly and rounds. What is needed of it is not which double comes
out but how far that may be from what was computed: by a part of the number (`Within`), as long as
it has all of its bits (`Holds`). Where bits are lost at the low end only a bound is kept (`Below`).

Products, quotients, words and the powers of ten are taken in turn.
-/

namespace ShadeTree

/-! ### Parts of a number -/

/-- A number is off another by no more than a part of it. -/
def Within (ε q r : ℚ) : Prop := |r - q| ≤ ε * q

section Within

variable {δ ε p q r s : ℚ}

theorem Within.mono (h : Within δ q r) (hq : 0 ≤ q) (hle : δ ≤ ε) : Within ε q r :=
  h.trans (mul_le_mul_of_nonneg_right hle hq)

theorem Within.le_two_mul (h : Within ε q r) (hq : 0 ≤ q) (hε : ε ≤ 1 / 2) : q ≤ 2 * r := by
  have hlow := (abs_le.mp h).1
  nlinarith

theorem Within.mul_right (h : Within ε q r) (hp : 0 ≤ p) : Within ε (q * p) (r * p) := by
  rw [Within, ← sub_mul, abs_mul, abs_of_nonneg hp, ← mul_assoc]
  exact mul_le_mul_of_nonneg_right h hp

/-- Parts add up, and the part of a part comes on top. -/
theorem Within.trans (h : Within ε q r) (h' : Within δ r s) (hδ : 0 ≤ δ) :
    Within (ε + δ + ε * δ) q s := by
  have hr : r ≤ (1 + ε) * q := by
    have := (abs_le.mp h).2
    linarith
  calc |s - q| ≤ |s - r| + |r - q| := abs_sub_le s r q
    _ ≤ δ * r + ε * q := add_le_add h' h
    _ ≤ δ * ((1 + ε) * q) + ε * q := by gcongr
    _ = (ε + δ + ε * δ) * q := by ring

theorem Within.mul (h : Within ε q r) (h' : Within δ p s) (hq : 0 ≤ q) (hp : 0 ≤ p)
    (hε : 0 ≤ ε) : Within (ε + δ + ε * δ) (q * p) (r * s) := by
  have hs : |s| ≤ (1 + δ) * p := by
    have := abs_sub_abs_le_abs_sub s p
    rw [abs_of_nonneg hp] at this
    have := this.trans h'
    linarith
  calc |r * s - q * p| = |(r - q) * s + q * (s - p)| := by ring_nf
    _ ≤ |r - q| * |s| + |q| * |s - p| := by
      rw [← abs_mul, ← abs_mul]
      exact abs_add_le _ _
    _ ≤ (ε * q) * ((1 + δ) * p) + q * (δ * p) := by
      rw [abs_of_nonneg hq]
      exact add_le_add (mul_le_mul h hs (abs_nonneg s) (by positivity))
        (mul_le_mul_of_nonneg_left h' hq)
    _ = (ε + δ + ε * δ) * (q * p) := by ring

/-- A quotient is off by what its two sides are, as long as the one below is not off by half. -/
theorem Within.div (h : Within ε q r) (h' : Within δ p s) (hq : 0 ≤ q) (hp : 0 < p)
    (hε : 0 ≤ ε) (hδ : 0 ≤ δ) (hδ' : δ ≤ 1 / 2) :
    Within ((ε + δ) * (1 + 2 * δ)) (q / p) (r / s) := by
  have hlow : (1 - δ) * p ≤ s := by
    have := (abs_le.mp h').1
    linarith
  have hs : 0 < s := lt_of_lt_of_le (mul_pos (by linarith) hp) hlow
  have hsplit : r / s - q / p = ((r - q) * p - q * (s - p)) / (s * p) := by
    field_simp
    ring
  have htop : |(r - q) * p - q * (s - p)| ≤ (ε + δ) * q * p := by
    calc |(r - q) * p - q * (s - p)| ≤ |(r - q) * p| + |q * (s - p)| := abs_sub _ _
      _ = |r - q| * p + q * |s - p| := by
        rw [abs_mul, abs_mul, abs_of_pos hp, abs_of_nonneg hq]
      _ ≤ ε * q * p + q * (δ * p) :=
        add_le_add (mul_le_mul_of_nonneg_right h hp.le) (mul_le_mul_of_nonneg_left h' hq)
      _ = (ε + δ) * q * p := by ring
  have hinv : p ≤ (1 + 2 * δ) * s := by
    have : 1 ≤ (1 + 2 * δ) * (1 - δ) := by nlinarith
    nlinarith
  rw [Within, hsplit, abs_div, abs_of_pos (mul_pos hs hp), div_le_iff₀ (mul_pos hs hp)]
  calc |(r - q) * p - q * (s - p)| ≤ (ε + δ) * q * p := htop
    _ ≤ (ε + δ) * q * ((1 + 2 * δ) * s) := by gcongr
    _ = (ε + δ) * (1 + 2 * δ) * (q / p) * (s * p) := by field_simp

end Within

namespace Double

open Float.Model Float.Model.UnpackedFloat

/-! ### Doubles by mantissa and exponent -/

/-- What a double stands for. -/
def view (x : Float) : UnpackedFloat := x.toModel.unpack

/-- The double that stands for a number, where there is one. -/
def ofView (u : UnpackedFloat) : Float := .ofModel (.pack u)

theorem mul_eq (x y : Float) :
    x * y = ofView (UnpackedFloat.mul .binary64 (view x) (view y)) := rfl

theorem div_eq (x y : Float) :
    x / y = ofView (UnpackedFloat.div .binary64 (view x) (view y)) := rfl

theorem neg_eq (x : Float) : -x = ofView (view x).neg := rfl

theorem isInf_eq (x : Float) : x.isInf = (view x).isInf := rfl

theorem isFinite_eq (x : Float) : x.isFinite = (view x).isFinite := rfl

/-- A zero, or a finite number of an exponent not above `g`. -/
inductive Below (s : Sign) (g : ℤ) : UnpackedFloat → Prop where
  | zero : Below s g (.zero s)
  | finite {m : ℕ} {e : ℤ} (hm : 0 < m) (hlt : m < 2 ^ 53) (hle : e ≤ g) :
    Below s g (.finite s m e hm)

theorem Below.mono {s : Sign} {g h : ℤ} {u : UnpackedFloat} (hu : Below s g u) (hle : g ≤ h) :
    Below s h u := by
  cases hu with
  | zero => exact .zero
  | finite hm hlt he => exact .finite hm hlt (he.trans hle)

theorem Below.isFinite {s : Sign} {g : ℤ} {u : UnpackedFloat} (hu : Below s g u) :
    u.isFinite = true := by
  cases hu <;> rfl

theorem Below.not_isInf {s : Sign} {g : ℤ} {u : UnpackedFloat} (hu : Below s g u) :
    u.isInf = false := by
  cases hu <;> rfl

/-! ### Packing -/

theorem exponentBias_add :
    (Format.binary64.exponentBias : ℤ) + (Format.binary64.mantissaBitsWithoutImplicit : ℤ) = 1075 :=
  rfl

/-- What bits with an exponent in them stand for. -/
theorem unpack_packComponents_normal (s : Sign) {exponent : BitVec 11} (mantissa : BitVec 52)
    (hzero : exponent ≠ 0#11) (hones : exponent ≠ -1#11) :
    UnpackedFloat.unpack .binary64 (packComponents .binary64 s exponent mantissa) =
      .finite s (2 ^ 52 + mantissa.toNat) (exponent.toNat - 1075) (by simp) := by
  simp only [UnpackedFloat.unpack, unpackExponent_packComponents, unpackMantissa_packComponents,
    unpackSign_packComponents, Sign.ofBitVec_toBitVec]
  rw [if_neg hones, if_neg hzero]
  congr 1
  rw [BitVec.toNat_append]
  exact (Nat.two_pow_add_eq_or_of_lt mantissa.isLt 1).symm

/-- What bits without one stand for. -/
theorem below_packComponents_subnormal (s : Sign) (mantissa : BitVec 52) :
    Below s (-1074)
      (UnpackedFloat.unpack .binary64 (packComponents .binary64 s 0#11 mantissa)) := by
  simp only [UnpackedFloat.unpack, unpackExponent_packComponents, unpackMantissa_packComponents,
    unpackSign_packComponents, Sign.ofBitVec_toBitVec]
  rw [if_neg (by decide), if_pos trivial]
  split_ifs with hzero
  · exact .zero
  · exact .finite _ (mantissa.isLt.trans (by decide)) (by decide)

section Packing

variable (s : Sign) {m : ℕ} {e : ℤ} (hm : 0 < m)

theorem view_ofView_of_overflow (he : 971 < e) :
    view (ofView (.finite s m e hm)) = .infinity s := by
  have hfits : 2 ^ Format.binary64.exponentBits ≤ (e + Format.binary64.exponentBias +
      Format.binary64.mantissaBitsWithoutImplicit).toNat + 1 := by
    rw [add_assoc, exponentBias_add, show Format.binary64.exponentBits = 11 from rfl]
    omega
  show UnpackedFloat.unpack .binary64 (UnpackedFloat.pack .binary64 (.finite s m e hm)) = _
  simp only [UnpackedFloat.pack]
  rw [if_pos hfits]
  cases s <;> rfl

/-- Otherwise it is packed with an exponent if its mantissa is full, and without one if not. -/
theorem ofView_finite (hle : e ≤ 971) :
    ∃ biased : ℕ, biased = (e + 1075).toNat ∧ view (ofView (.finite s m e hm)) =
      UnpackedFloat.unpack .binary64 (packComponents .binary64 s
        (if m.log2 = 52 then BitVec.ofNat 11 biased else 0#11) (BitVec.ofNat 52 m)) := by
  obtain ⟨biased, hbiased⟩ : ∃ biased, biased = (e + 1075).toNat := ⟨_, rfl⟩
  have hexponent : (e + Format.binary64.exponentBias +
      Format.binary64.mantissaBitsWithoutImplicit).toNat = biased := by
    rw [add_assoc, exponentBias_add, hbiased]
  have hfits : ¬ 2 ^ Format.binary64.exponentBits ≤ biased + 1 := by
    rw [show Format.binary64.exponentBits = 11 from rfl]
    omega
  refine ⟨biased, hbiased, ?_⟩
  show UnpackedFloat.unpack .binary64 (UnpackedFloat.pack .binary64 (.finite s m e hm)) = _
  simp only [UnpackedFloat.pack]
  rw [hexponent, if_neg hfits, show Format.binary64.mantissaBits = 53 from rfl]
  by_cases hfull : m.log2 = 52
  · rw [if_pos (by omega), if_pos hfull]
  · rw [if_neg (by omega), if_neg hfull]

theorem toNat_biased {biased : ℕ} (h : biased < 2047) : (BitVec.ofNat 11 biased).toNat = biased ∧
    BitVec.ofNat 11 biased ≠ -1#11 ∧ (biased ≠ 0 → BitVec.ofNat 11 biased ≠ 0#11) := by
  have hbits : (BitVec.ofNat 11 biased).toNat = biased := by
    rw [BitVec.toNat_ofNat]
    omega
  refine ⟨hbits, fun h => ?_, fun hne h => ?_⟩
  · rw [h, show (-1#11).toNat = 2047 from rfl] at hbits
    omega
  · rw [h, BitVec.toNat_ofNat] at hbits
    omega

theorem view_ofView_of_full (hfull : m.log2 = 52) (hge : -1074 ≤ e) (hle : e ≤ 971) :
    view (ofView (.finite s m e hm)) = .finite s m e hm := by
  obtain ⟨biased, hbiased, hview⟩ := ofView_finite s hm hle
  obtain ⟨hbits, hones, hzero⟩ := toNat_biased (show biased < 2047 by omega)
  obtain ⟨hlow, hhigh⟩ := (Nat.log2_eq_iff hm.ne').mp hfull
  rw [hview, if_pos hfull, unpack_packComponents_normal s _ (hzero (by omega)) hones]
  congr 1
  · rw [BitVec.toNat_ofNat]
    omega
  · rw [hbits]
    omega

theorem below_view_ofView {g : ℤ} (hle : e ≤ g) (hg : -1074 ≤ g) (hfits : g ≤ 971) :
    Below s g (view (ofView (.finite s m e hm))) := by
  obtain ⟨biased, hbiased, hview⟩ := ofView_finite s hm (hle.trans hfits)
  obtain ⟨hbits, hones, hzero⟩ := toNat_biased (show biased < 2047 by omega)
  rw [hview]
  by_cases hnormal : m.log2 = 52 ∧ biased ≠ 0
  · rw [if_pos hnormal.1, unpack_packComponents_normal s _ (hzero hnormal.2) hones]
    refine .finite _ ?_ (by rw [hbits]; omega)
    have := (BitVec.ofNat 52 m).isLt
    omega
  · have hnone : (if m.log2 = 52 then BitVec.ofNat 11 biased else 0#11) = 0#11 := by
      split_ifs with hfull
      · rw [not_and_not_right] at hnormal
        rw [hnormal hfull]
      · rfl
    rw [hnone]
    exact (below_packComponents_subnormal s _).mono hg

end Packing

/-! ### Rounding -/

theorem mantissa_shiftRight (em : ExtendedMantissa) (n : ℕ) :
    (em >>> n).mantissa = em.mantissa / 2 ^ n := by
  induction n with
  | zero => simp [HShiftRight.hShiftRight, Nat.repeat]
  | succ n ih =>
    have hstep : (em >>> (n + 1)).mantissa = (em >>> n).mantissa / 2 := rfl
    rw [hstep, ih, Nat.div_div_eq_div_mul, pow_succ]

theorem mantissa_ofMantissaAndAccuracy (m : ℕ) (accuracy : Accuracy) :
    (ExtendedMantissa.ofMantissaAndAccuracy m accuracy).mantissa = m := by
  rcases accuracy with _ | _ | _ | _ <;> rfl

theorem roundedMantissa_bounds (em : ExtendedMantissa) :
    em.mantissa ≤ em.roundedMantissa ∧ em.roundedMantissa ≤ em.mantissa + 1 := by
  obtain ⟨m, roundBit, stickyBit⟩ := em
  rw [ExtendedMantissa.roundedMantissa]
  cases roundBit <;> cases stickyBit <;>
    simp only [ExtendedMantissa.accuracy, Accuracy.roundToNearestEven] <;> omega

theorem targetExponent_eq (m : ℕ) (e : ℤ) :
    Format.binary64.targetExponent (totalExponent m e) = max (m.log2 + e - 52) (-1074) := by
  rw [Format.targetExponent, totalExponent, show Format.binary64.minExponent = -1074 from rfl,
    show Format.binary64.mantissaBits = 53 from rfl]
  congr 1
  ring

/-- A mantissa rounded, before a carry is looked at: it is one of the two about the exact one. -/
theorem roundWithAccuracy_eq (s : Sign) (m : ℕ) (e : ℤ) (accuracy : Accuracy) {n : ℕ}
    (hn : (max (m.log2 + e - 52) (-1074) - e).toNat = n) :
    ∃ r, m / 2 ^ n ≤ r ∧ r ≤ m / 2 ^ n + 1 ∧
      roundWithAccuracy .binary64 s m e accuracy =
        if h : r / 2 ^ (r.log2 - 52) = 0 then .zero s
        else .finite s (r / 2 ^ (r.log2 - 52)) (e + n + (r.log2 - 52 : ℕ))
          (Nat.pos_of_ne_zero h) := by
  have hbounds := roundedMantissa_bounds (ExtendedMantissa.ofMantissaAndAccuracy m accuracy >>> n)
  rw [mantissa_shiftRight, mantissa_ofMantissaAndAccuracy] at hbounds
  refine ⟨_, hbounds.1, hbounds.2, ?_⟩
  obtain ⟨r, hr⟩ :
      ∃ r, r = (ExtendedMantissa.ofMantissaAndAccuracy m accuracy >>> n).roundedMantissa :=
    ⟨_, rfl⟩
  have hcarry : (max (r.log2 + (e + n) - 52) (-1074) - (e + n)).toNat = r.log2 - 52 := by omega
  have hmantissa : ((ExtendedMantissa.ofMantissaAndAccuracy r .exact) >>> (r.log2 - 52)).mantissa =
      r / 2 ^ (r.log2 - 52) := by
    rw [mantissa_shiftRight, mantissa_ofMantissaAndAccuracy]
  simp only [roundWithAccuracy, shiftToTargetExponent, shiftToExponent, targetExponent_eq, hn, ← hr,
    hcarry, hmantissa]

theorem div_two_pow_lt {m n : ℕ} (h : m.log2 ≤ n + 52) : m / 2 ^ n < 2 ^ 53 := by
  refine Nat.div_lt_of_lt_mul ?_
  rw [← pow_add]
  exact Nat.lt_log2_self.trans_le (Nat.pow_le_pow_right two_pos (by omega))

/-- A number and what its whole part is rounded to lie within one step of each other. -/
theorem abs_mul_zpow_sub_le {m n r : ℕ} {e : ℤ} {q : ℚ} (hlow : m / 2 ^ n ≤ r)
    (hhigh : r ≤ m / 2 ^ n + 1) (hq : m * 2 ^ e ≤ q) (hq' : q < (m + 1) * 2 ^ e) :
    |r * 2 ^ (e + n) - q| ≤ 2 ^ (e + n) := by
  have hsplit : (2 : ℚ) ^ (e + n) = 2 ^ n * 2 ^ e := by
    rw [zpow_add₀ two_ne_zero, zpow_natCast, mul_comm]
  have hbelow : ((m / 2 ^ n : ℕ) : ℚ) * 2 ^ (e + n) ≤ q := by
    refine le_trans ?_ hq
    rw [hsplit, ← mul_assoc]
    gcongr
    exact_mod_cast Nat.div_mul_le_self m (2 ^ n)
  have habove : q < (((m / 2 ^ n : ℕ) : ℚ) + 1) * 2 ^ (e + n) := by
    refine hq'.trans_le ?_
    have hnext : m + 1 ≤ (m / 2 ^ n + 1) * 2 ^ n := by
      rw [mul_comm]
      exact Nat.lt_mul_div_succ m (by positivity)
    rw [hsplit, ← mul_assoc]
    gcongr
    exact_mod_cast hnext
  have hr : ((m / 2 ^ n : ℕ) : ℚ) * 2 ^ (e + n) ≤ r * 2 ^ (e + n) := by gcongr
  have hr' : (r : ℚ) * 2 ^ (e + n) ≤ (((m / 2 ^ n : ℕ) : ℚ) + 1) * 2 ^ (e + n) := by
    gcongr
    exact_mod_cast hhigh
  rw [abs_le]
  constructor <;> linarith

section Round

variable (s : Sign) (m : ℕ) (e : ℤ) (accuracy : Accuracy)

/-- The exponent after rounding is what the size of the number asks for or what it was, but for a
carry. -/
theorem roundWithAccuracy_le : roundWithAccuracy .binary64 s m e accuracy = .zero s ∨
    ∃ r d, ∃ hr : 0 < r, roundWithAccuracy .binary64 s m e accuracy = .finite s r d hr ∧
      d ≤ max (max (m.log2 + e - 52) (-1074)) e + 1 := by
  obtain ⟨n, hn⟩ : ∃ n, (max (m.log2 + e - 52) (-1074) - e).toNat = n := ⟨_, rfl⟩
  obtain ⟨r, -, hhigh, hround⟩ := roundWithAccuracy_eq s m e accuracy hn
  have hbits : m / 2 ^ n < 2 ^ 53 := div_two_pow_lt (by omega)
  have hcarry : r.log2 ≤ 53 := by
    rcases Nat.eq_zero_or_pos r with rfl | hpos
    · decide
    · exact Nat.le_of_lt_succ ((Nat.log2_lt hpos.ne').mpr (by omega))
  rw [hround]
  split_ifs with hzero
  · exact .inl rfl
  · exact .inr ⟨_, _, Nat.pos_of_ne_zero hzero, rfl, by omega⟩

/-- A full mantissa stays full, if the exponent is not too low, and no number that it is the whole
part of is moved by more than one step. -/
theorem roundWithAccuracy_full (hm : 2 ^ 52 ≤ m) (he : -1074 ≤ m.log2 + e - 52) :
    ∃ r d, ∃ hr : 0 < r, roundWithAccuracy .binary64 s m e accuracy = .finite s r d hr ∧
      r.log2 = 52 ∧ m.log2 + e - 52 ≤ d ∧ d ≤ m.log2 + e - 51 ∧
      ∀ q : ℚ, m * 2 ^ e ≤ q → q < (m + 1) * 2 ^ e →
        |r * 2 ^ d - q| ≤ 2 ^ (m.log2 + e - 52) := by
  obtain ⟨n, hn⟩ : ∃ n, (max (m.log2 + e - 52) (-1074) - e).toNat = n := ⟨_, rfl⟩
  obtain ⟨r, hlow, hhigh, hround⟩ := roundWithAccuracy_eq s m e accuracy hn
  have hlog : 52 ≤ m.log2 := (Nat.le_log2 (by omega)).mpr hm
  have hbits : m / 2 ^ n < 2 ^ 53 := div_two_pow_lt (by omega)
  have hfull : 2 ^ 52 ≤ r := by
    refine le_trans ((Nat.le_div_iff_mul_le (by positivity)).mpr ?_) hlow
    rw [← pow_add, show 52 + n = m.log2 by omega]
    exact Nat.log2_self_le (by omega)
  have hmoved : ∀ q : ℚ, m * 2 ^ e ≤ q → q < (m + 1) * 2 ^ e →
      |r * 2 ^ (e + n) - q| ≤ 2 ^ (m.log2 + e - 52) := by
    rw [show (m.log2 : ℤ) + e - 52 = e + n by omega]
    exact fun q => abs_mul_zpow_sub_le hlow hhigh
  -- Either all bits are there, or there is one too many, of a power of two.
  rcases (show r < 2 ^ 53 ∨ r = 2 ^ 53 by omega) with hlt | rfl
  · have hr : r.log2 = 52 := (Nat.log2_eq_iff (by omega)).mpr ⟨hfull, hlt⟩
    rw [hr, Nat.sub_self, pow_zero, Nat.div_one] at hround
    rw [hround, dif_neg (by omega), Nat.cast_zero, add_zero]
    exact ⟨_, _, _, rfl, hr, by omega, by omega, hmoved⟩
  · rw [Nat.log2_two_pow, dif_neg (by decide)] at hround
    have hsame : ((2 ^ 53 / 2 ^ (53 - 52) : ℕ) : ℚ) * 2 ^ (e + n + (53 - 52 : ℕ)) =
        (2 ^ 53 : ℕ) * 2 ^ (e + n) := by
      rw [zpow_add₀ two_ne_zero _ ((53 - 52 : ℕ) : ℤ)]
      norm_num
      ring
    rw [hround]
    exact ⟨_, _, _, rfl, by decide, by omega, by omega, fun q hq hq' => hsame ▸ hmoved q hq hq'⟩

end Round

/-! ### Bounds -/

theorem view_ofView_zero (s : Sign) : view (ofView (.zero s)) = .zero s := unpack_packedZero

theorem below_round (s : Sign) (m : ℕ) (e : ℤ) (accuracy : Accuracy) {g : ℤ}
    (hle : max (max (m.log2 + e - 52) (-1074)) e < g) (hfits : g ≤ 971) :
    Below s g (view (ofView (roundWithAccuracy .binary64 s m e accuracy))) := by
  rcases roundWithAccuracy_le s m e accuracy with hround | ⟨r, d, hr, hround, hd⟩ <;> rw [hround]
  · rw [view_ofView_zero]
    exact .zero
  · exact below_view_ofView s hr (by omega) (by omega) hfits

theorem log2_add_log2_le {m n : ℕ} (hm : 0 < m) (hn : 0 < n) :
    m.log2 + n.log2 ≤ (m * n).log2 := by
  rw [Nat.le_log2 (by positivity), pow_add]
  exact Nat.mul_le_mul (Nat.log2_self_le hm.ne') (Nat.log2_self_le hn.ne')

/-- A quotient is rounded from as many bits more as it needs. -/
theorem exists_div_finite (s t : Sign) {m n : ℕ} (e d : ℤ) (hm : 0 < m) (hn : 0 < n) :
    ∃ (shift : ℕ) (target : ℤ),
      target = min (e - d) (max (m.log2 + e - (n.log2 + d) - 53) (-1074)) ∧
      target + shift = e - d ∧
      UnpackedFloat.div .binary64 (.finite s m e hm) (.finite t n d hn) =
        roundWithAccuracy .binary64 (s / t) (m * 2 ^ shift / n) target
          (accuracyOfFraction (m * 2 ^ shift % n) n) := by
  obtain ⟨target, htarget⟩ : ∃ target, target = min (e - d)
    (Format.binary64.targetExponent (totalExponent m e - totalExponent n d)) := ⟨_, rfl⟩
  obtain ⟨shift, hshift⟩ := Int.eq_ofNat_of_zero_le (show 0 ≤ e - d - target by omega)
  refine ⟨shift, target, ?_, by omega, ?_⟩
  · rw [htarget, Format.targetExponent, totalExponent, totalExponent,
      show Format.binary64.minExponent = -1074 from rfl,
      show Format.binary64.mantissaBits = 53 from rfl]
    congr 2
    push_cast
    ring
  · simp only [UnpackedFloat.div, divCore, ← htarget, hshift, Int.toNat_natCast, Nat.shiftLeft_eq]

section Bounds

variable {s t : Sign} {g h : ℤ} {u v : UnpackedFloat}

/-- A quotient is bounded by the difference of the exponents. -/
theorem Below.div (hu : Below s g u) {n : ℕ} {d : ℤ} (hn : 0 < n) (hlow : -1074 < h)
    (hhigh : h ≤ 971) (hle : g < h + n.log2 + d) :
    Below (s / t) h (view (ofView (UnpackedFloat.div .binary64 u (.finite t n d hn)))) := by
  cases hu with
  | zero => exact view_ofView_zero (s / t) ▸ .zero
  | @finite m e hm hlt he =>
    obtain ⟨shift, target, htarget, hshift, hdiv⟩ := exists_div_finite s t e d hm hn
    have hlogm := (Nat.log2_lt hm.ne').mpr hlt
    have hquotient : (m * 2 ^ shift / n).log2 = 0 ∨
        (m * 2 ^ shift / n).log2 + n.log2 ≤ m.log2 + shift := by
      rcases Nat.eq_zero_or_pos (m * 2 ^ shift / n) with hzero | hpos
      · rw [hzero]
        exact .inl rfl
      · right
        rw [← Single.log2_mul_pow hm]
        refine (log2_add_log2_le hpos hn).trans ?_
        rw [Nat.le_log2 (by positivity)]
        exact (Nat.log2_self_le (Nat.mul_pos hpos hn).ne').trans (Nat.div_mul_le_self _ _)
    rw [hdiv]
    exact below_round (s / t) _ target _ (by omega) hhigh

theorem Below.neg (hu : Below s g u) (hlow : -1074 ≤ g) (hhigh : g ≤ 971) :
    Below (-s) g (view (ofView u.neg)) := by
  cases hu with
  | zero => exact view_ofView_zero (-s) ▸ .zero
  | finite hm hlt hle => exact below_view_ofView (-s) hm hle hlow hhigh

end Bounds

/-! ### Doubles that have all of their bits -/

theorem bounds_of_unpack {b : BitVec Format.binary64.numBits} {s : Sign} {m : ℕ} {e : ℤ}
    {hm : 0 < m} (h : UnpackedFloat.unpack .binary64 b = .finite s m e hm) :
    m < 2 ^ 53 ∧ -1074 ≤ e ∧ e ≤ 971 := by
  revert h
  have hbias := exponentBias_add
  fun_cases UnpackedFloat.unpack .binary64 b with
  | case1 | case2 | case3 => intro h; cases h
  | case4 mantissa exponent _ _ _ _ hzero _ =>
    intro h
    injection h with _ hm' he'
    have hmantissa : mantissa.toNat < 2 ^ 52 := mantissa.isLt
    have hexponent : exponent.toNat = 0 := by rw [hzero]; rfl
    omega
  | case5 mantissa exponent _ _ _ hones hzero =>
    intro h
    injection h with _ hm' he'
    have hmantissa : mantissa.toNat < 2 ^ 52 := mantissa.isLt
    have hexponent : exponent.toNat < 2 ^ 11 := exponent.isLt
    have hones : exponent.toNat ≠ 2047 := fun h => hones (BitVec.eq_of_toNat_eq h)
    have hzero : exponent.toNat ≠ 0 := fun h => hzero (BitVec.eq_of_toNat_eq h)
    have himplicit : m = 2 ^ 52 + mantissa.toNat := by
      rw [← hm', BitVec.toNat_append]
      exact (Nat.two_pow_add_eq_or_of_lt hmantissa 1).symm
    omega

/-- The mantissas and exponents that doubles have. -/
theorem bounds_of_view {x : Float} {s : Sign} {m : ℕ} {e : ℤ} {hm : 0 < m}
    (h : view x = .finite s m e hm) : m < 2 ^ 53 ∧ -1074 ≤ e ∧ e ≤ 971 :=
  bounds_of_unpack h

/-- A double stands for a number of a sign, and has all of its bits. -/
def Holds (s : Sign) (x : Float) (q : ℚ) : Prop :=
  ∃ m e, ∃ hm : 0 < m, view x = .finite s m e hm ∧ m.log2 = 52 ∧ (m : ℚ) * 2 ^ e = q

theorem zpow_le_mul {m : ℕ} {e : ℤ} (hfull : m.log2 = 52) (hm : 0 < m) :
    (2 : ℚ) ^ (52 + e) ≤ m * 2 ^ e := by
  have hle : ((2 ^ 52 : ℕ) : ℚ) ≤ m := by
    exact_mod_cast ((Nat.log2_eq_iff hm.ne').mp hfull).1
  rw [zpow_add₀ two_ne_zero]
  exact mul_le_mul_of_nonneg_right (by exact_mod_cast hle) (by positivity)

theorem mul_lt_zpow {m : ℕ} {e : ℤ} (hlt : m < 2 ^ 53) : (m : ℚ) * 2 ^ e < 2 ^ (53 + e) := by
  have hlt' : (m : ℚ) < ((2 ^ 53 : ℕ) : ℚ) := by exact_mod_cast hlt
  rw [zpow_add₀ two_ne_zero]
  exact mul_lt_mul_of_pos_right (by exact_mod_cast hlt') (by positivity)

theorem exponent_lt {d e : ℤ} (h : (2 : ℚ) ^ d < 2 ^ e) : d < e :=
  (zpow_lt_zpow_iff_right₀ one_lt_two).mp h

/-- Rounding moves a number by a part of it at the most, unless the number is too small or too large
for a double. -/
theorem exists_holds_round (s : Sign) {m : ℕ} {e : ℤ} {accuracy : Accuracy} {q : ℚ}
    (hm : 2 ^ 52 ≤ m) (hlow : m * 2 ^ e ≤ q) (hhigh : q < (m + 1) * 2 ^ e)
    (hnormal : 2 ^ (-1022 : ℤ) ≤ q)
    (hinf : (view (ofView (roundWithAccuracy .binary64 s m e accuracy))).isInf = false) :
    ∃ r, Holds s (ofView (roundWithAccuracy .binary64 s m e accuracy)) r ∧
      Within (1 / 2 ^ 52) q r := by
  have hpow : (2 : ℚ) ^ m.log2 ≤ m := by exact_mod_cast Nat.log2_self_le (by omega)
  have hnext : (m : ℚ) + 1 ≤ 2 ^ (m.log2 + 1) := by exact_mod_cast Nat.lt_log2_self (n := m)
  have hexponent : -1022 < (m.log2 : ℤ) + 1 + e := by
    refine exponent_lt ((hnormal.trans_lt hhigh).trans_le ?_)
    rw [zpow_add₀ two_ne_zero]
    exact mul_le_mul_of_nonneg_right (by exact_mod_cast hnext) (by positivity)
  obtain ⟨r, d, hr, hround, hfull, hge, -, hmoved⟩ :=
    roundWithAccuracy_full s m e accuracy hm (by omega)
  rw [hround] at hinf ⊢
  have hle : d ≤ 971 := by
    by_contra hover
    rw [view_ofView_of_overflow s hr (not_le.mp hover)] at hinf
    cases hinf
  refine ⟨_, ⟨r, d, hr, view_ofView_of_full s hr hfull (by omega) hle, hfull, rfl⟩, ?_⟩
  refine (hmoved q hlow hhigh).trans ?_
  calc (2 : ℚ) ^ ((m.log2 : ℤ) + e - 52) = 1 / 2 ^ 52 * (2 ^ m.log2 * 2 ^ e) := by
        rw [zpow_sub₀ two_ne_zero, zpow_add₀ two_ne_zero, zpow_natCast]
        norm_num
        ring
    _ ≤ 1 / 2 ^ 52 * (m * 2 ^ e) := by gcongr
    _ ≤ 1 / 2 ^ 52 * q := by gcongr

/-- What is not too large is not infinite. -/
theorem isInf_round (s : Sign) {m : ℕ} {e : ℤ} (accuracy : Accuracy) {q : ℚ} (hm : 2 ^ 52 ≤ m)
    (hlow : m * 2 ^ e ≤ q) (hsmall : q < 2 ^ (1000 : ℤ)) :
    (view (ofView (roundWithAccuracy .binary64 s m e accuracy))).isInf = false := by
  have hpow : (2 : ℚ) ^ m.log2 ≤ m := by exact_mod_cast Nat.log2_self_le (by omega)
  have hlog : 52 ≤ m.log2 := (Nat.le_log2 (by omega)).mpr hm
  have hexponent : (m.log2 : ℤ) + e < 1000 := by
    refine exponent_lt (lt_of_le_of_lt ?_ hsmall)
    rw [zpow_add₀ two_ne_zero, zpow_natCast]
    exact (mul_le_mul_of_nonneg_right hpow (by positivity)).trans hlow
  exact (below_round s m e accuracy (g := 971) (by omega) le_rfl).not_isInf

section Holds

variable {s t : Sign} {x y : Float} {p q : ℚ}

theorem Holds.pos (hx : Holds s x q) : 0 < q := by
  obtain ⟨m, e, hm, -, -, rfl⟩ := hx
  positivity

theorem Holds.mul (hx : Holds s x q) (hy : Holds t y p) (hnormal : 2 ^ (-1022 : ℤ) ≤ q * p)
    (hfits : q * p < 2 ^ (1000 : ℤ) ∨ (x * y).isInf = false) :
    ∃ r, Holds (s * t) (x * y) r ∧ Within (1 / 2 ^ 52) (q * p) r := by
  obtain ⟨m, e, hm, hviewx, hfull, rfl⟩ := hx
  obtain ⟨n, d, hn, hviewy, -, rfl⟩ := hy
  have hscale : (m : ℚ) * 2 ^ e * (n * 2 ^ d) = (m * n : ℕ) * 2 ^ (e + d) := by
    rw [zpow_add₀ two_ne_zero]
    push_cast
    ring
  have hmul : x * y = ofView (roundWithAccuracy .binary64 (s * t) (m * n) (e + d) .exact) := by
    rw [mul_eq, hviewx, hviewy]
    rfl
  have hge : 2 ^ 52 ≤ m * n :=
    ((Nat.log2_eq_iff hm.ne').mp hfull).1.trans (Nat.le_mul_of_pos_right m hn)
  have hinf := hfits.elim (isInf_round (s * t) .exact hge hscale.ge)
    fun h => by rwa [isInf_eq, hmul] at h
  rw [hmul]
  refine exists_holds_round (s * t) hge hscale.ge ?_ hnormal hinf
  rw [hscale]
  gcongr
  exact lt_add_one _

theorem Holds.div (hx : Holds s x q) (hy : Holds t y p) (hnormal : 2 ^ (-1000 : ℤ) ≤ q / p)
    (hsmall : q / p < 2 ^ (1000 : ℤ)) :
    ∃ r, Holds (s / t) (x / y) r ∧ Within (1 / 2 ^ 52) (q / p) r := by
  obtain ⟨m, e, hm, hviewx, hfull, rfl⟩ := hx
  obtain ⟨n, d, hn, hviewy, hfull', rfl⟩ := hy
  obtain ⟨shift, target, htarget, hshift, hdiv⟩ := exists_div_finite s t e d hm hn
  have hexponents : -1001 < e - d := by
    have hlow : (2 : ℚ) ^ (52 + d) ≤ n * 2 ^ d := zpow_le_mul hfull' hn
    have hhigh : (m : ℚ) * 2 ^ e < 2 ^ (53 + e) :=
      mul_lt_zpow ((Nat.log2_eq_iff hm.ne').mp hfull).2
    have hlt : (2 : ℚ) ^ (-1000 : ℤ) < 2 ^ (e - d + 1) := by
      calc (2 : ℚ) ^ (-1000 : ℤ) ≤ m * 2 ^ e / (n * 2 ^ d) := hnormal
        _ < 2 ^ (53 + e) / 2 ^ (52 + d) := by gcongr
        _ = 2 ^ (e - d + 1) := by
          rw [← zpow_sub₀ two_ne_zero]
          congr 1
          ring
    have := exponent_lt hlt
    omega
  rw [hfull, hfull'] at htarget
  have hshift53 : shift = 53 := by omega
  have hge : 2 ^ 52 ≤ m * 2 ^ shift / n := by
    have hm52 := ((Nat.log2_eq_iff hm.ne').mp hfull).1
    have hn53 := ((Nat.log2_eq_iff hn.ne').mp hfull').2
    rw [Nat.le_div_iff_mul_le hn, hshift53]
    calc 2 ^ 52 * n ≤ 2 ^ 52 * 2 ^ 53 := Nat.mul_le_mul_left _ hn53.le
      _ ≤ m * 2 ^ 53 := Nat.mul_le_mul_right _ hm52
  have hn' : (0 : ℚ) < n := by exact_mod_cast hn
  have hscale : (m : ℚ) * 2 ^ e / (n * 2 ^ d) = ((m * 2 ^ shift : ℕ) : ℚ) / n * 2 ^ target := by
    obtain rfl : e = shift + target + d := by omega
    rw [zpow_add₀ two_ne_zero, zpow_add₀ two_ne_zero, zpow_natCast]
    push_cast
    field_simp
  have hlow : ((m * 2 ^ shift / n : ℕ) : ℚ) * 2 ^ target ≤ m * 2 ^ e / (n * 2 ^ d) := by
    rw [hscale]
    gcongr
    exact Nat.cast_div_le
  have hhigh :
      (m : ℚ) * 2 ^ e / (n * 2 ^ d) < (((m * 2 ^ shift / n : ℕ) : ℚ) + 1) * 2 ^ target := by
    rw [hscale]
    gcongr
    rw [div_lt_iff₀ hn']
    exact_mod_cast (mul_comm n _ ▸ Nat.lt_mul_div_succ (m * 2 ^ shift) hn)
  have hinf := isInf_round (s / t) (accuracyOfFraction (m * 2 ^ shift % n) n)
    hge hlow hsmall
  rw [div_eq, hviewx, hviewy, hdiv]
  exact exists_holds_round (s / t) hge hlow hhigh (le_trans (by gcongr <;> norm_num) hnormal) hinf

/-- A small quotient, whether it has all of its bits or not. -/
theorem Holds.below_div (hx : Holds s x q) (hy : Holds t y p) {g : ℤ}
    (hlt : q / p < 2 ^ (g + 51)) (hlow : -1074 < g) (hhigh : g ≤ 971) :
    Below (s / t) g (view (x / y)) := by
  obtain ⟨m, e, hm, hviewx, hfull, rfl⟩ := hx
  obtain ⟨n, d, hn, hviewy, hfull', rfl⟩ := hy
  have hle : (2 : ℚ) ^ (52 + e) ≤ m * 2 ^ e := zpow_le_mul hfull hm
  have hlt' : (n : ℚ) * 2 ^ d < 2 ^ (53 + d) :=
    mul_lt_zpow ((Nat.log2_eq_iff hn.ne').mp hfull').2
  have hexponents : 52 + e - (53 + d) < g + 51 := by
    refine exponent_lt (lt_of_le_of_lt ?_ hlt)
    rw [zpow_sub₀ two_ne_zero]
    gcongr
  have hbelow : Below s e (view x) := hviewx ▸ .finite hm (bounds_of_view hviewx).1 le_rfl
  rw [div_eq, hviewy]
  exact hbelow.div (t := t) hn hlow hhigh (by omega)

theorem Holds.neg (hx : Holds s x q) : Holds (-s) (-x) q := by
  obtain ⟨m, e, hm, hview, hfull, rfl⟩ := hx
  obtain ⟨-, hge, hle⟩ := bounds_of_view hview
  refine ⟨m, e, hm, ?_, hfull, rfl⟩
  rw [neg_eq, hview]
  exact view_ofView_of_full (-s) hm hfull hge hle

end Holds

/-! ### Words and powers of ten -/

theorem holds_one : Holds .positive Float.exactlyRepresentablePowersOfTen[0] 1 := by
  change Holds .positive (.ofBits 0x3FF0000000000000) 1
  exact ⟨2 ^ 52, -52, by decide, rfl, by decide, by norm_num⟩

/-- A number that is rounded from a mantissa that writes all of it. -/
theorem exists_holds_whole {m : ℕ} {e : ℤ} {q : ℚ} (hm : 2 ^ 52 ≤ m) (hscale : m * 2 ^ e = q)
    (hone : 1 ≤ q)
    (hinf : (view (ofView (roundWithAccuracy .binary64 .positive m e .exact))).isInf = false) :
    ∃ r, Holds .positive (ofView (roundWithAccuracy .binary64 .positive m e .exact)) r ∧
      Within (1 / 2 ^ 52) q r := by
  have hnormal : (2 : ℚ) ^ (-1022 : ℤ) ≤ q :=
    (zpow_le_one_of_nonpos₀ one_le_two (by decide)).trans hone
  refine exists_holds_round .positive hm hscale.le ?_ hnormal hinf
  rw [add_mul, hscale, lt_add_iff_pos_right]
  positivity

/-- A number that a mantissa has the bits for, by way of a word. -/
theorem exists_holds_toFloat {n : ℕ} (hn : 0 < n) (hlt : n < 2 ^ 53) :
    ∃ r, Holds .positive n.toUInt64.toFloat r ∧ Within (1 / 2 ^ 52) n r := by
  obtain ⟨j, hj⟩ : ∃ j, n.log2 + j = 52 :=
    ⟨52 - n.log2, by have := (Nat.log2_lt hn.ne').mpr hlt; omega⟩
  have hsize : n.toUInt64.toNat = n := by
    rw [Nat.toUInt64_eq, UInt64.toNat_ofNat_of_lt']
    exact hlt.trans (by decide)
  have hfloat : n.toUInt64.toFloat =
      ofView (roundWithAccuracy .binary64 .positive (n * 2 ^ j) (-j) .exact) := by
    have hnormalize : n.toUInt64.toFloat =
        ofView (normalize .binary64 (n.toUInt64.toNat : ℤ) 0 .positive) := rfl
    have hshift : (-max ((n.log2 : ℤ) + 0 - 52) (-1074)).toNat = j := by omega
    rw [hnormalize, hsize, UnpackedFloat.normalize.eq_1,
      Int.compare_eq_gt.mpr (Int.natCast_pos.mpr hn)]
    simp only [Int.toNat_natCast, UnpackedFloat.round, targetExponent_eq, decreaseExponent,
      Nat.shiftLeft_eq, zero_sub, hshift]
  have hfull : 2 ^ 52 ≤ n * 2 ^ j := by
    rw [← hj, pow_add]
    exact Nat.mul_le_mul_right _ (Nat.log2_self_le hn.ne')
  have hscale : ((n * 2 ^ j : ℕ) : ℚ) * 2 ^ (-(j : ℤ)) = n := by
    rw [zpow_neg, zpow_natCast]
    push_cast
    field_simp
  have hone : (1 : ℚ) ≤ n := by exact_mod_cast hn
  have hlt' : (n : ℚ) < 2 ^ (1000 : ℤ) := by
    calc (n : ℚ) < 2 ^ (53 : ℤ) := by exact_mod_cast hlt
      _ ≤ 2 ^ (1000 : ℤ) := zpow_le_zpow_right₀ one_le_two (by decide)
  rw [hfloat]
  exact exists_holds_whole hfull hscale hone (isInf_round .positive .exact hfull hscale.le hlt')

/-- A whole number, by way of whole numbers. -/
theorem exists_holds_ofScientific {n k : ℕ} (hn : 0 < n) (hk : k ≤ 307)
    (hlt : n * 10 ^ k < 2 ^ 1020) :
    ∃ r, Holds .positive (ofView (UnpackedFloat.ofScientific .binary64 n k)) r ∧
      Within (1 / 2 ^ 52) (n * 10 ^ k) r := by
  obtain ⟨m, hm⟩ : ∃ m, m = (n <<< 53) * 10 ^ k := ⟨_, rfl⟩
  have hscientific : UnpackedFloat.ofScientific .binary64 n k =
      roundWithAccuracy .binary64 .positive m (-53 + 0) .exact := by
    have hbig : ¬ (k : ℤ) > 2 ^ Format.binary64.exponentBits := by
      rw [show Format.binary64.exponentBits = 11 from rfl]
      omega
    have hsmall : ¬ (k : ℤ) < -((2 ^ Format.binary64.exponentBits : ℤ) + n.log2) := by
      rw [show Format.binary64.exponentBits = 11 from rfl]
      omega
    rw [UnpackedFloat.ofScientific, dif_neg hn.ne', if_neg hbig, if_neg hsmall,
      if_pos (Int.natCast_nonneg k), hm]
    rfl
  have hmn : m = n * 10 ^ k * 2 ^ 53 := by
    rw [hm, Nat.shiftLeft_eq]
    ring
  have hpos : 0 < n * 10 ^ k := by positivity
  have hfull : 2 ^ 52 ≤ m := by omega
  have hscale : (m : ℚ) * 2 ^ (-53 + 0 : ℤ) = n * 10 ^ k := by
    rw [hmn, add_zero, zpow_neg]
    push_cast
    exact mul_inv_cancel_right₀ (by positivity) _
  have hone : (1 : ℚ) ≤ n * 10 ^ k := by exact_mod_cast hpos
  have hlog : m.log2 < 1020 + 53 := by
    refine (Nat.log2_lt (by omega)).mpr ?_
    calc m = n * 10 ^ k * 2 ^ 53 := hmn
      _ < 2 ^ 1020 * 2 ^ 53 := Nat.mul_lt_mul_of_pos_right hlt (by positivity)
      _ = 2 ^ (1020 + 53) := (pow_add 2 1020 53).symm
  have hinf : (view (ofView (roundWithAccuracy .binary64 .positive m (-53 + 0) .exact))).isInf
      = false :=
    (below_round .positive m (-53 + 0) .exact (g := 971) (by omega) le_rfl).not_isInf
  rw [hscientific]
  exact exists_holds_whole hfull hscale hone hinf

/-- A word as a double. -/
theorem exists_holds_ofNat {n : ℕ} (hn : 0 < n) (hlt : n < 2 ^ 64) :
    ∃ r, Holds .positive (.ofNat n) r ∧ Within (3 / 2 ^ 52) n r := by
  have hofNat : Float.ofNat n = Float.ofScientific n false 0 := rfl
  rw [hofNat, Float.ofScientific]
  by_cases hfast : n < 2 ^ 53 ∧ 0 ≤ 22
  · obtain ⟨r, hr, hwithin⟩ := exists_holds_toFloat hn hfast.1
    have hone : (1 : ℚ) ≤ n := by exact_mod_cast hn
    have hle : (n : ℚ) ≤ 9007199254740992 := by exact_mod_cast hfast.1.le
    obtain ⟨hlow, hhigh⟩ := abs_le.mp hwithin
    have hnormal : (2 : ℚ) ^ (-1022 : ℤ) ≤ r * 1 := by
      calc (2 : ℚ) ^ (-1022 : ℤ) ≤ 2 ^ (-1 : ℤ) := zpow_le_zpow_right₀ one_le_two (by decide)
        _ ≤ r * 1 := by norm_num; linarith
    have hsmall : r * 1 < (2 : ℚ) ^ (1000 : ℤ) := by
      calc r * 1 < 2 ^ (54 : ℤ) := by norm_num; linarith
        _ ≤ 2 ^ (1000 : ℤ) := zpow_le_zpow_right₀ one_le_two (by decide)
    obtain ⟨r', hr', hwithin'⟩ := hr.mul holds_one hnormal (.inl hsmall)
    rw [mul_one] at hwithin'
    rw [dif_pos hfast]
    exact ⟨r', hr', (hwithin.trans hwithin' (by norm_num)).mono (by positivity) (by norm_num)⟩
  · obtain ⟨r, hr, hwithin⟩ := exists_holds_ofScientific (k := 0) hn (by decide)
      (by rw [pow_zero]; exact (mul_one n).symm ▸ hlt.trans (by decide +kernel))
    rw [dif_neg hfast]
    rw [pow_zero, mul_one] at hwithin
    exact ⟨r, hr, hwithin.mono (by positivity) (by norm_num)⟩

/-- A double that is a power of ten but for a part of it. -/
def isPower (k : ℕ) : UnpackedFloat → Bool
  | .finite .positive n d _ =>
    let value := n * 2 ^ (d + 52).toNat
    let power := 10 ^ k * 2 ^ 52
    n.log2 == 52 && 0 ≤ d + 52 && value * 2 ^ 52 ≤ power * 2 ^ 52 + power &&
      power * 2 ^ 52 ≤ value * 2 ^ 52 + power
  | _ => false

theorem isPower_exact : ∀ k < 23, isPower k (view (Json.Numeral.power k)) = true := by
  decide +kernel

theorem isPower_greatest : isPower 308 (view (Json.Numeral.power 308)) = true := by
  decide +kernel

theorem exists_holds_of_isPower {k : ℕ} {x : Float} (h : isPower k (view x) = true) :
    ∃ p, Holds .positive x p ∧ Within (1 / 2 ^ 52) (10 ^ k) p := by
  cases hview : view x with rw [hview] at h
  | infinity | notANumber | zero => cases h
  | finite s n d hn =>
    cases s with
    | negative => cases h
    | positive =>
      simp only [isPower, Bool.and_eq_true, beq_iff_eq, decide_eq_true_eq] at h
      obtain ⟨⟨⟨hfull, hd⟩, hhigh⟩, hlow⟩ := h
      obtain ⟨j, hj⟩ := Int.eq_ofNat_of_zero_le hd
      rw [hj, Int.toNat_natCast] at hhigh hlow
      have hvalue : (n : ℚ) * 2 ^ j = n * 2 ^ d * 2 ^ 52 := by
        obtain rfl : d = j - 52 := by omega
        rw [zpow_sub₀ two_ne_zero, zpow_natCast]
        field_simp
      have hhigh' : (n : ℚ) * 2 ^ j * 2 ^ 52 ≤ 10 ^ k * 2 ^ 52 * 2 ^ 52 + 10 ^ k * 2 ^ 52 := by
        exact_mod_cast hhigh
      have hlow' : (10 : ℚ) ^ k * 2 ^ 52 * 2 ^ 52 ≤ n * 2 ^ j * 2 ^ 52 + 10 ^ k * 2 ^ 52 := by
        exact_mod_cast hlow
      rw [hvalue] at hhigh' hlow'
      refine ⟨_, ⟨n, d, hn, hview, hfull, rfl⟩, abs_le.mpr ⟨?_, ?_⟩⟩ <;> linarith

theorem exists_holds_power {k : ℕ} (hk : k ≤ 308) :
    ∃ p, Holds .positive (Json.Numeral.power k) p ∧ Within (1 / 2 ^ 52) (10 ^ k) p := by
  rcases (show k < 23 ∨ k = 308 ∨ 23 ≤ k ∧ k ≤ 307 by omega) with hexact | rfl | ⟨hlow, hhigh⟩
  · exact exists_holds_of_isPower (isPower_exact k hexact)
  · exact exists_holds_of_isPower isPower_greatest
  · have hlt : 1 * 10 ^ k < 2 ^ 1020 := by
      calc 1 * 10 ^ k = 10 ^ k := one_mul _
        _ ≤ 10 ^ 307 := Nat.pow_le_pow_right (by decide) hhigh
        _ < 2 ^ 1020 := by decide +kernel
    obtain ⟨p, hp, hwithin⟩ := exists_holds_ofScientific one_pos hhigh hlt
    rw [Nat.cast_one, one_mul] at hwithin
    refine ⟨p, ?_, hwithin⟩
    rw [Json.Numeral.power, Float.ofScientific, dif_neg (by omega)]
    exact hp

end Double

end ShadeTree
