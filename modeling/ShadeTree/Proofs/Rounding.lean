import ShadeTree.Proofs.Arithmetic

/-!
# Rounding to the nearest single

Arithmetic rounds what it computes exactly to a single. `Proofs.Arithmetic` follows the bits of
that; here it is said on the number line. Every single but NaN has its place there (`place`),
infinity where the number after the largest would be. The main statement is `isNearest_near`: a
positive number is rounded to a single whose place no other single's is nearer to. What is rounded
to it depends on the number alone (`near`), however its mantissa and exponent came about
(`roundWithAccuracy_eq`).

The singles about a number lie on a grid of multiples of a power of two (`grid`). Rounding takes the
nearest multiple (`nearestNat`); a single off the grid is nearer to zero than all of the binade of
the number, so that it is none to compete.
-/

namespace ShadeTree.Single

open Float.Model Float.Model.UnpackedFloat

/-! ### Places -/

/-- A number or its opposite. -/
def signed (s : Sign) (q : ℚ) : ℚ :=
  match s with
  | .positive => q
  | .negative => -q

/-- Where a number stands on the line. Infinity stands where the number after the largest would. -/
def placeOf : UnpackedFloat → ℚ
  | .finite s m e _ => signed s (m * 2 ^ e)
  | .infinity s => signed s (2 ^ 128)
  | .zero _ | .notANumber => 0

/-- Where a single stands on the line. -/
def place (x : Float32) : ℚ := placeOf (view x)

/-- No single is nearer to the number. -/
structure IsNearest (q : ℚ) (x : Float32) : Prop where
  not_isNaN : x.isNaN = false
  le : ∀ y : Float32, y.isNaN = false → |q - place x| ≤ |q - place y|

@[simp] theorem placeOf_zero (s : Sign) : placeOf (.zero s) = 0 := rfl

theorem signed_sub (s : Sign) (q r : ℚ) : signed s q - signed s r = signed s (q - r) := by
  cases s
  · change -q - -r = -(q - r)
    ring
  · rfl

@[simp] theorem abs_signed (s : Sign) (q : ℚ) : |signed s q| = |q| := by
  cases s
  · exact abs_neg q
  · rfl

@[simp] theorem signed_zero (s : Sign) : signed s 0 = 0 := by cases s <;> simp [signed]

theorem signed_signed (s : Sign) (q : ℚ) : signed s (signed s q) = q := by
  cases s
  · exact neg_neg q
  · rfl

theorem signed_natCast_mul (s : Sign) (m : ℕ) (r : ℚ) :
    signed s (m * r) = (s.apply (m : ℤ) : ℤ) * r := by
  cases s <;> simp [signed, Sign.apply]

/-! ### Canonical mantissas and exponents -/

theorem zpow_two_le {d e : ℤ} (h : d ≤ e) : (2 : ℚ) ^ d ≤ 2 ^ e := zpow_le_zpow_right₀ one_le_two h

/-- A mantissa of at most 24 bits stands below the power of two after its last one. -/
theorem mul_zpow_lt {m : ℕ} {e g : ℤ} (hm : m < 2 ^ 24) (he : e + 24 ≤ g) :
    (m : ℚ) * 2 ^ e < 2 ^ g := by
  have hm' : (m : ℚ) < 2 ^ (24 : ℤ) := by exact_mod_cast hm
  calc (m : ℚ) * 2 ^ e < 2 ^ (24 : ℤ) * 2 ^ e := by gcongr
    _ = 2 ^ (e + 24) := by rw [← zpow_add₀ two_ne_zero, add_comm]
    _ ≤ 2 ^ g := zpow_two_le he

/-- A full mantissa does not. -/
theorem le_mul_zpow {m : ℕ} {e g : ℤ} (hm : 2 ^ 23 ≤ m) (he : g ≤ e + 23) :
    (2 : ℚ) ^ g ≤ m * 2 ^ e := by
  have hm' : (2 : ℚ) ^ (23 : ℤ) ≤ m := by exact_mod_cast hm
  calc (2 : ℚ) ^ g ≤ 2 ^ (e + 23) := zpow_two_le he
    _ = 2 ^ (23 : ℤ) * 2 ^ e := by rw [← zpow_add₀ two_ne_zero, add_comm]
    _ ≤ m * 2 ^ e := by gcongr

/-- Of a mantissa and an exponent as a single has them there is one pair to a number. -/
theorem Canonical.unique {m n : ℕ} {d e : ℤ} (hm : Canonical m d) (hn : Canonical n e)
    (h : (m : ℚ) * 2 ^ d = n * 2 ^ e) : m = n ∧ d = e := by
  have hlt {m n : ℕ} {d e : ℤ} (hm : Canonical m d) (hn : Canonical n e) (hde : d < e) :
      (m : ℚ) * 2 ^ d < n * 2 ^ e := by
    have hge := hm.exponent_ge
    have hfull : 2 ^ 23 ≤ n := hn.full.resolve_right (by omega)
    exact (mul_zpow_lt hm.mantissa_lt (by omega : d + 24 ≤ e + 23)).trans_le
      (le_mul_zpow hfull le_rfl)
  rcases lt_trichotomy d e with hde | rfl | hde
  · exact absurd h (hlt hm hn hde).ne
  · have hpow : (2 : ℚ) ^ d ≠ 0 := by positivity
    exact ⟨by exact_mod_cast mul_right_cancel₀ hpow h, rfl⟩
  · exact absurd h.symm (hlt hn hm hde).ne

/-! ### Numbers as rounding sees them -/

/-- A number as its whole part and the two bits that rounding looks at: whether the rest is a half
or more, and whether there is a rest that is no half. -/
def extended (q : ℚ) : ExtendedMantissa :=
  let rest := q - ⌊q⌋₊
  ⟨⌊q⌋₊, decide (1 / 2 ≤ rest), decide (rest ≠ 0 ∧ rest ≠ 1 / 2)⟩

theorem extended_natCast (n : ℕ) : extended n = ⟨n, false, false⟩ := by
  simp [extended]

theorem shiftRightOne_extended {q : ℚ} (hq : 0 ≤ q) :
    (extended q).shiftRightOne = extended (q / 2) := by
  have hfloor : ⌊q / 2⌋₊ = ⌊q⌋₊ / 2 := by exact_mod_cast Nat.floor_div_natCast q 2
  have hsplit : (⌊q⌋₊ : ℚ) = 2 * ((⌊q⌋₊ / 2 : ℕ) : ℚ) + ((⌊q⌋₊ % 2 : ℕ) : ℚ) := by
    exact_mod_cast (Nat.div_add_mod ⌊q⌋₊ 2).symm
  obtain ⟨f, hf⟩ : ∃ f, f = q - ⌊q⌋₊ := ⟨_, rfl⟩
  have hlow : 0 ≤ f := by rw [hf]; exact sub_nonneg.mpr (Nat.floor_le hq)
  have hhigh : f < 1 := by rw [hf]; exact sub_lt_iff_lt_add'.mpr (Nat.lt_floor_add_one q)
  have hrest : q / 2 - ((⌊q⌋₊ / 2 : ℕ) : ℚ) = (f + ((⌊q⌋₊ % 2 : ℕ) : ℚ)) / 2 := by
    rw [hf]
    linarith
  simp only [extended, ExtendedMantissa.shiftRightOne, hfloor, hrest, ← hf,
    ExtendedMantissa.mk.injEq, true_and, ← Bool.decide_or, decide_eq_decide]
  -- Half an even whole part is whole, and of an odd one a half is left.
  rcases Nat.mod_two_eq_zero_or_one ⌊q⌋₊ with hmod | hmod <;> rw [hmod]
  · refine ⟨?_, ?_⟩
    · symm
      simp
      linarith
    · simp
      grind
  · refine ⟨?_, ?_⟩
    · symm
      simp
      linarith
    · grind

theorem extended_shiftRight {q : ℚ} (hq : 0 ≤ q) (n : ℕ) :
    extended q >>> n = extended (q / 2 ^ n) := by
  induction n with
  | zero => simp [HShiftRight.hShiftRight, Nat.repeat]
  | succ n ih =>
    have hstep : extended q >>> (n + 1) = (extended q >>> n).shiftRightOne := rfl
    rw [hstep, ih, shiftRightOne_extended (by positivity), div_div, pow_succ]

/-- The natural number nearest to a number, and of two that are equally near the even one. -/
def nearestNat (q : ℚ) : ℕ := (extended q).roundedMantissa

theorem abs_sub_nearestNat_le {q : ℚ} (hq : 0 ≤ q) : |q - nearestNat q| ≤ 1 / 2 := by
  have hlow := Nat.floor_le hq
  have hhigh := Nat.lt_floor_add_one q
  rw [nearestNat, extended]
  cases hround : decide (1 / 2 ≤ q - ⌊q⌋₊) <;>
    cases hsticky : decide (q - ⌊q⌋₊ ≠ 0 ∧ q - ⌊q⌋₊ ≠ 1 / 2) <;>
    simp only [decide_eq_true_eq, decide_eq_false_iff_not, not_and_or, not_not, not_le]
      at hround hsticky <;>
    rw [abs_le]
  · change _ ≤ q - ((⌊q⌋₊ : ℕ) : ℚ) ∧ q - ((⌊q⌋₊ : ℕ) : ℚ) ≤ _
    constructor <;> linarith
  · change _ ≤ q - ((⌊q⌋₊ : ℕ) : ℚ) ∧ q - ((⌊q⌋₊ : ℕ) : ℚ) ≤ _
    constructor <;> linarith
  · have hhalf : q - ⌊q⌋₊ = 1 / 2 := hsticky.resolve_left (by linarith)
    change _ ≤ q - ((⌊q⌋₊ + ⌊q⌋₊ % 2 : ℕ) : ℚ) ∧ q - ((⌊q⌋₊ + ⌊q⌋₊ % 2 : ℕ) : ℚ) ≤ _
    rcases Nat.mod_two_eq_zero_or_one ⌊q⌋₊ with hmod | hmod <;> rw [hmod] <;> push_cast <;>
      constructor <;> linarith
  · change _ ≤ q - ((⌊q⌋₊ + 1 : ℕ) : ℚ) ∧ q - ((⌊q⌋₊ + 1 : ℕ) : ℚ) ≤ _
    push_cast
    constructor <;> linarith

/-- No whole number is nearer. -/
theorem abs_sub_nearestNat_le_abs_sub {q : ℚ} (hq : 0 ≤ q) (j : ℤ) :
    |q - nearestNat q| ≤ |q - j| := by
  have hhalf := abs_sub_nearestNat_le hq
  by_cases hj : j = nearestNat q
  · rw [hj, Int.cast_natCast]
  · have hone : (1 : ℚ) ≤ |(j : ℚ) - nearestNat q| := by
      exact_mod_cast Int.one_le_abs (sub_ne_zero.mpr hj)
    have htriangle := abs_sub_le (j : ℚ) q (nearestNat q)
    rw [abs_sub_comm (j : ℚ) q] at htriangle
    linarith

/-! ### Rounding a positive number -/

/-- The exponent of the grid that the singles about a number lie on. -/
def grid (q : ℚ) : ℤ := max (Int.log 2 q - 23) (-149)

/-- How many steps of its grid a number is from zero, rounded. -/
def steps (q : ℚ) : ℕ := nearestNat (q / 2 ^ grid q)

/-- A number rounded: so many steps of its grid, where the mantissa of one bit too many is moved by
one place. -/
def near (s : Sign) (q : ℚ) : UnpackedFloat :=
  if h : steps q = 0 then .zero s
  else if steps q = 2 ^ 24 then .finite s (2 ^ 23) (grid q + 1) (by decide)
  else .finite s (steps q) (grid q) (Nat.pos_of_ne_zero h)

theorem grid_ge (q : ℚ) : -149 ≤ grid q := le_max_right _ _

theorem lt_zpow_grid (q : ℚ) : q < 2 ^ (grid q + 24) := by
  have hlog : q < (2 : ℚ) ^ (Int.log 2 q + 1) := Int.lt_zpow_succ_log_self (by decide) q
  refine hlog.trans_le (zpow_two_le ?_)
  have hle : Int.log 2 q - 23 ≤ grid q := le_max_left _ _
  omega

section Positive

variable {q : ℚ} (hq : 0 < q)
include hq

theorem zpow_grid_le (h : -149 < grid q) : 2 ^ (grid q + 23) ≤ q := by
  have hlog : (2 : ℚ) ^ Int.log 2 q ≤ q := Int.zpow_log_le_self (by decide) hq
  refine (zpow_two_le ?_).trans hlog
  rw [grid] at h ⊢
  omega

theorem steps_le : steps q ≤ 2 ^ 24 := by
  have hpow : (0 : ℚ) < 2 ^ grid q := by positivity
  have hlt : q / 2 ^ grid q < 2 ^ (24 : ℤ) := by
    rw [div_lt_iff₀ hpow, ← zpow_add₀ two_ne_zero, add_comm]
    exact lt_zpow_grid q
  have hnear := (abs_le.mp (abs_sub_nearestNat_le (div_pos hq hpow).le)).1
  have hsteps : (steps q : ℚ) < 2 ^ (24 : ℤ) + 1 := by
    rw [steps]
    linarith
  have hsteps : steps q < 2 ^ 24 + 1 := by exact_mod_cast hsteps
  exact Nat.lt_succ_iff.mp hsteps

theorem le_steps (h : -149 < grid q) : 2 ^ 23 ≤ steps q := by
  have hpow : (0 : ℚ) < 2 ^ grid q := by positivity
  have hle : (2 : ℚ) ^ (23 : ℤ) ≤ q / 2 ^ grid q := by
    rw [le_div_iff₀ hpow, ← zpow_add₀ two_ne_zero, add_comm]
    exact zpow_grid_le hq h
  have hnear := (abs_le.mp (abs_sub_nearestNat_le (div_pos hq hpow).le)).2
  have hsteps : (2 : ℚ) ^ (23 : ℤ) - 1 < steps q := by
    rw [steps]
    linarith
  have hsteps : (2 ^ 23 : ℚ) < steps q + 1 := by
    rw [sub_lt_iff_lt_add] at hsteps
    exact_mod_cast hsteps
  have hsteps : 2 ^ 23 < steps q + 1 := by exact_mod_cast hsteps
  exact Nat.lt_succ_iff.mp hsteps

end Positive

/-- A mantissa that has no bit too many stays as it is. -/
theorem shiftToTargetExponent_of_lt {m : ℕ} {e : ℤ} (hm : m < 2 ^ 24) (he : -149 ≤ e) :
    shiftToTargetExponent .binary32 m e .exact = (⟨m, false, false⟩, e) := by
  have hzero : (max (m.log2 + e - 23) (-149) - e).toNat = 0 := by
    have hlog : m.log2 ≤ 23 := by
      rcases Nat.eq_zero_or_pos m with rfl | hpos
      · decide
      · exact Nat.le_of_lt_succ ((Nat.log2_lt hpos.ne').mpr hm)
    omega
  rw [shiftToTargetExponent_eq m e hzero, Nat.cast_zero, add_zero]
  rfl

/-- The grid is found from a mantissa and an exponent that the number begins with. -/
theorem grid_eq {m : ℕ} {e : ℤ} {q : ℚ} (hq : 0 < q) (hlow : (m : ℚ) * 2 ^ e ≤ q)
    (hhigh : q < ((m : ℚ) + 1) * 2 ^ e) (hdeep : 0 < m ∨ e ≤ -149) :
    grid q = max (m.log2 + e - 23) (-149) := by
  rcases Nat.eq_zero_or_pos m with rfl | hpos
  · have hexponent : e ≤ -149 := hdeep.resolve_left (lt_irrefl 0)
    have hlog : Int.log 2 q < e := by
      rw [← Int.lt_zpow_iff_log_lt (by decide) hq]
      simpa using hhigh
    rw [grid, Nat.log2_zero]
    omega
  · have hle : (2 : ℚ) ^ m.log2 ≤ m := by exact_mod_cast Nat.log2_self_le hpos.ne'
    have hlt : (m : ℚ) + 1 ≤ 2 ^ (m.log2 + 1) := by exact_mod_cast Nat.lt_log2_self (n := m)
    have hlog : Int.log 2 q = m.log2 + e := by
      refine le_antisymm (Int.lt_add_one_iff.mp ?_) ?_
      · rw [← Int.lt_zpow_iff_log_lt (by decide) hq]
        calc q < ((m : ℚ) + 1) * 2 ^ e := hhigh
          _ ≤ 2 ^ (m.log2 + 1) * 2 ^ e := by gcongr
          _ = 2 ^ ((m.log2 : ℤ) + e + 1) := by
            rw [add_right_comm, zpow_add₀ two_ne_zero _ e]
            norm_cast
      · rw [← Int.zpow_le_iff_le_log (by decide) hq]
        calc (2 : ℚ) ^ ((m.log2 : ℤ) + e) = 2 ^ m.log2 * 2 ^ e := by
              rw [zpow_add₀ two_ne_zero, zpow_natCast]
          _ ≤ m * 2 ^ e := by gcongr
          _ ≤ q := hlow
    rw [grid, hlog]

/-- Rounding goes by the number that a mantissa, an exponent and what is known of the bits beyond
them stand for. The mantissa has to have its bits already, or the exponent to be low enough for a
single. -/
theorem roundWithAccuracy_eq (s : Sign) {m : ℕ} {e : ℤ} {accuracy : Accuracy} {q : ℚ} (hq : 0 < q)
    (hextended : ExtendedMantissa.ofMantissaAndAccuracy m accuracy = extended (q / 2 ^ e))
    (hdeep : 2 ^ 23 ≤ m ∨ e ≤ -149) :
    roundWithAccuracy .binary32 s m e accuracy = near s q := by
  have hpow : (0 : ℚ) < 2 ^ e := by positivity
  have hpos : 0 ≤ q / 2 ^ e := (div_pos hq hpow).le
  have hfloor : m = ⌊q / 2 ^ e⌋₊ := by
    have hmantissa : (ExtendedMantissa.ofMantissaAndAccuracy m accuracy).mantissa = m := by
      rcases accuracy with _ | _ | _ | _ <;> rfl
    rw [← hmantissa, hextended]
    rfl
  have hlow : (m : ℚ) * 2 ^ e ≤ q := by
    rw [← le_div_iff₀ hpow, hfloor]
    exact Nat.floor_le hpos
  have hhigh : q < ((m : ℚ) + 1) * 2 ^ e := by
    rw [← div_lt_iff₀ hpow, hfloor]
    exact Nat.lt_floor_add_one _
  have hgrid : grid q = max (m.log2 + e - 23) (-149) :=
    grid_eq hq hlow hhigh (hdeep.imp_left (lt_of_lt_of_le (by decide)))
  have hle : e ≤ grid q := by
    rcases hdeep with hfull | hleast
    · have hlog : 23 ≤ m.log2 := (Nat.le_log2 (by omega)).mpr hfull
      omega
    · omega
  have hshift : shiftToTargetExponent .binary32 m e accuracy =
      (extended (q / 2 ^ grid q), grid q) := by
    have htarget : Format.binary32.targetExponent (totalExponent m e) = grid q :=
      (targetExponent_eq m e).trans hgrid.symm
    obtain ⟨n, hn⟩ := Int.eq_ofNat_of_zero_le (sub_nonneg.mpr hle)
    have hsum : grid q = e + n := by omega
    have hscale : q / 2 ^ e / 2 ^ n = q / 2 ^ grid q := by
      rw [hsum, zpow_add₀ two_ne_zero, zpow_natCast, div_div]
    simp only [shiftToTargetExponent, shiftToExponent, htarget, hn, Int.toNat_natCast, hextended,
      extended_shiftRight hpos, hscale, ← hsum]
  have hround : (extended (q / 2 ^ grid q)).roundedMantissa = steps q := rfl
  rw [near]
  simp only [roundWithAccuracy, hshift, hround]
  rcases (steps_le hq).lt_or_eq with hlt | hcarry
  · simp only [shiftToTargetExponent_of_lt hlt (grid_ge q), hlt.ne, if_false]
  · simp only [hcarry, shiftToTargetExponent_carry (grid_ge q)]
    rfl

/-- The exponent is first brought down to where a single has it. -/
theorem round_eq (s : Sign) {m : ℕ} (hm : 0 < m) (e : ℤ) :
    round .binary32 s m e = near s (m * 2 ^ e) := by
  obtain ⟨n, hn⟩ : ∃ n, (e - max (m.log2 + e - 23) (-149)).toNat = n := ⟨_, rfl⟩
  have hround : round .binary32 s m e =
      roundWithAccuracy .binary32 s (m * 2 ^ n) (e - n) .exact := by
    simp only [UnpackedFloat.round, targetExponent_eq, decreaseExponent, hn, Nat.shiftLeft_eq]
  have hscale : (m : ℚ) * 2 ^ e / 2 ^ (e - n) = ((m * 2 ^ n : ℕ) : ℚ) := by
    rw [div_eq_iff (by positivity)]
    push_cast
    rw [mul_assoc, ← zpow_natCast, ← zpow_add₀ two_ne_zero]
    congr 2
    omega
  have hextended : ExtendedMantissa.ofMantissaAndAccuracy (m * 2 ^ n) .exact =
      extended ((m : ℚ) * 2 ^ e / 2 ^ (e - n)) := by
    rw [hscale, extended_natCast]
    rfl
  rw [hround]
  refine roundWithAccuracy_eq s (by positivity) hextended ?_
  rcases le_or_gt (e - n) (-149) with hleast | hlog
  · exact .inr hleast
  · refine .inl ((Nat.le_log2 (by positivity)).mp ?_)
    rw [log2_mul_pow hm]
    omega

theorem normalize_eq (n : ℤ) (e : ℤ) (zeroSign : Sign) :
    normalize .binary32 n e zeroSign =
      if n = 0 then .zero zeroSign
      else near (if n < 0 then .negative else .positive) (n.natAbs * 2 ^ e) := by
  rw [UnpackedFloat.normalize.eq_1]
  rcases lt_trichotomy n 0 with hneg | rfl | hpos
  · rw [Int.compare_eq_lt.mpr hneg, if_neg hneg.ne, if_pos hneg]
    dsimp only
    rw [round_eq _ (by omega)]
    congr 3
    omega
  · rfl
  · rw [Int.compare_eq_gt.mpr hpos, if_neg hpos.ne', if_neg hpos.not_gt]
    dsimp only
    rw [round_eq _ (by omega)]
    congr 3
    omega

/-! ### The nearest single -/

theorem view_ofView_of_overflow (s : Sign) {m : ℕ} {e : ℤ} (hm : 0 < m) (he : 104 < e) :
    view (ofView (.finite s m e hm)) = .infinity s := by
  have hfits : 2 ^ Format.binary32.exponentBits ≤ (e + Format.binary32.exponentBias +
      Format.binary32.mantissaBitsWithoutImplicit).toNat + 1 := by
    rw [add_assoc, exponentBias_add, show Format.binary32.exponentBits = 8 from rfl]
    omega
  show UnpackedFloat.unpack .binary32 (UnpackedFloat.pack .binary32 (.finite s m e hm)) = _
  simp only [UnpackedFloat.pack]
  rw [if_pos hfits]
  cases s <;> rfl

/-- Where a number comes to stand by rounding, if it does not overflow. -/
theorem placeOf_near (s : Sign) (q : ℚ) : placeOf (near s q) = signed s (steps q * 2 ^ grid q) := by
  rw [near]
  split_ifs with hzero hcarry
  · rw [hzero]
    simp [placeOf]
  · rw [hcarry]
    change signed s _ = _
    push_cast
    rw [zpow_add₀ two_ne_zero]
    congr 1
    ring
  · rfl

/-- What a number rounds to has a mantissa and an exponent as a single has them, but for an exponent
that may be too large. -/
theorem near_cases (s : Sign) {q : ℚ} (hq : 0 < q) :
    near s q = .zero s ∨ ∃ m e, ∃ hm : 0 < m, near s q = .finite s m e hm ∧ m < 2 ^ 24 ∧ -149 ≤ e ∧
      (2 ^ 23 ≤ m ∨ e = -149) := by
  have hge := grid_ge q
  rw [near]
  split_ifs with hzero hcarry
  · exact .inl rfl
  · exact .inr ⟨2 ^ 23, grid q + 1, by decide, rfl, by decide, by omega, .inl le_rfl⟩
  · refine .inr ⟨steps q, grid q, Nat.pos_of_ne_zero hzero, rfl,
      lt_of_le_of_ne (steps_le hq) hcarry, hge, ?_⟩
    by_cases hleast : grid q = -149
    · exact .inr hleast
    · exact .inl (le_steps hq (by omega))

/-- The single that a number rounds to stands where rounding puts it; or it is infinity, and
rounding puts the number as far out or farther. -/
theorem place_near_cases (s : Sign) {q : ℚ} (hq : 0 < q) :
    (ofView (near s q)).isNaN = false ∧
      (place (ofView (near s q)) = signed s (steps q * 2 ^ grid q) ∨
        place (ofView (near s q)) = signed s (2 ^ 128) ∧ (2 : ℚ) ^ 128 ≤ steps q * 2 ^ grid q) := by
  have hplace := placeOf_near s q
  rw [isNaN_eq, place]
  rcases near_cases s hq with hnear | ⟨m, e, hm, hnear, hlt, hge, hfull⟩ <;> rw [hnear] at hplace ⊢
  · rw [view_ofView_zero]
    exact ⟨rfl, .inl hplace⟩
  · by_cases hle : e ≤ 104
    · rw [view_ofView ⟨hm, hlt, hge, hle, hfull⟩]
      exact ⟨rfl, .inl hplace⟩
    · have hfull : 2 ^ 23 ≤ m := hfull.resolve_right (by omega)
      have hout : (2 : ℚ) ^ (128 : ℤ) ≤ m * 2 ^ e := le_mul_zpow hfull (by omega)
      have hsame : (m : ℚ) * 2 ^ e = steps q * 2 ^ grid q := by
        have hsigned := congrArg (signed s) hplace
        rwa [placeOf, signed_signed, signed_signed] at hsigned
      rw [view_ofView_of_overflow s hm (by omega)]
      exact ⟨rfl, .inr ⟨rfl, by rw [← hsame]; exact_mod_cast hout⟩⟩

/-- Against a grid a single is a multiple, or it stands below all numbers of that grid. -/
theorem place_cases (y : Float32) {g : ℤ} (hg : -149 ≤ g) :
    (∃ j : ℤ, place y = j * 2 ^ g) ∨ -149 < g ∧ |place y| ≤ 2 ^ (g + 23) := by
  have hmultiple {m : ℕ} {e : ℤ} (s : Sign) (h : g ≤ e) :
      ∃ j : ℤ, signed s (m * 2 ^ e) = j * 2 ^ g := by
    obtain ⟨n, hn⟩ := Int.eq_ofNat_of_zero_le (sub_nonneg.mpr h)
    obtain rfl : e = n + g := by omega
    refine ⟨s.apply (m * 2 ^ n : ℕ), ?_⟩
    rw [← signed_natCast_mul, zpow_add₀ two_ne_zero, ← mul_assoc]
    norm_cast
  rw [place]
  cases hview : view y with
  | zero s => exact .inl ⟨0, by simp [placeOf]⟩
  | notANumber => exact .inl ⟨0, by simp [placeOf]⟩
  | infinity s =>
    rcases le_or_gt g 104 with hle | hlt
    · obtain ⟨j, hj⟩ := hmultiple (m := 2 ^ 24) (e := 104) s hle
      refine .inl ⟨j, hj ▸ ?_⟩
      rw [placeOf]
      norm_num
    · refine .inr ⟨by omega, ?_⟩
      rw [placeOf, abs_signed, abs_of_pos (by positivity)]
      exact_mod_cast zpow_two_le (by omega : (128 : ℤ) ≤ g + 23)
  | finite s m e hm =>
    have hcanonical := canonical_of_view hview
    rcases le_or_gt g e with hle | hlt
    · exact .inl (hmultiple s hle)
    · have hge := hcanonical.exponent_ge
      refine .inr ⟨by omega, ?_⟩
      rw [placeOf, abs_signed, abs_of_pos (by positivity)]
      exact (mul_zpow_lt hcanonical.mantissa_lt (by omega)).le

theorem abs_place_lt {y : Float32} (hy : y.isFinite = true) : |place y| < 2 ^ 128 := by
  rw [isFinite_eq] at hy
  rw [place]
  cases hview : view y with rw [hview] at hy
  | infinity | notANumber => cases hy
  | zero s => norm_num
  | finite s m e hm =>
    have hcanonical := canonical_of_view hview
    have hle := hcanonical.exponent_le
    rw [placeOf, abs_signed, abs_of_pos (by positivity)]
    exact_mod_cast mul_zpow_lt hcanonical.mantissa_lt (by omega : e + 24 ≤ 128)

theorem abs_place_le (y : Float32) : |place y| ≤ 2 ^ 128 := by
  cases hview : view y with
  | zero | finite => exact (abs_place_lt (by rw [isFinite_eq, hview]; rfl)).le
  | notANumber => simp [place, hview, placeOf]
  | infinity s => rw [place, hview, placeOf, abs_signed, abs_of_pos (by positivity)]

/-- What rounding makes of a number is nearer to it than any multiple of its grid, and than any
number below all of those. -/
theorem abs_sub_steps_le {q z : ℚ} (hq : 0 < q)
    (hz : (∃ j : ℤ, z = j * 2 ^ grid q) ∨ -149 < grid q ∧ |z| ≤ 2 ^ (grid q + 23)) :
    |q - steps q * 2 ^ grid q| ≤ |q - z| := by
  have hpow : (0 : ℚ) < 2 ^ grid q := by positivity
  have hscaled (r : ℚ) : |q - r * 2 ^ grid q| = |q / 2 ^ grid q - r| * 2 ^ grid q := by
    rw [← abs_of_pos hpow, ← abs_mul, sub_mul, abs_of_pos hpow, div_mul_cancel₀ _ hpow.ne']
  have hmultiple (j : ℤ) : |q - steps q * 2 ^ grid q| ≤ |q - j * 2 ^ grid q| := by
    rw [hscaled, hscaled]
    exact mul_le_mul_of_nonneg_right (abs_sub_nearestNat_le_abs_sub (div_pos hq hpow).le j) hpow.le
  rcases hz with ⟨j, rfl⟩ | ⟨hnormal, hz⟩
  · exact hmultiple j
  · have hbinade := zpow_grid_le hq hnormal
    have hleast : ((2 ^ 23 : ℤ) : ℚ) * 2 ^ grid q = 2 ^ (grid q + 23) := by
      rw [zpow_add₀ two_ne_zero, mul_comm]
      norm_cast
    have hz' : z ≤ 2 ^ (grid q + 23) := (le_abs_self z).trans hz
    calc |q - steps q * 2 ^ grid q| ≤ |q - 2 ^ (grid q + 23)| := hleast ▸ hmultiple (2 ^ 23)
      _ = q - 2 ^ (grid q + 23) := abs_of_nonneg (sub_nonneg.mpr hbinade)
      _ ≤ q - z := by linarith
      _ ≤ |q - z| := le_abs_self _

/-- **Rounding takes the nearest**: no other single is nearer to a number than the one that it is
rounded to, where infinity counts as the number after the largest. -/
theorem isNearest_near (s : Sign) {q : ℚ} (hq : 0 < q) :
    IsNearest (signed s q) (ofView (near s q)) := by
  obtain ⟨hnan, hplace⟩ := place_near_cases s hq
  refine ⟨hnan, fun y _ => ?_⟩
  have hy : |q - steps q * 2 ^ grid q| ≤ |q - signed s (place y)| := by
    refine abs_sub_steps_le hq ?_
    rcases place_cases y (grid_ge q) with ⟨j, hj⟩ | ⟨hnormal, hle⟩
    · refine .inl ⟨s.apply j, ?_⟩
      rw [hj]
      cases s <;> simp [signed, Sign.apply]
    · exact .inr ⟨hnormal, by rwa [abs_signed]⟩
  have hturn : |signed s q - place y| = |q - signed s (place y)| := by
    conv_lhs => rw [← signed_signed s (place y)]
    rw [signed_sub, abs_signed]
  rw [hturn]
  rcases hplace with hplace | ⟨hplace, hout⟩
  · rwa [hplace, signed_sub, abs_signed]
  · rw [hplace, signed_sub, abs_signed]
    have hyle : signed s (place y) ≤ 2 ^ 128 :=
      (le_abs_self _).trans ((abs_signed s _).trans_le (abs_place_le y))
    rcases le_total (2 ^ 128) q with hbeyond | hwithin
    · rw [abs_of_nonneg (sub_nonneg.mpr hbeyond)]
      exact (by linarith : q - 2 ^ 128 ≤ q - signed s (place y)).trans (le_abs_self _)
    · refine le_trans ?_ hy
      rw [abs_of_nonpos (sub_nonpos.mpr hwithin),
        abs_of_nonpos (sub_nonpos.mpr (hwithin.trans hout))]
      linarith

/-- A single is nearest to where it stands. -/
theorem isNearest_place {x : Float32} (hx : x.isNaN = false) : IsNearest (place x) x :=
  ⟨hx, fun y _ => by rw [sub_self, abs_zero]; exact abs_nonneg _⟩

/-- Rounding does not move a number that a single stands for. -/
theorem IsNearest.place_eq {x y : Float32} (h : IsNearest (place y) x) (hy : y.isNaN = false) :
    place x = place y := by
  have hle := h.le y hy
  rw [sub_self, abs_zero, abs_nonpos_iff, sub_eq_zero] at hle
  exact hle.symm

/-- A number other than zero stands for itself only. -/
theorem view_eq_of_place_eq {x y : Float32} {s : Sign} {m : ℕ} {e : ℤ} {hm : 0 < m}
    (hx : view x = .finite s m e hm) (h : place x = place y) : view y = view x := by
  have hm' : Canonical m e := canonical_of_view hx
  have hpos : (0 : ℚ) < m * 2 ^ e := by positivity
  have hlt : (m : ℚ) * 2 ^ e < 2 ^ (128 : ℤ) :=
    mul_zpow_lt hm'.mantissa_lt (by have := hm'.exponent_le; omega)
  rw [place, place, hx, placeOf] at h
  have habs := congrArg (fun r : ℚ => |r|) h
  rw [abs_signed, abs_of_pos hpos] at habs
  rw [hx]
  cases hy : view y with rw [hy, placeOf] at h habs
  | zero t | notANumber => exact absurd habs (by simpa using hpos.ne')
  | infinity t =>
    rw [abs_signed, abs_of_pos (by positivity)] at habs
    exact absurd habs hlt.ne
  | finite t n d hn =>
    rw [abs_signed, abs_of_pos (by positivity)] at habs
    obtain ⟨rfl, rfl⟩ := hm'.unique (canonical_of_view hy) habs
    have hsign : s = t := by
      cases s <;> cases t <;> first | rfl | (simp only [signed] at h; linarith)
    rw [hsign]

theorem not_isNaN_of_isFinite {x : Float32} (h : x.isFinite = true) : x.isNaN = false := by
  rw [isFinite_eq] at h
  rw [isNaN_eq]
  cases hview : view x with rw [hview] at h
  | infinity | notANumber => cases h
  | zero | finite => rfl

/-- Singles at one place are equal, as comparing has it. -/
theorem beq_of_place_eq {x y : Float32} (hx : x.isFinite = true) (hy : y.isNaN = false)
    (h : place x = place y) : (x == y) = true := by
  rw [isFinite_eq] at hx
  rw [isNaN_eq] at hy
  rw [beq_eq, beq_iff_ne_notANumber_and_eq]
  cases hview : view x with rw [hview] at hx
  | infinity | notANumber => cases hx
  | finite s m e hm =>
    rw [view_eq_of_place_eq hview h, hview]
    exact ⟨nofun, nofun, .inl rfl⟩
  | zero s =>
    cases hview' : view y with
    | notANumber => rw [hview'] at hy; cases hy
    | zero t => cases s <;> cases t <;> simp
    | infinity t =>
      rw [place, place, hview, hview', placeOf, placeOf] at h
      have habs := congrArg (fun r : ℚ => |r|) h
      rw [abs_signed] at habs
      norm_num at habs
    | finite t n d hn =>
      have hback := view_eq_of_place_eq hview' h.symm
      rw [hview, hview'] at hback
      cases hback

/-! ### Sums -/

theorem add_eq (x y : Float32) :
    x + y = ofView (UnpackedFloat.add .binary32 (view x) (view y)) := rfl

theorem placeOf_decreaseExponent (s : Sign) {m : ℕ} {e t : ℤ} (hm : 0 < m) (h : t ≤ e) :
    placeOf (.finite s m e hm) = (s.apply ((decreaseExponent m e t).1 : ℕ) : ℤ) * 2 ^ t := by
  obtain ⟨n, hn⟩ := Int.eq_ofNat_of_zero_le (sub_nonneg.mpr h)
  obtain rfl : e = n + t := by omega
  simp only [decreaseExponent, hn, Int.toNat_natCast, Nat.shiftLeft_eq]
  rw [placeOf, ← signed_natCast_mul, zpow_add₀ two_ne_zero, ← mul_assoc]
  norm_cast

theorem isNearest_zero (s : Sign) : IsNearest 0 (ofView (.zero s)) := by
  have h := isNearest_place (x := ofView (.zero s)) (by rw [isNaN_eq, view_ofView_zero]; rfl)
  rwa [place, view_ofView_zero, placeOf_zero] at h

theorem isNearest_normalize (n e : ℤ) (zeroSign : Sign) :
    IsNearest (n * 2 ^ e) (ofView (normalize .binary32 n e zeroSign)) := by
  have hpos (h : n ≠ 0) : (0 : ℚ) < n.natAbs * 2 ^ e := by
    have := Int.natAbs_pos.mpr h
    positivity
  rw [normalize_eq]
  split_ifs with hzero hneg
  · rw [hzero, Int.cast_zero, zero_mul]
    exact isNearest_zero zeroSign
  · have hsigned : signed .negative (n.natAbs * 2 ^ e) = n * 2 ^ e := by
      rw [signed, ← neg_mul, Nat.cast_natAbs, abs_of_neg hneg, Int.cast_neg, neg_neg]
    exact hsigned ▸ isNearest_near .negative (hpos hzero)
  · have hsigned : signed .positive (n.natAbs * 2 ^ e) = n * 2 ^ e := by
      rw [signed, Nat.cast_natAbs, abs_of_nonneg (not_lt.mp hneg)]
    exact hsigned ▸ isNearest_near .positive (hpos hzero)

/-- A sum is the single nearest to the sum of the two numbers. -/
theorem isNearest_add {x y : Float32} (hx : x.isFinite = true) (hy : y.isFinite = true) :
    IsNearest (place x + place y) (x + y) := by
  have hx' := isNearest_place (not_isNaN_of_isFinite hx)
  have hy' := isNearest_place (not_isNaN_of_isFinite hy)
  rw [isFinite_eq] at hx hy
  cases hviewx : view x with rw [hviewx] at hx
  | infinity | notANumber => cases hx
  | zero s =>
    cases hviewy : view y with rw [hviewy] at hy
    | infinity | notANumber => cases hy
    | zero t =>
      rw [add_eq, place, place, hviewx, hviewy, placeOf_zero, placeOf_zero, add_zero]
      cases s <;> cases t <;> exact isNearest_zero _
    | finite t n d hn =>
      have hsum : x + y = y := by
        calc x + y = ofView (view y) := by rw [add_eq, hviewx, hviewy]; rfl
          _ = y := ofView_view y
      rwa [hsum, place, hviewx, placeOf_zero, zero_add]
  | finite s m e hm =>
    cases hviewy : view y with rw [hviewy] at hy
    | infinity | notANumber => cases hy
    | zero t =>
      have hsum : x + y = x := by
        calc x + y = ofView (view x) := by rw [add_eq, hviewx, hviewy]; rfl
          _ = x := ofView_view x
      rwa [hsum, place.eq_1 y, hviewy, placeOf_zero, add_zero]
    | finite t n d hn =>
      rw [add_eq, place, place, hviewx, hviewy,
        placeOf_decreaseExponent s hm (min_le_left e d),
        placeOf_decreaseExponent t hn (min_le_right e d), ← add_mul, ← Int.cast_add]
      exact isNearest_normalize _ _ _

end ShadeTree.Single
