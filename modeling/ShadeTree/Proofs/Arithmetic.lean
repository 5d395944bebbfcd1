import Mathlib
import ShadeTree.Number.Single

/-!
# Arithmetic in the unit interval

A weight on its way down a tree is scaled by factors between 0 and 1. This module proves of
single-precision arithmetic what such scaling relies on:

* a factor held to the unit interval lies in it, and so do its complement and a product of two;
* a zero scaled by a finite number stays a zero, and so does a finite number scaled by a zero;
* scaling by one changes no bit, not even of NaN.

Nothing is assumed of rounding. A single is looked at through the mantissa and the exponent it
unpacks to (`view`). Rounding drops the low bits of a mantissa and may then carry (`rounded`). It
does not pass a number that the bits kept can write (`rounded_le`, `le_rounded`), and 1 is such a
number. From that the one result about rounding follows: what is at most 1 rounds to a single that is
at most 1 (`unital_roundWithAccuracy`).
-/

namespace ShadeTree.Single

open Float.Model Float.Model.UnpackedFloat

/-! ### Singles by mantissa and exponent -/

/-- What a single stands for. -/
def view (x : Float32) : UnpackedFloat := x.toModel.unpack

/-- The single that stands for a number, where there is one. -/
def ofView (u : UnpackedFloat) : Float32 := .ofModel (.pack u)

theorem ofView_view (x : Float32) : ofView (view x) = x :=
  Float32.toBits_inj.mp (UInt32.toBitVec_inj.mp (pack_unpack_of_valid x.toModel.valid))

theorem view_ofView_zero (s : Sign) : view (ofView (.zero s)) = .zero s := unpack_packedZero

theorem view_zero : view 0 = .zero .positive := rfl

theorem view_one : view 1 = .finite .positive (2 ^ 23) (-23) (by decide) := rfl

theorem mul_eq (x y : Float32) :
    x * y = ofView (UnpackedFloat.mul .binary32 (view x) (view y)) := rfl

theorem sub_eq (x y : Float32) :
    x - y = ofView (UnpackedFloat.sub .binary32 (view x) (view y)) := rfl

/-- A mantissa and an exponent as a single has them: the mantissa fills its 24 bits, unless the
exponent is the least there is. -/
structure Canonical (m : ℕ) (e : ℤ) : Prop where
  mantissa_pos : 0 < m
  mantissa_lt : m < 2 ^ 24
  exponent_ge : -149 ≤ e
  exponent_le : e ≤ 104
  full : 2 ^ 23 ≤ m ∨ e = -149

theorem exponentBias_add :
    (Format.binary32.exponentBias : ℤ) + (Format.binary32.mantissaBitsWithoutImplicit : ℤ) = 150 :=
  rfl

theorem canonical_of_unpack {b : BitVec Format.binary32.numBits} {s : Sign} {m : ℕ} {e : ℤ}
    {hm : 0 < m} (h : UnpackedFloat.unpack .binary32 b = .finite s m e hm) : Canonical m e := by
  revert h
  have hbias := exponentBias_add
  fun_cases UnpackedFloat.unpack .binary32 b with
  | case1 | case2 | case3 => intro h; cases h
  | case4 mantissa exponent _ _ _ _ hzero _ =>
    intro h
    injection h with _ hm' he'
    have hmantissa : mantissa.toNat < 2 ^ 23 := mantissa.isLt
    have hexponent : exponent.toNat = 0 := by rw [hzero]; rfl
    constructor <;> omega
  | case5 mantissa exponent _ _ _ hones hzero =>
    intro h
    injection h with _ hm' he'
    have hmantissa : mantissa.toNat < 2 ^ 23 := mantissa.isLt
    have hexponent : exponent.toNat < 2 ^ 8 := exponent.isLt
    have hones : exponent.toNat ≠ 255 := fun h => hones (BitVec.eq_of_toNat_eq h)
    have hzero : exponent.toNat ≠ 0 := fun h => hzero (BitVec.eq_of_toNat_eq h)
    have himplicit : m = 2 ^ 23 + mantissa.toNat := by
      rw [← hm', BitVec.toNat_append]
      exact (Nat.two_pow_add_eq_or_of_lt hmantissa 1).symm
    constructor <;> omega

theorem canonical_of_view {x : Float32} {s : Sign} {m : ℕ} {e : ℤ} {hm : 0 < m}
    (h : view x = .finite s m e hm) : Canonical m e :=
  canonical_of_unpack h

theorem unpack_packComponents_normal (s : Sign) {exponent : BitVec 8} (mantissa : BitVec 23)
    (hzero : exponent ≠ 0#8) (hones : exponent ≠ -1#8) :
    UnpackedFloat.unpack .binary32 (packComponents .binary32 s exponent mantissa) =
      .finite s (2 ^ 23 + mantissa.toNat) (exponent.toNat - 150) (by simp) := by
  simp only [UnpackedFloat.unpack, unpackExponent_packComponents, unpackMantissa_packComponents,
    unpackSign_packComponents, Sign.ofBitVec_toBitVec]
  rw [if_neg hones, if_neg hzero]
  congr 1
  rw [BitVec.toNat_append]
  exact (Nat.two_pow_add_eq_or_of_lt mantissa.isLt 1).symm

theorem unpack_packComponents_subnormal (s : Sign) {mantissa : BitVec 23} (h : 0 < mantissa.toNat) :
    UnpackedFloat.unpack .binary32 (packComponents .binary32 s 0#8 mantissa) =
      .finite s mantissa.toNat (-149) h := by
  have hne : mantissa ≠ 0#23 := by
    rintro rfl
    exact absurd h (by decide)
  simp only [UnpackedFloat.unpack, unpackExponent_packComponents, unpackMantissa_packComponents,
    unpackSign_packComponents, Sign.ofBitVec_toBitVec]
  rw [if_neg (by decide), dif_neg hne]
  rfl

/-- A mantissa and an exponent as a single has them come back from the single. -/
theorem view_ofView {m : ℕ} {e : ℤ} (h : Canonical m e) (s : Sign) :
    view (ofView (.finite s m e h.mantissa_pos)) = .finite s m e h.mantissa_pos := by
  obtain ⟨hpos, hlt, hge, hle, hfull⟩ := h
  obtain ⟨biased, hbiased⟩ := Int.eq_ofNat_of_zero_le (show 0 ≤ e + 150 by omega)
  have hexponent : (e + Format.binary32.exponentBias +
      Format.binary32.mantissaBitsWithoutImplicit).toNat = biased := by
    rw [add_assoc, exponentBias_add, hbiased, Int.toNat_natCast]
  have hfits : ¬ 2 ^ Format.binary32.exponentBits ≤ biased + 1 := by
    rw [show Format.binary32.exponentBits = 8 from rfl]
    omega
  show UnpackedFloat.unpack .binary32 (UnpackedFloat.pack .binary32 (.finite s m e hpos)) = _
  simp only [UnpackedFloat.pack]
  rw [hexponent, if_neg hfits, show Format.binary32.mantissaBits = 24 from rfl]
  -- The top bit of a full mantissa is not written, and a biased exponent of 0 says that it is missing.
  by_cases hnormal : 2 ^ 23 ≤ m
  · have hlog : m.log2 = 23 := (Nat.log2_eq_iff hpos.ne').mpr ⟨hnormal, hlt⟩
    have hbits : (BitVec.ofNat 8 biased).toNat = biased := by
      rw [BitVec.toNat_ofNat]
      omega
    have hzero : BitVec.ofNat 8 biased ≠ 0#8 := fun h => by
      rw [h, BitVec.toNat_ofNat] at hbits
      omega
    have hones : BitVec.ofNat 8 biased ≠ -1#8 := fun h => by
      rw [h, show (-1#8).toNat = 255 from rfl] at hbits
      omega
    rw [if_pos (by rw [hlog])]
    refine (unpack_packComponents_normal s _ hzero hones).trans ?_
    congr 1
    · rw [BitVec.toNat_ofNat]
      omega
    · rw [hbits]
      omega
  · have hlog : m.log2 < 23 := (Nat.log2_lt hpos.ne').mpr (by omega)
    have hbits : (BitVec.ofNat 23 m).toNat = m := by
      rw [BitVec.toNat_ofNat]
      omega
    rw [if_neg (by omega)]
    refine (unpack_packComponents_subnormal s (by omega)).trans ?_
    congr 1
    omega

/-! ### Comparing -/

theorem le_iff {x y : Float32} : x ≤ y ↔ (view x).le (view y) = true := decide_eq_true_iff

theorem lt_iff {x y : Float32} : x < y ↔ (view x).lt (view y) = true := decide_eq_true_iff

theorem beq_eq (x y : Float32) : (x == y) = (view x).beq (view y) := rfl

theorem isNaN_eq (x : Float32) : x.isNaN = (view x).isNaN := rfl

theorem isFinite_eq (x : Float32) : x.isFinite = (view x).isFinite := rfl

/-- Comparing the other way round gives the opposite. -/
theorem compare_swap (u v : UnpackedFloat) : v.compare u = (u.compare v).map Ordering.swap := by
  have hthen (o o' : Ordering) : (o.then o').swap = o.swap.then o'.swap := by cases o <;> rfl
  rcases u with ⟨_ | _⟩ | _ | ⟨_ | _⟩ | ⟨_ | _⟩ <;>
    rcases v with ⟨_ | _⟩ | _ | ⟨_ | _⟩ | ⟨_ | _⟩ <;>
    first
    | rfl
    | simp only [UnpackedFloat.compare, Option.map_some, hthen, Int.compare_swap, Nat.compare_swap]

/-- Whatever is not NaN compares. -/
theorem isSome_compare (u v : UnpackedFloat) :
    (u.compare v).isSome = (!u.isNaN && !v.isNaN) := by
  rcases u with ⟨_ | _⟩ | _ | ⟨_ | _⟩ | ⟨_ | _⟩ <;>
    rcases v with ⟨_ | _⟩ | _ | ⟨_ | _⟩ | ⟨_ | _⟩ <;> rfl

theorem finite_le_finite_iff {m n : ℕ} {d e : ℤ} {hm : 0 < m} {hn : 0 < n} :
    (UnpackedFloat.finite .positive m d hm).le (.finite .positive n e hn) = true ↔
      d < e ∨ d = e ∧ m ≤ n := by
  rw [UnpackedFloat.le, UnpackedFloat.compare, Option.any_some, Ordering.isLE_then_iff_or,
    compare_lt_iff_lt, compare_eq_iff_eq, Nat.isLE_compare]

section Order

variable {x y : Float32}

theorem le_iff_lt_or_beq : x ≤ y ↔ x < y ∨ (x == y) = true := by
  rw [le_iff, lt_iff, beq_eq, UnpackedFloat.le, UnpackedFloat.lt, UnpackedFloat.beq]
  rcases (view x).compare (view y) with _ | _ | _ | _ <;> decide

theorem le_of_not_lt (hx : x.isNaN = false) (hy : y.isNaN = false) (h : ¬ y < x) : x ≤ y := by
  have hsome := isSome_compare (view x) (view y)
  rw [← isNaN_eq, ← isNaN_eq, hx, hy] at hsome
  rw [lt_iff, UnpackedFloat.lt, compare_swap (view x) (view y)] at h
  rw [le_iff, UnpackedFloat.le]
  revert hsome h
  rcases (view x).compare (view y) with _ | _ | _ | _ <;> decide

theorem not_isNaN_of_le (h : x ≤ y) : x.isNaN = false ∧ y.isNaN = false := by
  have hsome := isSome_compare (view x) (view y)
  rw [le_iff, UnpackedFloat.le] at h
  rw [isNaN_eq, isNaN_eq]
  revert hsome h
  rcases (view x).compare (view y) with _ | _ | _ | _ <;>
    cases (view x).isNaN <;> cases (view y).isNaN <;> decide

/-- Equality as comparing has it is equality, zeros and NaN apart. -/
theorem eq_one_of_beq (h : (x == 1) = true) : x = 1 := by
  obtain ⟨-, -, rfl | ⟨-, hone⟩ | ⟨-, hone⟩⟩ := Float32.beq_iff_ne_nan_and_eq.mp h
  · rfl
  · exact absurd hone (by decide)
  · exact absurd hone (by decide)

theorem beq_zero_iff : (x == 0) = true ↔ ∃ s, view x = .zero s := by
  rw [beq_eq, view_zero]
  rcases view x with ⟨_ | _⟩ | _ | s | ⟨_ | _⟩ <;> simp [UnpackedFloat.beq, UnpackedFloat.compare]

end Order

/-! ### Rounding -/

/-- A mantissa without its low bits, and what is kept of them to round by. -/
def dropped (m n : ℕ) : ExtendedMantissa := ExtendedMantissa.mk m false false >>> n

/-- A mantissa rounded to a multiple of `2 ^ n`, counted in such multiples. -/
def rounded (m n : ℕ) : ℕ := (dropped m n).roundedMantissa

theorem dropped_mantissa (m n : ℕ) : (dropped m n).mantissa = m / 2 ^ n := by
  induction n with
  | zero => simp [dropped, HShiftRight.hShiftRight, Nat.repeat]
  | succ n ih =>
    have hstep : (dropped m (n + 1)).mantissa = (dropped m n).mantissa / 2 := rfl
    rw [hstep, ih, Nat.div_div_eq_div_mul, pow_succ]

/-- Nothing is lost when the bits dropped are zeros. -/
theorem dropped_mul_pow (m n : ℕ) : dropped (m * 2 ^ n) n = ⟨m, false, false⟩ := by
  induction n generalizing m with
  | zero => simp [dropped, HShiftRight.hShiftRight, Nat.repeat]
  | succ n ih =>
    have hstep (k : ℕ) : dropped k (n + 1) = (dropped k n).shiftRightOne := rfl
    rw [hstep, pow_succ', ← mul_assoc, ih, ExtendedMantissa.shiftRightOne]
    simp

theorem rounded_mul_pow (m n : ℕ) : rounded (m * 2 ^ n) n = m := by
  rw [rounded, dropped_mul_pow]
  rfl

theorem rounded_bounds (m n : ℕ) : m / 2 ^ n ≤ rounded m n ∧ rounded m n ≤ m / 2 ^ n + 1 := by
  rw [rounded, ← dropped_mantissa]
  obtain ⟨q, roundBit, stickyBit⟩ := dropped m n
  rw [ExtendedMantissa.roundedMantissa]
  cases roundBit <;> cases stickyBit <;>
    simp only [ExtendedMantissa.accuracy, Accuracy.roundToNearestEven] <;> omega

/-- Rounding up does not pass a multiple. -/
theorem rounded_le {m n c : ℕ} (h : m ≤ c * 2 ^ n) : rounded m n ≤ c := by
  rcases h.lt_or_eq with hlt | rfl
  · exact (rounded_bounds m n).2.trans (Nat.div_lt_of_lt_mul (by rwa [mul_comm]))
  · exact (rounded_mul_pow c n).le

/-- Rounding down does not pass a multiple. -/
theorem le_rounded {m n c : ℕ} (h : c * 2 ^ n ≤ m) : c ≤ rounded m n :=
  ((Nat.le_div_iff_mul_le (by positivity)).mpr h).trans (rounded_bounds m n).1

theorem log2_mul_pow {m : ℕ} (hpos : 0 < m) (n : ℕ) : (m * 2 ^ n).log2 = m.log2 + n := by
  refine (Nat.log2_eq_iff (by positivity)).mpr ⟨?_, ?_⟩
  · rw [pow_add]
    exact Nat.mul_le_mul_right _ (Nat.log2_self_le hpos.ne')
  · rw [add_right_comm, pow_add]
    exact Nat.mul_lt_mul_of_pos_right Nat.lt_log2_self (by positivity)

theorem targetExponent_eq (m : ℕ) (e : ℤ) :
    Format.binary32.targetExponent (totalExponent m e) = max (m.log2 + e - 23) (-149) := by
  rw [Format.targetExponent, totalExponent, show Format.binary32.minExponent = -149 from rfl,
    show Format.binary32.mantissaBits = 24 from rfl]
  congr 1
  ring

/-- As many bits are dropped as the exponent lies below that of a single of this size. -/
theorem shiftToTargetExponent_eq (m : ℕ) (e : ℤ) {n : ℕ}
    (hn : (max (m.log2 + e - 23) (-149) - e).toNat = n) :
    shiftToTargetExponent .binary32 m e .exact = (dropped m n, e + n) := by
  rw [← hn, ← targetExponent_eq]
  rfl

theorem shiftToTargetExponent_self {m : ℕ} {e : ℤ} (h : Canonical m e) :
    shiftToTargetExponent .binary32 m e .exact = (⟨m, false, false⟩, e) := by
  obtain ⟨hpos, hlt, hge, hle, hfull⟩ := h
  have hzero : (max (m.log2 + e - 23) (-149) - e).toNat = 0 := by
    have hlog : m.log2 < 24 := (Nat.log2_lt hpos.ne').mpr hlt
    omega
  rw [shiftToTargetExponent_eq m e hzero, Nat.cast_zero, add_zero]
  rfl

/-- A mantissa that rounding carried over is moved by one place more. -/
theorem shiftToTargetExponent_carry {e : ℤ} (h : -149 ≤ e) :
    shiftToTargetExponent .binary32 (2 ^ 24) e .exact = (⟨2 ^ 23, false, false⟩, e + 1) := by
  have hone : (max ((2 ^ 24).log2 + e - 23) (-149) - e).toNat = 1 := by
    rw [Nat.log2_two_pow]
    omega
  exact shiftToTargetExponent_eq _ e hone

section RoundWithAccuracy

variable (s : Sign) {m n : ℕ} {e : ℤ}

theorem roundWithAccuracy_of_canonical
    (hn : (max (m.log2 + e - 23) (-149) - e).toNat = n) (h : Canonical (rounded m n) (e + n)) :
    roundWithAccuracy .binary32 s m e .exact = .finite s (rounded m n) (e + n) h.mantissa_pos := by
  have hself : shiftToTargetExponent .binary32 (dropped m n).roundedMantissa (e + n) .exact = _ :=
    shiftToTargetExponent_self h
  simp only [roundWithAccuracy, shiftToTargetExponent_eq m e hn, hself]
  exact dif_neg h.mantissa_pos.ne'

theorem roundWithAccuracy_of_carry
    (hn : (max (m.log2 + e - 23) (-149) - e).toNat = n) (h : rounded m n = 2 ^ 24)
    (he : -149 ≤ e + n) :
    roundWithAccuracy .binary32 s m e .exact = .finite s (2 ^ 23) (e + n + 1) (by decide) := by
  have hcarry : (dropped m n).roundedMantissa = 2 ^ 24 := h
  simp only [roundWithAccuracy, shiftToTargetExponent_eq m e hn, hcarry,
    shiftToTargetExponent_carry he]
  rfl

theorem roundWithAccuracy_of_vanish
    (hn : (max (m.log2 + e - 23) (-149) - e).toNat = n) (h : rounded m n = 0) :
    roundWithAccuracy .binary32 s m e .exact = .zero s := by
  have hvanish : (dropped m n).roundedMantissa = 0 := h
  have hzero : (shiftToTargetExponent .binary32 0 (e + n) .exact).1.mantissa = 0 := by
    rw [shiftToTargetExponent_eq 0 (e + n) rfl, dropped_mantissa, Nat.zero_div]
  simp only [roundWithAccuracy, shiftToTargetExponent_eq m e hn, hvanish]
  exact dif_pos hzero

end RoundWithAccuracy

/-! ### The unit interval -/

/-- A number from 0 to 1 as a single has it. A zero may have either sign. -/
inductive Unital : UnpackedFloat → Prop where
  | zero (s : Sign) : Unital (.zero s)
  | finite {m j : ℕ} (h : Canonical m (-j)) (hle : m ≤ 2 ^ j) :
    Unital (.finite .positive m (-j) h.mantissa_pos)

/-- What is at most 1 rounds to a single that is at most 1. The mantissa has to have its bits
already, or the exponent to be low enough for a single. -/
theorem unital_roundWithAccuracy {m j : ℕ} (hpos : 0 < m) (hle : m ≤ 2 ^ j)
    (hdeep : 23 ≤ m.log2 ∨ 149 ≤ j) :
    Unital (roundWithAccuracy .binary32 .positive m (-j) .exact) := by
  have hlow : 2 ^ m.log2 ≤ m := Nat.log2_self_le hpos.ne'
  have hhigh : m < 2 ^ (m.log2 + 1) := Nat.lt_log2_self
  have hlog : m.log2 ≤ j := (Nat.pow_le_pow_iff_right (by decide)).mp (hlow.trans hle)
  obtain ⟨n, hn⟩ : ∃ n, n = max (m.log2 - 23) (j - 149) := ⟨_, rfl⟩
  have hshift : (max (m.log2 + -(j : ℤ) - 23) (-149) - -(j : ℤ)).toNat = n := by omega
  obtain ⟨k, rfl⟩ : ∃ k, j = k + n := ⟨j - n, by omega⟩
  have hexponent : -((k + n : ℕ) : ℤ) + n = -k := by omega
  have hone : rounded m n ≤ 2 ^ k := rounded_le (by rwa [← pow_add])
  have htop : rounded m n ≤ 2 ^ 24 := by
    refine rounded_le (hhigh.le.trans ?_)
    rw [← pow_add]
    exact Nat.pow_le_pow_right (by decide) (by omega)
  have hfull : 2 ^ 23 ≤ rounded m n ∨ k = 149 := by
    by_cases hnormal : m.log2 = n + 23
    · refine .inl (le_rounded ?_)
      rwa [← pow_add, add_comm 23 n, ← hnormal]
    · exact .inr (by omega)
  -- Nothing may be left of the mantissa, or it fits its bits, or rounding carried over into one more.
  rcases Nat.eq_zero_or_pos (rounded m n) with hzero | hrounded
  · rw [roundWithAccuracy_of_vanish _ hshift hzero]
    exact .zero _
  rcases htop.lt_or_eq with hlt | hcarry
  · have hcanonical : Canonical (rounded m n) (-((k + n : ℕ) : ℤ) + n) := by
      constructor <;> omega
    rw [roundWithAccuracy_of_canonical _ hshift hcanonical]
    simp only [hexponent] at hcanonical ⊢
    exact .finite hcanonical hone
  · obtain ⟨k, rfl⟩ : ∃ l, k = l + 1 := by
      refine Nat.exists_eq_succ_of_ne_zero ?_
      rintro rfl
      omega
    have hexponent : -((k + 1 + n : ℕ) : ℤ) + n + 1 = -k := by omega
    rw [roundWithAccuracy_of_carry _ hshift hcarry (by omega)]
    simp only [hexponent]
    have hhalf : 2 ^ 23 ≤ 2 ^ k := by
      rw [hcarry, pow_succ 2 23, pow_succ 2 k] at hone
      omega
    exact .finite (by constructor <;> omega) hhalf

/-- The same when the exponent is first brought down to where a single has it. -/
theorem unital_round {m j : ℕ} (hpos : 0 < m) (hle : m ≤ 2 ^ j) :
    Unital (round .binary32 .positive m (-j)) := by
  obtain ⟨a, ha⟩ : ∃ a, (-(j : ℤ) - max (m.log2 + -(j : ℤ) - 23) (-149)).toNat = a := ⟨_, rfl⟩
  have hround : round .binary32 .positive m (-j) =
      roundWithAccuracy .binary32 .positive (m * 2 ^ a) (-((j + a : ℕ) : ℤ)) .exact := by
    simp only [UnpackedFloat.round, targetExponent_eq, decreaseExponent, ha, Nat.shiftLeft_eq]
    congr 1
    omega
  have hlog := log2_mul_pow hpos a
  rw [hround]
  refine unital_roundWithAccuracy (by positivity) ?_ ?_
  · rw [pow_add]
    exact Nat.mul_le_mul_right _ hle
  · omega

/-- One less a number from 0 to 1. -/
theorem unital_normalize {m j : ℕ} (hle : m ≤ 2 ^ j) :
    Unital (normalize .binary32 ((2 ^ j : ℕ) - m : ℤ) (-j) .positive) := by
  obtain ⟨rest, hrest⟩ := Nat.exists_eq_add_of_le hle
  have hdiff : ((2 ^ j : ℕ) : ℤ) - m = rest := by omega
  rw [hdiff, UnpackedFloat.normalize.eq_1]
  rcases Nat.eq_zero_or_pos rest with rfl | hpos
  · exact .zero _
  · rw [Int.compare_eq_gt.mpr (Int.natCast_pos.mpr hpos)]
    exact unital_round hpos (by omega)

theorem Unital.view_ofView {u : UnpackedFloat} (h : Unital u) : view (ofView u) = u := by
  cases h with
  | zero s => exact view_ofView_zero s
  | finite hcanonical _ => exact Single.view_ofView hcanonical _

theorem Unital.isFinite {u : UnpackedFloat} (h : Unital u) : u.isFinite = true := by
  cases h <;> rfl

theorem Unital.sub {u : UnpackedFloat} (h : Unital u) :
    Unital (UnpackedFloat.sub .binary32 (view 1) u) := by
  rw [view_one]
  cases h with
  | zero s => exact .finite (j := 23) (by constructor <;> decide) le_rfl
  | @finite m j hcanonical hle =>
    have hj : 23 ≤ j := by
      obtain ⟨-, -, -, -, hfull⟩ := hcanonical
      by_contra hlt
      have : 2 ^ j < 2 ^ 23 := Nat.pow_lt_pow_right (by decide) (by omega)
      omega
    have hmin : min (-23) (-(j : ℤ)) = -j := by omega
    have hdown : (-23 - -(j : ℤ)).toNat = j - 23 := by omega
    have hone : 2 ^ 23 <<< (j - 23) = 2 ^ j := by
      rw [Nat.shiftLeft_eq, ← pow_add, Nat.add_sub_cancel' hj]
    simp only [UnpackedFloat.sub, decreaseExponent, hmin, hdown, hone, sub_self, Int.toNat_zero,
      Nat.shiftLeft_zero]
    exact unital_normalize hle

theorem Unital.mul {u v : UnpackedFloat} (hu : Unital u) (hv : Unital v) :
    Unital (UnpackedFloat.mul .binary32 u v) := by
  cases hu with
  | zero s =>
    cases hv with
    | zero => exact .zero _
    | finite => exact .zero _
  | @finite m j hm hmj =>
    cases hv with
    | zero => exact .zero _
    | @finite n k hn hnk =>
      have hpos : 0 < m * n := Nat.mul_pos hm.mantissa_pos hn.mantissa_pos
      have hle : m * n ≤ 2 ^ (j + k) := by
        rw [pow_add]
        exact Nat.mul_le_mul hmj hnk
      have hdeep : 23 ≤ (m * n).log2 ∨ 149 ≤ j + k := by
        rcases hm.full with hfull | hleast
        · left
          exact (Nat.le_log2 hpos.ne').mpr (hfull.trans (Nat.le_mul_of_pos_right m hn.mantissa_pos))
        · right
          omega
      -- A product is rounded from where it stands, so it must have bits enough or stand low enough.
      have hround := unital_roundWithAccuracy hpos hle hdeep
      have hexponent : (-(j : ℤ)) + -k = -((j + k : ℕ) : ℤ) := by omega
      simp only [UnpackedFloat.mul, hexponent]
      exact hround

/-- A single from 0 to 1, zeros of either sign among them. -/
structure InUnit (x : Float32) : Prop where
  nonneg : 0 ≤ x
  le_one : x ≤ 1

section InUnit

variable {x y : Float32}

theorem unital_view_iff : Unital (view x) ↔ InUnit x := by
  constructor
  · intro h
    cases hx : view x with rw [hx] at h
    | infinity | notANumber => cases h
    | zero s => exact ⟨le_iff.mpr (by rw [hx]; rfl), le_iff.mpr (by rw [hx]; rfl)⟩
    | finite s m e hm =>
      cases h with
      | @finite m j hcanonical hle =>
        refine ⟨le_iff.mpr (by rw [hx]; rfl), le_iff.mpr ?_⟩
        rw [hx, view_one, finite_le_finite_iff]
        rcases lt_trichotomy j 23 with hlt | rfl | hgt
        · have hsmall : 2 ^ j < 2 ^ 23 := Nat.pow_lt_pow_right (by decide) hlt
          have hfull := hcanonical.full
          omega
        · exact .inr ⟨rfl, hle⟩
        · left
          omega
  · rintro ⟨hzero, hone⟩
    rw [le_iff] at hzero hone
    cases hx : view x with rw [hx] at hzero hone
    | infinity s =>
      cases s with
      | negative => cases hzero
      | positive => cases hone
    | notANumber => cases hzero
    | zero s => exact .zero s
    | finite s m e hm =>
      have hcanonical := canonical_of_view hx
      cases s with
      | negative => cases hzero
      | positive =>
        rw [view_one, finite_le_finite_iff] at hone
        obtain ⟨j, rfl⟩ : ∃ j : ℕ, e = -j := ⟨(-e).toNat, by omega⟩
        refine .finite hcanonical ?_
        rcases hone with hlt | ⟨heq, hle⟩
        · exact hcanonical.mantissa_lt.le.trans (Nat.pow_le_pow_right (by decide) (by omega))
        · obtain rfl : j = 23 := by omega
          exact hle

theorem InUnit.isFinite (h : InUnit x) : x.isFinite = true := (unital_view_iff.mpr h).isFinite

theorem InUnit.one_sub (h : InUnit x) : InUnit (1 - x) := by
  have hsub := (unital_view_iff.mpr h).sub
  rw [← unital_view_iff, sub_eq, hsub.view_ofView]
  exact hsub

theorem InUnit.mul (hx : InUnit x) (hy : InUnit y) : InUnit (x * y) := by
  have hmul := (unital_view_iff.mpr hx).mul (unital_view_iff.mpr hy)
  rw [← unital_view_iff, mul_eq, hmul.view_ofView]
  exact hmul

theorem InUnit.pos (h : InUnit x) (hne : (x == 0) = false) : 0 < x := by
  rcases le_iff_lt_or_beq.mp h.nonneg with hlt | heq
  · exact hlt
  · rw [PartialEquivBEq.symm heq] at hne
    cases hne

theorem inUnit_zero : InUnit 0 := ⟨by decide, by decide⟩

theorem inUnit_one : InUnit 1 := ⟨by decide, by decide⟩

/-! ### Clamping -/

/-- The clamp holds whatever it is given to the interval, infinities and NaN included. -/
theorem inUnit_unitClamp (x : Float32) : InUnit (unitClamp x) := by
  rw [unitClamp]
  split_ifs with hnan hneg hbig
  · exact inUnit_zero
  · exact inUnit_zero
  · exact inUnit_one
  · have hnan := eq_false_of_ne_true hnan
    exact ⟨le_of_not_lt rfl hnan hneg, le_of_not_lt hnan rfl hbig⟩

/-- What is not above 0, and NaN, is held to a zero. -/
theorem unitClamp_beq_zero (h : x ≤ 0 ∨ x.isNaN = true) : (unitClamp x == 0) = true := by
  rcases h with hle | hnan
  · rw [unitClamp, (not_isNaN_of_le hle).1, if_neg Bool.false_ne_true]
    rcases le_iff_lt_or_beq.mp hle with hlt | hzero
    · rw [if_pos hlt]
      rfl
    · obtain ⟨s, hs⟩ := beq_zero_iff.mp hzero
      have hneg : ¬ x < 0 := by
        rw [lt_iff, hs]
        cases s <;> decide
      have hbig : ¬ 1 < x := by
        rw [lt_iff, hs]
        cases s <;> decide
      rw [if_neg hneg, if_neg hbig, hzero]
  · rw [unitClamp, if_pos hnan]
    rfl

/-- What is not below 1 is held to 1. -/
theorem unitClamp_of_one_le (h : 1 ≤ x) : unitClamp x = 1 := by
  rcases le_iff_lt_or_beq.mp h with hlt | hone
  · have hneg : ¬ x < 0 := by
      rw [lt_iff, view_one] at hlt
      rw [lt_iff, view_zero]
      revert hlt
      rcases view x with ⟨_ | _⟩ | _ | _ | ⟨_ | _⟩ <;>
        simp [UnpackedFloat.lt, UnpackedFloat.compare]
    rw [unitClamp, (not_isNaN_of_le h).2, if_neg Bool.false_ne_true, if_neg hneg, if_pos hlt]
  · rw [eq_one_of_beq (PartialEquivBEq.symm hone)]
    decide

/-! ### Scaling -/

theorem one_sub_of_beq_zero (h : (x == 0) = true) : 1 - x = 1 := by
  obtain ⟨s, hs⟩ := beq_zero_iff.mp h
  rw [sub_eq, hs]
  rfl

/-- A zero scaled by a finite number is a zero. -/
theorem mul_beq_zero_of_left (hx : (x == 0) = true) (hy : y.isFinite = true) :
    (x * y == 0) = true := by
  obtain ⟨s, hs⟩ := beq_zero_iff.mp hx
  rw [beq_zero_iff, mul_eq, hs]
  cases hview : view y with rw [isFinite_eq, hview] at hy
  | infinity | notANumber => cases hy
  | zero t | finite t => exact ⟨s * t, view_ofView_zero _⟩

/-- A finite number scaled by a zero is a zero. -/
theorem mul_beq_zero_of_right (hx : x.isFinite = true) (hy : (y == 0) = true) :
    (x * y == 0) = true := by
  obtain ⟨s, hs⟩ := beq_zero_iff.mp hy
  rw [beq_zero_iff, mul_eq, hs]
  cases hview : view x with rw [isFinite_eq, hview] at hx
  | infinity | notANumber => cases hx
  | zero t | finite t => exact ⟨t * s, view_ofView_zero _⟩

/-- Scaling by 1 changes no bit. -/
theorem mul_one (x : Float32) : x * 1 = x := by
  have hsign (s : Sign) : s * .positive = s := by cases s <;> rfl
  have hmul : UnpackedFloat.mul .binary32 (view x) (view 1) = view x := by
    rw [view_one]
    cases hx : view x with
    | notANumber => rfl
    | infinity s | zero s => rw [UnpackedFloat.mul, hsign]
    | finite s m e hm =>
      have hcanonical := canonical_of_view hx
      have hlog : m.log2 < 24 := (Nat.log2_lt hm.ne').mpr hcanonical.mantissa_lt
      have hge := hcanonical.exponent_ge
      have hfull : 23 ≤ m.log2 ∨ e = -149 := hcanonical.full.imp_left (Nat.le_log2 hm.ne').mpr
      have hshift :
          (max ((m * 2 ^ 23).log2 + (e + -23) - 23) (-149) - (e + -23)).toNat = 23 := by
        rw [log2_mul_pow hm]
        omega
      have hexponent : e + -23 + (23 : ℕ) = e := by omega
      have hround := roundWithAccuracy_of_canonical s hshift (by rwa [rounded_mul_pow, hexponent])
      simp only [rounded_mul_pow, hexponent] at hround
      simp only [UnpackedFloat.mul, hsign]
      exact hround
  rw [mul_eq, hmul, ofView_view]

end InUnit

end ShadeTree.Single
