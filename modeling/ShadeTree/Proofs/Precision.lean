import ShadeTree.Proofs.Decimals
import ShadeTree.Proofs.Doubles

/-!
# How near doubles come to the numerals they are read from

A double is not read by rounding the number that a numeral writes: digits that a 64-bit word has no
room for are dropped, the word is rounded to a double, and that is scaled by powers of ten that are
rounded themselves. The parts by which each of these is off add up. The main statement is
`close_of_real?`: what is read comes within a small part of the number (`Close`), or both are too
small for any single to tell them from zero.

One kind of numeral is not read like that: where the exponent is too low to be looked at, the digits
are not looked at either (`Unread`).
-/

namespace ShadeTree

namespace Double

open Float.Model Float.Model.UnpackedFloat

/-- A double comes near to a number, or both are too small to matter. -/
inductive Close (s : Sign) (q : ℚ) (x : Float) : Prop where
  | near {r : ℚ} : Holds s x r → Within (7 / 2 ^ 52) q r → Close s q x
  | small : Below s (-900) (view x) → q < 2 ^ (-800 : ℤ) → Close s q x

section Close

variable {s : Sign} {x : Float} {q : ℚ}

theorem Close.isFinite (h : Close s q x) : x.isFinite = true := by
  rw [isFinite_eq]
  cases h with
  | near hx _ =>
    obtain ⟨m, e, hm, hview, -⟩ := hx
    rw [hview]
    rfl
  | small hx _ => exact hx.isFinite

theorem Close.neg (h : Close s q x) : Close (-s) q (-x) := by
  cases h with
  | near hx hwithin => exact .near hx.neg hwithin
  | small hx hq => exact .small (neg_eq x ▸ hx.neg (by decide) (by decide)) hq

theorem beq_eq (x y : Float) : (x == y) = UnpackedFloat.beq (view x) (view y) := rfl

theorem Holds.ne_zero (hx : Holds s x q) : (x == 0) = false := by
  obtain ⟨m, e, hm, hview, -⟩ := hx
  rw [beq_eq, hview, show view 0 = .zero .positive from rfl]
  cases s <;> rfl

theorem Holds.below (hx : Holds s x q) {g : ℤ} (hlt : q < 2 ^ (53 + g)) : Below s g (view x) := by
  obtain ⟨m, e, hm, hview, hfull, rfl⟩ := hx
  have := exponent_lt ((zpow_le_mul hfull hm).trans_lt hlt)
  exact hview ▸ .finite hm (bounds_of_view hview).1 (by omega)

end Close

end Double

namespace Json.Numeral

open Float.Model Float.Model.UnpackedFloat
open Double (Below Close Holds view)

/-! ### Scaling -/

theorem zpow_le_greatestPower : (2 : ℚ) ^ (1023 : ℤ) ≤ 10 ^ greatestPower := by
  have hle : 2 ^ 1023 ≤ 10 ^ greatestPower := by decide +kernel
  have hcast : ((2 ^ 1023 : ℕ) : ℚ) ≤ (10 ^ greatestPower : ℕ) := Nat.cast_le.mpr hle
  rw [Nat.cast_pow, Nat.cast_pow] at hcast
  exact hcast

theorem le_of_holds_power {k : ℕ} {n : ℕ} {d g : ℤ} (hlt : n < 2 ^ 53)
    (hwithin : Within (1 / 2 ^ 52) (10 ^ k) (n * 2 ^ d)) (hg : (2 : ℚ) ^ g ≤ 10 ^ k) :
    g ≤ 53 + d := by
  have hpow : (0 : ℚ) < 2 ^ g := by positivity
  have hlow := (abs_le.mp hwithin).1
  have hexponent : g - 1 < 53 + d := by
    refine Double.exponent_lt (lt_of_le_of_lt ?_ (Double.mul_lt_zpow hlt))
    rw [zpow_sub_one₀ two_ne_zero]
    linarith
  omega

/-- Dividing by a power of ten does not make a number much larger. -/
theorem below_div_power {x : Float} {g h : ℤ} (hx : Below .positive g (view x)) {k : ℕ}
    (hk : k ≤ 308) {j : ℤ} (hj : (2 : ℚ) ^ j ≤ 10 ^ k) (hlow : -1074 < h) (hhigh : h ≤ 971)
    (hle : g + 1 < h + j) :
    Below .positive h (view (x / power k)) := by
  obtain ⟨p, ⟨n, d, hn, hview, hfull, rfl⟩, hwithin⟩ := Double.exists_holds_power hk
  have hexponent := le_of_holds_power ((Nat.log2_eq_iff hn.ne').mp hfull).2 hwithin hj
  rw [Double.div_eq, hview]
  exact hx.div (t := .positive) hn hlow hhigh (by omega)

theorem below_divide {x : Float} {g : ℤ} (hx : Below .positive g (view x)) (hlow : -1074 < g)
    (hhigh : g ≤ 969) (k : ℕ) : Below .positive (g + 2) (view (divide x k)) := by
  fun_induction divide x k with
  | case1 x k hk =>
    have hone : (2 : ℚ) ^ (0 : ℤ) ≤ 10 ^ k := by
      rw [zpow_zero]
      exact one_le_pow₀ (by norm_num)
    exact below_div_power hx hk hone (by omega) (by omega) (by omega)
  | case2 x k _ _ => exact hx.mono (by omega)
  | case3 x k _ _ ih =>
    exact ih (below_div_power hx le_rfl zpow_le_greatestPower (by omega) (by omega) (by omega))

theorem view_divide_zero {x : Float} (hx : view x = .zero .positive) (k : ℕ) :
    view (divide x k) = .zero .positive := by
  have hdiv {x : Float} (hx : view x = .zero .positive) {k : ℕ} (hk : k ≤ 308) :
      view (x / power k) = .zero .positive := by
    obtain ⟨p, ⟨n, d, hn, hview, -⟩, -⟩ := Double.exists_holds_power hk
    rw [Double.div_eq, hx, hview]
    exact Double.view_ofView_zero .positive
  fun_induction divide x k with
  | case1 x k hk => exact hdiv hx hk
  | case2 => exact hx
  | case3 x k _ _ ih => exact ih (hdiv hx le_rfl)

theorem view_multiply_zero {x y : Float} (hx : view x = .zero .positive) {k : ℕ}
    (h : multiply x k = some y) : view y = .zero .positive := by
  rw [multiply] at h
  dsimp only at h
  split_ifs at h with hk hinf
  · obtain ⟨p, ⟨n, d, hn, hview, -⟩, -⟩ := Double.exists_holds_power hk
    rw [← Option.some.inj h, Double.mul_eq, hx, hview]
    exact Double.view_ofView_zero .positive
  · rw [← Option.some.inj h]
    exact hx

section Near

variable {x y : Float} {p q : ℚ} {k : ℕ} (hx : Holds .positive x q)
  (hwithin : Within (4 / 2 ^ 52) p q) (hp : 0 ≤ p)
include hx hwithin hp

theorem close_divide (hhigh : q < 2 ^ (65 : ℤ)) (k : ℕ) :
    Close .positive (p / 10 ^ k) (divide x k) := by
  have hq := hx.pos
  have hpow : (0 : ℚ) < 10 ^ k := by positivity
  rw [divide]
  split_ifs with hk hzero
  · obtain ⟨r, hr, hpower⟩ := Double.exists_holds_power hk
    have hdiv := hwithin.div hpower hp hpow (by norm_num) (by norm_num) (by norm_num)
    by_cases hbig : (2 : ℚ) ^ (-1000 : ℤ) ≤ q / r
    · have hsmall : q / r < 2 ^ (1000 : ℤ) := by
        have hhalf : 1 / 2 ≤ r := by
          have hone : (1 : ℚ) ≤ 10 ^ k := one_le_pow₀ (by norm_num)
          have := hpower.le_two_mul hpow.le (by norm_num)
          linarith
        calc q / r ≤ q / (1 / 2) := by gcongr
          _ < 2 ^ (66 : ℤ) := by norm_num at hhigh ⊢; linarith
          _ ≤ 2 ^ (1000 : ℤ) := zpow_le_zpow_right₀ one_le_two (by decide)
      obtain ⟨y, hy, hround⟩ := hx.div hr hbig hsmall
      exact .near hy ((hdiv.trans hround (by norm_num)).mono (by positivity) (by norm_num))
    · have hlt := not_le.mp hbig
      have htwo := hdiv.le_two_mul (by positivity) (by norm_num)
      refine .small (hx.below_div (t := .positive) hr (hlt.trans_le ?_) (by decide) (by decide)) ?_
      · exact zpow_le_zpow_right₀ one_le_two (by decide)
      · calc p / 10 ^ k ≤ 2 * (q / r) := htwo
          _ < 2 * 2 ^ (-1000 : ℤ) := by gcongr
          _ = 2 ^ (1 + -1000 : ℤ) := by rw [zpow_add₀ two_ne_zero, zpow_one]
          _ ≤ 2 ^ (-800 : ℤ) := zpow_le_zpow_right₀ one_le_two (by decide)
  · rw [hx.ne_zero] at hzero
    cases hzero
  · have hbelow := below_div_power (h := -1009) (hx.below (g := 12) hhigh) le_rfl
      zpow_le_greatestPower (by decide) (by decide) (by decide)
    refine .small ((below_divide hbelow (by decide) (by decide) _).mono (by decide)) ?_
    have hple := hwithin.le_two_mul hp (by norm_num)
    have hten : (2 : ℚ) ^ (1023 : ℤ) ≤ 10 ^ k :=
      zpow_le_greatestPower.trans (pow_le_pow_right₀ (by norm_num) (by omega))
    calc p / 10 ^ k ≤ 2 * q / 2 ^ (1023 : ℤ) := by gcongr
      _ < 2 * 2 ^ (65 : ℤ) / 2 ^ (1023 : ℤ) := by gcongr
      _ = 2 ^ (1 + 65 - 1023 : ℤ) := by
        rw [zpow_sub₀ two_ne_zero, zpow_add₀ two_ne_zero, zpow_one]
      _ ≤ 2 ^ (-800 : ℤ) := zpow_le_zpow_right₀ one_le_two (by decide)

theorem close_multiply (hlow : 1 / 2 ≤ q) (h : multiply x k = some y) :
    Close .positive (p * 10 ^ k) y := by
  have hone : (1 : ℚ) ≤ 10 ^ k := one_le_pow₀ (by norm_num)
  rw [multiply] at h
  dsimp only at h
  split_ifs at h with hk hinf hzero
  · obtain ⟨r, hr, hpower⟩ := Double.exists_holds_power hk
    have hmul := hwithin.mul hpower hp (by positivity) (by norm_num)
    have hhalf := hpower.le_two_mul (by positivity) (by norm_num)
    have hnormal : (2 : ℚ) ^ (-1022 : ℤ) ≤ q * r := by
      calc (2 : ℚ) ^ (-1022 : ℤ) ≤ 2 ^ (-2 : ℤ) := zpow_le_zpow_right₀ one_le_two (by decide)
        _ = 1 / 2 * (1 / 2) := by norm_num
        _ ≤ q * r := by gcongr; linarith
    obtain ⟨y', hy, hround⟩ := hx.mul hr hnormal (.inr (by simpa using hinf))
    rw [← Option.some.inj h]
    exact .near hy ((hmul.trans hround (by norm_num)).mono (by positivity) (by norm_num))
  · rw [hx.ne_zero] at hzero
    cases hzero

end Near

/-- A word comes near to the numbers that it is near to itself, scaled. -/
theorem close_scale {word : ℕ} (hlt : word < wordSize) {p : ℚ} (hp : 0 ≤ p)
    (hword : Within (1 / 2 ^ 60) p word) {e : ℤ} {y : Float} (h : scale (.ofNat word) e = some y) :
    Close .positive (p * 10 ^ e) y := by
  rw [scale] at h
  rcases Nat.eq_zero_or_pos word with rfl | hpos
  · have hzero : view (.ofNat 0) = .zero .positive := rfl
    obtain rfl : p = 0 := by
      have htwo := hword.le_two_mul hp (by norm_num)
      rw [Nat.cast_zero, mul_zero] at htwo
      exact le_antisymm htwo hp
    have hview : view y = .zero .positive := by
      split_ifs at h
      · rw [← Option.some.inj h]
        exact view_divide_zero hzero _
      · exact view_multiply_zero hzero h
    refine .small (hview ▸ .zero) ?_
    rw [zero_mul]
    positivity
  · obtain ⟨q, hq, hround⟩ := Double.exists_holds_ofNat hpos hlt
    have hwithin : Within (4 / 2 ^ 52) p q :=
      (hword.trans hround (by norm_num)).mono hp (by norm_num)
    have hone : (1 : ℚ) ≤ word := by exact_mod_cast hpos
    have hsize : (word : ℚ) ≤ 18446744073709551616 := by exact_mod_cast hlt.le
    obtain ⟨hlow, hhigh⟩ := abs_le.mp hround
    split_ifs at h with he
    · obtain ⟨k, hk⟩ := Int.eq_ofNat_of_zero_le (show 0 ≤ -e by omega)
      obtain rfl : e = -k := by omega
      rw [← Option.some.inj h, zpow_neg, zpow_natCast, ← div_eq_mul_inv, Int.natAbs_neg,
        Int.natAbs_natCast]
      exact close_divide hq hwithin hp (by norm_num; linarith) k
    · obtain ⟨k, rfl⟩ := Int.eq_ofNat_of_zero_le (not_lt.mp he)
      rw [zpow_natCast]
      exact close_multiply hq hwithin hp (by linarith) h

/-! ### Digits that a word has no room for -/

/-- Digits are taken into a word one by one; the first that does not fit finds the word almost full.
-/
theorem exists_take {ds : List Char} (hds : ∀ c ∈ ds, c.isDigit = true) (before : List Char) :
    ∃ taken, ds = taken ++ (take (Token.natural before) ds).2 ∧
      (take (Token.natural before) ds).1 = Token.natural (before ++ taken) ∧
      ((take (Token.natural before) ds).2 = [] ∨
        wordSize ≤ 10 * (take (Token.natural before) ds).1 + 9) := by
  induction ds generalizing before with
  | nil => exact ⟨[], rfl, by rw [List.append_nil]; rfl, .inl rfl⟩
  | cons d ds ih =>
    rw [List.forall_mem_cons] at hds
    have hmore : 10 * Token.natural before + Token.natural [d] = Token.natural (before ++ [d]) := by
      rw [Token.natural_append, List.length_singleton, pow_one, mul_comm]
    rw [take]
    split_ifs with hfits
    · rw [hmore]
      obtain ⟨taken, hsplit, hword, hrest⟩ := ih hds.2 (before ++ [d])
      exact ⟨d :: taken, congrArg (d :: ·) hsplit, by rw [hword]; simp, hrest⟩
    · have hd := Token.natural_singleton_lt hds.1
      exact ⟨[], rfl, by rw [List.append_nil], .inr (by dsimp only; omega)⟩

theorem take_lt (ds : List Char) {word : ℕ} (h : word < wordSize) :
    (take word ds).1 < wordSize := by
  induction ds generalizing word with
  | nil => exact h
  | cons d ds ih =>
    rw [take]
    split_ifs with hmore
    · exact ih hmore
    · exact h

/-- Digits that follow others stay within one step of them. -/
theorem natural_append_bounds (ds fs : List Char) (hfs : ∀ c ∈ fs, c.isDigit = true) (k : ℤ) :
    (Token.natural ds : ℚ) * 10 ^ k ≤ Token.natural (ds ++ fs) * 10 ^ (k - fs.length) ∧
      (Token.natural (ds ++ fs) : ℚ) * 10 ^ (k - fs.length) < (Token.natural ds + 1) * 10 ^ k := by
  have hlt : (Token.natural fs : ℚ) < 10 ^ fs.length := by exact_mod_cast Token.natural_lt hfs
  have hpow : (0 : ℚ) < 10 ^ (k - fs.length) := by positivity
  have hsplit : (10 : ℚ) ^ k = 10 ^ fs.length * 10 ^ (k - fs.length) := by
    rw [← zpow_natCast, ← zpow_add₀ (by norm_num)]
    congr 1
    ring
  rw [Token.natural_append, hsplit, ← mul_assoc, ← mul_assoc]
  push_cast
  constructor
  · gcongr
    exact le_add_of_nonneg_right (by positivity)
  · gcongr
    linarith

/-- Two numbers within one step are near to each other when the steps are many. -/
theorem within_of_step {w u p q : ℚ} (hw : 2 ^ 60 ≤ w) (hu : 0 < u) (hp : w * u ≤ p)
    (hp' : p < (w + 1) * u) (hq : w * u ≤ q) (hq' : q < (w + 1) * u) : Within (1 / 2 ^ 60) p q := by
  have hstep : |q - p| ≤ u := by
    rw [abs_le]
    constructor <;> linarith
  calc |q - p| ≤ 1 / 2 ^ 60 * (2 ^ 60 * u) := by rw [← mul_assoc]; norm_num; exact hstep
    _ ≤ 1 / 2 ^ 60 * (w * u) := by gcongr
    _ ≤ 1 / 2 ^ 60 * p := by gcongr

/-- The word and the place where its digits end make up the number that is written, but for the
digits that the word has no room for. A digit after the point may still find room where one before
it did not. -/
theorem within_word {whole fraction : List Char} (hwhole : ∀ c ∈ whole, c.isDigit = true)
    (hfraction : ∀ c ∈ fraction, c.isDigit = true) :
    Within (1 / 2 ^ 60) (Token.natural (whole ++ fraction) * 10 ^ (-fraction.length : ℤ))
      ((take (take 0 whole).1 fraction).1 * 10 ^ (((take 0 whole).2.length : ℤ) -
        (fraction.length - (take (take 0 whole).1 fraction).2.length : ℕ))) := by
  obtain ⟨t, hsplit, hword, hleft⟩ := exists_take hwhole []
  rw [show Token.natural [] = 0 from rfl] at hsplit hword hleft
  rw [List.nil_append] at hword
  rw [hword] at hleft ⊢
  generalize (take 0 whole).2 = left at hsplit hleft ⊢
  obtain ⟨t', hsplit', hword', hleft'⟩ := exists_take hfraction t
  rw [hword'] at hleft' ⊢
  generalize (take (Token.natural t) fraction).2 = left' at hsplit' hleft' ⊢
  have hpow (k : ℤ) : (0 : ℚ) < 10 ^ k := by positivity
  have hcount : ((fraction.length - left'.length : ℕ) : ℤ) = t'.length := by
    rw [hsplit', List.length_append]
    omega
  rw [hcount]
  rcases hleft with rfl | hfull
  · rw [List.append_nil] at hsplit
    have hbounds := natural_append_bounds (t ++ t') left'
      (fun c hc => hfraction c (hsplit' ▸ List.mem_append_right _ hc)) (-t'.length)
    have hdigits : whole ++ fraction = t ++ t' ++ left' := by
      rw [hsplit, hsplit', List.append_assoc]
    have hlength : (-fraction.length : ℤ) = -t'.length - left'.length := by
      rw [hsplit', List.length_append]
      push_cast
      ring
    rw [hdigits, hlength, List.length_nil, Nat.cast_zero, zero_sub]
    rcases hleft' with rfl | hfull
    · rw [List.append_nil, List.length_nil, Nat.cast_zero, sub_zero, Within, sub_self, abs_zero]
      positivity
    · have hw : (2 : ℚ) ^ 60 ≤ Token.natural (t ++ t') := by
        exact_mod_cast (by rw [wordSize, UInt64.size] at hfull; omega :
          2 ^ 60 ≤ Token.natural (t ++ t'))
      exact within_of_step hw (hpow _) hbounds.1 hbounds.2 le_rfl (by gcongr; exact lt_add_one _)
  · have hw : (2 : ℚ) ^ 60 ≤ Token.natural t := by
      exact_mod_cast (by rw [wordSize, UInt64.size] at hfull; omega : 2 ^ 60 ≤ Token.natural t)
    have hdigits : ∀ c ∈ left ++ fraction, c.isDigit = true :=
      List.forall_mem_append.mpr
        ⟨fun c hc => hwhole c (hsplit ▸ List.mem_append_right _ hc), hfraction⟩
    have hbounds := natural_append_bounds t (left ++ fraction) hdigits left.length
    have hbounds' := natural_append_bounds t t'
      (fun c hc => hfraction c (hsplit' ▸ List.mem_append_left _ hc)) left.length
    have hlength : (left.length : ℤ) - (left ++ fraction).length = -fraction.length := by
      rw [List.length_append]
      push_cast
      ring
    rw [hlength, ← List.append_assoc, ← hsplit] at hbounds
    exact within_of_step hw (hpow _) hbounds.1 hbounds.2 hbounds'.1 hbounds'.2

/-! ### The number that is written -/

/-- The parts of a numeral before and after the point are digits. -/
structure OfDigits (n : Numeral) : Prop where
  whole : ∀ c ∈ n.whole, c.isDigit = true
  fraction : ∀ c ∈ n.fraction, c.isDigit = true

/-- The exponent that a numeral writes. -/
def scaling (n : Numeral) : ℤ :=
  match n.exponent with
  | none => 0
  | some (negative, ds) => if negative then -(Token.natural ds : ℤ) else Token.natural ds

/-- The number that a numeral writes, but for its sign. -/
def size (n : Numeral) : ℚ :=
  Token.natural (n.whole ++ n.fraction) * 10 ^ (n.scaling - n.fraction.length)

/-- A numeral has an exponent that is too low to be looked at, and so many digits that the number
need not be small for that. -/
def Unread (n : Numeral) : Prop :=
  (∃ ds, n.exponent = some (true, ds) ∧ greatestExponent < Token.natural ds) ∧
    greatestExponent < n.whole.length + 250

section Numeral

variable {n : Numeral} {x : Float}

theorem size_nonneg (n : Numeral) : 0 ≤ n.size := by
  rw [size]
  positivity

/-- A number whose exponent takes away more than its digits make up is too small to matter. -/
theorem size_lt (hn : n.OfDigits) {k : ℕ} (hk : n.scaling = -k) (hlong : n.whole.length + 250 ≤ k) :
    n.size < 2 ^ (-800 : ℤ) := by
  have hdigits : ((Token.natural (n.whole ++ n.fraction) : ℕ) : ℚ) <
      10 ^ (n.whole ++ n.fraction).length := by
    exact_mod_cast Token.natural_lt (List.forall_mem_append.mpr ⟨hn.whole, hn.fraction⟩)
  have hpower : (10 : ℚ) ^ (-250 : ℤ) ≤ 2 ^ (-800 : ℤ) := by
    rw [show (-250 : ℤ) = -5 * (50 : ℕ) from rfl, show (-800 : ℤ) = -16 * (50 : ℕ) from rfl,
      zpow_mul, zpow_mul, zpow_natCast, zpow_natCast]
    gcongr
    norm_num
  calc n.size < 10 ^ (n.whole ++ n.fraction).length * 10 ^ (n.scaling - n.fraction.length) := by
        rw [size]
        gcongr
    _ = 10 ^ ((n.whole.length : ℤ) - k) := by
        rw [← zpow_natCast, ← zpow_add₀ (by norm_num), hk, List.length_append]
        congr 1
        push_cast
        ring
    _ ≤ 10 ^ (-250 : ℤ) := zpow_le_zpow_right₀ (by norm_num) (by omega)
    _ ≤ 2 ^ (-800 : ℤ) := hpower

theorem close_of_scale (hn : n.OfDigits) {e : ℤ} (he : e = (take 0 n.whole).2.length -
      (n.fraction.length - (take (take 0 n.whole).1 n.fraction).2.length : ℕ) + n.scaling)
    (h : scale (.ofNat (take (take 0 n.whole).1 n.fraction).1) e = some x) :
    Close .positive n.size x := by
  have hword := within_word hn.whole hn.fraction
  have hlt : (take (take 0 n.whole).1 n.fraction).1 < wordSize :=
    take_lt n.fraction (take_lt n.whole (by decide))
  generalize (take (take 0 n.whole).1 n.fraction).1 = word at hword hlt h
  generalize ((take 0 n.whole).2.length : ℤ) -
    (n.fraction.length - (take (take 0 n.whole).1 n.fraction).2.length : ℕ) = shift at hword he
  have hback := hword.mul_right (p := 10 ^ (-shift)) (by positivity)
  rw [mul_assoc (word : ℚ), ← zpow_add₀ (by norm_num), add_neg_cancel, zpow_zero, mul_one] at hback
  have hclose := close_scale hlt (by positivity) hback h
  have hsize : (Token.natural (n.whole ++ n.fraction) : ℚ) * 10 ^ (-n.fraction.length : ℤ) *
      10 ^ (-shift) * 10 ^ e = n.size := by
    rw [size, mul_assoc, mul_assoc, ← zpow_add₀ (by norm_num), ← zpow_add₀ (by norm_num), he]
    congr 2
    ring
  rwa [hsize] at hclose

theorem close_of_magnitude (hn : n.OfDigits) (h : n.magnitude = some x) :
    Close .positive n.size x ∨ n.Unread ∧ view x = .zero .positive := by
  have hscale {e : ℤ} := close_of_scale hn (x := x) (e := e)
  rw [magnitude] at h
  cases hexponent : n.exponent with rw [hexponent] at h
  | none =>
    have hscaling : n.scaling = 0 := by rw [scaling, hexponent]
    exact .inl (hscale (by rw [hscaling, add_zero]) h)
  | some exponent =>
    obtain ⟨negative, ds⟩ := exponent
    have hscaling : n.scaling = if negative then -(Token.natural ds : ℤ) else Token.natural ds := by
      rw [scaling, hexponent]
    dsimp only at h
    split_ifs at h with hbig hzero hnegative
    · have hview : view x = .zero .positive := by rw [← Option.some.inj h]; rfl
      cases negative with
      | true =>
        by_cases hlong : n.whole.length + 250 ≤ Token.natural ds
        · exact .inl (.small (hview ▸ .zero) (size_lt hn hscaling hlong))
        · exact .inr ⟨⟨⟨ds, hexponent, hbig⟩, by omega⟩, hview⟩
      | false =>
        have hword := within_word hn.whole hn.fraction
        rw [Bool.false_or, beq_iff_eq] at hzero
        rw [hzero, Nat.cast_zero, zero_mul] at hword
        have hsize : n.size ≤ 0 := by
          have htwo := hword.le_two_mul (by positivity) (by norm_num)
          rw [mul_zero] at htwo
          have hnatural := nonpos_of_mul_nonpos_left htwo (by positivity)
          exact mul_nonpos_of_nonpos_of_nonneg hnatural (by positivity)
        exact .inl (.small (hview ▸ .zero) (hsize.trans_lt (by positivity)))
    · exact .inl (hscale (by rw [hscaling, if_pos hnegative]; ring) h)
    · exact .inl (hscale (by rw [hscaling, if_neg hnegative]) h)

/-- **Doubles come near to the numerals they are read from**, and take their sign. -/
theorem close_of_real? (hn : n.OfDigits) (h : n.real? = some (.real x)) :
    Close (Token.signOf n.negative) n.size x ∨
      n.Unread ∧ view x = .zero (Token.signOf n.negative) := by
  obtain ⟨y, hy, hx⟩ := Option.map_eq_some_iff.mp h
  rw [Number.real.injEq] at hx
  rw [← hx]
  refine (close_of_magnitude hn hy).imp (fun hclose => ?_) fun hunread => ⟨hunread.1, ?_⟩
  · cases n.negative with
    | false => exact hclose
    | true => exact hclose.neg
  · cases n.negative with
    | false => exact hunread.2
    | true =>
      rw [if_pos rfl, Double.neg_eq, hunread.2]
      exact Double.view_ofView_zero .negative

/-- Whatever the characters of a numeral are, its word comes near to something when it is scaled. -/
theorem exists_close_of_magnitude (h : n.magnitude = some x) : ∃ q, Close .positive q x := by
  have hscale {e : ℤ} (h : scale (.ofNat (take (take 0 n.whole).1 n.fraction).1) e = some x) :
      ∃ q, Close .positive q x := by
    have hlt := take_lt n.fraction (take_lt n.whole (show 0 < wordSize by decide))
    generalize (take (take 0 n.whole).1 n.fraction).1 = word at hlt h
    have hword : Within (1 / 2 ^ 60) word word := by
      rw [Within, sub_self, abs_zero]
      positivity
    exact ⟨_, close_scale hlt (Nat.cast_nonneg word) hword h⟩
  rw [magnitude] at h
  cases hexponent : n.exponent with rw [hexponent] at h
  | none => exact hscale h
  | some exponent =>
    dsimp only at h
    split_ifs at h
    · have hview : view x = .zero .positive := by rw [← Option.some.inj h]; rfl
      exact ⟨0, .small (hview ▸ .zero) (by positivity)⟩
    · exact hscale h
    · exact hscale h

/-- No numeral is read as an infinity or NaN. -/
theorem isFinite_of_real? (h : n.real? = some (.real x)) : x.isFinite = true := by
  obtain ⟨y, hy, hx⟩ := Option.map_eq_some_iff.mp h
  obtain ⟨q, hclose⟩ := exists_close_of_magnitude hy
  rw [← Number.real.inj hx]
  split_ifs
  · exact hclose.neg.isFinite
  · exact hclose.isFinite

end Numeral

end Json.Numeral

end ShadeTree
