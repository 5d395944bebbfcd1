import ShadeTree.Description.Literal
import ShadeTree.Json.Written
import ShadeTree.Proofs.Precision
import ShadeTree.Proofs.Scanning

/-!
# Numbers printed and read again

A literal of a document is printed and then read as a tuple. The printer lays numbers out in five
ways, the reader goes by its own grammar, and neither knows of the other. What is proved here is
that they fit: the text of every finite number is one numeral to its end (`exists_writes`), so that
the text of a literal made of numbers is a clean tuple of them (`ofText_text`). What is read from a
document is made of finite numbers (`Spells.isFinite`).
-/

namespace ShadeTree

/-! ### Printed numbers -/

namespace Token

/-- A text is a numeral, of a number with a minus or without one. -/
inductive Writes : List Char → Bool → ℚ → Prop where
  | mk {s m x whole fraction : List Char} {negative : Bool} {e : ℤ} : Signed s negative →
      Mantissa m whole fraction → Exponent x e →
        Writes (s ++ (m ++ x)) negative (natural (whole ++ fraction) * 10 ^ (e - fraction.length))

section Writes

variable {text : List Char} {negative : Bool} {q : ℚ}

/-- The value of a numeral is the single nearest to the number. -/
theorem Writes.numeral (h : Writes text negative q) :
    Numeral text (Single.ofView (Single.near (signOf negative) q)) := by
  cases h with
  | mk hs hm hx =>
    rw [← nearest_eq]
    exact .mk hs hm hx

theorem Writes.nonneg (h : Writes text negative q) : 0 ≤ q := by
  cases h with
  | mk => positivity

theorem Writes.isNumeral (h : Writes text negative q) : IsNumeral text := ⟨_, h.numeral⟩

theorem Writes.ne_nil (h : Writes text negative q) : text ≠ [] := by
  rintro rfl
  exact not_isNumeral_nil h.isNumeral

theorem Digits.not_isBlank {ds : List Char} (h : Digits ds) : ∀ c ∈ ds, isBlank c = false := by
  intro c hc
  have hdigit := h.isDigit c hc
  by_contra hblank
  simp only [isBlank, Bool.not_eq_false, Bool.or_eq_true, decide_eq_true_eq] at hblank
  rcases hblank with (((rfl | rfl) | rfl) | rfl) | rfl <;> cases hdigit

/-- No part of a numeral is a blank. -/
theorem Writes.not_isBlank (h : Writes text negative q) : ∀ c ∈ text, isBlank c = false := by
  cases h with
  | mk hs hm hx =>
    have hsign : ∀ {s : List Char} {negative : Bool}, Signed s negative →
        ∀ c ∈ s, isBlank c = false := by
      intro s negative hs
      cases hs with
      | none => simp
      | plus => exact List.forall_mem_singleton.mpr rfl
      | minus => exact List.forall_mem_singleton.mpr rfl
    simp only [List.forall_mem_append]
    refine ⟨hsign hs, ?_, ?_⟩
    · cases hm with
      | whole hds => exact hds.not_isBlank
      | pointed hds =>
        exact List.forall_mem_append.mpr
          ⟨hds.not_isBlank, List.forall_mem_singleton.mpr rfl⟩
      | both hds hfs =>
        exact List.forall_mem_append.mpr
          ⟨hds.not_isBlank, List.forall_mem_cons.mpr ⟨rfl, hfs.not_isBlank⟩⟩
      | fraction hfs => exact List.forall_mem_cons.mpr ⟨rfl, hfs.not_isBlank⟩
    · cases hx with
      | none => simp
      | some he hs hds =>
        refine List.forall_mem_cons.mpr ⟨?_, List.forall_mem_append.mpr ⟨hsign hs, hds.not_isBlank⟩⟩
        rcases he with rfl | rfl <;> rfl

end Writes

theorem digits_toDigits (n : ℕ) : Digits (Nat.toDigits 10 n) :=
  ⟨Nat.toDigits_ne_nil, fun _ hc => Nat.isDigit_of_mem_toDigits (by decide) (by decide) hc⟩

theorem Digits.append {ds fs : List Char} (hds : Digits ds) (hfs : ∀ c ∈ fs, c.isDigit = true) :
    Digits (ds ++ fs) :=
  ⟨by simp [hds.ne_nil], List.forall_mem_append.mpr ⟨hds.isDigit, hfs⟩⟩

theorem Digits.take {ds : List Char} (hds : Digits ds) {n : ℕ} (hn : 0 < n) : Digits (ds.take n) :=
  ⟨by simp [hds.ne_nil, hn.ne'], fun c hc => hds.isDigit c (List.mem_of_mem_take hc)⟩

theorem Digits.drop {ds : List Char} (hds : Digits ds) {n : ℕ} (hn : n < ds.length) :
    Digits (ds.drop n) :=
  ⟨by simpa using hn, fun c hc => hds.isDigit c (List.mem_of_mem_drop hc)⟩

theorem isDigit_replicate (n : ℕ) : ∀ c ∈ List.replicate n '0', c.isDigit = true := by
  intro c hc
  rw [List.eq_of_mem_replicate hc]
  rfl

theorem natural_toDigits (n : ℕ) : natural (Nat.toDigits 10 n) = n := Nat.ofDigitChars_ten_toDigits

theorem natural_replicate (n : ℕ) : natural (List.replicate n '0') = 0 := by
  have h : natural (List.replicate n '0') = 10 ^ n * 0 := Nat.ofDigitChars_replicate_zero
  rw [h, mul_zero]

/-- An exponent that is written with its sign. -/
theorem exponent_toDigits (k : ℤ) :
    Exponent ('e' :: ([if k < 0 then '-' else '+'] ++ Nat.toDigits 10 k.natAbs)) k := by
  have hsign : Signed [if k < 0 then '-' else '+'] (decide (k < 0)) := by
    split_ifs with hneg
    · rw [decide_eq_true hneg]
      exact .minus
    · rw [decide_eq_false hneg]
      exact .plus
  have hk : (if decide (k < 0) then -(natural (Nat.toDigits 10 k.natAbs) : ℤ)
      else (natural (Nat.toDigits 10 k.natAbs) : ℤ)) = k := by
    rw [natural_toDigits]
    split_ifs with hneg <;> rw [decide_eq_true_eq] at hneg <;> omega
  have hexponent := Exponent.some (.inl rfl) hsign (digits_toDigits k.natAbs)
  rwa [hk] at hexponent

end Token

namespace Shortest

open Float.Model.UnpackedFloat (Sign)
open Token

/-! ### The layout -/

/-- However digits are laid out, it is a mantissa and an exponent, of the number that the digits and
the place of the point give. -/
theorem exists_layOut (style : Spelling) {ds : List Char} (hds : Digits ds) (point : ℤ) :
    ∃ m x whole fraction e, style.layOut ds point = m ++ x ∧ Mantissa m whole fraction ∧
      Exponent x e ∧ (natural (whole ++ fraction) : ℚ) * 10 ^ (e - fraction.length) =
        natural ds * 10 ^ (point - ds.length) := by
  have hlength : 0 < ds.length := List.length_pos_iff.mpr hds.ne_nil
  have hzero : Digits ['0'] := digits_toDigits 0
  have hzero' : natural ['0'] = 0 := rfl
  rw [Spelling.layOut]
  dsimp only
  by_cases hpositional : style.positionalFrom ≤ point - 1 ∧ point - 1 < style.positionalBelow
  · rw [if_pos hpositional]
    split_ifs with hpoint hshort
    · have hfraction : Digits (List.replicate (-point).toNat '0' ++ ds) :=
        ⟨by simp [hds.ne_nil], List.forall_mem_append.mpr ⟨isDigit_replicate _, hds.isDigit⟩⟩
      refine ⟨_, [], _, _, _, (List.append_nil _).symm, .both hzero hfraction, .none, ?_⟩
      rw [natural_append, hzero', zero_mul, zero_add, natural_append, natural_replicate, zero_mul,
        zero_add, List.length_append, List.length_replicate]
      congr 2
      push_cast
      omega
    · refine ⟨_, [], _, _, _, (List.append_nil _).symm,
        .both (hds.append (isDigit_replicate _)) hzero, .none, ?_⟩
      obtain ⟨k, hk⟩ := Int.eq_ofNat_of_zero_le (show 0 ≤ point - ds.length by omega)
      have hcount : point.toNat - ds.length = k := by omega
      rw [natural_append, hzero', add_zero, natural_append, natural_replicate, add_zero,
        List.length_replicate, hcount, hk, List.length_singleton, zpow_natCast]
      push_cast
      norm_num
      ring
    · refine ⟨_, [], _, _, _, (List.append_nil _).symm,
        .both (hds.take (by omega)) (hds.drop (by omega)), .none, ?_⟩
      rw [List.take_append_drop, List.length_drop]
      congr 2
      omega
  · rw [if_neg hpositional]
    have hexponent := exponent_toDigits (point - 1)
    have hfirst : Digits (ds.take 1) := hds.take one_pos
    have hnumber : (natural (ds.take 1 ++ ds.drop 1) : ℚ) *
        10 ^ (point - 1 - (ds.drop 1).length) = natural ds * 10 ^ (point - ds.length) := by
      rw [List.take_append_drop, List.length_drop]
      congr 2
      omega
    cases hrest : ds.drop 1 with
    | nil =>
      rw [hrest] at hnumber
      exact ⟨_, _, _, _, _, rfl, by simpa using .whole hfirst, hexponent, hnumber⟩
    | cons d rest =>
      have hlonger : 1 < ds.length := by
        have hdrop := congrArg List.length hrest
        rw [List.length_drop, List.length_cons] at hdrop
        omega
      rw [hrest] at hnumber
      exact ⟨_, _, _, _, _, rfl, .both hfirst (hrest ▸ hds.drop hlonger), hexponent, hnumber⟩

/-! ### The shortest decimal -/

/-- The number that a decimal stands for. -/
def Decimal.number (d : Decimal) : ℚ := d.digits * 10 ^ d.exponent

theorem pow_toNat {a : ℚ} (ha : a ≠ 0) (e : ℤ) : a ^ e.toNat = a ^ e * a ^ (-e).toNat := by
  rw [← zpow_natCast, ← zpow_natCast, ← zpow_add₀ ha]
  congr 1
  omega

section Interval

variable {m : ℕ} {e : ℤ} {d : Decimal}

/-- A bound of an interval and a decimal, over one denominator. -/
theorem le_iff_scaled {a : ℕ} :
    (a * (1 <<< (e - 2).toNat) * tenTo (-d.exponent).toNat ≤
        d.digits * tenTo d.exponent.toNat * (1 <<< (2 - e).toNat) ↔ a * 2 ^ (e - 2) ≤ d.number) ∧
      (d.digits * tenTo d.exponent.toNat * (1 <<< (2 - e).toNat) ≤
        a * (1 <<< (e - 2).toNat) * tenTo (-d.exponent).toNat ↔ d.number ≤ a * 2 ^ (e - 2)) := by
  have hpos : (0 : ℚ) < 10 ^ (-d.exponent).toNat * 2 ^ (2 - e).toNat := by positivity
  have hscale := pow_toNat (two_ne_zero : (2 : ℚ) ≠ 0) (e - 2)
  rw [neg_sub] at hscale
  have hbound : ((a * (1 <<< (e - 2).toNat) * tenTo (-d.exponent).toNat : ℕ) : ℚ) =
      a * 2 ^ (e - 2) * (10 ^ (-d.exponent).toNat * 2 ^ (2 - e).toNat) := by
    simp only [tenTo, Nat.pow_eq, Nat.one_shiftLeft]
    push_cast
    rw [hscale]
    ring
  have hnumber : ((d.digits * tenTo d.exponent.toNat * (1 <<< (2 - e).toNat) : ℕ) : ℚ) =
      d.number * (10 ^ (-d.exponent).toNat * 2 ^ (2 - e).toNat) := by
    simp only [tenTo, Nat.pow_eq, Nat.one_shiftLeft]
    push_cast
    rw [pow_toNat (by norm_num : (10 : ℚ) ≠ 0) d.exponent, Decimal.number]
    ring
  rw [← Nat.cast_le (α := ℚ), ← Nat.cast_le (α := ℚ), hbound, hnumber,
    mul_le_mul_iff_of_pos_right hpos, mul_le_mul_iff_of_pos_right hpos]
  exact ⟨Iff.rfl, Iff.rfl⟩

theorem Interval.le_of_holds {i : Interval} (h : i.holds d = true) :
    i.low * tenTo (-d.exponent).toNat ≤ d.digits * tenTo d.exponent.toNat * i.denominator ∧
      d.digits * tenTo d.exponent.toNat * i.denominator ≤ i.high * tenTo (-d.exponent).toNat := by
  simp only [holds] at h
  cases hclosed : i.closed <;>
    simp only [hclosed, if_true, if_false, Bool.false_eq_true, Bool.and_eq_true,
      decide_eq_true_eq] at h
  · exact ⟨h.1.le, h.2.le⟩
  · exact h

theorem Interval.holds_of_lt {i : Interval}
    (hlow : i.low * tenTo (-d.exponent).toNat < d.digits * tenTo d.exponent.toNat * i.denominator)
    (hhigh : d.digits * tenTo d.exponent.toNat * i.denominator <
      i.high * tenTo (-d.exponent).toNat) :
    i.holds d = true := by
  simp only [holds]
  cases i.closed <;>
    simp only [if_true, if_false, Bool.false_eq_true, Bool.and_eq_true, decide_eq_true_eq]
  · exact ⟨hlow, hhigh⟩
  · exact ⟨hlow.le, hhigh.le⟩

theorem low_eq (m : ℕ) (e : ℤ) :
    ∃ step, 1 ≤ step ∧ step ≤ 2 ∧ (interval m e).low = (4 * m - step) * (1 <<< (e - 2).toNat) :=
  ⟨if m = 1 <<< 52 ∧ -1074 < e then 1 else 2, by split_ifs <;> omega, by split_ifs <;> omega, rfl⟩

/-- A decimal in the interval of a double is off it by half a step at the most. -/
theorem abs_sub_le_of_holds (hm : 0 < m) (h : (interval m e).holds d = true) :
    |d.number - m * 2 ^ e| ≤ 2 ^ (e - 1) := by
  obtain ⟨hlow, hhigh⟩ := Interval.le_of_holds h
  obtain ⟨step, hone, htwo, hstep⟩ := low_eq m e
  rw [hstep] at hlow
  have hlow := le_iff_scaled.1.mp hlow
  have hhigh : d.number ≤ ((4 * m + 2 : ℕ) : ℚ) * 2 ^ (e - 2) := le_iff_scaled.2.mp hhigh
  have hquarter : (2 : ℚ) ^ e = 4 * 2 ^ (e - 2) ∧ (2 : ℚ) ^ (e - 1) = 2 * 2 ^ (e - 2) := by
    rw [zpow_sub₀ two_ne_zero, zpow_sub₀ two_ne_zero]
    constructor <;> norm_num <;> ring
  have hstep' : (4 * m - 2 : ℚ) * 2 ^ (e - 2) ≤ ((4 * m - step : ℕ) : ℚ) * 2 ^ (e - 2) := by
    gcongr
    rw [Nat.cast_sub (by omega)]
    push_cast
    have : (step : ℚ) ≤ 2 := by exact_mod_cast htwo
    linarith
  push_cast at hhigh
  rw [hquarter.1, hquarter.2, abs_le]
  constructor <;> linarith

/-- A decimal not above a double, and less than a quarter of a step below it, is in its interval. -/
theorem holds_of_le (hm : 0 < m) (hle : d.number ≤ m * 2 ^ e)
    (hlt : m * 2 ^ e - 2 ^ (e - 2) < d.number) : (interval m e).holds d = true := by
  have hpow : (0 : ℚ) < 2 ^ (e - 2) := by positivity
  have hquarter : (2 : ℚ) ^ e = 4 * 2 ^ (e - 2) := by
    rw [zpow_sub₀ two_ne_zero]
    norm_num
    ring
  obtain ⟨step, hone, htwo, hstep⟩ := low_eq m e
  rw [hquarter] at hle hlt
  refine Interval.holds_of_lt ?_ ?_
  · rw [hstep]
    refine not_le.mp fun h => absurd (le_iff_scaled.2.mp h) (not_le.mpr (lt_of_le_of_lt ?_ hlt))
    have : (1 : ℚ) ≤ step := by exact_mod_cast hone
    rw [Nat.cast_sub (by omega)]
    push_cast
    nlinarith
  · refine not_le.mp fun h => absurd (le_iff_scaled.1.mp h) (not_le.mpr (lt_of_le_of_lt hle ?_))
    push_cast
    nlinarith

theorem holds_of_nearest {i : Interval} {g : ℤ} (h : i.nearest g = some d) : i.holds d = true := by
  simp only [Interval.nearest] at h
  split at h
  · rename_i hbelow habove
    split at h
    · exact Option.some.inj h ▸ hbelow
    · exact Option.some.inj h ▸ habove
    · split_ifs at h
      · exact Option.some.inj h ▸ hbelow
      · exact Option.some.inj h ▸ habove
  · rename_i hbelow _
    exact Option.some.inj h ▸ hbelow
  · rename_i _ habove
    exact Option.some.inj h ▸ habove
  · cases h

/-- A grid of tens that is fine enough has a decimal in the interval. -/
theorem isSome_nearest (hm : 0 < m) {g : ℤ} (hg : (10 : ℚ) ^ g ≤ 2 ^ (e - 2)) :
    ((interval m e).nearest g).isSome = true := by
  obtain ⟨num, hnum⟩ : ∃ num, num = 4 * m * (1 <<< (e - 2).toNat) * tenTo (-g).toNat := ⟨_, rfl⟩
  obtain ⟨den, hden⟩ : ∃ den, den = (1 <<< (2 - e).toNat) * tenTo g.toNat := ⟨_, rfl⟩
  have hten : (0 : ℚ) < 10 ^ g := by positivity
  have hpos : 0 < den := by
    rw [hden, tenTo, Nat.pow_eq, Nat.one_shiftLeft]
    positivity
  have hratio : (num : ℚ) / den = m * 2 ^ e / 10 ^ g := by
    have hscale := pow_toNat (two_ne_zero : (2 : ℚ) ≠ 0) (e - 2)
    rw [neg_sub, zpow_sub₀ two_ne_zero] at hscale
    rw [hnum, hden]
    simp only [tenTo, Nat.pow_eq, Nat.one_shiftLeft]
    push_cast
    rw [hscale, pow_toNat (by norm_num : (10 : ℚ) ≠ 0) g]
    field_simp
    norm_num
  have hfloor : ((num / den : ℕ) : ℚ) ≤ m * 2 ^ e / 10 ^ g := hratio ▸ Nat.cast_div_le
  have hnext : (m : ℚ) * 2 ^ e / 10 ^ g < (num / den : ℕ) + 1 := by
    rw [← hratio, div_lt_iff₀ (by exact_mod_cast hpos)]
    exact_mod_cast (mul_comm den _ ▸ Nat.lt_mul_div_succ num hpos)
  have hbelow : (interval m e).holds ⟨num / den, g⟩ = true := by
    refine holds_of_le hm ?_ ?_
    · exact (le_div_iff₀ hten).mp hfloor
    · have hlt := (div_lt_iff₀ hten).mp hnext
      change m * 2 ^ e - 2 ^ (e - 2) < ((num / den : ℕ) : ℚ) * 10 ^ g
      linarith
  rw [hnum, hden] at hbelow
  simp only [Interval.nearest]
  split
  · split
    · rfl
    · rfl
    · split_ifs <;> rfl
  · rfl
  · rfl
  · rename_i hnone _
    exact absurd hbelow (by simpa [interval] using hnone)

end Interval

/-- Powers of ten against powers of two. -/
theorem ten_zpow_le {a b : ℤ} (h : 10 * a ≤ 3 * b) (h' : 33 * a ≤ 10 * b) :
    (10 : ℚ) ^ a ≤ 2 ^ b := by
  rcases le_or_gt 0 a with hnonneg | hneg
  · obtain ⟨k, rfl⟩ := Int.eq_ofNat_of_zero_le hnonneg
    rw [← pow_le_pow_iff_left₀ (by positivity) (by positivity) (by decide : 3 ≠ 0)]
    calc ((10 : ℚ) ^ (k : ℤ)) ^ 3 = (10 ^ 3) ^ k := by
          rw [zpow_natCast, ← pow_mul, ← pow_mul, mul_comm]
      _ ≤ (2 ^ 10) ^ k := by
          gcongr
          norm_num
      _ = 2 ^ (10 * (k : ℤ)) := by
          rw [← pow_mul]
          exact_mod_cast rfl
      _ ≤ 2 ^ (b * 3) := zpow_le_zpow_right₀ one_le_two (by omega)
      _ = (2 ^ b) ^ 3 := by
          rw [zpow_mul]
          rfl
  · obtain ⟨k, hk⟩ := Int.eq_ofNat_of_zero_le (show 0 ≤ -a by omega)
    obtain rfl : a = -k := by omega
    rw [← pow_le_pow_iff_left₀ (by positivity) (by positivity) (by decide : 10 ≠ 0)]
    calc ((10 : ℚ) ^ (-(k : ℤ))) ^ 10 = ((10 ^ 10) ^ k)⁻¹ := by
          rw [zpow_neg, zpow_natCast, inv_pow, ← pow_mul, ← pow_mul, mul_comm]
      _ ≤ ((2 ^ 33) ^ k)⁻¹ := by
          gcongr
          norm_num
      _ = 2 ^ (-(33 * (k : ℤ))) := by
          rw [← pow_mul, zpow_neg]
          exact_mod_cast rfl
      _ ≤ 2 ^ (b * 10) := zpow_le_zpow_right₀ one_le_two (by omega)
      _ = (2 ^ b) ^ 10 := by
          rw [zpow_mul]
          rfl

section Decimal

variable {m : ℕ} {e : ℤ}

/-- The shortest decimal is off the double by half a step at the most. -/
theorem abs_decimal_sub_le (hm : 0 < m) (hlt : m < 2 ^ 53) (hlow : -1074 ≤ e) (hhigh : e ≤ 971) :
    |(decimal m e).number - m * 2 ^ e| ≤ 2 ^ (e - 1) := by
  have hlog : m.log2 < 53 := (Nat.log2_lt hm.ne').mpr hlt
  obtain ⟨top, htop⟩ : ∃ top : ℤ, top = (m.log2 + e + 1) * 30103 / 100000 + 1 := ⟨_, rfl⟩
  have hlast : ((interval m e).nearest (top - (23 : ℕ))).isSome = true :=
    isSome_nearest hm (ten_zpow_le (by omega) (by omega))
  have hfound : ((List.range 24).findSome? fun (k : ℕ) =>
      (interval m e).nearest (top - k)).isSome = true :=
    List.findSome?_isSome_iff.mpr ⟨23, by decide, hlast⟩
  obtain ⟨d, hd⟩ := Option.isSome_iff_exists.mp hfound
  obtain ⟨k, -, hk⟩ := List.exists_of_findSome?_eq_some hd
  have hdecimal : decimal m e = d := by
    rw [htop] at hd
    simp only [decimal, hd, Option.getD_some]
  rw [hdecimal]
  exact abs_sub_le_of_holds hm (holds_of_nearest hk)

end Decimal

/-! ### The text of a double -/

/-- A zero or a finite number of a sign. -/
def HasSign (s : Sign) : Float.Model.UnpackedFloat → Prop
  | .zero t | .finite t _ _ _ => t = s
  | _ => False

theorem signed_signText (negative : Bool) : Signed (signText (signOf negative)) negative := by
  cases negative with
  | false => exact .none
  | true => exact .minus

section Text

variable {x : Float} {negative : Bool}

theorem writes_text_zero (h : Double.view x = .zero (signOf negative)) :
    Writes (text x) negative 0 := by
  have hzero : Digits ['0'] := digits_toDigits 0
  have hwrites := Writes.mk (signed_signText negative) (.both hzero hzero) .none
  rw [show natural (['0'] ++ ['0']) = 0 from rfl, Nat.cast_zero, zero_mul] at hwrites
  rw [text, show x.toModel.unpack = Double.view x from rfl, h]
  exact hwrites

/-- The number that is printed is off the double by half a step at the most. -/
theorem exists_writes_text {m : ℕ} {e : ℤ} {hm : 0 < m}
    (h : Double.view x = .finite (signOf negative) m e hm) :
    ∃ q, Writes (text x) negative q ∧ |q - m * 2 ^ e| ≤ 2 ^ (e - 1) := by
  obtain ⟨hlt, hge, hle⟩ := Double.bounds_of_view h
  obtain ⟨m', x', whole, fraction, e', htext, hmantissa, hexponent, hnumber⟩ :=
    exists_layOut .document (digits_toDigits (decimal m e).digits)
      ((Nat.toDigits 10 (decimal m e).digits).length + (decimal m e).exponent)
  rw [add_sub_cancel_left, natural_toDigits] at hnumber
  refine ⟨(decimal m e).number, ?_, abs_decimal_sub_le hm hlt hge hle⟩
  rw [text, show x.toModel.unpack = Double.view x from rfl, h]
  dsimp only
  rw [htext, Decimal.number, ← hnumber]
  exact .mk (signed_signText negative) hmantissa hexponent

/-- A finite double is printed with a minus if it has one. -/
theorem exists_writes_of_hasSign (h : HasSign (signOf negative) (Double.view x)) :
    ∃ q, Writes (text x) negative q := by
  cases hview : Double.view x with rw [hview] at h
  | infinity | notANumber => exact h.elim
  | zero s =>
    obtain rfl : s = signOf negative := h
    exact ⟨0, writes_text_zero hview⟩
  | finite s m e hm =>
    obtain rfl : s = signOf negative := h
    obtain ⟨q, hwrites, -⟩ := exists_writes_text hview
    exact ⟨q, hwrites⟩

end Text

theorem exists_hasSign {u : Float.Model.UnpackedFloat} (h : u.isFinite = true) :
    ∃ negative, HasSign (signOf negative) u := by
  cases u with
  | infinity | notANumber => cases h
  | zero s | finite s => cases s with
    | positive => exact ⟨false, rfl⟩
    | negative => exact ⟨true, rfl⟩

end Shortest

namespace Json

/-- The number is no infinity and no NaN. -/
def Number.isFinite : Number → Bool
  | integer _ => true
  | real x => x.isFinite

theorem Number.writes_integer (n : ℤ) :
    Token.Writes (toString n).toList (decide (n < 0)) n.natAbs := by
  have hwrites {s : List Char} {negative : Bool} (hs : Token.Signed s negative) (k : ℕ) :
      Token.Writes (s ++ Nat.toDigits 10 k) negative k := by
    have h := Token.Writes.mk hs (.whole (Token.digits_toDigits k)) .none
    simpa [Token.natural_toDigits] using h
  rw [Int.toString_eq_repr, Int.repr_eq_if]
  rcases le_or_gt 0 n with hle | hlt
  · rw [if_pos hle, decide_eq_false (not_lt.mpr hle), Nat.toList_repr,
      show n.natAbs = n.toNat by omega]
    exact hwrites .none n.toNat
  · rw [if_neg (not_le.mpr hlt), decide_eq_true hlt, show n.natAbs = (-n).toNat by omega]
    simpa using hwrites .minus (-n).toNat

/-- The text of a finite number is a numeral. -/
theorem Number.exists_writes {n : Number} (h : n.isFinite = true) :
    ∃ negative q, Token.Writes n.text negative q := by
  cases n with
  | integer n => exact ⟨_, _, writes_integer n⟩
  | real x =>
    obtain ⟨negative, hsign⟩ := Shortest.exists_hasSign (u := Double.view x) h
    exact ⟨negative, Shortest.exists_writes_of_hasSign hsign⟩

/-! ### Numbers of documents -/

/-- No number that is read is an infinity or NaN. -/
theorem Numeral.isFinite_of_value? {n : Numeral} {number : Number} (h : n.value? = some number) :
    number.isFinite = true := by
  cases number with
  | integer => rfl
  | real x =>
    have hreal : n.real? = some (.real x) := by
      rw [value?] at h
      split_ifs at h with hinteger <;> first | exact h | cases h
    exact isFinite_of_real? hreal

section Written

variable {w : Written} {room : ℕ}

theorem isFinite_of_number {n : Number} (h : w.value? room = some (.number n)) :
    n.isFinite = true := by
  cases w with simp only [Written.value?, Option.some.injEq, Option.map_eq_some_iff,
      Option.ite_none_left_eq_some, reduceCtorEq, and_false, exists_const, number.injEq,
      exists_eq_right] at h
  | number numeral => exact numeral.isFinite_of_value? h

theorem exists_of_mem_itemValues? {items : List Written} {js : List Json}
    (h : itemValues? room items = some js) {j : Json} (hj : j ∈ js) :
    ∃ w, Written.value? room w = some j := by
  induction items generalizing js with
  | nil =>
    rw [itemValues?, Option.some.injEq] at h
    rw [← h] at hj
    cases hj
  | cons w items ih =>
    rw [itemValues?.eq_def] at h
    dsimp only at h
    split at h
    · rename_i hv hvs
      rw [← Option.some.inj h, List.mem_cons] at hj
      rcases hj with rfl | hj
      · exact ⟨w, hv⟩
      · exact ih hvs hj
    · cases h

theorem exists_of_mem_memberValues? {members : List (Option String × Written)}
    {ms : List (String × Json)} (h : memberValues? room members = some ms) {name : String}
    {j : Json} (hj : (name, j) ∈ ms) : ∃ w, Written.value? room w = some j := by
  induction members generalizing ms with
  | nil =>
    rw [memberValues?, Option.some.injEq] at h
    rw [← h] at hj
    cases hj
  | cons member members ih =>
    rw [memberValues?.eq_def] at h
    dsimp only at h
    split at h
    · rename_i hv hvs
      rw [← Option.some.inj h, List.mem_cons] at hj
      rcases hj with heq | hj
      · exact ⟨member.2, by rw [hv, (Prod.mk.inj heq).2]⟩
      · exact ih hvs hj
    · cases h

theorem mem_insert {α : Type} {name : String} {value : α} {m : String × α}
    {ms : List (String × α)} (h : m ∈ insert name value ms) : m = (name, value) ∨ m ∈ ms := by
  induction ms with
  | nil => exact .inl (List.mem_singleton.mp h)
  | cons first rest ih =>
    rw [insert] at h
    split_ifs at h with hname
    · rw [hname, List.mem_cons] at h
      exact h.imp_right (List.mem_cons_of_mem first)
    · rcases List.mem_cons.mp h with rfl | h
      · exact .inr List.mem_cons_self
      · exact (ih h).imp_right (List.mem_cons_of_mem first)

theorem mem_of_mem_ofMembers {α : Type} {ms : List (String × α)} {m : String × α}
    (h : m ∈ ofMembers ms) : m ∈ ms := by
  have hall : ∀ m ∈ ofMembers ms, m ∈ ms := by
    rw [ofMembers]
    refine List.foldlRecOn (motive := fun before => ∀ m ∈ before, m ∈ ms) ms _
      (fun _ h => absurd h List.not_mem_nil) ?_
    intro before hbefore member hmember m hm
    rcases mem_insert hm with rfl | hm
    · exact hmember
    · exact hbefore m hm
  exact hall m h

/-- The parts of a value that is read from a document are read from the document. -/
theorem exists_of_mem_array {js : List Json} (h : w.value? room = some (.array js)) {j : Json}
    (hj : j ∈ js) : ∃ w' room', Written.value? room' w' = some j := by
  cases w with simp only [Written.value?, Option.some.injEq, Option.map_eq_some_iff,
      Option.ite_none_left_eq_some, reduceCtorEq, and_false, exists_false, array.injEq,
      exists_eq_right] at h
  | array items =>
    obtain ⟨w', hw'⟩ := exists_of_mem_itemValues? h.2 hj
    exact ⟨w', _, hw'⟩

theorem exists_of_mem_object {ms : List (String × Json)} (h : w.value? room = some (.object ms))
    {name : String} {j : Json} (hj : (name, j) ∈ ms) :
    ∃ w' room', Written.value? room' w' = some j := by
  cases w with simp only [Written.value?, Option.some.injEq, Option.map_eq_some_iff,
      Option.ite_none_left_eq_some, reduceCtorEq, and_false, exists_false, object.injEq] at h
  | object members =>
    obtain ⟨-, ms', hms', rfl⟩ := h
    obtain ⟨w', hw'⟩ := exists_of_mem_memberValues? hms' (mem_of_mem_ofMembers hj)
    exact ⟨w', _, hw'⟩

end Written

end Json

/-! ### Literals of numbers -/

namespace Literal

open Json (Number)

/-- A literal of numbers: one, a boolean that counts as one, a list of them, or one of these under
the first tag that an object has. -/
inductive Spells : Json → List Number → Prop where
  | number (n : Number) : Spells (.number n) [n]
  | boolean (b : Bool) : Spells (.boolean b) [.integer (if b then 1 else 0)]
  | array (ns : List Number) : Spells (.array (ns.map .number)) ns
  | tagged {members : List (String × Json)} {before after : List String} {tag : String}
    {inner : Json} {ns : List Number} : tags = before ++ tag :: after →
      (∀ t ∈ before, members.lookup t = none) → members.lookup tag = some inner →
        Spells inner ns → Spells (.object members) ns

theorem textUnder_eq {name : String} {value : Json} {members : List (String × Json)}
    (h : members.lookup name = some value) : textUnder name members = text value := by
  induction members with
  | nil => cases h
  | cons member members ih =>
    obtain ⟨n, v⟩ := member
    rw [textUnder]
    rw [List.lookup_cons] at h
    split_ifs with hname
    · rw [hname, beq_self_eq_true] at h
      rw [Option.some.inj h]
    · rw [beq_false_of_ne (Ne.symm hname)] at h
      exact ih h

theorem numberTexts_map (ns : List Number) (index : ℕ) :
    numberTexts index (ns.map .number) = .ok (ns.map fun n => String.ofList n.text) := by
  induction ns generalizing index with
  | nil => rfl
  | cons n ns ih =>
    rw [List.map_cons, numberTexts, ih]
    rfl

theorem any_of_lookup {name : String} {members : List (String × Json)} :
    (members.any fun m => m.1 == name) = (members.lookup name).isSome := by
  induction members with
  | nil => rfl
  | cons member members ih =>
    rw [List.any_cons, List.lookup_cons, ih, BEq.comm]
    cases name == member.1 <;> rfl

theorem tag?_eq {members : List (String × Json)} {before after : List String} {tag : String}
    {inner : Json} (htags : tags = before ++ tag :: after)
    (hbefore : ∀ t ∈ before, members.lookup t = none) (h : members.lookup tag = some inner) :
    tag? members = some tag := by
  rw [tag?, htags, List.find?_append, List.find?_eq_none.mpr, List.find?_cons_of_pos,
    Option.none_or]
  · rw [any_of_lookup, h]
    rfl
  · intro t ht
    rw [any_of_lookup, hbefore t ht]
    exact Bool.false_ne_true

/-- A literal that is read from a document has finite numbers only. -/
theorem Spells.isFinite {j : Json} {ns : List Number} (h : Spells j ns) {w : Json.Written}
    {room : ℕ} (hw : w.value? room = some j) : ∀ n ∈ ns, n.isFinite = true := by
  induction h generalizing w room with
  | number n => exact List.forall_mem_singleton.mpr (Json.isFinite_of_number hw)
  | boolean b => exact List.forall_mem_singleton.mpr rfl
  | array ns =>
    intro n hn
    obtain ⟨w', room', hw'⟩ := Json.exists_of_mem_array hw (List.mem_map_of_mem hn)
    exact Json.isFinite_of_number hw'
  | tagged _ _ hlookup _ ih =>
    obtain ⟨_, _, rfl, -⟩ := List.lookup_eq_some_iff.mp hlookup
    obtain ⟨w', room', hw'⟩ := Json.exists_of_mem_object hw
      (List.mem_append_right _ List.mem_cons_self)
    exact ih hw'

/-- The text of a literal of numbers is their texts, apart by blanks. -/
theorem text_eq {j : Json} {ns : List Number} (h : Spells j ns) :
    text j = .ok (" ".intercalate (ns.map fun n => String.ofList n.text)) := by
  induction h with
  | number n => rw [text, List.map_singleton, String.intercalate_singleton]
  | boolean b => cases b <;> rfl
  | array ns =>
    rw [text, numberTexts_map]
    rfl
  | tagged htags hbefore hlookup _ ih =>
    rw [text, tag?_eq htags hbefore hlookup, ← ih]
    exact textUnder_eq hlookup

end Literal

namespace Token

/-- Texts apart by blanks are split into those texts, if there are no blanks within. -/
theorem runs_intercalate {tokens : List (List Char)} (hne : ∀ t ∈ tokens, t ≠ [])
    (hblank : ∀ t ∈ tokens, ∀ c ∈ t, isBlank c = false) :
    Runs ([' '].intercalate tokens) tokens := by
  induction tokens with
  | nil => exact .nil
  | cons t tokens ih =>
    rw [List.forall_mem_cons] at hne hblank
    have hrest := ih hne.2 hblank.2
    cases tokens with
    | nil =>
      have hlast : Runs (t ++ []) [t] := .token hne.1 hblank.1 (by simp) .nil
      simpa using hlast
    | cons t' tokens =>
      rw [List.intercalate_cons_cons, List.append_assoc, List.singleton_append]
      exact .token hne.1 hblank.1 (by simp [isBlank]) (.blank rfl hrest)

end Token

namespace Tuple

open Json (Number)

theorem split_ofList {text : List Char} {negative : Bool} {q : ℚ}
    (h : Token.Writes text negative q) :
    Token.split (String.ofList text).toList = [text] := by
  have hruns : Token.Runs ([' '].intercalate [text]) [text] :=
    Token.runs_intercalate (by simpa using h.ne_nil) (by simpa using h.not_isBlank)
  rw [String.toList_ofList]
  exact (Token.runs_iff.mp (by simpa using hruns)).symm

/-- **Literals of numbers are clean tuples.** A literal that is made of numbers has a text. What is
read from it has no malformed token, and all numbers after the fourth are extra; the first four
components are what the texts of the numbers are read as one by one, and zero where there is none.
-/
theorem ofText_text {j : Json} {ns : List Number} (h : Literal.Spells j ns)
    (hfinite : ∀ n ∈ ns, n.isFinite = true) :
    ∃ text, Literal.text j = .ok text ∧
      (ofText text).malformed = [] ∧ (ofText text).extra = ns.length - 4 ∧
      (∀ i < 4, ∀ n, ns[i]? = some n → (ofText text).value.components[i]? =
        some (ofText (String.ofList n.text)).value.x) ∧
      ∀ i < 4, ns[i]? = none → (ofText text).value.components[i]? = some 0 := by
  have hwrites : ∀ t ∈ ns.map Number.text, ∃ negative q, Token.Writes t negative q :=
    List.forall_mem_map.mpr fun n hn => Number.exists_writes (hfinite n hn)
  refine ⟨_, Literal.text_eq h, ?_⟩
  obtain ⟨text, htext⟩ : ∃ text, text = " ".intercalate (ns.map fun n => String.ofList n.text) :=
    ⟨_, rfl⟩
  have hsplit : Token.split text.toList = ns.map Number.text := by
    have hruns : Token.Runs ([' '].intercalate (ns.map Number.text)) (ns.map Number.text) := by
      refine Token.runs_intercalate (fun t ht => ?_) fun t ht => ?_ <;>
        obtain ⟨negative, q, hwrites⟩ := hwrites t ht
      · exact hwrites.ne_nil
      · exact hwrites.not_isBlank
    have hchars : text.toList = [' '].intercalate (ns.map Number.text) := by
      rw [htext, String.toList_intercalate, List.map_map]
      congr 2
      exact funext fun n => String.toList_ofList
    rw [hchars]
    exact (Token.runs_iff.mp hruns).symm
  have hreads := reads_ofText text
  rw [hsplit] at hreads
  rw [← htext]
  refine ⟨?_, by rw [hreads.extra, List.length_map], ?_, ?_⟩
  · rw [hreads.malformed, List.map_eq_nil_iff, List.filter_eq_nil_iff]
    intro t ht
    obtain ⟨negative, q, hwrites⟩ := hwrites t (List.mem_of_mem_take ht)
    simpa using hwrites.isNumeral
  · intro i hi n hn
    obtain ⟨negative, q, hwrites⟩ := Number.exists_writes (hfinite n (List.mem_of_getElem? hn))
    have hsingle := components_ofText (String.ofList n.text) (i := 0) (by decide)
    rw [split_ofList hwrites] at hsingle
    rw [components_ofText text hi, hsplit, List.getElem?_map, hn]
    exact hsingle.symm
  · intro i hi hnone
    exact hreads.remaining i hi (by rw [List.getElem?_map, hnone]; rfl)

/-- Five numbers, laid out in different ways and under two tags. -/
def nested : List Number := [.integer 1, .real 1e-7, .real (-2.5), .integer (-30), .real 1e30]

theorem ofText_text_nested :
    (∃ text, Literal.text (.object [("text", .null),
        ("value", .object [("vec4", .array (nested.map .number))])]) = .ok text ∧
      (ofText text).malformed = [] ∧ (ofText text).extra = nested.length - 4 ∧
      (∀ i < 4, ∀ n, nested[i]? = some n → (ofText text).value.components[i]? =
        some (ofText (String.ofList n.text)).value.x) ∧
      ∀ i < 4, nested[i]? = none → (ofText text).value.components[i]? = some 0) ∧
    Literal.text (.object [("text", .null),
        ("value", .object [("vec4", .array (nested.map .number))])]) =
      .ok "1 1e-7 -2.5 -30 1e+30" := by
  refine ⟨ofText_text ?_ ?_, ?_⟩
  · have hvalue : Literal.tags = ["color", "vec4", "vec3", "float"] ++ "value" :: ["text"] := rfl
    have hvec : Literal.tags = ["color"] ++ "vec4" :: ["vec3", "float", "value", "text"] := rfl
    exact .tagged hvalue (by decide +kernel) rfl
      (.tagged hvec (by decide +kernel) rfl (.array nested))
  · decide +kernel
  · decide +kernel

end Tuple

end ShadeTree
