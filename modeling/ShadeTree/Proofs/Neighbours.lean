import ShadeTree.Proofs.Decimals

/-!
# Neighbouring singles

Two numbers that lie close together are rounded to the same single, or to two that have no third
between them; and then the middle between these two lies between the numbers (`IsNearest.adjacent`).
What makes it so is that singles are nowhere denser than in proportion to their size
(`abs_place_le_mul`).
-/

namespace ShadeTree.Single

open Float.Model Float.Model.UnpackedFloat

/-- Two singles at different places, with no third between them. -/
structure Adjacent (x y : Float32) : Prop where
  ne : place x ≠ place y
  between : ∀ z : Float32, z.isNaN = false → place z ∉ Set.uIoo (place x) (place y)

/-- Where the middle between two singles stands. -/
def middle (x y : Float32) : ℚ := (place x + place y) / 2

/-! ### How dense singles are -/

/-- A single other than zero is a multiple of a grid that is fine enough for its neighbours. -/
theorem place_eq_mul_grid {x : Float32} (hx : x.isNaN = false) (hzero : place x ≠ 0) :
    ∃ g : ℤ, ∃ k : ℤ, -149 ≤ g ∧ place x = k * 2 ^ g ∧ |place x| ≤ 2 ^ 25 * 2 ^ g ∧
      (-149 < g → 2 ^ (g + 24) ≤ |place x|) := by
  rw [isNaN_eq] at hx
  rw [place] at hzero ⊢
  cases hview : view x with rw [hview] at hx hzero
  | notANumber => cases hx
  | zero s => exact absurd rfl hzero
  | infinity s =>
    refine ⟨103, s.apply (2 ^ 25 : ℕ), by decide, ?_, ?_, fun _ => ?_⟩
    · rw [← signed_natCast_mul, placeOf]
      norm_num
    · rw [placeOf, abs_signed]
      norm_num
    · rw [placeOf, abs_signed]
      norm_num
  | finite s m e hm =>
    obtain ⟨-, hlt, hge, -, hfull⟩ := canonical_of_view hview
    have habs : |placeOf (.finite s m e hm)| = m * 2 ^ e := by
      rw [placeOf, abs_signed, abs_of_pos (by positivity)]
    have hlt' : (m : ℚ) ≤ 2 ^ 24 := by exact_mod_cast hlt.le
    rcases hge.eq_or_lt with hleast | hnormal
    · refine ⟨e, s.apply m, hge, by rw [placeOf, signed_natCast_mul], ?_, fun h => by omega⟩
      rw [habs]
      gcongr
      linarith
    · have hhalf : (2 : ℚ) ^ e = 2 * 2 ^ (e - 1) := by
        rw [zpow_sub_one₀ two_ne_zero]
        ring
      refine ⟨e - 1, s.apply (m * 2 : ℕ), by omega, ?_, ?_, fun _ => ?_⟩
      · rw [placeOf, ← signed_natCast_mul, hhalf]
        push_cast
        rw [mul_assoc]
      · rw [habs, hhalf, ← mul_assoc]
        gcongr
        linarith
      · rw [habs]
        exact le_mul_zpow (hfull.resolve_right (by omega)) (by omega)

/-- Two places are apart by a part of either. -/
theorem abs_place_le_mul {x : Float32} (hx : x.isNaN = false) (y : Float32)
    (hne : place x ≠ place y) : |place x| ≤ 2 ^ 25 * |place x - place y| := by
  by_cases hzero : place x = 0
  · rw [hzero, abs_zero]
    positivity
  · obtain ⟨g, k, hg, hplace, hle, hlow⟩ := place_eq_mul_grid hx hzero
    rcases place_cases y hg with ⟨j, hj⟩ | ⟨hnormal, hsmall⟩
    · have hpow : (0 : ℚ) < 2 ^ g := by positivity
      have hstep : (1 : ℚ) ≤ |((k - j : ℤ) : ℚ)| := by
        have hkj : k - j ≠ 0 := by
          rintro h
          rw [hplace, hj, sub_eq_zero.mp h] at hne
          exact hne rfl
        exact_mod_cast Int.one_le_abs hkj
      refine hle.trans ?_
      rw [hplace, hj, ← sub_mul, abs_mul, abs_of_pos hpow, ← Int.cast_sub]
      gcongr
      exact le_mul_of_one_le_left hpow.le hstep
    · have hlow := hlow hnormal
      have hdouble : (2 : ℚ) ^ (g + 24) = 2 * 2 ^ (g + 23) := by
        rw [show g + 24 = g + 23 + 1 by ring, zpow_add_one₀ two_ne_zero, mul_comm]
      have hapart := abs_sub_abs_le_abs_sub (place x) (place y)
      have hpos := abs_nonneg (place x)
      linarith

/-! ### Numbers on either side of a middle -/

section Nearest

variable {p q : ℚ} {x y z : Float32}

theorem IsNearest.le_middle (hx : IsNearest p x) (hz : z.isNaN = false) (hlt : place x < place z) :
    p ≤ middle x z := by
  have hle := hx.le z hz
  rw [middle]
  rcases abs_cases (p - place x) with ⟨habs, hside⟩ | ⟨habs, hside⟩ <;>
    rcases abs_cases (p - place z) with ⟨habs', hside'⟩ | ⟨habs', hside'⟩ <;> linarith

theorem IsNearest.middle_le (hx : IsNearest p x) (hz : z.isNaN = false) (hlt : place z < place x) :
    middle z x ≤ p := by
  have hle := hx.le z hz
  rw [middle]
  rcases abs_cases (p - place x) with ⟨habs, hside⟩ | ⟨habs, hside⟩ <;>
    rcases abs_cases (p - place z) with ⟨habs', hside'⟩ | ⟨habs', hside'⟩ <;> linarith

/-- Of two singles that numbers close together are rounded to, no third stands between. -/
theorem IsNearest.not_between (hx : IsNearest p x) (hy : IsNearest q y)
    (hpq : |p - q| ≤ |p + q| / 2 ^ 40) (hz : z.isNaN = false) (hxz : place x < place z)
    (hzy : place z < place y) : False := by
  have hp := hx.le_middle hz hxz
  have hq := hy.middle_le hz hzy
  rw [middle] at hp hq
  have hx' := abs_place_le_mul hx.not_isNaN z hxz.ne
  have hy' := abs_place_le_mul hy.not_isNaN z hzy.ne'
  rw [abs_of_neg (sub_neg.mpr hxz)] at hx'
  rw [abs_of_pos (sub_pos.mpr hzy)] at hy'
  rw [abs_of_neg (by linarith : p - q < 0)] at hpq
  rcases abs_cases (p + q) with ⟨habs, -⟩ | ⟨habs, -⟩ <;> rw [habs] at hpq
  · have hpos := le_abs_self (place y)
    linarith
  · have hneg := neg_abs_le (place x)
    linarith

/-- **Numbers close together are rounded to neighbours**, or to singles at one place. Between the
neighbours' middle and one of the numbers there is no more than between the numbers. -/
theorem IsNearest.adjacent (hx : IsNearest p x) (hy : IsNearest q y)
    (hpq : |p - q| ≤ |p + q| / 2 ^ 40) :
    place x = place y ∨ Adjacent x y ∧ |middle x y - q| ≤ |p - q| := by
  rcases lt_trichotomy (place x) (place y) with hlt | heq | hgt
  · refine .inr ⟨⟨hlt.ne, fun z hz hmem => ?_⟩, ?_⟩
    · rw [Set.uIoo_of_lt hlt] at hmem
      exact hx.not_between hy hpq hz hmem.1 hmem.2
    · have hp := hx.le_middle hy.not_isNaN hlt
      have hq := hy.middle_le hx.not_isNaN hlt
      rw [abs_of_nonpos (by linarith), abs_of_nonpos (by linarith)]
      linarith
  · exact .inl heq
  · rw [abs_sub_comm, add_comm] at hpq
    refine .inr ⟨⟨hgt.ne', fun z hz hmem => ?_⟩, ?_⟩
    · rw [Set.uIoo_of_gt hgt] at hmem
      exact hy.not_between hx hpq hz hmem.1 hmem.2
    · have hp := hx.middle_le hy.not_isNaN hgt
      have hq := hy.le_middle hx.not_isNaN hgt
      rw [middle] at hp hq ⊢
      rw [abs_of_nonneg (by linarith), abs_of_nonneg (by linarith)]
      linarith

/-! ### Singles at one place -/

theorem view_near_cases (s : Sign) (hq : 0 ≤ q) :
    view (ofView (near s q)) = .zero s ∨ view (ofView (near s q)) = .infinity s ∨
      ∃ m e, ∃ hm : 0 < m, view (ofView (near s q)) = .finite s m e hm := by
  rcases hq.eq_or_lt with rfl | hpos
  · rw [near_zero]
    exact .inl (view_ofView_zero s)
  · rcases near_cases s hpos with hnear | ⟨m, e, hm, hnear, hlt, hge, hfull⟩ <;> rw [hnear]
    · exact .inl (view_ofView_zero s)
    · rcases le_or_gt e 104 with hle | hover
      · exact .inr (.inr ⟨m, e, hm, view_ofView ⟨hm, hlt, hge, hle, hfull⟩ s⟩)
      · exact .inr (.inl (view_ofView_of_overflow s hm hover))

/-- Numbers of one sign that are rounded to one place are rounded to one single. -/
theorem ofView_near_eq_of_place_eq (s : Sign) (hp : 0 ≤ p) (hq : 0 ≤ q)
    (h : place (ofView (near s p)) = place (ofView (near s q))) :
    ofView (near s p) = ofView (near s q) := by
  have hends {x y : Float32} (hx : view x = .zero s) (hy : view y = .infinity s) :
      place x ≠ place y := by
    rw [place, place, hx, hy, placeOf_zero, placeOf]
    cases s <;> norm_num [signed]
  have hview : view (ofView (near s p)) = view (ofView (near s q)) := by
    rcases view_near_cases s hp with hzero | hinf | ⟨m, e, hm, hfinite⟩
    · rcases view_near_cases s hq with hzero' | hinf' | ⟨m', e', hm', hfinite'⟩
      · rw [hzero, hzero']
      · exact absurd h (hends hzero hinf')
      · exact view_eq_of_place_eq hfinite' h.symm
    · rcases view_near_cases s hq with hzero' | hinf' | ⟨m', e', hm', hfinite'⟩
      · exact absurd h.symm (hends hzero' hinf)
      · rw [hinf, hinf']
      · exact view_eq_of_place_eq hfinite' h.symm
    · exact (view_eq_of_place_eq hfinite h).symm
  rw [← ofView_view (ofView (near s p)), hview, ofView_view]

end Nearest

end ShadeTree.Single
