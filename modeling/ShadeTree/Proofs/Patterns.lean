import ShadeTree.Proofs.Representation
import ShadeTree.Proofs.Rounding

/-!
# Mixes and checkerboards

What the two nodes resolve to that compute with more than products. A mix goes from one colour to
the other in three operations, each of which rounds, so that it meets the second colour only as near
as the difference of the two was (`resolve_mix_ends`). A checkerboard goes by the parity of two cell
numbers; these are held to 64 bits, which changes the parity above and not below, as the greatest
cell number is odd and the least is even (`resolve_checker`).
-/

namespace ShadeTree

/-! ### Ways from one number to another -/

namespace Single

variable {a b t : Float32}

theorem place_of_beq_zero (h : (a == 0) = true) : place a = 0 := by
  obtain ⟨s, hs⟩ := beq_zero_iff.mp h
  rw [place, hs, placeOf_zero]

theorem isFinite_of_beq_zero (h : (a == 0) = true) : a.isFinite = true := by
  obtain ⟨s, hs⟩ := beq_zero_iff.mp h
  rw [isFinite_eq, hs]
  rfl

/-- A step of no length leads nowhere. -/
theorem add_beq_self (ha : a.isFinite = true) (hb : (b == 0) = true) : (a + b == a) = true := by
  have hsum := isNearest_add ha (isFinite_of_beq_zero hb)
  rw [place_of_beq_zero hb, add_zero] at hsum
  have hplace := hsum.place_eq (not_isNaN_of_isFinite ha)
  exact PartialEquivBEq.symm (beq_of_place_eq ha hsum.not_isNaN hplace.symm)

/-- The difference of two numbers leads from one to the other, if it is exact. -/
theorem add_sub_beq (ha : a.isFinite = true) (hb : b.isFinite = true) (hd : (b - a).isFinite = true)
    (h : place (b - a) = place b - place a) : (a + (b - a) == b) = true := by
  have hsum := isNearest_add ha hd
  rw [h, add_sub_cancel] at hsum
  have hplace := hsum.place_eq (not_isNaN_of_isFinite hb)
  exact PartialEquivBEq.symm (beq_of_place_eq hb hsum.not_isNaN hplace.symm)

/-- Otherwise it leads past the other or short of it by twice its own error at most. -/
theorem abs_add_sub_le (ha : a.isFinite = true) (hb : b.isFinite = true)
    (hd : (b - a).isFinite = true) :
    |place (a + (b - a)) - place b| ≤ 2 * |place (b - a) - (place b - place a)| := by
  have hsum := (isNearest_add ha hd).le b (not_isNaN_of_isFinite hb)
  have herror : place a + place (b - a) - place b = place (b - a) - (place b - place a) := by ring
  rw [herror] at hsum
  calc |place (a + (b - a)) - place b|
      ≤ |place (a + (b - a)) - (place a + place (b - a))| + |place a + place (b - a) - place b| :=
        abs_sub_le _ _ _
    _ ≤ 2 * |place (b - a) - (place b - place a)| := by
        rw [abs_sub_comm, herror, two_mul]
        gcongr

end Single

namespace Value

/-- The four components, as what reads them off a value. -/
def readers : List (Value → Float32) := [x, y, z, w]

/-- Interpolating goes component by component. -/
theorem read_lerp {c : Value → Float32} (hc : c ∈ readers) (a b : Value) (t : Float32) :
    c (a.lerp b t) = c a + (c b - c a) * t := by
  simp only [readers, List.mem_cons, List.not_mem_nil, or_false] at hc
  rcases hc with rfl | rfl | rfl | rfl <;> rfl

/-- No component is infinite or NaN. -/
def isFinite (v : Value) : Bool := readers.all fun c => (c v).isFinite

theorem isFinite_read {v : Value} (h : v.isFinite = true) {c : Value → Float32}
    (hc : c ∈ readers) : (c v).isFinite = true :=
  List.all_eq_true.mp h c hc

end Value

namespace Node

/-! ### Mixes -/

theorem resolve_of_mix {n : Node} (hkind : n.kind = .mix) (hfolded : n.folded? = none)
    (p : ShadingPoint) :
    n.resolve p = (input n.sockets "Color1" p).lerp (input n.sockets "Color2" p)
      (Single.unitClamp (scalarInput n.sockets "Factor" p)) := by
  obtain ⟨kind, _, _, _, _, _, prepared, sockets⟩ := n
  obtain rfl : kind = .mix := hkind
  cases prepared with
  | folded v => cases hfolded
  | none | texture | fallback => rfl

/-- **A mix at an end of its range**: with a factor not above 0, or NaN, it resolves to its first
colour, in every component in which the difference of the two does not overflow. With a factor not
below 1 it resolves to the first colour plus that difference, each of the two operations rounded:
that is the second colour where the difference is exact, and misses it by at most twice the error of
the difference elsewhere. -/
theorem resolve_mix_ends {n : Node} (hkind : n.kind = .mix) (hfolded : n.folded? = none)
    (p : ShadingPoint) {a b : Value} (ha : input n.sockets "Color1" p = a)
    (hb : input n.sockets "Color2" p = b) (hfinite : a.isFinite = true ∧ b.isFinite = true)
    {c : Value → Float32} (hc : c ∈ Value.readers) (hdifference : (c b - c a).isFinite = true) :
    (scalarInput n.sockets "Factor" p ≤ 0 ∨ (scalarInput n.sockets "Factor" p).isNaN = true →
      (c (n.resolve p) == c a) = true) ∧
    (1 ≤ scalarInput n.sockets "Factor" p →
      c (n.resolve p) = c a + (c b - c a) ∧
      (Single.place (c b - c a) = Single.place (c b) - Single.place (c a) →
        (c (n.resolve p) == c b) = true) ∧
      |Single.place (c (n.resolve p)) - Single.place (c b)| ≤
        2 * |Single.place (c b - c a) - (Single.place (c b) - Single.place (c a))|) := by
  have hca := Value.isFinite_read hfinite.1 hc
  have hcb := Value.isFinite_read hfinite.2 hc
  rw [resolve_of_mix hkind hfolded, ha, hb, Value.read_lerp hc]
  constructor
  · intro hlow
    exact Single.add_beq_self hca
      (Single.mul_beq_zero_of_right hdifference (Single.unitClamp_beq_zero hlow))
  · intro hhigh
    rw [Single.unitClamp_of_one_le hhigh, Single.mul_one]
    exact ⟨rfl, Single.add_sub_beq hca hcb hdifference, Single.abs_add_sub_le hca hcb hdifference⟩

/-- A mix of two scalars by a given factor. -/
def mixed (a b factor : Float32) : Node :=
  let mix := (new .mix).withSocket ⟨"Color1", .color, .literal (.scalar a)⟩
  let mix := mix.withSocket ⟨"Color2", .color, .literal (.scalar b)⟩
  mix.withSocket ⟨"Factor", .float, .literal (.scalar factor)⟩

theorem resolve_mixed_ends :
    (((mixed 1 4 (-2)).resolve .origin).x == 1) = true ∧
      ((mixed 1 4 2).resolve .origin).x = 1 + (4 - 1) :=
  ⟨(resolve_mix_ends (n := mixed 1 4 (-2)) rfl rfl .origin rfl rfl (by decide) (c := Value.x)
      (.head _) (by decide)).1 (.inl (by decide)),
    ((resolve_mix_ends (n := mixed 1 4 2) rfl rfl .origin rfl rfl (by decide) (c := Value.x)
      (.head _) (by decide)).2 (by decide)).1⟩

/-- With a factor of 1 a mix of two finite numbers may miss the second by all of it, as of 10 ^ 8
and 1. With a factor of 0 it may resolve to NaN, as of the numbers that -3 · 10 ^ 38 and 3 · 10 ^ 38
round to. -/
theorem resolve_mixed_misses_ends :
    (∃ n : Node, n.kind = .mix ∧ n.folded? = none ∧
      (input n.sockets "Color1" .origin).isFinite = true ∧
      (input n.sockets "Color2" .origin).isFinite = true ∧
      1 ≤ scalarInput n.sockets "Factor" .origin ∧
      ((n.resolve .origin).x == (input n.sockets "Color2" .origin).x) = false) ∧
    ∃ n : Node, n.kind = .mix ∧ n.folded? = none ∧
      (input n.sockets "Color1" .origin).isFinite = true ∧
      (input n.sockets "Color2" .origin).isFinite = true ∧
      scalarInput n.sockets "Factor" .origin ≤ 0 ∧
      ((n.resolve .origin).x == (input n.sockets "Color1" .origin).x) = false :=
  ⟨⟨mixed 100000000 1 1, by decide⟩, ⟨mixed (.ofBits 0xff61b1e6) (.ofBits 0x7f61b1e6) 0, by decide⟩⟩

end Node

/-! ### Cells -/

namespace Single

theorem floorOf_eq (s : Float.Model.UnpackedFloat.Sign) (m : ℕ) (e : ℤ) :
    floorOf s m e = ⌊signed s (m * 2 ^ e)⌋ := by
  rw [signed_natCast_mul, floorOf]
  rcases le_or_gt 0 e with hle | hlt
  · obtain ⟨n, rfl⟩ := Int.eq_ofNat_of_zero_le hle
    rw [if_pos hle, Int.toNat_natCast, Int.shiftLeft_eq, zpow_natCast]
    exact_mod_cast (Int.floor_intCast (R := ℚ) _).symm
  · obtain ⟨n, hn⟩ := Int.eq_ofNat_of_zero_le (show 0 ≤ -e by omega)
    obtain rfl : e = -n := by omega
    rw [if_neg (by omega), hn, Int.toNat_natCast, Int.shiftRight_eq_div_pow, zpow_neg, zpow_natCast,
      ← div_eq_mul_inv]
    exact_mod_cast (Rat.floor_intCast_div_natCast (s.apply (m : ℤ)) (2 ^ n)).symm

/-- The cell of a number is its floor, as far as 64 bits go. -/
theorem cell_eq {x : Float32} (hx : x.isFinite = true) :
    cell x = max leastCell (min greatestCell ⌊place x⌋) := by
  rw [isFinite_eq] at hx
  cases hview : view x with rw [hview] at hx
  | infinity | notANumber => cases hx
  | zero s =>
    rw [cell, show x.toModel.unpack = _ from hview, place, hview, placeOf_zero, Int.floor_zero]
    rfl
  | finite s m e hm =>
    rw [cell, show x.toModel.unpack = _ from hview, place, hview, placeOf, ← floorOf_eq]

theorem floor_place {x : Float32} {s : Float.Model.UnpackedFloat.Sign} {m : ℕ} {e : ℤ} {hm : 0 < m}
    (h : view x = .finite s m e hm) : ⌊place x⌋ = floorOf s m e := by
  rw [place, h, floorOf_eq]
  rfl

/-- A number that is far enough out has no bits for odd ones left. -/
theorem even_floor_place {x : Float32} (h : 2 ^ 24 < |place x|) : Even ⌊place x⌋ := by
  rcases place_cases x (g := 1) (by decide) with ⟨j, hj⟩ | ⟨-, hle⟩
  · have htwice : place x = (j * 2 : ℤ) := by rw [hj]; push_cast; rfl
    rw [htwice, Int.floor_intCast]
    exact even_two.mul_left j
  · exact absurd h (not_lt.mpr (by exact_mod_cast hle))

/-- Below the least cell there are even numbers only, and it is even itself: nothing of the parity
is lost there. -/
theorem cell_emod_two {x : Float32} (hx : x.isFinite = true) :
    cell x % 2 = min greatestCell ⌊place x⌋ % 2 := by
  rw [cell_eq hx]
  rcases le_or_gt leastCell (min greatestCell ⌊place x⌋) with hle | hlt
  · rw [max_eq_right hle]
  · rw [max_eq_left hlt.le]
    have hfloor : min greatestCell ⌊place x⌋ = ⌊place x⌋ :=
      min_eq_right (by simp only [leastCell, greatestCell] at hlt ⊢; omega)
    rw [hfloor] at hlt ⊢
    have hfar : (2 : ℚ) ^ 24 < |place x| := by
      have hplace : place x < leastCell := Int.floor_lt.mp hlt
      refine lt_of_lt_of_le ?_ (neg_le_abs (place x))
      refine lt_of_lt_of_le ?_ (neg_le_neg hplace.le)
      norm_num [leastCell]
    rw [Int.even_iff.mp (even_floor_place hfar)]
    rfl

/-- Cells are held to 64 bits. -/
theorem cell_mem (x : Float32) : leastCell ≤ cell x ∧ cell x ≤ greatestCell := by
  rw [cell]
  split <;> simp only [leastCell, greatestCell] <;> omega

/-! ### Arithmetic that overflows -/

/-- An integer, if it fits 64 signed bits. -/
def fit? (n : ℤ) : Option ℤ := if leastCell ≤ n ∧ n ≤ greatestCell then some n else none

/-- The remainder that is not negative, in arithmetic that has no number outside 64 signed bits and
no division by zero. The quotient has to fit as well. -/
def remainder? (a b : ℤ) : Option ℤ :=
  if b = 0 then none else (fit? (a / b)).bind fun _ => fit? (a % b)

theorem fit?_of_mem {n : ℤ} (h : leastCell ≤ n ∧ n ≤ greatestCell) : fit? n = some n := if_pos h

theorem remainder?_two {n : ℤ} (h : leastCell ≤ n ∧ n ≤ greatestCell) :
    remainder? n 2 = some (n % 2) := by
  have hquotient : fit? (n / 2) = some (n / 2) :=
    fit?_of_mem (by simp only [leastCell, greatestCell] at h ⊢; omega)
  have hrest : fit? (n % 2) = some (n % 2) :=
    fit?_of_mem (by simp only [leastCell, greatestCell] at h ⊢; omega)
  rw [remainder?, if_neg (by decide), hquotient, Option.bind_some, hrest]

end Single

/-- The test for an even cell in arithmetic that has no number outside 64 signed bits. -/
def isEvenCell? (p : ShadingPoint) (scale : Float32) : Option Bool := do
  let u ← Single.fit? (Single.cell (p.u * scale))
  let v ← Single.fit? (Single.cell (p.v * scale))
  let sum ← Single.fit? ((← Single.remainder? u 2) + (← Single.remainder? v 2))
  return (← Single.remainder? sum 2) = 0

/-- Nothing overflows in it, whatever the point and the scale. -/
theorem isEvenCell?_eq (p : ShadingPoint) (scale : Float32) :
    isEvenCell? p scale = some (isEvenCell p scale) := by
  have hu := Single.cell_mem (p.u * scale)
  have hv := Single.cell_mem (p.v * scale)
  have hsum : Single.leastCell ≤ Single.cell (p.u * scale) % 2 + Single.cell (p.v * scale) % 2 ∧
      Single.cell (p.u * scale) % 2 + Single.cell (p.v * scale) % 2 ≤ Single.greatestCell := by
    simp only [Single.leastCell, Single.greatestCell]
    omega
  simp only [isEvenCell?, isEvenCell, Single.fit?_of_mem hu, Single.fit?_of_mem hv,
    Single.remainder?_two hu, Single.remainder?_two hv, Single.fit?_of_mem hsum,
    Single.remainder?_two hsum, Option.bind_eq_bind, Option.bind_some, Option.pure_def]

/-- A cell is even by the floors of its coordinates, of which those above the greatest cell number
count as that. -/
theorem isEvenCell_iff {p : ShadingPoint} {scale : Float32} (hu : (p.u * scale).isFinite = true)
    (hv : (p.v * scale).isFinite = true) :
    isEvenCell p scale = true ↔ Even (min Single.greatestCell ⌊Single.place (p.u * scale)⌋ +
      min Single.greatestCell ⌊Single.place (p.v * scale)⌋) := by
  rw [isEvenCell, decide_eq_true_eq, Single.cell_emod_two hu, Single.cell_emod_two hv, Int.even_iff,
    ← Int.add_emod]

/-! ### Checkerboards -/

namespace Node

theorem resolve_of_checker {n : Node} (hkind : n.kind = .checker) (hfolded : n.folded? = none)
    (p : ShadingPoint) :
    n.resolve p = if isEvenCell p (scalarInput n.sockets "Scale" p) then input n.sockets "Color1" p
      else input n.sockets "Color2" p := by
  obtain ⟨kind, _, _, _, _, _, prepared, sockets⟩ := n
  obtain rfl : kind = .checker := hkind
  cases prepared with
  | folded v => cases hfolded
  | none | texture | fallback => rfl

/-- A checkerboard is never folded. -/
theorem WellFormed.folded?_of_checker {n : Node} (h : n.WellFormed) (hkind : n.kind = .checker) :
    n.folded? = none := by
  rw [folded?]
  split
  · rename_i v hv
    rcases h.folded v hv with hk | hk | hk <;> rw [hkind] at hk <;> cases hk
  · rfl

/-- **A checkerboard goes by the parity of its cells**: whatever operations have made some trees, a
checker in one of them resolves, at every point whose coordinates stay finite when scaled, to its
first colour where the sum of their floors is even and to its second elsewhere. A floor above the
greatest cell number counts as that number; below 2 ^ 63 each counts as it is, however far down. No
step of the test overflows 64 signed bits. -/
theorem resolve_checker {forest : Multiset Node} (hreached : Reached forest) {t n : Node}
    (ht : t ∈ forest) (hn : n ∈ t.nodes) (hkind : n.kind = .checker) (p : ShadingPoint)
    {scale : Float32} (hscale : scalarInput n.sockets "Scale" p = scale)
    (hu : (p.u * scale).isFinite = true) (hv : (p.v * scale).isFinite = true) :
    (n.resolve p =
      if Even (min Single.greatestCell ⌊Single.place (p.u * scale)⌋ +
        min Single.greatestCell ⌊Single.place (p.v * scale)⌋)
      then input n.sockets "Color1" p else input n.sockets "Color2" p) ∧
    (Single.place (p.u * scale) < 2 ^ 63 → Single.place (p.v * scale) < 2 ^ 63 →
      n.resolve p =
        if Even (⌊Single.place (p.u * scale)⌋ + ⌊Single.place (p.v * scale)⌋)
        then input n.sockets "Color1" p else input n.sockets "Color2" p) ∧
    isEvenCell? p scale = some (isEvenCell p scale) := by
  have hresolve : n.resolve p =
      if Even (min Single.greatestCell ⌊Single.place (p.u * scale)⌋ +
        min Single.greatestCell ⌊Single.place (p.v * scale)⌋)
      then input n.sockets "Color1" p else input n.sockets "Color2" p := by
    have hfolded := (hreached.intact t ht n hn).folded?_of_checker hkind
    rw [resolve_of_checker hkind hfolded, hscale]
    simp only [isEvenCell_iff hu hv]
  have hwithin {x : Float32} (h : Single.place x < 2 ^ 63) :
      min Single.greatestCell ⌊Single.place x⌋ = ⌊Single.place x⌋ := by
    have hfloor : ⌊Single.place x⌋ < 2 ^ 63 := Int.floor_lt.mpr (by exact_mod_cast h)
    exact min_eq_right (by rw [Single.greatestCell]; omega)
  refine ⟨hresolve, fun hu' hv' => ?_, isEvenCell?_eq p scale⟩
  rw [hresolve, hwithin hu', hwithin hv']

/-- A checkerboard of unit cells, white on black. -/
def chequered : Node :=
  (new .checker).withSocket (Socket.setLiteral ⟨"Color1", .color, .literal .zero⟩ "1 1 1").1

theorem reached_chequered : Reached {chequered} := by
  have hnew : Reached (new .checker ::ₘ (0 + 0)) := .new .checker .nothing
  have hset : (new .checker).setLiteral "Color1" "1 1 1" =
      some (chequered, Tuple.ofText "1 1 1", none) := rfl
  exact hnew.operateRoot (.setLiteral hset)

theorem resolve_chequered : chequered.resolve ⟨-1.5, 0.5⟩ = ⟨1, 1, 1, 0⟩ := by
  have hu : ⌊Single.place (-1.5 * 1)⌋ = -2 :=
    (Single.floor_place (s := .negative) (m := 3 * 2 ^ 22) (e := -23) rfl).trans rfl
  have hv : ⌊Single.place (0.5 * 1)⌋ = 0 :=
    (Single.floor_place (s := .positive) (m := 2 ^ 23) (e := -24) rfl).trans rfl
  have hscale : scalarInput chequered.sockets "Scale" ⟨-1.5, 0.5⟩ = 1 := rfl
  have hresolve := (resolve_checker reached_chequered (Multiset.mem_singleton_self _)
    (mem_nodes_iff.mpr (.inl rfl)) rfl ⟨-1.5, 0.5⟩ hscale (by decide) (by decide)).2.1
    (by have := Int.floor_lt.mp (hu.trans_lt (by decide : (-2 : ℤ) < 2 ^ 63)); exact_mod_cast this)
    (by have := Int.floor_lt.mp (hv.trans_lt (by decide : (0 : ℤ) < 2 ^ 63)); exact_mod_cast this)
  rw [hresolve, hu, hv, if_pos (by decide)]
  rfl

/-- Beyond the greatest cell number the parity is lost: that number is odd, and the floors that
count as it are even. -/
theorem chequered_odd_beyond :
    ∃ n : Node, Reached {n} ∧ n.kind = .checker ∧ ∃ p : ShadingPoint,
      (p.u * scalarInput n.sockets "Scale" p).isFinite = true ∧
      (p.v * scalarInput n.sockets "Scale" p).isFinite = true ∧
      Even (⌊Single.place (p.u * scalarInput n.sockets "Scale" p)⌋ +
        ⌊Single.place (p.v * scalarInput n.sockets "Scale" p)⌋) ∧
      n.resolve p ≠ input n.sockets "Color1" p := by
  have hu : ⌊Single.place (.ofBits 0x5f000000 * 1)⌋ = 2 ^ 63 :=
    (Single.floor_place (s := .positive) (m := 2 ^ 23) (e := 40) rfl).trans (by decide +kernel)
  have hv : ⌊Single.place (0 * 1)⌋ = 0 := by
    rw [Single.place, show Single.view (0 * 1) = .zero .positive from rfl]
    exact Int.floor_zero
  refine ⟨chequered, reached_chequered, rfl, ⟨.ofBits 0x5f000000, 0⟩, by decide, by decide, ?_, ?_⟩
  · rw [show scalarInput chequered.sockets "Scale" _ = 1 from rfl, hu, hv]
    decide
  · intro h
    have hx : (0 : Float32) = 1 := congrArg Value.x h
    exact absurd hx (by decide)

end Node

end ShadeTree
