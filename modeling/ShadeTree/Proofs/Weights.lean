import ShadeTree.Proofs.Arithmetic
import ShadeTree.Proofs.Routes
import ShadeTree.Proofs.Typing

/-!
# Weights

What a tree does to the weight it is composed with. On the way from the root to a lobe the weight is
scaled at every blend, passed on at every sum, and set to full at every valid output. Three results
come of that:

* a weight that is black stays black until the next output, so that it need be tested for only at the
  ends of the routes and at outputs (`compose_eq_composeTesting_ends`);
* a blend at an end of its range is what is plugged into that side (`compose_blend_ends`);
* below a valid output every weight is the same in its three channels and lies in the unit interval,
  whatever weight the output itself was given (`compose_output`).

The arithmetic they need is that of the unit interval, to which every blend holds its factor.
-/

namespace ShadeTree

/-! ### Scaling a spectrum -/

namespace Spectrum

variable {w : Spectrum} {t : Float32}

theorem isBlack_iff :
    w.isBlack = true ↔ (w.r == 0) = true ∧ (w.g == 0) = true ∧ (w.b == 0) = true := by
  rw [isBlack, Bool.and_eq_true, Bool.and_eq_true, and_assoc]

/-- No channel is infinite or NaN. -/
def isFinite (w : Spectrum) : Bool := w.r.isFinite && w.g.isFinite && w.b.isFinite

theorem isFinite_iff :
    w.isFinite = true ↔ w.r.isFinite = true ∧ w.g.isFinite = true ∧ w.b.isFinite = true := by
  rw [isFinite, Bool.and_eq_true, Bool.and_eq_true, and_assoc]

/-- Black scaled by a finite number is black. -/
theorem isBlack_scale_of_isBlack (hw : w.isBlack = true) (ht : t.isFinite = true) :
    (w.scale t).isBlack = true := by
  obtain ⟨hr, hg, hb⟩ := isBlack_iff.mp hw
  exact isBlack_iff.mpr ⟨Single.mul_beq_zero_of_left hr ht, Single.mul_beq_zero_of_left hg ht,
    Single.mul_beq_zero_of_left hb ht⟩

/-- A finite spectrum scaled by a zero is black. -/
theorem isBlack_scale_of_beq_zero (hw : w.isFinite = true) (ht : (t == 0) = true) :
    (w.scale t).isBlack = true := by
  obtain ⟨hr, hg, hb⟩ := isFinite_iff.mp hw
  exact isBlack_iff.mpr ⟨Single.mul_beq_zero_of_right hr ht, Single.mul_beq_zero_of_right hg ht,
    Single.mul_beq_zero_of_right hb ht⟩

theorem scale_one (w : Spectrum) : w.scale 1 = w := by
  rw [scale, Single.mul_one, Single.mul_one, Single.mul_one]

/-- The same amount in every channel, from 0 to 1. -/
def IsGrey (w : Spectrum) : Prop := ∃ c, w = .splat c ∧ Single.InUnit c

theorem isGrey_white : white.IsGrey := ⟨1, rfl, Single.inUnit_one⟩

theorem IsGrey.scale (hw : w.IsGrey) (ht : Single.InUnit t) : (w.scale t).IsGrey := by
  obtain ⟨c, rfl, hc⟩ := hw
  exact ⟨c * t, rfl, hc.mul ht⟩

end Spectrum

/-! ### Weights along a route -/

theorem Node.inUnit_blendFactor (sockets : List (Socket Node)) (p : ShadingPoint) :
    Single.InUnit (blendFactor sockets p) :=
  Single.inUnit_unitClamp _

section Weigh

variable {p : ShadingPoint} {weight : Spectrum}

/-- A step of a route sets the weight to full at an output, scales it at a blend by a factor from the
unit interval, and passes it on elsewhere. -/
theorem Hop.weigh_cases (hop : Hop) (p : ShadingPoint) (weight : Spectrum) :
    (hop.node.kind = .output ∧ hop.weigh p weight = .white) ∨
      (∃ t, Single.InUnit t ∧ hop.weigh p weight = weight.scale t) ∨
        hop.weigh p weight = weight := by
  have hfactor := Node.inUnit_blendFactor hop.node.sockets p
  rw [weigh]
  cases hop.node.kind with
  | output => exact .inl ⟨rfl, rfl⟩
  | blend =>
    refine .inr (.inl ?_)
    by_cases hfirst : hop.socket = "Bxdf1"
    · exact ⟨_, hfactor.one_sub, if_pos hfirst⟩
    · exact ⟨_, hfactor, if_neg hfirst⟩
  | _ => exact .inr (.inr rfl)

/-- Only an output turns black to light. -/
theorem Hop.isBlack_weigh {hop : Hop} (hkind : hop.node.kind ≠ .output)
    (h : weight.isBlack = true) : (hop.weigh p weight).isBlack = true := by
  obtain ⟨houtput, -⟩ | ⟨t, ht, hscale⟩ | hpass := hop.weigh_cases p weight
  · exact absurd houtput hkind
  · rw [hscale]
    exact Spectrum.isBlack_scale_of_isBlack h ht.isFinite
  · rwa [hpass]

theorem Hop.isGrey_weigh (hop : Hop) (h : weight.IsGrey) : (hop.weigh p weight).IsGrey := by
  obtain ⟨-, hfull⟩ | ⟨t, ht, hscale⟩ | hpass := hop.weigh_cases p weight
  · rw [hfull]
    exact Spectrum.isGrey_white
  · rw [hscale]
    exact h.scale ht
  · rwa [hpass]

namespace Route

theorem isGrey_weight (r : Route) (h : weight.IsGrey) : (r.weight p weight).IsGrey := by
  obtain ⟨hops, leaf⟩ := r
  induction hops generalizing weight with
  | nil => exact h
  | cons hop hops ih => exact ih (hop.isGrey_weigh h)

theorem not_isBlack_weight {r : Route} (h : r.isLit p weight = true) :
    (r.weight p weight).isBlack = false := by
  have hlast : r.weight p weight ∈ r.weights p weight := List.mem_of_getLast? (weights_getLast? r)
  simpa using List.all_eq_true.mp h _ hlast

/-- The lobes of routes entered with a grey weight are grey, and none is black. -/
theorem grey_lobes (rs : List Route) (h : weight.IsGrey) : ∀ lobe ∈ lobes p weight rs,
    ∃ c : Float32, lobe.weight = .splat c ∧ c.isFinite = true ∧ 0 < c ∧ c ≤ 1 := by
  intro lobe hlobe
  obtain ⟨r, hr, rfl⟩ := List.mem_map.mp hlobe
  obtain ⟨c, hc, hunit⟩ := r.isGrey_weight (p := p) h
  have hlit := not_isBlack_weight (List.mem_filter.mp hr).2
  have hne : (c == 0) = false := by
    rw [hc, Spectrum.isBlack, Spectrum.splat] at hlit
    simpa using hlit
  exact ⟨c, hc, hunit.isFinite, hunit.pos hne, hunit.le_one⟩

end Route

end Weigh

namespace Node

theorem compose_of_isBlack {weight : Spectrum} (h : weight.isBlack = true) (n : Node)
    (p : ShadingPoint) (bsdf : Bsdf) : n.compose p weight bsdf = bsdf := by
  rw [compose_eq, if_pos h]

/-! ### Where a black weight is tested for -/

theorem isLobe_or_output_of_isEnd {n : Node} (h : n.isEnd = true) :
    (n.kind.isLobe || n.kind == .output) = true := by
  rw [isEnd] at h
  cases hlobe : n.kind.isLobe with
  | true => rfl
  | false =>
    rw [hlobe, Bool.false_or, Bool.and_eq_true] at h
    exact h.1

mutual

/-- Composing with the test for a black weight made at nodes of some kinds alone. -/
def composeTesting (tests : NodeKind → Bool) (n : Node) (p : ShadingPoint) (weight : Spectrum)
    (bsdf : Bsdf) : Bsdf :=
  match n with
  | ⟨kind, _, _, valid, _, _, prepared, sockets⟩ =>
    if tests kind && weight.isBlack then bsdf
    else
      match kind with
      | .output =>
        if valid then composeTestingInput tests sockets "Surface" p .white bsdf
        else bsdf.add (.lambert (fallbackColor prepared)) weight
      | .blend =>
        let f := blendFactor sockets p
        composeTestingInput tests sockets "Bxdf2" p (weight.scale f)
          (composeTestingInput tests sockets "Bxdf1" p (weight.scale (1 - f)) bsdf)
      | .add =>
        composeTestingInput tests sockets "Bxdf2" p weight
          (composeTestingInput tests sockets "Bxdf1" p weight bsdf)
      | _ =>
        match scatter? kind sockets p with
        | some scatter => bsdf.add scatter weight
        | none => bsdf
termination_by structural n

/-- The lobes composed so for the node plugged into the first socket of a name. -/
def composeTestingInput (tests : NodeKind → Bool) (sockets : List (Socket Node)) (name : String)
    (p : ShadingPoint) (weight : Spectrum) (bsdf : Bsdf) : Bsdf :=
  match sockets with
  | [] => bsdf
  | ⟨n, _, link⟩ :: rest =>
    if n = name then
      match link with
      | .node child => child.composeTesting tests p weight bsdf
      | _ => bsdf
    else composeTestingInput tests rest name p weight bsdf
termination_by structural sockets

end

section Testing

variable {tests : NodeKind → Bool}

theorem composeTestingInput_plugged (n : Node) (name : String) (p : ShadingPoint)
    (weight : Spectrum) (bsdf : Bsdf) :
    composeTestingInput tests n.sockets name p weight bsdf =
      (n.plugged? name).elim bsdf (·.composeTesting tests p weight bsdf) := by
  have h := eq_find?_of_cons (f := fun sockets => composeTestingInput tests sockets name p weight bsdf)
    (g := fun s => s.node?.elim bsdf (·.composeTesting tests p weight bsdf)) name
    (fun s rest => ?_) n.sockets
  · rw [h, plugged?, socket?]
    cases n.sockets.find? (·.name == name) <;> rfl
  · obtain ⟨m, kind, link⟩ := s
    cases link <;> rfl

theorem composeTesting_eq (n : Node) (p : ShadingPoint) (weight : Spectrum) (bsdf : Bsdf) :
    n.composeTesting tests p weight bsdf =
      if tests n.kind && weight.isBlack then bsdf
      else if n.isEnd then bsdf.add (n.ownScatter p) weight
      else n.outlets.foldl (fun b socket =>
        composeTestingInput tests n.sockets socket p (Hop.weigh p weight ⟨n, socket⟩) b) bsdf := by
  obtain ⟨kind, _, _, valid, _, _, prepared, sockets⟩ := n
  cases kind <;> cases valid <;> simp only [composeTesting] <;> rfl

variable (htests : ∀ kind : NodeKind, (kind.isLobe || kind == .output) = true → tests kind = true)

include htests

/-- When the test is made at lobes and outputs, nothing is composed with a black weight. -/
theorem composeTesting_of_isBlack (n : Node) (p : ShadingPoint) {weight : Spectrum}
    (h : weight.isBlack = true) (bsdf : Bsdf) : n.composeTesting tests p weight bsdf = bsdf := by
  induction n using Node.induction generalizing weight bsdf with
  | step n ih =>
    rw [composeTesting_eq, h, Bool.and_true]
    split_ifs with htest hend
    · rfl
    · exact absurd (htests _ (isLobe_or_output_of_isEnd hend)) htest
    · -- Neither an output nor a lobe node: the weight stays black on every way on.
      have hkind : n.kind ≠ .output := fun hk => htest (htests _ (by rw [hk]; rfl))
      have hstay : ∀ b : Bsdf, ∀ socket ∈ n.outlets, composeTestingInput tests n.sockets socket p
          (Hop.weigh p weight ⟨n, socket⟩) b = b := by
        intro b socket _
        rw [composeTestingInput_plugged]
        cases hc : n.plugged? socket with
        | none => rfl
        | some c =>
          have hdark := @Hop.isBlack_weigh p weight ⟨n, socket⟩ hkind h
          exact ih c (mem_children_of_plugged? hc) hdark b
      rw [List.foldl_ext _ (fun b _ => b) bsdf hstay, List.foldl_fixed]

theorem composeTesting_eq_compose (n : Node) (p : ShadingPoint) (weight : Spectrum) (bsdf : Bsdf) :
    n.composeTesting tests p weight bsdf = n.compose p weight bsdf := by
  induction n using Node.induction generalizing weight bsdf with
  | step n ih =>
    cases hblack : weight.isBlack with
    | true => rw [composeTesting_of_isBlack htests n p hblack, compose_of_isBlack hblack]
    | false =>
      have hinput (socket : String) (weight : Spectrum) (bsdf : Bsdf) :
          composeTestingInput tests n.sockets socket p weight bsdf =
            composeInput n.sockets socket p weight bsdf := by
        rw [composeTestingInput_plugged, composeInput_plugged]
        cases hc : n.plugged? socket with
        | none => rfl
        | some c => exact ih c (mem_children_of_plugged? hc) weight bsdf
      rw [composeTesting_eq, compose_eq, hblack, Bool.and_false]
      simp only [hinput]

end Testing

/-- **Testing for a black weight within the tree is only a short cut**: whatever the tree, the point
and the weight, infinities, NaN and zeros of either sign included, composing adds the lobes that it
adds when the test is made at lobe nodes and outputs, and at no blend and no sum. -/
theorem compose_eq_composeTesting_ends (n : Node) (p : ShadingPoint) (weight : Spectrum)
    (bsdf : Bsdf) :
    n.compose p weight bsdf =
      n.composeTesting (fun kind => kind.isLobe || kind == .output) p weight bsdf :=
  (composeTesting_eq_compose (fun _ h => h) n p weight bsdf).symm

/-! ### Blends at the ends of their range -/

theorem compose_of_blend {n : Node} (hkind : n.kind = .blend) (p : ShadingPoint)
    {weight : Spectrum} (h : weight.isBlack = false) (bsdf : Bsdf) :
    n.compose p weight bsdf =
      composeInput n.sockets "Bxdf2" p (weight.scale (blendFactor n.sockets p))
        (composeInput n.sockets "Bxdf1" p (weight.scale (1 - blendFactor n.sockets p)) bsdf) := by
  obtain ⟨kind, _, _, _, _, _, _, sockets⟩ := n
  obtain rfl : kind = .blend := hkind
  rw [compose, h, if_neg Bool.false_ne_true]

theorem composeInput_of_isBlack {weight : Spectrum} (h : weight.isBlack = true) (n : Node)
    (name : String) (p : ShadingPoint) (bsdf : Bsdf) :
    composeInput n.sockets name p weight bsdf = bsdf := by
  rw [composeInput_plugged]
  cases n.plugged? name with
  | none => rfl
  | some c => exact compose_of_isBlack h c p bsdf

/-- **A blend at an end of its range is its child**: with a weight of finite channels, a blend whose
factor resolves to what is not above 0, or to NaN, adds what the node plugged into its first side
adds with the same weight, and nothing when there is none; one whose factor resolves to what is not
below 1 adds what its second side adds. The other side adds nothing, whatever is plugged in there. -/
theorem compose_blend_ends {n : Node} (hkind : n.kind = .blend) (p : ShadingPoint)
    {weight : Spectrum} (hfinite : weight.isFinite = true) (bsdf : Bsdf) :
    (scalarInput n.sockets "Factor" p ≤ 0 ∨ (scalarInput n.sockets "Factor" p).isNaN = true →
      n.compose p weight bsdf =
        (n.plugged? "Bxdf1").elim bsdf (·.compose p weight bsdf)) ∧
    (1 ≤ scalarInput n.sockets "Factor" p →
      n.compose p weight bsdf =
        (n.plugged? "Bxdf2").elim bsdf (·.compose p weight bsdf)) := by
  rw [← composeInput_plugged, ← composeInput_plugged]
  cases hblack : weight.isBlack with
  | true =>
    rw [compose_of_isBlack hblack, composeInput_of_isBlack hblack, composeInput_of_isBlack hblack]
    exact ⟨fun _ => rfl, fun _ => rfl⟩
  | false =>
    rw [compose_of_blend hkind p hblack, blendFactor]
    constructor
    · intro hlow
      have hzero := Single.unitClamp_beq_zero hlow
      rw [Single.one_sub_of_beq_zero hzero, Spectrum.scale_one]
      exact composeInput_of_isBlack (Spectrum.isBlack_scale_of_beq_zero hfinite hzero) n "Bxdf2" p _
    · intro hhigh
      have hdark : (weight.scale (1 - 1)).isBlack = true :=
        Spectrum.isBlack_scale_of_beq_zero hfinite (by decide)
      rw [Single.unitClamp_of_one_le hhigh, Spectrum.scale_one, composeInput_of_isBlack hdark]

/-- A lambert and a reflection blended by a given factor. -/
def blended (factor : Float32) : Node :=
  let blend := (new .blend).withSocket ⟨"Bxdf1", .bsdf, .node (new .lambert)⟩
  let blend := blend.withSocket ⟨"Bxdf2", .bsdf, .node (new .microfacetReflection)⟩
  blend.withSocket ⟨"Factor", .float, .literal (.scalar factor)⟩

theorem compose_blended_ends :
    (blended (-2)).compose .origin .white .empty = (new .lambert).compose .origin .white .empty ∧
      (blended 2).compose .origin .white .empty =
        (new .microfacetReflection).compose .origin .white .empty :=
  ⟨(compose_blend_ends (n := blended (-2)) rfl .origin (by decide) .empty).1 (by decide),
    (compose_blend_ends (n := blended 2) rfl .origin (by decide) .empty).2 (by decide)⟩

/-! ### Lobes below a valid output -/

theorem compose_of_valid {t : Node} (hkind : t.kind = .output) (hvalid : t.valid = true)
    (p : ShadingPoint) {weight : Spectrum} (h : weight.isBlack = false) (bsdf : Bsdf) :
    t.compose p weight bsdf = (t.plugged? "Surface").elim bsdf (·.compose p .white bsdf) := by
  rw [← composeInput_plugged]
  obtain ⟨kind, _, _, valid, _, _, _, sockets⟩ := t
  obtain rfl : kind = .output := hkind
  obtain rfl : valid = true := hvalid
  rw [compose, h, if_neg Bool.false_ne_true]
  rfl

/-- **A valid output takes no account of the size of its weight**: the lobes it adds, at a point, are
the same for every weight that is not black and whatever lobes are there before, and the weight of
each is one amount in all three channels, finite, above 0 and at most 1. An output that is not valid
adds one lobe, with the weight it was given. -/
theorem compose_output {t : Node} (hkind : t.kind = .output) (p : ShadingPoint) :
    (t.valid = true → ∃ lobes : List Lobe,
      (∀ weight : Spectrum, weight.isBlack = false → ∀ bsdf : Bsdf,
        (t.compose p weight bsdf).lobes = bsdf.lobes ++ lobes) ∧
      ∀ lobe ∈ lobes,
        ∃ c : Float32, lobe.weight = .splat c ∧ c.isFinite = true ∧ 0 < c ∧ c ≤ 1) ∧
    (t.valid = false → ∀ weight : Spectrum, weight.isBlack = false → ∀ bsdf : Bsdf,
      (t.compose p weight bsdf).lobes =
        bsdf.lobes ++ [⟨.lambert (fallbackColor t.prepared), weight⟩]) := by
  constructor
  · intro hvalid
    cases hc : t.plugged? "Surface" with
    | none =>
      refine ⟨[], fun weight h bsdf => ?_, List.forall_mem_nil _⟩
      rw [compose_of_valid hkind hvalid p h, hc, List.append_nil]
      rfl
    | some c =>
      refine ⟨Route.lobes p .white c.routes, fun weight h bsdf => ?_,
        Route.grey_lobes c.routes Spectrum.isGrey_white⟩
      rw [compose_of_valid hkind hvalid p h, hc]
      exact compose_lobes_routes c p .white bsdf
  · intro hinvalid weight h bsdf
    obtain ⟨kind, _, _, valid, _, _, prepared, sockets⟩ := t
    obtain rfl : kind = .output := hkind
    obtain rfl : valid = false := hinvalid
    rw [compose, h, if_neg Bool.false_ne_true]
    rfl

theorem compose_output_checkered :
    checkered.validate.kind = .output ∧ checkered.validate.valid = true ∧
      ∃ lobes : List Lobe,
        (∀ weight : Spectrum, weight.isBlack = false → ∀ bsdf : Bsdf,
          (checkered.validate.compose .origin weight bsdf).lobes = bsdf.lobes ++ lobes) ∧
        ∀ lobe ∈ lobes,
          ∃ c : Float32, lobe.weight = .splat c ∧ c.isFinite = true ∧ 0 < c ∧ c ≤ 1 :=
  ⟨rfl, by decide, (compose_output (t := checkered.validate) rfl .origin).1 (by decide)⟩

end Node

end ShadeTree
