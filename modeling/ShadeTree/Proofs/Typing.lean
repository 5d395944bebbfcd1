import ShadeTree.Proofs.Conformance
import ShadeTree.Proofs.Validity

/-!
# Types and shading

Shading is lenient: asked for its value, a node that outputs none resolves to zero, and asked for
its lobes, a value node has none. This module shows that a valid tree never relies on that. The
strict evaluators `resolve?` and `compose?` do as `resolve` and `compose` do, but they fail on a
node that is asked for what its kind does not output.

Three tables meet in the proof: which sockets a kind declares, what a socket accepts, and which
names shading reads. A tree is typed when its nodes have the declared sockets and everything plugged
in is accepted. What is read from a typed node at the name of a colour or a scalar is then a value
node, and what is composed at the name of a scattering socket is a scattering node, so each request
reaches a node that answers it.
-/

namespace ShadeTree

/-- A kind of node declares a socket for values under the name. -/
def NodeKind.HasValueSocket (kind : NodeKind) (name : String) : Prop :=
  kind.socketKind? name = some .color ∨ kind.socketKind? name = some .float

instance (kind : NodeKind) (name : String) : Decidable (kind.HasValueSocket name) :=
  inferInstanceAs (Decidable (_ ∨ _))

theorem SocketKind.accepts_color {out : OutputKind} (h : SocketKind.color.accepts out = true) :
    out = .value := by
  cases out <;> first | rfl | cases h

theorem SocketKind.accepts_float {out : OutputKind} (h : SocketKind.float.accepts out = true) :
    out = .value := by
  cases out <;> first | rfl | cases h

theorem SocketKind.accepts_bsdf {out : OutputKind} (h : SocketKind.bsdf.accepts out = true) :
    out = .bsdf := by
  cases out <;> first | rfl | cases h

namespace Node

/-! ### Strict evaluation -/

mutual

/-- The value a node outputs at a point, if each node asked for its value is one that outputs
values. -/
def resolve? (n : Node) (p : ShadingPoint) : Option Value :=
  match n with
  | ⟨kind, _, _, _, _, _, prepared, sockets⟩ =>
    if kind.outputKind ≠ .value then none
    else
      match prepared, kind with
      | .folded v, _ => some v
      | _, .constant => input? sockets "Color" p
      | _, .multiply => do
        let a ← input? sockets "Color1" p
        let b ← input? sockets "Color2" p
        return a.mul b
      | _, .mix => do
        let factor ← input? sockets "Factor" p
        let a ← input? sockets "Color1" p
        let b ← input? sockets "Color2" p
        return a.lerp b (Single.unitClamp factor.x)
      | _, .checker => do
        let scale ← input? sockets "Scale" p
        if isEvenCell p scale.x then input? sockets "Color1" p else input? sockets "Color2" p
      | .texture (some h), .imageTexture => some (h.value.sample p.u p.v)
      | _, _ => some .zero
termination_by structural n

/-- The value of the first socket of a name, if what is plugged in resolves strictly. -/
def input? (sockets : List (Socket Node)) (name : String) (p : ShadingPoint) : Option Value :=
  match sockets with
  | [] => some .zero
  | ⟨n, _, link⟩ :: rest =>
    if n = name then
      match link with
      | .literal v => some v
      | .text _ => some .zero
      | .node child => child.resolve? p
    else input? rest name p
termination_by structural sockets

end

/-- What a lobe node scatters, if its inputs resolve strictly. -/
def strictScatter? (kind : NodeKind) (sockets : List (Socket Node)) (p : ShadingPoint) :
    Option Scatter :=
  match kind with
  | .lambert => do
    let color ← input? sockets "Color" p
    return .lambert (.ofValue color)
  | .orenNayar => do
    let color ← input? sockets "Color" p
    let roughness ← input? sockets "Roughness" p
    return .orenNayar (.ofValue color) roughness.x
  | .microfacetReflection => do
    let color ← input? sockets "BaseColor" p
    let roughness ← input? sockets "Roughness" p
    return .microfacetReflection (.ofValue color) roughness.x
  | .microfacetRefraction => do
    let color ← input? sockets "BaseColor" p
    let roughness ← input? sockets "Roughness" p
    let ior ← input? sockets "IOR" p
    return .microfacetRefraction (.ofValue color) roughness.x ior.x
  | _ => none

mutual

/-- The lobes composed so far with those of a node below the root, if each node asked for lobes is
one that scatters and each asked for its value is one that outputs values. -/
def compose? (n : Node) (p : ShadingPoint) (weight : Spectrum) (bsdf : Bsdf) : Option Bsdf :=
  match n with
  | ⟨kind, _, _, _, _, _, _, sockets⟩ =>
    if kind.outputKind ≠ .bsdf then none
    else if weight.isBlack then some bsdf
    else
      match kind with
      | .blend => do
        let factor ← input? sockets "Factor" p
        let f := Single.unitClamp factor.x
        let bsdf ← composeInput? sockets "Bxdf1" p (weight.scale (1 - f)) bsdf
        composeInput? sockets "Bxdf2" p (weight.scale f) bsdf
      | .add => do
        let bsdf ← composeInput? sockets "Bxdf1" p weight bsdf
        composeInput? sockets "Bxdf2" p weight bsdf
      | _ => do
        let scatter ← strictScatter? kind sockets p
        return bsdf.add scatter weight
termination_by structural n

/-- The lobes composed so far with those of the node plugged into the first socket of a name, if it
composes strictly. -/
def composeInput? (sockets : List (Socket Node)) (name : String) (p : ShadingPoint)
    (weight : Spectrum) (bsdf : Bsdf) : Option Bsdf :=
  match sockets with
  | [] => some bsdf
  | ⟨n, _, link⟩ :: rest =>
    if n = name then
      match link with
      | .node child => child.compose? p weight bsdf
      | _ => some bsdf
    else composeInput? rest name p weight bsdf
termination_by structural sockets

end

/-- The lobes composed so far with those of a root, if it is an output and all below it composes
strictly. -/
def shade? (n : Node) (p : ShadingPoint) (weight : Spectrum) (bsdf : Bsdf) : Option Bsdf :=
  if n.kind ≠ .output then none
  else if weight.isBlack then some bsdf
  else if n.valid then composeInput? n.sockets "Surface" p .white bsdf
  else some (bsdf.add (.lambert (fallbackColor n.prepared)) weight)

/-- A read at a name is strict when the node plugged in resolves strictly. -/
theorem input?_eq {sockets : List (Socket Node)} {name : String} {p : ShadingPoint}
    (h : ∀ c, (sockets.find? (·.name == name)).bind Socket.node? = some c →
      c.resolve? p = some (c.resolve p)) :
    input? sockets name p = some (input sockets name p) := by
  have hstrict := eq_find?_of_cons (f := fun sockets => input? sockets name p)
    (g := fun s => s.node?.elim (some (s.resolve p)) (·.resolve? p)) name (fun s rest => ?_) sockets
  · rw [hstrict, input_eq]
    cases hs : sockets.find? (·.name == name) with
    | none => rfl
    | some s =>
      obtain ⟨n, kind, link⟩ := s
      cases link with
      | literal v => rfl
      | text t => rfl
      | node c => exact h c (by rw [hs]; rfl)
  · obtain ⟨n, kind, link⟩ := s
    cases link <;> rfl

/-- What is composed at a name is strict when the node plugged in composes strictly. -/
theorem composeInput?_eq {sockets : List (Socket Node)} {name : String} {p : ShadingPoint}
    {weight : Spectrum} {bsdf : Bsdf}
    (h : ∀ c, (sockets.find? (·.name == name)).bind Socket.node? = some c →
      c.compose? p weight bsdf = some (c.compose p weight bsdf)) :
    composeInput? sockets name p weight bsdf = some (composeInput sockets name p weight bsdf) := by
  have hstrict := eq_find?_of_cons (f := fun sockets => composeInput? sockets name p weight bsdf)
    (g := fun s => s.node?.elim (some bsdf) (·.compose? p weight bsdf)) name
    (fun s rest => ?_) sockets
  · rw [hstrict, composeInput_eq]
    cases hs : sockets.find? (·.name == name) with
    | none => rfl
    | some s =>
      obtain ⟨n, kind, link⟩ := s
      cases link with
      | literal v => rfl
      | text t => rfl
      | node c => exact h c (by rw [hs]; rfl)
  · obtain ⟨n, kind, link⟩ := s
    cases link <;> rfl

/-! ### Typed trees -/

/-- Every node of the tree has the sockets of its kind, and every node plugged in is accepted. -/
structure Typed (n : Node) : Prop where
  conforms : n.Conforms
  accepting : n.Accepting

theorem Typed.of_plugged? {n c : Node} (hn : n.Typed) {name : String}
    (hc : n.plugged? name = some c) : c.Typed :=
  ⟨hn.conforms.of_plugged? hc, (accepting_iff.mp hn.accepting).2 c (mem_children_of_plugged? hc)⟩

/-- What is plugged into a socket is accepted by the kind that is declared under its name. -/
theorem Typed.accepts {n c : Node} (hn : n.Typed) {name : String} {kind : SocketKind}
    (hkind : n.kind.socketKind? name = some kind) (hc : n.plugged? name = some c) :
    kind.accepts c.kind.outputKind = true := by
  obtain ⟨s, hs, hsc⟩ := plugged?_eq_some hc
  have hdeclared := (conforms_iff.mp hn.conforms).1.kind_of_socket? name
  rw [hs, hkind] at hdeclared
  obtain rfl : s.kind = kind := Option.some.inj hdeclared
  exact (accepting_iff.mp hn.accepting).1 s (List.mem_of_find?_eq_some hs) c hsc

theorem Typed.outputs_value {n c : Node} (hn : n.Typed) {name : String}
    (hname : n.kind.HasValueSocket name) (hc : n.plugged? name = some c) :
    c.kind.outputKind = .value := by
  rcases hname with hname | hname
  · exact SocketKind.accepts_color (hn.accepts hname hc)
  · exact SocketKind.accepts_float (hn.accepts hname hc)

theorem Typed.outputs_bsdf {n c : Node} (hn : n.Typed) {name : String}
    (hname : n.kind.socketKind? name = some .bsdf) (hc : n.plugged? name = some c) :
    c.kind.outputKind = .bsdf :=
  SocketKind.accepts_bsdf (hn.accepts hname hc)

/-! ### Values -/

/-- A typed value node resolves strictly: it reads none but its own sockets for values. -/
theorem Typed.resolve?_eq_some {n : Node} (hn : n.Typed) (hkind : n.kind.outputKind = .value)
    (p : ShadingPoint) : n.resolve? p = some (n.resolve p) := by
  induction n using Node.induction with
  | step n ih =>
    obtain ⟨kind, typeName, mask, valid, validated, processed, prepared, sockets⟩ := n
    have hinput : ∀ name, kind.HasValueSocket name →
        input? sockets name p = some (input sockets name p) := by
      intro name hname
      refine input?_eq fun c hc => ?_
      exact ih c (mem_children_of_plugged? hc) (hn.of_plugged? hc) (hn.outputs_value hname hc)
    cases kind with
    | constant =>
      have hcolor := hinput "Color" (by decide)
      cases prepared <;> simp [resolve?, resolve, NodeKind.outputKind, hcolor]
    | multiply =>
      have ha := hinput "Color1" (by decide)
      have hb := hinput "Color2" (by decide)
      cases prepared <;> simp [resolve?, resolve, NodeKind.outputKind, ha, hb]
    | mix =>
      have hfactor := hinput "Factor" (by decide)
      have ha := hinput "Color1" (by decide)
      have hb := hinput "Color2" (by decide)
      cases prepared <;> simp [resolve?, resolve, NodeKind.outputKind, hfactor, ha, hb]
    | checker =>
      have hscale := hinput "Scale" (by decide)
      have ha := hinput "Color1" (by decide)
      have hb := hinput "Color2" (by decide)
      cases prepared <;>
        simp [resolve?, resolve, NodeKind.outputKind, hscale, ha, hb, apply_ite some]
    | imageTexture =>
      cases prepared with
      | texture h => cases h <;> simp [resolve?, resolve, NodeKind.outputKind]
      | _ => simp [resolve?, resolve, NodeKind.outputKind]
    | _ => cases hkind

/-- A typed node reads a socket for values strictly. -/
theorem Typed.input?_eq_some {n : Node} (hn : n.Typed) {name : String}
    (hname : n.kind.HasValueSocket name) (p : ShadingPoint) :
    input? n.sockets name p = some (input n.sockets name p) :=
  input?_eq fun _ hc =>
    (hn.of_plugged? hc).resolve?_eq_some (hn.outputs_value hname hc) p

/-! ### Lobes -/

/-- A typed lobe node scatters strictly. -/
theorem Typed.strictScatter?_eq {n : Node} (hn : n.Typed) (p : ShadingPoint) :
    strictScatter? n.kind n.sockets p = scatter? n.kind n.sockets p := by
  have hinput : ∀ name, n.kind.HasValueSocket name →
      input? n.sockets name p = some (input n.sockets name p) :=
    fun name hname => hn.input?_eq_some hname p
  generalize n.kind = kind at hinput ⊢
  cases kind with
  | lambert =>
    have hcolor := hinput "Color" (by decide)
    simp [strictScatter?, scatter?, colorInput, hcolor]
  | orenNayar =>
    have hcolor := hinput "Color" (by decide)
    have hroughness := hinput "Roughness" (by decide)
    simp [strictScatter?, scatter?, colorInput, scalarInput, hcolor, hroughness]
  | microfacetReflection =>
    have hcolor := hinput "BaseColor" (by decide)
    have hroughness := hinput "Roughness" (by decide)
    simp [strictScatter?, scatter?, colorInput, scalarInput, hcolor, hroughness]
  | microfacetRefraction =>
    have hcolor := hinput "BaseColor" (by decide)
    have hroughness := hinput "Roughness" (by decide)
    have hior := hinput "IOR" (by decide)
    simp [strictScatter?, scatter?, colorInput, scalarInput, hcolor, hroughness, hior]
  | _ => rfl

/-- A typed scattering node composes strictly: it asks none but scattering nodes for lobes, and none
but value nodes for values. -/
theorem Typed.compose?_eq_some {n : Node} (hn : n.Typed) (hkind : n.kind.outputKind = .bsdf)
    (p : ShadingPoint) (weight : Spectrum) (bsdf : Bsdf) :
    n.compose? p weight bsdf = some (n.compose p weight bsdf) := by
  induction n using Node.induction generalizing weight bsdf with
  | step n ih =>
    obtain ⟨kind, typeName, mask, valid, validated, processed, prepared, sockets⟩ := n
    have hscatter : strictScatter? kind sockets p = scatter? kind sockets p :=
      hn.strictScatter?_eq p
    have hcompose : ∀ name, kind.socketKind? name = some .bsdf → ∀ weight bsdf,
        composeInput? sockets name p weight bsdf =
          some (composeInput sockets name p weight bsdf) := by
      intro name hname weight bsdf
      refine composeInput?_eq fun c hc => ?_
      exact ih c (mem_children_of_plugged? hc) (hn.of_plugged? hc) (hn.outputs_bsdf hname hc)
        weight bsdf
    by_cases hblack : weight.isBlack = true
    · simp [compose?, compose, hkind, hblack]
    cases kind with
    | blend =>
      have hname : NodeKind.blend.HasValueSocket "Factor" := by decide
      have hfactor : input? sockets "Factor" p = some (input sockets "Factor" p) :=
        hn.input?_eq_some hname p
      have hfirst := hcompose "Bxdf1" (by decide)
      have hsecond := hcompose "Bxdf2" (by decide)
      simp [compose?, compose, NodeKind.outputKind, hblack, blendFactor, scalarInput, hfactor,
        hfirst, hsecond]
    | add =>
      have hfirst := hcompose "Bxdf1" (by decide)
      have hsecond := hcompose "Bxdf2" (by decide)
      simp [compose?, compose, NodeKind.outputKind, hblack, hfirst, hsecond]
    | lambert | orenNayar | microfacetReflection | microfacetRefraction =>
      simp [compose?, compose, NodeKind.outputKind, hblack, hscatter, scatter?]
    | _ => cases hkind

/-! ### Valid trees -/

theorem typed_of_valid {n t : Node} (hvalid : n.validate.valid = true)
    (hunedited : t.reset = n.reset) (hconforms : n.Conforms) : t.Typed where
  conforms := conforms_of_reset_eq hunedited hconforms
  accepting := by
    rw [← accepting_reset_iff, hunedited, accepting_reset_iff]
    exact ((valid_validate_iff n).mp hvalid).1

/-- **Valid trees shade by their types**: if a tree with the declared sockets was found valid, then
as long as it is not edited, whether prepared or not, shading from its output asks lobes of
scattering nodes alone and values of value nodes alone, at every point, weight and lobes composed so
far. -/
theorem shade?_eq_some {n t : Node} (hconforms : n.Conforms) (hroot : n.kind = .output)
    (hvalid : n.validate.valid = true) (hunedited : t.reset = n.reset) (p : ShadingPoint)
    (weight : Spectrum) (bsdf : Bsdf) :
    t.shade? p weight bsdf = some (t.compose p weight bsdf) := by
  have htyped : t.Typed := typed_of_valid hvalid hunedited hconforms
  have hkind : t.kind = .output := by rw [← kind_reset, hunedited, kind_reset, hroot]
  obtain ⟨kind, typeName, mask, valid, validated, processed, prepared, sockets⟩ := t
  obtain rfl : kind = .output := hkind
  have hname : NodeKind.output.socketKind? "Surface" = some .bsdf := by decide
  have hsurface : composeInput? sockets "Surface" p .white bsdf =
      some (composeInput sockets "Surface" p .white bsdf) := by
    refine composeInput?_eq fun c hc => ?_
    exact (htyped.of_plugged? hc).compose?_eq_some (htyped.outputs_bsdf hname hc) p .white bsdf
  rw [shade?, compose, if_neg (not_not.mpr rfl)]
  by_cases hblack : weight.isBlack = true
  · rw [if_pos hblack, if_pos hblack]
  rw [if_neg hblack, if_neg hblack]
  cases valid with
  | true => simpa using hsurface
  | false => rfl

/-- A checkered lambert blended with a reflection, by as much as a texture says. -/
def checkered : Node :=
  let checker := (new .checker).withSocket ⟨"Color1", .color, .node (new .constant)⟩
  let lambert := (new .lambert).withSocket ⟨"Color", .color, .node checker⟩
  let blend := (new .blend).withSocket ⟨"Bxdf1", .bsdf, .node lambert⟩
  let blend := blend.withSocket ⟨"Bxdf2", .bsdf, .node (new .microfacetReflection)⟩
  let blend := blend.withSocket ⟨"Factor", .float, .node (new .imageTexture)⟩
  (new .output).withSocket ⟨"Surface", .bsdf, .node blend⟩

theorem shade?_checkered :
    (checkered.validate.process .standard (.empty "texture")).1.shade? .origin .white .empty =
      some ((checkered.validate.process .standard (.empty "texture")).1.evaluate .origin) :=
  shade?_eq_some (n := checkered) (by decide) rfl (by decide)
    (by rw [reset_process, reset_validate]) .origin .white .empty

end Node

end ShadeTree
