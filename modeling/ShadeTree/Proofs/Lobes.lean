import ShadeTree.Proofs.Effect
import ShadeTree.Proofs.Preparing
import ShadeTree.Proofs.Routes
import ShadeTree.Proofs.Typing

/-!
# The lobes of a valid tree

To find an output valid, validation looks for a lobe node anywhere below its surface, behind a socket
for a colour as well as behind one for scattering. Composing looks behind the sockets for scattering
alone. This module proves that it misses nothing by that: in a valid tree every lobe node lies at the
end of a route (`Exhausted`), so that a lobe is lost only where the weight of its route is black.

The reason is the typing of the sockets. Whatever is plugged into a socket for a value outputs a
value, so does everything plugged into that, and so on down: no lobe node is below a value node
(`Typed.not_isLobe`). The sockets that are left are the outlets of a kind (`NodeKind.outlets_true`),
and through these the routes lead. So the leaves of the routes are the lobe nodes of the tree, in the
same order (`Typed.map_leaf_routes`).
-/

namespace ShadeTree

/-! ### Lists -/

theorem flatMap_filterMap {α β γ : Type} (f : α → Option β) (g : β → List γ) (as : List α) :
    (as.filterMap f).flatMap g = as.flatMap fun a => (f a).elim [] g := by
  induction as with
  | nil => rfl
  | cons a as ih =>
    rw [List.filterMap_cons, List.flatMap_cons, ← ih]
    cases f a with
    | none => rfl
    | some b => rfl

/-- What is filtered out is not missed when nothing comes of it. -/
theorem flatMap_filter {α β : Type} {q : α → Bool} {f : α → List β} {as : List α}
    (h : ∀ a ∈ as, q a = false → f a = []) : (as.filter q).flatMap f = as.flatMap f := by
  induction as with
  | nil => rfl
  | cons a as ih =>
    obtain ⟨ha, has⟩ := List.forall_mem_cons.mp h
    rw [List.filter_cons, List.flatMap_cons, ← ih has]
    cases hq : q a with
    | true => rfl
    | false => rw [ha hq]; rfl

/-! ### Sockets for scattering -/

/-- The outlets of a kind, an output being valid, are the sockets it declares for scattering. -/
theorem NodeKind.outlets_true (kind : NodeKind) :
    kind.outlets true = (kind.sockets.filter (·.kind = .bsdf)).map (·.name) := by
  cases kind <;> rfl

theorem NodeKind.outlets_subset (kind : NodeKind) (valid : Bool) :
    kind.outlets valid ⊆ ["Surface", "Bxdf1", "Bxdf2"] := by
  cases kind <;> cases valid <;> decide

theorem NodeKind.outlets_of_outputs_value {kind : NodeKind} (h : kind.outputKind = .value) :
    kind.outlets true = [] := by
  cases kind <;> first | rfl | cases h

theorem NodeKind.outlets_of_isLobe {kind : NodeKind} (h : kind.isLobe = true) :
    kind.outlets true = [] := by
  cases kind <;> first | rfl | cases h

theorem NodeKind.not_isLobe_of_outputs_value {kind : NodeKind} (h : kind.outputKind = .value) :
    kind.isLobe = false := by
  cases kind <;> first | rfl | cases h

theorem NodeKind.nodup_names (kind : NodeKind) : (kind.sockets.map (·.name)).Nodup := by
  cases kind <;> decide

theorem NodeKind.socketKind?_of_mem {kind : NodeKind} {spec : SocketSpec} (h : spec ∈ kind.sockets) :
    kind.socketKind? spec.name = some spec.kind := by
  have hall : ∀ spec ∈ kind.sockets, kind.socketKind? spec.name = some spec.kind := by
    cases kind <;> decide
  exact hall spec h

/-- A socket that is not for scattering accepts nothing but values. -/
theorem SocketKind.outputs_value_of_accepts {kind : SocketKind} {out : OutputKind}
    (hkind : kind ≠ .bsdf) (h : kind.accepts out = true) : out = .value := by
  cases kind with
  | bsdf => exact absurd rfl hkind
  | color => exact accepts_color h
  | float => exact accepts_float h
  | text => cases out <;> cases h

namespace Node

/-! ### Sockets by name -/

theorem HasSchema.map_name {n : Node} (h : n.HasSchema) :
    n.sockets.map (·.name) = n.kind.sockets.map (·.name) := by
  have hnames := congrArg (List.map Prod.fst) h
  rwa [List.map_map, List.map_map] at hnames

theorem HasSchema.nodup_names {n : Node} (h : n.HasSchema) : (n.sockets.map (·.name)).Nodup := by
  rw [h.map_name]
  exact n.kind.nodup_names

/-- The names of the sockets differ, so each socket is the first of its name. -/
theorem HasSchema.socket?_name {n : Node} (h : n.HasSchema) {s : Socket Node} (hs : s ∈ n.sockets) :
    n.socket? s.name = some s := by
  obtain ⟨t, ht⟩ : ∃ t, n.socket? s.name = some t :=
    Option.isSome_iff_exists.mp (List.find?_isSome.mpr ⟨s, hs, beq_self_eq_true _⟩)
  rw [ht, List.inj_on_of_nodup_map h.nodup_names (List.mem_of_find?_eq_some ht) hs
    (name_of_socket? ht)]

/-- What is plugged into a node is what is plugged in under the names its kind declares. -/
theorem HasSchema.children_eq {n : Node} (h : n.HasSchema) :
    n.children = (n.kind.sockets.map (·.name)).filterMap n.plugged? := by
  rw [← h.map_name, List.filterMap_map, children]
  refine List.filterMap_congr fun s hs => ?_
  rw [Function.comp, plugged?, h.socket?_name hs, Option.bind_some]

/-- The place of a name is that among the sockets the kind declares. -/
theorem HasSchema.getElem?_place {n : Node} (h : n.HasSchema) (name : String) :
    n.sockets[n.kind.place name]? = n.socket? name := by
  have hindex := congrArg (List.findIdx (·.1 == name)) h
  rw [List.findIdx_map, List.findIdx_map] at hindex
  have hplace : n.place name = n.kind.place name := hindex
  rw [← hplace, Node.getElem?_place]

theorem HasSchema.place_name {n : Node} (h : n.HasSchema) {s : Socket Node} {i : ℕ}
    (hs : n.sockets[i]? = some s) : n.kind.place s.name = i := by
  have hplace : n.sockets[n.kind.place s.name]? = some s := by
    rw [h.getElem?_place, h.socket?_name (List.mem_of_getElem? hs)]
  have hlt : n.kind.place s.name < (n.sockets.map (·.name)).length := by
    rw [List.length_map]
    exact (List.getElem?_eq_some_iff.mp hplace).1
  refine (List.getElem?_inj hlt h.nodup_names).mp ?_
  rw [List.getElem?_map, List.getElem?_map, hplace, hs]

/-! ### Where lobe nodes lie -/

/-- What is plugged into a typed node outputs a value, unless it is plugged into an outlet. -/
theorem Typed.outlet_or_value {n c : Node} (hn : n.Typed) {s : Socket Node} (hs : s ∈ n.sockets)
    (hc : s.node? = some c) :
    (s.name ∈ n.kind.outlets true ∧ c.kind.outputKind = .bsdf) ∨ c.kind.outputKind = .value := by
  have haccepts := (accepting_iff.mp hn.accepting).1 s hs c hc
  by_cases hkind : s.kind = .bsdf
  · left
    rw [hkind] at haccepts
    refine ⟨?_, SocketKind.accepts_bsdf haccepts⟩
    have hdeclared : s.declared ∈ n.kind.sockets.map SocketSpec.declared := by
      rw [← (conforms_iff.mp hn.conforms).1]
      exact List.mem_map_of_mem hs
    obtain ⟨spec, hspec, heq⟩ := List.mem_map.mp hdeclared
    obtain ⟨hname, hspeckind⟩ := Prod.mk.inj heq
    rw [NodeKind.outlets_true]
    exact List.mem_map.mpr ⟨spec, List.mem_filter.mpr ⟨hspec, by simp [hspeckind, hkind]⟩, hname⟩
  · exact .inr (SocketKind.outputs_value_of_accepts hkind haccepts)

theorem Typed.of_mem_children {n c : Node} (hn : n.Typed) (hc : c ∈ n.children) : c.Typed :=
  ⟨(conforms_iff.mp hn.conforms).2 c hc, (accepting_iff.mp hn.accepting).2 c hc⟩

/-- Only value nodes are plugged into a value node. -/
theorem Typed.outputs_value_of_mem_children {n c : Node} (hn : n.Typed)
    (hvalue : n.kind.outputKind = .value) (hc : c ∈ n.children) : c.kind.outputKind = .value := by
  obtain ⟨s, hs, hsc⟩ := mem_children.mp hc
  rcases hn.outlet_or_value hs hsc with ⟨houtlet, -⟩ | hcvalue
  · rw [NodeKind.outlets_of_outputs_value hvalue] at houtlet
    cases houtlet
  · exact hcvalue

/-- There is no lobe node in a tree that outputs a value. -/
theorem Typed.not_isLobe {n : Node} (hn : n.Typed) (hvalue : n.kind.outputKind = .value) :
    ∀ m ∈ n.nodes, m.kind.isLobe = false := by
  induction n using Node.induction with
  | step n ih =>
    exact forall_nodes_iff.mpr ⟨NodeKind.not_isLobe_of_outputs_value hvalue, fun c hc =>
      ih c hc (hn.of_mem_children hc) (hn.outputs_value_of_mem_children hvalue hc)⟩

/-- The lobe nodes of a tree, each before those below it. -/
def lobeNodes (n : Node) : List Node := n.nodes.filter (·.kind.isLobe)

theorem lobeNodes_eq (n : Node) :
    n.lobeNodes = (if n.kind.isLobe then [n] else []) ++ n.children.flatMap lobeNodes := by
  rw [lobeNodes, nodes_eq, List.filter_cons, List.filter_flatMap]
  cases n.kind.isLobe <;> rfl

theorem Typed.lobeNodes_of_outputs_value {n : Node} (hn : n.Typed)
    (hvalue : n.kind.outputKind = .value) : n.lobeNodes = [] :=
  List.filter_eq_nil_iff.mpr fun m hm => by simp [hn.not_isLobe hvalue m hm]

/-- The lobe nodes below a typed node are those below its outlets. -/
theorem Typed.lobeNodes_children {n : Node} (hn : n.Typed) :
    n.children.flatMap lobeNodes =
      (n.kind.outlets true).flatMap fun socket => (n.plugged? socket).elim [] lobeNodes := by
  have hvalue : ∀ spec ∈ n.kind.sockets, decide (spec.kind = .bsdf) = false →
      (n.plugged? spec.name).elim [] lobeNodes = [] := by
    intro spec hspec hkind
    cases hc : n.plugged? spec.name with
    | none => rfl
    | some c =>
      have haccepts := hn.accepts (NodeKind.socketKind?_of_mem hspec) hc
      exact (hn.of_plugged? hc).lobeNodes_of_outputs_value
        (SocketKind.outputs_value_of_accepts (of_decide_eq_false hkind) haccepts)
  rw [(conforms_iff.mp hn.conforms).1.children_eq, flatMap_filterMap, List.flatMap_map,
    NodeKind.outlets_true, List.flatMap_map, flatMap_filter hvalue]

/-! ### Routes to lobe nodes -/

theorem Leads.socket_mem {n leaf : Node} {hops : List Hop} (h : n.Leads hops leaf) :
    ∀ hop ∈ hops, hop.socket ∈ ["Surface", "Bxdf1", "Bxdf2"] := by
  induction h with
  | here => exact List.forall_mem_nil _
  | down hsocket _ _ ih =>
    exact List.forall_mem_cons.mpr ⟨NodeKind.outlets_subset _ _ hsocket, ih⟩

theorem outlets_of_valid {n : Node} (hvalid : n.kind = .output → n.valid = true) :
    n.outlets = n.kind.outlets true := by
  rw [outlets]
  cases hkind : n.kind with
  | output => rw [hvalid hkind]
  | _ => rfl

theorem isEnd_of_valid {n : Node} (hvalid : n.kind = .output → n.valid = true) :
    n.isEnd = n.kind.isLobe := by
  rw [isEnd]
  cases hkind : n.kind with
  | output => rw [hvalid hkind]; rfl
  | _ => rfl

/-- What is plugged into an outlet of a typed node scatters. -/
theorem Typed.outputs_bsdf_of_outlet {n c : Node} (hn : n.Typed) {socket : String}
    (hsocket : socket ∈ n.kind.outlets true) (hc : n.plugged? socket = some c) :
    c.kind.outputKind = .bsdf := by
  rw [NodeKind.outlets_true] at hsocket
  obtain ⟨spec, hspec, rfl⟩ := List.mem_map.mp hsocket
  obtain ⟨hmem, hkind⟩ := List.mem_filter.mp hspec
  have hdeclared := NodeKind.socketKind?_of_mem hmem
  rw [of_decide_eq_true hkind] at hdeclared
  exact hn.outputs_bsdf hdeclared hc

/-- No output scatters, so a statement about valid outputs is open to it. -/
theorem valid_of_outputs_bsdf {c : Node} (h : c.kind.outputKind = .bsdf) :
    c.kind = .output → c.valid = true := by
  intro hkind
  rw [hkind] at h
  cases h

/-- The routes lead to the lobe nodes of the tree, and to each once. -/
theorem Typed.map_leaf_routes {n : Node} (hn : n.Typed)
    (hvalid : n.kind = .output → n.valid = true) : n.routes.map (·.leaf) = n.lobeNodes := by
  induction n using Node.induction with
  | step n ih =>
    rw [routes_eq, lobeNodes_eq, isEnd_of_valid hvalid, hn.lobeNodes_children]
    cases hlobe : n.kind.isLobe with
    | true =>
      -- A lobe node has no outlets: on either side nothing comes after it.
      rw [NodeKind.outlets_of_isLobe hlobe]
      rfl
    | false =>
      rw [if_neg Bool.false_ne_true, if_neg Bool.false_ne_true, List.nil_append, List.map_flatMap,
        outlets_of_valid hvalid]
      refine List.flatMap_congr fun socket hsocket => ?_
      rw [routesBy]
      cases hc : n.plugged? socket with
      | none => rfl
      | some c =>
        have hbsdf := hn.outputs_bsdf_of_outlet hsocket hc
        rw [Option.elim_some, Option.elim_some, List.map_map]
        exact ih c (mem_children_of_plugged? hc) (hn.of_plugged? hc)
          (valid_of_outputs_bsdf hbsdf)

/-- A route leads to the position its places tell. -/
theorem Conforms.below?_places {n leaf : Node} {hops : List Hop} (hn : n.Conforms)
    (h : n.Leads hops leaf) : n.below? (Route.places ⟨hops, leaf⟩) = some leaf := by
  induction h with
  | here => rfl
  | @down n c leaf socket hops _ hc _ ih =>
    have hplace : n.sockets[n.kind.place socket]?.bind Socket.node? = some c := by
      rw [(conforms_iff.mp hn).1.getElem?_place]
      exact hc
    have hbelow : (some c).bind (below? · (Route.places ⟨hops, leaf⟩)) = some leaf :=
      ih (hn.of_plugged? hc)
    rw [← hplace] at hbelow
    exact hbelow

/-- A route leads to every position of a lobe node. -/
theorem Typed.exists_route {n m : Node} (hn : n.Typed)
    (hvalid : n.kind = .output → n.valid = true) {position : List ℕ}
    (hm : n.below? position = some m) (hlobe : m.kind.isLobe = true) :
    ∃ r ∈ n.routes, r.places = position ∧ r.leaf = m := by
  induction position generalizing n with
  | nil =>
    obtain rfl : n = m := Option.some.inj hm
    refine ⟨⟨[], n⟩, (mem_routes_iff n _).mpr (.here ?_), rfl, rfl⟩
    rw [isEnd_of_valid hvalid, hlobe]
  | cons i rest ih =>
    obtain ⟨c, hplugged, hm⟩ := Option.bind_eq_some_iff.mp hm
    obtain ⟨s, hi, hsc⟩ := Option.bind_eq_some_iff.mp hplugged
    have hs := List.mem_of_getElem? hi
    have hschema := (conforms_iff.mp hn.conforms).1
    have hc : n.plugged? s.name = some c := by
      rw [plugged?, hschema.socket?_name hs, Option.bind_some, hsc]
    rcases hn.outlet_or_value hs hsc with ⟨houtlet, hbsdf⟩ | hvalue
    · obtain ⟨r, hr, hplaces, hleaf⟩ :=
        ih (hn.of_plugged? hc) (valid_of_outputs_bsdf hbsdf) hm
      have hleads := (mem_routes_iff c r).mp hr
      rw [← outlets_of_valid hvalid] at houtlet
      refine ⟨r.after ⟨n, s.name⟩, (mem_routes_iff n _).mpr (.down houtlet hc hleads), ?_, hleaf⟩
      rw [← hplaces, ← hschema.place_name hi]
      rfl
    · -- The position is below a value node, where there is no lobe node.
      have hdark := (hn.of_plugged? hc).not_isLobe hvalue m (mem_nodes_of_below? hm)
      rw [hlobe] at hdark
      cases hdark

end Node

/-! ### Light along a route -/

namespace Route

variable {p : ShadingPoint} {weight : Spectrum}

/-- No blend on the way turns the weight black. -/
def Undimmed (p : ShadingPoint) (weight : Spectrum) (r : Route) : Prop :=
  ∀ step ∈ r.hops.zip (r.weights p weight).tail,
    step.1.node.kind = .blend → step.2.isBlack = false

theorem undimmed_after (hop : Hop) (r : Route) : (r.after hop).Undimmed p weight ↔
    (hop.node.kind = .blend → (hop.weigh p weight).isBlack = false) ∧
      r.Undimmed p (hop.weigh p weight) := by
  obtain ⟨hops, leaf⟩ := r
  have hsteps : (hop :: hops).zip (List.scanl (Hop.weigh p) weight (hop :: hops)).tail =
      (hop, hop.weigh p weight) ::
        hops.zip (List.scanl (Hop.weigh p) (hop.weigh p weight) hops).tail := by
    rw [List.scanl_cons, List.tail_cons]
    cases hops <;> simp
  rw [Undimmed, weights, after, hsteps, List.forall_mem_cons]
  rfl

/-- Nothing but a blend takes the light from a step. -/
theorem isBlack_weigh {hop : Hop} (hkind : hop.node.kind ≠ .blend) (h : weight.isBlack = false) :
    (hop.weigh p weight).isBlack = false := by
  rw [Hop.weigh]
  cases hk : hop.node.kind with
  | output => exact (by decide : Spectrum.white.isBlack = false)
  | blend => exact absurd hk hkind
  | _ => exact h

/-- A route entered with light is lit unless a blend dims it. -/
theorem isLit_iff_undimmed (h : weight.isBlack = false) (r : Route) :
    r.isLit p weight = true ↔ r.Undimmed p weight := by
  obtain ⟨hops, leaf⟩ := r
  induction hops generalizing weight with
  | nil => simp [isLit, weights, Undimmed, h]
  | cons hop hops ih =>
    rw [show (⟨hop :: hops, leaf⟩ : Route) = after hop ⟨hops, leaf⟩ from rfl, isLit_after,
      undimmed_after, h, Bool.not_false, Bool.true_and]
    cases hblack : (hop.weigh p weight).isBlack with
    | false => simp [ih hblack]
    | true =>
      have hblend : hop.node.kind = .blend := by
        by_contra hkind
        rw [isBlack_weigh hkind h] at hblack
        cases hblack
      simp [isLit_of_isBlack hblack, hblend]

end Route

namespace Node

/-! ### Valid trees -/

/-- The routes of a tree exhaust its lobe nodes. -/
structure Exhausted (t : Node) : Prop where
  /-- A route leads through sockets for scattering alone. -/
  sockets : ∀ r ∈ t.routes, ∀ hop ∈ r.hops, hop.socket ∈ ["Surface", "Bxdf1", "Bxdf2"]
  /-- It follows what is plugged in down to its leaf. -/
  leads : ∀ r ∈ t.routes, t.Leads r.hops r.leaf
  /-- The positions of the lobe nodes are those that the routes lead to. -/
  places : ∀ position m, t.below? position = some m ∧ m.kind.isLobe = true ↔
    ∃ r ∈ t.routes, r.places = position ∧ r.leaf = m
  /-- The routes are in the order of the sockets, none twice. -/
  ascending : t.routes.Pairwise fun r s => r.places < s.places
  /-- They come to the lobe nodes in the order in which these stand in the tree. -/
  leaves : t.routes.map (·.leaf) = t.lobeNodes
  /-- There is a lobe node. -/
  lobeNodes_ne_nil : t.lobeNodes ≠ []

/-- Composing a tree at a point, with a weight and after some lobes, loses no lobe but for light. -/
structure Lossless (t : Node) (p : ShadingPoint) (weight : Spectrum) (before : Bsdf) : Prop where
  /-- The lobes are those that were there and one for each lit route, in order. -/
  lobes : (t.compose p weight before).lobes =
    before.lobes ++ (t.routes.filter (Route.isLit p weight)).map (Route.lobe p weight)
  /-- When no blend takes the light from a route, there is one for each lobe node. -/
  size : (∀ r ∈ t.routes, r.Undimmed p weight) →
    (t.compose p weight before).size = before.size + t.lobeNodes.length
  /-- When there is none at all, a blend has taken the light from every route. -/
  dimmed : (t.compose p weight before).isEmpty = true → ∀ r ∈ t.routes, ¬ r.Undimmed p weight

theorem Typed.exhausted {t : Node} (ht : t.Typed) (hvalid : t.kind = .output → t.valid = true)
    (hlobes : t.lobeNodes ≠ []) : t.Exhausted where
  sockets r hr := ((mem_routes_iff t r).mp hr).socket_mem
  leads r hr := (mem_routes_iff t r).mp hr
  places position m := by
    constructor
    · rintro ⟨hm, hlobe⟩
      exact ht.exists_route hvalid hm hlobe
    · rintro ⟨r, hr, rfl, rfl⟩
      have hleaf : r.leaf ∈ t.lobeNodes := by
        rw [← ht.map_leaf_routes hvalid]
        exact List.mem_map_of_mem hr
      exact ⟨ht.conforms.below?_places ((mem_routes_iff t r).mp hr), (List.mem_filter.mp hleaf).2⟩
  ascending := pairwise_routes t
  leaves := ht.map_leaf_routes hvalid
  lobeNodes_ne_nil := hlobes

theorem Exhausted.lossless {t : Node} (ht : t.Exhausted) (p : ShadingPoint) {weight : Spectrum}
    (h : weight.isBlack = false) (before : Bsdf) : t.Lossless p weight before where
  lobes := compose_lobes_routes t p weight before
  size hundimmed := by
    have hlit : t.routes.filter (Route.isLit p weight) = t.routes :=
      List.filter_eq_self.mpr fun r hr => (Route.isLit_iff_undimmed h r).mpr (hundimmed r hr)
    have hlength : t.lobeNodes.length = t.routes.length := by
      rw [← ht.leaves, List.length_map]
    rw [Bsdf.size, compose_lobes_routes, Route.lobes, hlit, List.length_append, List.length_map,
      hlength, Bsdf.size]
  dimmed hempty r hr hundimmed := by
    rw [Bsdf.isEmpty, compose_lobes_routes, List.isEmpty_iff, List.append_eq_nil_iff, Route.lobes,
      List.map_eq_nil_iff, List.filter_eq_nil_iff] at hempty
    exact hempty.2 r hr ((Route.isLit_iff_undimmed h r).mpr hundimmed)

/-- **A valid tree loses no lobe but for light**: if a tree with the declared sockets and an output
at its root was found valid, then as long as it is not edited and not reset, whether prepared or
not, every lobe node of it is at the end of a route through sockets for scattering. At every point
and with every weight that is not black, composing it adds one lobe for each lobe node whose route is
lit, in order. So it adds as many lobes as there are lobe nodes, at least one, unless a blend takes
the light from a route; and it has none to show only if every route is dimmed so. -/
theorem lossless_of_valid {n t : Node} (hconforms : n.Conforms) (hroot : n.kind = .output)
    (hvalid : n.validate.valid = true) (hunedited : t.reset = n.reset) (hstands : t.valid = true) :
    t.Exhausted ∧ ∀ (p : ShadingPoint) (weight : Spectrum), weight.isBlack = false →
      ∀ before, t.Lossless p weight before := by
  have htyped : t.Typed := typed_of_valid hvalid hunedited hconforms
  have hkind : t.kind = .output := by rw [← kind_reset, hunedited, kind_reset, hroot]
  have hsurfaced : t.Surfaced := by
    rw [← surfaced_reset_iff, hunedited, surfaced_reset_iff]
    exact ((valid_validate_iff n).mp hvalid).2
  have hlobes : t.lobeNodes ≠ [] := by
    obtain ⟨c, hc, l, hl, hlobe⟩ := (surfaced_iff.mp hsurfaced).1 hkind
    have hmem : l ∈ t.nodes := mem_nodes_iff.mpr (.inr ⟨c, mem_children_of_plugged? hc, hl⟩)
    exact List.ne_nil_of_mem (List.mem_filter.mpr ⟨hmem, hlobe⟩)
  have hexhausted : t.Exhausted := htyped.exhausted (fun _ => hstands) hlobes
  exact ⟨hexhausted, fun p weight h before => hexhausted.lossless p h before⟩

theorem lossless_checkered :
    ((checkered.validate.process .standard (.empty "texture")).1).Exhausted ∧
      ∀ (p : ShadingPoint) (weight : Spectrum), weight.isBlack = false → ∀ before,
        ((checkered.validate.process .standard (.empty "texture")).1).Lossless p weight before :=
  lossless_of_valid (n := checkered) (by decide) rfl (by decide)
    (by rw [reset_process, reset_validate]) (by rw [process, valid_processAt]; decide)

end Node

end ShadeTree
