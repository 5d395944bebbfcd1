import ShadeTree.Proofs.Tree

/-!
# Routes

What a tree composes, told without recursion on the tree: by the routes from its root to the nodes
that add a lobe. A route is followed from socket to socket. Along it a weight is carried, which each
node on the way changes, and the lobe at its end is added with the weight that is left, unless the
weight was black somewhere on the way.

`routes` enumerates the routes. It is pinned down by `Leads`, which says what a route is, and by the
order of the sockets, in which the enumeration ascends strictly. The main statement is
`compose_lobes`: composing adds to the lobes that are there those of the lit routes, in order.
-/

namespace ShadeTree

/-! ### Routes and their weights -/

/-- A step down a tree: the node it leaves, and the name of the socket it leaves by. -/
structure Hop where
  node : Node
  socket : String

/-- A way down a tree: the steps in order, and the node it ends at. -/
structure Route where
  hops : List Hop
  leaf : Node

/-- The place of a socket among those its kind declares. -/
def NodeKind.place (kind : NodeKind) (socket : String) : ℕ :=
  kind.sockets.findIdx (·.name == socket)

/-- The sockets through which a node of a kind passes its weight on, in order. An output does so
when it is valid. -/
def NodeKind.outlets (kind : NodeKind) (valid : Bool) : List String :=
  match kind with
  | .output => if valid then ["Surface"] else []
  | .blend | .add => ["Bxdf1", "Bxdf2"]
  | _ => []

/-- The outlets are in the order in which the kind declares its sockets. -/
theorem NodeKind.pairwise_outlets (kind : NodeKind) (valid : Bool) :
    (kind.outlets valid).Pairwise fun s t => kind.place s < kind.place t := by
  cases kind <;> cases valid <;> decide

/-- The weight that a step passes on: a blend splits the weight between its two inputs, and a valid
output starts again from full weight. -/
def Hop.weigh (p : ShadingPoint) (weight : Spectrum) (hop : Hop) : Spectrum :=
  match hop.node.kind with
  | .output => .white
  | .blend =>
    let f := Node.blendFactor hop.node.sockets p
    if hop.socket = "Bxdf1" then weight.scale (1 - f) else weight.scale f
  | _ => weight

/-- What a node adds by itself, with its inputs resolved: its own scattering, or else a diffuse lobe
of the fallback colour. -/
def Node.ownScatter (n : Node) (p : ShadingPoint) : Scatter :=
  (scatter? n.kind n.sockets p).getD (.lambert (fallbackColor n.prepared))

namespace Route

/-- The route with a step before it. -/
def after (hop : Hop) (r : Route) : Route := ⟨hop :: r.hops, r.leaf⟩

/-- The places of the sockets on the way. -/
def places (r : Route) : List ℕ := r.hops.map fun hop => hop.node.kind.place hop.socket

/-- The weights along the route, from the one it is entered with to the one left at its end. -/
def weights (p : ShadingPoint) (weight : Spectrum) (r : Route) : List Spectrum :=
  r.hops.scanl (Hop.weigh p) weight

/-- The weight left at the end. -/
def weight (p : ShadingPoint) (weight : Spectrum) (r : Route) : Spectrum :=
  r.hops.foldl (Hop.weigh p) weight

/-- No weight along the route is black. -/
def isLit (p : ShadingPoint) (weight : Spectrum) (r : Route) : Bool :=
  (r.weights p weight).all (!·.isBlack)

/-- The lobe at the end. -/
def lobe (p : ShadingPoint) (weight : Spectrum) (r : Route) : Lobe :=
  ⟨r.leaf.ownScatter p, r.weight p weight⟩

/-- The lobes of the lit ones among some routes. -/
def lobes (p : ShadingPoint) (weight : Spectrum) (rs : List Route) : List Lobe :=
  (rs.filter (isLit p weight)).map (lobe p weight)

variable {p : ShadingPoint} {weight : Spectrum}

theorem weights_getLast? (r : Route) :
    (r.weights p weight).getLast? = some (r.weight p weight) := by
  rw [weights, Route.weight, List.getLast?_scanl]

theorem isLit_after (hop : Hop) (r : Route) :
    (after hop r).isLit p weight = (!weight.isBlack && r.isLit p (hop.weigh p weight)) := by
  rw [isLit, weights, after, List.scanl_cons, List.all_cons]
  rfl

/-- A route entered with no light is not lit. -/
theorem isLit_of_isBlack (h : weight.isBlack = true) (r : Route) : r.isLit p weight = false := by
  obtain ⟨hops, leaf⟩ := r
  cases hops with
  | nil => simp [isLit, weights, h]
  | cons hop rest => rw [show (⟨hop :: rest, leaf⟩ : Route) = after hop ⟨rest, leaf⟩ from rfl,
      isLit_after, h, Bool.not_true, Bool.false_and]

theorem lobes_of_isBlack (h : weight.isBlack = true) (rs : List Route) :
    lobes p weight rs = [] := by
  have hdark : rs.filter (isLit p weight) = [] :=
    List.filter_eq_nil_iff.mpr fun r _ => by simp [isLit_of_isBlack h]
  rw [lobes, hdark, List.map_nil]

theorem lobes_append (rs ts : List Route) :
    lobes p weight (rs ++ ts) = lobes p weight rs ++ lobes p weight ts := by
  rw [lobes, List.filter_append, List.map_append]
  rfl

/-- Routes that begin with the same step contribute what they contribute from its end. -/
theorem lobes_map_after (h : weight.isBlack = false) (hop : Hop) (rs : List Route) :
    lobes p weight (rs.map (after hop)) = lobes p (hop.weigh p weight) rs := by
  rw [lobes, List.filter_map, List.map_map, lobes]
  have hlit : isLit p weight ∘ after hop = isLit p (hop.weigh p weight) :=
    funext fun r => by rw [Function.comp, isLit_after, h, Bool.not_false, Bool.true_and]
  rw [hlit]
  rfl

end Route

namespace Node

/-! ### The routes of a tree -/

/-- A route ends at a lobe node, and at an output that is not valid. -/
def isEnd (n : Node) : Bool := n.kind.isLobe || (n.kind == .output && !n.valid)

/-- The sockets through which a node passes its weight on, in order. -/
def outlets (n : Node) : List String := n.kind.outlets n.valid

/-- From a node, the steps lead down to a leaf. -/
inductive Leads : Node → List Hop → Node → Prop where
  /-- A node that ends a route leads to itself. -/
  | here {n : Node} : n.isEnd = true → Leads n [] n
  /-- Any other leads, through each of its outlets, wherever the node plugged in leads. -/
  | down {n c leaf : Node} {socket : String} {hops : List Hop} : socket ∈ n.outlets →
      n.plugged? socket = some c → Leads c hops leaf → Leads n (⟨n, socket⟩ :: hops) leaf

mutual

/-- The routes from a node, in the order of its sockets. -/
def routes (n : Node) : List Route :=
  match n with
  | ⟨_, _, _, _, _, _, _, sockets⟩ =>
    if n.isEnd then [⟨[], n⟩]
    else n.outlets.flatMap fun socket => (routesIn sockets socket).map (.after ⟨n, socket⟩)
termination_by structural n

/-- The routes from the node plugged into the first socket of a name. -/
def routesIn (sockets : List (Socket Node)) (name : String) : List Route :=
  match sockets with
  | [] => []
  | ⟨n, _, link⟩ :: rest =>
    if n = name then
      match link with
      | .node child => child.routes
      | _ => []
    else routesIn rest name
termination_by structural sockets

end

/-- The routes through one of a node's sockets. -/
def routesBy (n : Node) (socket : String) : List Route :=
  (n.plugged? socket).elim [] fun c => c.routes.map (.after ⟨n, socket⟩)

theorem routesIn_eq (sockets : List (Socket Node)) (name : String) :
    routesIn sockets name =
      ((sockets.find? (·.name == name)).bind Socket.node?).elim [] routes := by
  have h := eq_find?_of_cons (f := fun sockets => routesIn sockets name)
    (g := fun s => s.node?.elim [] routes) name (fun s rest => ?_) sockets
  · rw [h]
    cases sockets.find? (·.name == name) <;> rfl
  · obtain ⟨n, kind, link⟩ := s
    cases link <;> rfl

theorem routes_eq (n : Node) :
    n.routes = if n.isEnd then [⟨[], n⟩] else n.outlets.flatMap n.routesBy := by
  obtain ⟨kind, typeName, mask, valid, validated, processed, prepared, sockets⟩ := n
  rw [routes]
  congr 1
  refine List.flatMap_congr fun socket _ => ?_
  rw [routesIn_eq, routesBy, plugged?, socket?]
  cases (sockets.find? (·.name == socket)).bind Socket.node? with
  | none => rfl
  | some c => rfl

theorem not_isEnd_of_mem_outlets {n : Node} {socket : String} (h : socket ∈ n.outlets) :
    n.isEnd = false := by
  obtain ⟨kind, _, _, valid, _, _, _, _⟩ := n
  cases kind <;> cases valid <;> simp [outlets, NodeKind.outlets] at h <;> rfl

theorem mem_routesBy {n : Node} {socket : String} {r : Route} :
    r ∈ n.routesBy socket ↔
      ∃ c, n.plugged? socket = some c ∧ ∃ t ∈ c.routes, .after ⟨n, socket⟩ t = r := by
  rw [routesBy]
  cases n.plugged? socket with
  | none => simp
  | some c => simp [List.mem_map]

/-- The enumeration has the routes there are, and no others. -/
theorem mem_routes_iff (n : Node) (r : Route) : r ∈ n.routes ↔ n.Leads r.hops r.leaf := by
  induction n using Node.induction generalizing r with
  | step n ih =>
    rw [routes_eq]
    constructor
    · intro h
      split at h
      · obtain rfl := List.mem_singleton.mp h
        exact .here ‹_›
      · obtain ⟨socket, hsocket, hr⟩ := List.mem_flatMap.mp h
        obtain ⟨c, hc, t, ht, rfl⟩ := mem_routesBy.mp hr
        exact .down hsocket hc ((ih c (mem_children_of_plugged? hc) t).mp ht)
    · intro h
      obtain ⟨hops, leaf⟩ := r
      cases h with
      | here hend =>
        rw [if_pos hend]
        exact List.mem_singleton_self _
      | @down _ c _ socket hops hsocket hc hleads =>
        rw [if_neg (by rw [not_isEnd_of_mem_outlets hsocket]; exact Bool.false_ne_true)]
        have ht := (ih c (mem_children_of_plugged? hc) ⟨hops, leaf⟩).mpr hleads
        exact List.mem_flatMap.mpr ⟨socket, hsocket, mem_routesBy.mpr ⟨c, hc, _, ht, rfl⟩⟩

/-- The enumeration ascends strictly in the order of the sockets, so it has no route twice. -/
theorem pairwise_routes (n : Node) : n.routes.Pairwise fun r s => r.places < s.places := by
  induction n using Node.induction with
  | step n ih =>
    rw [routes_eq]
    split
    · exact List.pairwise_singleton _ _
    · rw [List.pairwise_flatMap]
      refine ⟨fun socket _ => ?_, (n.kind.pairwise_outlets n.valid).imp fun hplace r hr s hs => ?_⟩
      · rw [routesBy]
        cases hc : n.plugged? socket with
        | none => exact .nil
        | some c =>
          refine List.pairwise_map.mpr ((ih c (mem_children_of_plugged? hc)).imp fun hlt => ?_)
          exact List.cons_lt_cons_iff.mpr (.inr ⟨rfl, hlt⟩)
      · obtain ⟨c, -, r, -, rfl⟩ := mem_routesBy.mp hr
        obtain ⟨d, -, s, -, rfl⟩ := mem_routesBy.mp hs
        exact List.cons_lt_cons_iff.mpr (.inl hplace)

/-! ### Composing along the routes -/

theorem composeInput_plugged (n : Node) (name : String) (p : ShadingPoint) (weight : Spectrum)
    (bsdf : Bsdf) :
    composeInput n.sockets name p weight bsdf =
      (n.plugged? name).elim bsdf (·.compose p weight bsdf) := by
  rw [composeInput_eq, plugged?, socket?]
  cases n.sockets.find? (·.name == name) with
  | none => rfl
  | some s =>
    obtain ⟨_, _, link⟩ := s
    cases link <;> rfl

/-- Composing a node: with no light there is nothing to add, the end of a route adds its own lobe,
and any other node composes what is plugged into its outlets. -/
theorem compose_eq (n : Node) (p : ShadingPoint) (weight : Spectrum) (bsdf : Bsdf) :
    n.compose p weight bsdf =
      if weight.isBlack then bsdf
      else if n.isEnd then bsdf.add (n.ownScatter p) weight
      else n.outlets.foldl
        (fun b socket => composeInput n.sockets socket p (Hop.weigh p weight ⟨n, socket⟩) b)
        bsdf := by
  obtain ⟨kind, _, _, valid, _, _, prepared, sockets⟩ := n
  cases kind <;> cases valid <;> simp only [compose] <;> rfl

/-- Composing what is plugged into some sockets adds the lobes of the routes through them. -/
theorem foldl_composeInput_lobes {n : Node} {p : ShadingPoint} {weight : Spectrum}
    (h : weight.isBlack = false)
    (hchildren : ∀ c ∈ n.children, ∀ weight bsdf,
      (c.compose p weight bsdf).lobes = bsdf.lobes ++ Route.lobes p weight c.routes)
    (names : List String) (bsdf : Bsdf) :
    (names.foldl (fun b socket =>
      composeInput n.sockets socket p (Hop.weigh p weight ⟨n, socket⟩) b) bsdf).lobes =
      bsdf.lobes ++ Route.lobes p weight (names.flatMap n.routesBy) := by
  induction names generalizing bsdf with
  | nil => simp [Route.lobes]
  | cons socket rest ih =>
    rw [List.foldl_cons, ih, List.flatMap_cons, Route.lobes_append, ← List.append_assoc,
      composeInput_plugged, routesBy]
    congr 1
    cases hc : n.plugged? socket with
    | none => simp [Route.lobes]
    | some c =>
      rw [Option.elim_some, Option.elim_some, hchildren c (mem_children_of_plugged? hc),
        Route.lobes_map_after h]

theorem compose_lobes_routes (n : Node) (p : ShadingPoint) (weight : Spectrum) (bsdf : Bsdf) :
    (n.compose p weight bsdf).lobes = bsdf.lobes ++ Route.lobes p weight n.routes := by
  induction n using Node.induction generalizing weight bsdf with
  | step n ih =>
    rw [compose_eq]
    cases hblack : weight.isBlack with
    | true => rw [if_pos rfl, Route.lobes_of_isBlack hblack, List.append_nil]
    | false =>
      rw [if_neg Bool.false_ne_true, routes_eq]
      split
      · simp [Route.lobes, Route.isLit, Route.weights, hblack, Route.lobe, Route.weight, Bsdf.add]
      · exact foldl_composeInput_lobes hblack ih n.outlets bsdf

/-- **A tree composes the lobes of its lit routes**: the lobes that are there stay in front, and
each route along which no weight is black adds the lobe of its leaf with the last weight. The routes
are taken in the order of the sockets, each once. -/
theorem compose_lobes (n : Node) (p : ShadingPoint) (weight : Spectrum) (bsdf : Bsdf) :
    (n.compose p weight bsdf).lobes =
        bsdf.lobes ++ (n.routes.filter (Route.isLit p weight)).map (Route.lobe p weight) ∧
      (∀ r, r ∈ n.routes ↔ n.Leads r.hops r.leaf) ∧
      n.routes.Pairwise fun r s => r.places < s.places :=
  ⟨compose_lobes_routes n p weight bsdf, mem_routes_iff n, pairwise_routes n⟩

end Node

end ShadeTree
