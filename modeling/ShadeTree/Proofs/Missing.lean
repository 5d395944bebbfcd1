import ShadeTree.Graph
import ShadeTree.Proofs.Passing
import ShadeTree.Proofs.Representation

/-!
# Missing textures

An image texture that preparation has passed holds what was found of its texture then, and where
nothing was found this was reported then. By the time a tree is prepared again the report is gone,
and the socket of the node may hold another name. What can still be said of it is a matter of
accounts: while trees are made (`Told`), no more of their nodes come to lack their texture than
textures are reported missing (`Told.unboundIn_le`).

The main statement, `prepares_of_reached`, joins this to what preparation passes. That it does not
pass every node is `exists_unpassed`.
-/

namespace ShadeTree.Node

/-! ### The account of missing textures -/

/-- An image texture that was passed and has no texture. -/
def isUnbound (n : Node) : Bool :=
  match n.prepared with
  | .texture none => true
  | _ => false

/-- How many such nodes there are in a tree. -/
def unbound (n : Node) : ℕ := n.nodes.countP isUnbound

/-- How many there are in some trees. -/
def unboundIn (trees : Multiset Node) : ℕ := (trees.map unbound).sum

/-- How many textures a report tells are missing. -/
def missing (report : Report) : ℕ :=
  report.countP fun warning => match warning with
    | .missingTexture _ _ => true
    | _ => false

@[simp] theorem unboundIn_cons (n : Node) (trees : Multiset Node) :
    unboundIn (n ::ₘ trees) = unbound n + unboundIn trees := by
  simp [unboundIn]

@[simp] theorem unboundIn_add (trees others : Multiset Node) :
    unboundIn (trees + others) = unboundIn trees + unboundIn others := by
  simp [unboundIn]

@[simp] theorem unboundIn_singleton (n : Node) : unboundIn {n} = unbound n := by
  simp [unboundIn]

@[simp] theorem missing_append (report others : Report) :
    missing (report ++ others) = missing report + missing others := List.countP_append

theorem unbound_eq (n : Node) :
    unbound n = unboundIn n.children + if n.isUnbound then 1 else 0 := by
  rw [unbound, nodes_eq, List.countP_cons, List.countP_flatMap]
  rfl

theorem unbound_withSocket {n : Node} {s t : Socket Node} (ht : n.socket? s.name = some t) :
    unbound (n.withSocket s) + unboundIn t.node?.toList = unbound n + unboundIn s.node?.toList := by
  have hchildren : ((n.withSocket s).children : Multiset Node) + t.node?.toList =
      (n.children : Multiset Node) + s.node?.toList := plugged_replaceIn ht
  have hsum := congrArg unboundIn hchildren
  rw [unboundIn_add, unboundIn_add] at hsum
  have hroot : (n.withSocket s).isUnbound = n.isUnbound := rfl
  rw [unbound_eq, unbound_eq n, hroot]
  omega

theorem unbound_putAt {n m : Node} {path : List String} (h : n.at? path = some m) (new : Node) :
    unbound (n.putAt new path) + unbound m = unbound n + unbound new := by
  induction path generalizing n with
  | nil =>
    obtain rfl : n = m := Option.some.inj h
    exact Nat.add_comm _ _
  | cons name path ih =>
    obtain ⟨child, hchild, hm⟩ := Option.bind_eq_some_iff.mp h
    obtain ⟨s, hs, hnode⟩ := Option.bind_eq_some_iff.mp hchild
    obtain rfl := name_of_socket? hs
    have hbelow := ih hm
    have hswap := unbound_withSocket (s := s.connect (child.putAt new path)) hs
    have hput : (s.connect (child.putAt new path)).node? = some (child.putAt new path) := rfl
    rw [hnode, hput, Option.toList_some, Option.toList_some, Multiset.coe_singleton,
      Multiset.coe_singleton, unboundIn_singleton, unboundIn_singleton] at hswap
    rw [putAt_cons hs hnode]
    omega

/-- A walk that leaves on every node what preparation has left there keeps the count. -/
theorem unbound_walk {f : Node → Node}
    (hsockets : ∀ n, (f n).sockets = n.sockets.map (Socket.map f))
    (hprepared : ∀ n, (f n).prepared = n.prepared) (n : Node) : unbound (f n) = unbound n := by
  have hunbound : isUnbound ∘ f = isUnbound :=
    funext fun m => by rw [Function.comp, isUnbound, hprepared, isUnbound]
  rw [unbound, nodes_map hsockets, List.countP_map, hunbound, unbound]

theorem unbound_of_fresh {n : Node} (h : n.Fresh) : unbound n = 0 := by
  refine List.countP_eq_zero.mpr fun m hm => ?_
  rw [isUnbound, (h m hm).2]
  exact Bool.false_ne_true

theorem unbound_settle (config : Config) (path : String) (n : Node) (t : Pool Image) :
    unbound (settle config path n t).1 ≤ unbound n + missing (settle config path n t).2.2 := by
  have hchildren : (settle config path n t).1.children = n.children := by
    rw [settle_fst]
    rfl
  have hroot : (if (settle config path n t).1.isUnbound then 1 else 0) ≤
      (if n.isUnbound then 1 else 0) + missing (settle config path n t).2.2 := by
    rw [settle]
    split
    · exact Nat.zero_le _
    · split
      · exact Nat.zero_le _
      · exact Nat.le_add_left 1 _
    · split
      · exact Nat.zero_le _
      · exact Nat.le_add_right _ _
  rw [unbound_eq, unbound_eq n, hchildren]
  omega

theorem unbound_processIn (config : Config) (path : String) (sockets : List (Socket Node))
    (hchildren : ∀ c ∈ sockets.filterMap Socket.node?, ∀ path t,
      unbound (processAt config path c t).1 ≤
        unbound c + missing (processAt config path c t).2.2) (t : Pool Image) :
    unboundIn ((processIn config path sockets t).1.filterMap Socket.node?) ≤
      unboundIn (sockets.filterMap Socket.node?) +
        missing (processIn config path sockets t).2.2 := by
  induction sockets generalizing t with
  | nil => exact Nat.zero_le _
  | cons s rest ih =>
    obtain ⟨name, kind, link⟩ := s
    cases link with
    | literal v => exact ih hchildren t
    | text s => exact ih hchildren t
    | node c =>
      obtain ⟨hc, hrest⟩ := List.forall_mem_cons.mp hchildren
      have hfirst := hc (childPath path name c.typeName) t
      have hothers := ih hrest (processAt config (childPath path name c.typeName) c t).2.1
      have hcons : ∀ (d : Node) (ss : List (Socket Node)),
          unboundIn ((⟨name, kind, .node d⟩ :: ss).filterMap Socket.node?) =
            unbound d + unboundIn (ss.filterMap Socket.node?) :=
        fun d ss => by
          have hplugged : (⟨name, kind, .node d⟩ : Socket Node).node? = some d := rfl
          rw [List.filterMap_cons_some hplugged, ← Multiset.cons_coe, unboundIn_cons]
      simp only [processIn, missing_append]
      rw [hcons, hcons]
      exact (Nat.add_le_add hfirst hothers).trans_eq (Nat.add_add_add_comm _ _ _ _)

/-- Preparing a tree reports a missing texture for every node that it leaves without one. -/
theorem unbound_processAt (config : Config) (path : String) (n : Node) (t : Pool Image) :
    unbound (processAt config path n t).1 ≤
      unbound n + missing (processAt config path n t).2.2 := by
  induction n using Node.induction generalizing path t with
  | step n ih =>
    rw [processAt_eq]
    split
    · exact Nat.le_add_right _ _
    · let below := processIn config path n.sockets t
      let passed : Node := { n with processed := true, sockets := below.1 }
      have hbelow : unboundIn passed.children ≤ unboundIn n.children + missing below.2.2 :=
        unbound_processIn config path n.sockets ih t
      have hown := unbound_settle config path passed below.2.1
      have hpassed := unbound_eq passed
      have hn := unbound_eq n
      have hroot : passed.isUnbound = n.isUnbound := rfl
      rw [hroot] at hpassed
      change unbound (settle config path passed below.2.1).1 ≤
        unbound n + missing (below.2.2 ++ (settle config path passed below.2.1).2.2)
      rw [missing_append]
      omega

/-- An operation that passes nothing adds to the trees no image texture that lacks its texture. -/
theorem Operation.unbound_le {m m' : Node} {ins outs : Multiset Node} (h : Operation m ins m' outs)
    (hquiet : m'.processed = true → m.processed = true) :
    unbound m' + unboundIn outs ≤ unbound m + unboundIn ins := by
  cases h with
  | @setLiteral _ _ text _ _ h =>
    obtain ⟨s, hs, heq⟩ := Option.map_eq_some_iff.mp h
    obtain rfl := name_of_socket? hs
    obtain ⟨rfl, -, rfl⟩ := by simpa using heq
    have hname : (s.setLiteral text).1.name = s.name :=
      congrArg Prod.fst (s.declared_setLiteral text)
    have hswap := unbound_withSocket (s := (s.setLiteral text).1) (hname ▸ hs)
    rw [s.node?_setLiteral] at hswap
    exact hswap.le
  | connect h =>
    obtain ⟨s, hs, heq⟩ := Option.map_eq_some_iff.mp h
    obtain rfl := name_of_socket? hs
    obtain ⟨rfl, rfl⟩ := Prod.mk.inj heq
    exact (unbound_withSocket (s := s.connect _) hs).le
  | disconnect h =>
    obtain ⟨s, hs, heq⟩ := Option.map_eq_some_iff.mp h
    obtain rfl := name_of_socket? hs
    obtain ⟨rfl, rfl⟩ := Prod.mk.inj heq
    have hname : s.disconnect.name = s.name := congrArg Prod.fst s.declared_disconnect
    have hswap := unbound_withSocket (s := s.disconnect) (hname ▸ hs)
    rw [s.node?_disconnect] at hswap
    exact hswap.le
  | infer =>
    rw [unbound_walk sockets_infer (fun n => by rw [infer_eq])]
  | validate => rw [unbound_walk sockets_validate prepared_validate]
  | process config textures =>
    have hprocessed := hquiet (processed_processAt config m.typeName m textures)
    rw [process_of_processed hprocessed]
  | reset =>
    rw [unbound_of_fresh (fresh_reset m)]
    exact Nat.zero_le _

/-- An operation passes a node only if it is preparation. -/
theorem Operation.quiet_or {m m' : Node} {ins outs : Multiset Node} (h : Operation m ins m' outs) :
    (m'.processed = true → m.processed = true) ∨
      ∃ config textures, ins = 0 ∧ m' = (m.process config textures).1 ∧ outs = 0 := by
  cases h with
  | setLiteral h =>
    obtain ⟨s, -, heq⟩ := Option.map_eq_some_iff.mp h
    obtain ⟨rfl, -, -⟩ := by simpa using heq
    exact .inl id
  | connect h =>
    obtain ⟨s, -, heq⟩ := Option.map_eq_some_iff.mp h
    obtain ⟨rfl, -⟩ := Prod.mk.inj heq
    exact .inl id
  | disconnect h =>
    obtain ⟨s, -, heq⟩ := Option.map_eq_some_iff.mp h
    obtain ⟨rfl, -⟩ := Prod.mk.inj heq
    exact .inl id
  | infer => exact .inl fun h => by rwa [infer_eq] at h
  | validate => exact .inl fun h => by rwa [processed_validate] at h
  | process config textures => exact .inr ⟨config, textures, rfl, rfl, rfl⟩
  | reset =>
    refine .inl fun h => ?_
    rw [reset_eq] at h
    cases h

/-! ### What was told of a forest -/

/-- The forests that there are, each with what preparations have told while it was made. -/
inductive Told : Multiset Node → Report → Prop where
  | nothing : Told 0 []
  | new {forest : Multiset Node} {log : Report} (kind : NodeKind) :
      Told forest log → Told (new kind ::ₘ forest) log
  | create {r : Registry} {name : String} {fresh : Node} {made forest : Multiset Node}
      {told log : Report} :
      Told made told → (∀ node, (name, node) ∈ r.types → node ∈ made) →
        r.create? name = some fresh → Told forest log → Told (fresh ::ₘ forest) (told ++ log)
  /-- An operation after which a node is not passed that was not passed before tells nothing. -/
  | operate {n m m' : Node} {path : List String} {ins outs forest : Multiset Node} {log : Report} :
      Told (n ::ₘ (ins + forest)) log → n.at? path = some m → Operation m ins m' outs →
        (m'.processed = true → m.processed = true) →
          Told (n.putAt m' path ::ₘ (outs + forest)) log
  | process {n m : Node} {path : List String} {forest : Multiset Node} {log : Report}
      (config : Config) (textures : Pool Image) :
      Told (n ::ₘ forest) log → n.at? path = some m →
        Told (n.putAt (m.process config textures).1 path ::ₘ forest)
          (log ++ (m.process config textures).2.2)
  | drop {n : Node} {forest : Multiset Node} {log : Report} :
      Told (n ::ₘ forest) log → Told forest log

variable {forest : Multiset Node} {log : Report}

/-- There are no other forests than there were. -/
theorem Told.reached (h : Told forest log) : Reached forest := by
  induction h with
  | nothing => exact .nothing
  | new kind _ ih => exact .new kind ih
  | create _ hmade hfresh _ ih ih' => exact .create ih hmade hfresh ih'
  | operate _ hm hop _ ih => exact .operate ih hm hop
  | @process n m path forest _ config textures _ hm ih =>
    have hforest : Reached (n ::ₘ (0 + forest)) := by rwa [zero_add]
    have hnext := hforest.operate hm (.process m config textures)
    rwa [zero_add] at hnext
  | drop _ ih => exact .drop ih

/-- Whatever forest there is, something was told while it was made. -/
theorem Reached.exists_told (h : Reached forest) : ∃ log, Told forest log := by
  induction h with
  | nothing => exact ⟨[], .nothing⟩
  | new kind _ ih =>
    obtain ⟨log, hlog⟩ := ih
    exact ⟨log, .new kind hlog⟩
  | create _ hmade hfresh _ ih ih' =>
    obtain ⟨told, htold⟩ := ih
    obtain ⟨log, hlog⟩ := ih'
    exact ⟨told ++ log, .create htold hmade hfresh hlog⟩
  | @operate n m m' path ins outs forest _ hm hop ih =>
    obtain ⟨log, hlog⟩ := ih
    rcases hop.quiet_or with hquiet | ⟨config, textures, rfl, rfl, rfl⟩
    · exact ⟨log, .operate hlog hm hop hquiet⟩
    · rw [zero_add] at hlog ⊢
      exact ⟨_, .process config textures hlog hm⟩
  | drop _ ih =>
    obtain ⟨log, hlog⟩ := ih
    exact ⟨log, .drop hlog⟩

/-- There are no more passed image textures without a texture than were told to be missing. -/
theorem Told.unboundIn_le (h : Told forest log) : unboundIn forest ≤ missing log := by
  induction h with
  | nothing => exact Nat.zero_le _
  | new kind _ ih =>
    rw [unboundIn_cons, unbound_of_fresh (fresh_new kind), Nat.zero_add]
    exact ih
  | @create r name fresh made forest told log _ hmade hfresh _ ih ih' =>
    obtain ⟨node, hnode, rfl⟩ := Registry.exists_of_create? hfresh
    have hcounted : unbound { node with typeName := name } = unbound node := by
      rw [unbound_eq, unbound_eq node]
      rfl
    obtain ⟨others, rfl⟩ := Multiset.exists_cons_of_mem (hmade node hnode)
    rw [unboundIn_cons] at ih ⊢
    rw [missing_append, hcounted]
    omega
  | @operate n m m' path ins outs forest log _ hm hop hquiet ih =>
    have hsubtree := hop.unbound_le hquiet
    have hput := unbound_putAt hm m'
    rw [unboundIn_cons, unboundIn_add] at ih ⊢
    omega
  | @process n m path forest log config textures _ hm ih =>
    have hsubtree := unbound_processAt config m.typeName m textures
    have hput := unbound_putAt hm (m.process config textures).1
    change unbound (m.process config textures).1 ≤
      unbound m + missing (m.process config textures).2.2 at hsubtree
    rw [unboundIn_cons] at ih ⊢
    rw [missing_append]
    omega
  | drop _ ih =>
    rw [unboundIn_cons] at ih
    omega

/-! ### Preparing a tree -/

/-- What preparing a tree that operations have made comes to, by what was told before and the other
trees there are. -/
structure Prepares (textures : Pool Image) (log : Report) (forest : Multiset Node) (n after : Node)
    (report : Report) : Prop where
  passes : Passes textures report n after
  all_processed_iff : (∀ m ∈ after.nodes, m.processed = true) ↔ n.Covered
  /-- The texture of an image texture that was passed, now or before, was looked up. -/
  looked_up : ∀ m ∈ after.nodes, m.kind = .imageTexture → m.processed = true →
    ∃ handle, m.prepared = .texture handle
  /-- For each that has none a missing texture was reported, now or before. -/
  accounted : unboundIn (after ::ₘ forest) ≤ missing (log ++ report)

theorem sheltered_validate_iff (n : Node) (position : List ℕ) :
    n.validate.Sheltered position ↔ n.Sheltered position := by
  have hbelow : ∀ above, (∃ m, n.validate.below? above = some m ∧ m.processed = true) ↔
      ∃ m, n.below? above = some m ∧ m.processed = true := by
    intro above
    rw [below?_map sockets_validate]
    cases n.below? above <;> simp
  simp only [Sheltered, hbelow]

theorem textureName_validate (n : Node) : n.validate.textureName = n.textureName :=
  textureName_eq_of_reset_eq (reset_validate n)

/-- Validation has no part in what preparation does. -/
theorem Passes.of_validate {textures : Pool Image} {report : Report} {n after : Node}
    (h : Passes textures report n.validate after) : Passes textures report n after := by
  intro position
  have hposition := h position
  rw [below?_map sockets_validate, sheltered_validate_iff] at hposition
  cases hn : n.below? position with
  | none =>
    rw [hn] at hposition
    exact hposition
  | some m =>
    rw [hn] at hposition
    rcases optionRel_cases hposition with ⟨hnone, -⟩ | ⟨a, b, ha, hb, hab⟩
    · cases hnone
    · obtain rfl : m.validate = a := Option.some.inj ha
      rw [hb]
      obtain ⟨hprocessed, hkept, hbound, hreported⟩ := hab
      simp only [processed_validate, prepared_validate, kind_validate, textureName_validate]
        at hprocessed hkept hbound hreported
      exact .some ⟨hprocessed, hkept, hbound, hreported⟩

theorem exists_texture_of_intact {n m : Node} (hn : n.Intact) (hm : m ∈ n.nodes)
    (hkind : m.kind = .imageTexture) (hprocessed : m.processed = true) :
    ∃ handle, m.prepared = .texture handle :=
  (hn m hm).texture_iff.mpr ⟨hprocessed, hkind⟩

/-- **What preparation reaches**: take any tree that operations have made. Preparing it, as it is or
validated first as the root of a graph, passes every node but those that lay below a node that was
passed before, and leaves what it finds on these; so it leaves none unpassed just when there was
none below a passed one. Of every image texture that is passed the texture was looked up. Those that
this preparation passes are bound to the texture of their name or reported missing; and over all
that preparations have told so far, a missing texture was reported for each that has none. -/
theorem prepares_of_reached {n : Node} (h : Reached (n ::ₘ forest)) :
    (∃ log, Told (n ::ₘ forest) log) ∧
    ∀ log, Told (n ::ₘ forest) log → ∀ (config : Config) (textures : Pool Image),
      Prepares textures log forest n (n.process config textures).1
        (n.process config textures).2.2 ∧
      ∀ name, Prepares textures log forest n (Graph.prepare config ⟨name, n⟩ textures).1.root
        (Graph.prepare config ⟨name, n⟩ textures).2.2 := by
  refine ⟨h.exists_told, fun log hlog config textures => ?_⟩
  have hintact : n.Intact := h.intact n (Multiset.mem_cons_self n forest)
  have haccount := hlog.unboundIn_le
  rw [unboundIn_cons] at haccount
  constructor
  · have hsubtree := unbound_processAt config n.typeName n textures
    refine ⟨passes_processAt config n.typeName n textures,
      forall_processed_processAt_iff config n.typeName n textures,
      fun m hm => exists_texture_of_intact (hintact.process config textures) hm, ?_⟩
    change unbound (n.process config textures).1 ≤
      unbound n + missing (n.process config textures).2.2 at hsubtree
    rw [unboundIn_cons, missing_append]
    omega
  · intro name
    have hsubtree := unbound_processAt config n.validate.typeName n.validate textures
    have hvalidate := unbound_walk sockets_validate prepared_validate n
    refine ⟨(passes_processAt config n.validate.typeName n.validate textures).of_validate,
      (forall_processed_processAt_iff config n.validate.typeName n.validate textures).trans
        (covered_validate_iff n),
      fun m hm => exists_texture_of_intact (hintact.validate.process config textures) hm, ?_⟩
    change unbound (n.validate.process config textures).1 ≤
      unbound n.validate + missing (n.validate.process config textures).2.2 at hsubtree
    change unboundIn ((n.validate.process config textures).1 ::ₘ forest) ≤
      missing (log ++ (n.validate.process config textures).2.2)
    rw [unboundIn_cons, missing_append]
    omega

/-- A lambert that was prepared before an image texture was plugged into it. -/
def extended : Node :=
  ((new .lambert).process .standard (.empty "texture")).1.withSocket
    ⟨"Color", .color, .node (new .imageTexture)⟩

theorem reached_extended : Reached (extended ::ₘ 0) := by
  have hparts : Reached (new .lambert ::ₘ (0 + {new .imageTexture})) :=
    .new .lambert (.new .imageTexture .nothing)
  have hprepared : Reached (((new .lambert).process .standard (.empty "texture")).1 ::ₘ
      ({new .imageTexture} + 0)) :=
    hparts.operateRoot (.process (new .lambert) .standard (.empty "texture"))
  exact hprepared.operateRoot (.connect
    (rfl : ((new .lambert).process .standard (.empty "texture")).1.connect "Color" _ =
      some (extended, none)))

/-- Preparing the lambert again does not reach the image texture: it is not passed, and nothing is
told of it. -/
theorem prepares_extended :
    Reached (extended ::ₘ 0) ∧
    ((∃ log, Told (extended ::ₘ 0) log) ∧
      ∀ log, Told (extended ::ₘ 0) log → ∀ (config : Config) (textures : Pool Image),
        Prepares textures log 0 extended (extended.process config textures).1
          (extended.process config textures).2.2 ∧
        ∀ name, Prepares textures log 0 extended
          (Graph.prepare config ⟨name, extended⟩ textures).1.root
          (Graph.prepare config ⟨name, extended⟩ textures).2.2) ∧
    (extended.process .standard (.empty "texture")).1.nodes.map (·.processed) = [true, false] ∧
    (extended.process .standard (.empty "texture")).2.2 = [] :=
  ⟨reached_extended, prepares_of_reached reached_extended, by decide +kernel, by decide +kernel⟩

/-- The same below the output of a graph. -/
def housed : Node := (new .output).withSocket ⟨"Surface", .bsdf, .node extended⟩

theorem reached_housed : Reached (housed ::ₘ 0) := by
  have hparts : Reached (new .output ::ₘ ({extended} + 0)) := .new .output reached_extended
  exact hparts.operateRoot
    (.connect (rfl : (new .output).connect "Surface" _ = some (housed, none)))

/-- Preparation does not pass every node of every tree: an image texture that was plugged in below a
lambert that had been prepared is passed neither with this as the root nor as a part of a graph, and
its texture, which is not there, is not reported missing. -/
theorem exists_unpassed :
    (Reached (extended ::ₘ 0) ∧
      ¬ (∀ m ∈ (extended.process .standard (.empty "texture")).1.nodes, m.processed = true) ∧
      (extended.process .standard (.empty "texture")).2.2 = []) ∧
    (Reached (housed ::ₘ 0) ∧
      ¬ (∀ m ∈ (Graph.prepare .standard ⟨none, housed⟩ (.empty "texture")).1.root.nodes,
        m.processed = true) ∧
      (Graph.prepare .standard ⟨none, housed⟩ (.empty "texture")).2.2 = []) := by
  refine ⟨⟨reached_extended, ?_, ?_⟩, reached_housed, ?_, ?_⟩ <;> decide +kernel

end ShadeTree.Node
