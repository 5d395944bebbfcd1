import ShadeTree.Proofs.Lobes
import ShadeTree.Proofs.Representation

/-!
# Where nodes are folded

Preparation folds a node by what it finds next to it: the kind of the node, and which of the nodes
plugged in were folded. What is promised is told by the mask, which sums up the whole tree below:
the value nodes that do not vary are folded, and no other. The two agree on typed trees
(`unvarying_iff`), for there only value nodes are plugged into value nodes; the children of a value
node that does not vary are then value nodes that do not vary either. `folds_process` is the
induction on this, in the order in which preparation passes the nodes.
-/

namespace ShadeTree.Node

open List (Forall₂)

variable {n c : Node}

/-! ### Value nodes that do not vary -/

/-- A value node that was found not to vary. -/
def Unvarying (n : Node) : Prop := n.kind.outputKind = .value ∧ n.mask.varying = false

/-- The mask of a tree says of all below it what preparation looks at step by step. -/
theorem Typed.unvarying_iff (hn : n.Typed) (hmask : ∀ m ∈ n.nodes, m.mask = m.capabilities) :
    n.Unvarying ↔ n.kind.outputKind = .value ∧ n.kind.intrinsic.varying = false ∧
      ∀ c ∈ n.children, c.Unvarying := by
  obtain ⟨hroot, hbelow⟩ := forall_nodes_iff.mp hmask
  have hvarying : n.mask.varying = false ↔ n.kind.intrinsic.varying = false ∧
      ∀ c ∈ n.children, c.mask.varying = false := by
    have hunions : (Capability.unions (n.children.map capabilities)).varying = _ :=
      Capability.any_unions rfl (fun _ _ => rfl) (n.children.map capabilities)
    rw [hroot, capabilities_eq]
    change (_ || _) = false ↔ _
    rw [Bool.or_eq_false_iff, hunions, List.any_map, List.any_eq_false]
    refine and_congr_right fun _ => forall₂_congr fun c hc => ?_
    rw [Function.comp, hbelow c hc c (mem_nodes_iff.mpr (.inl rfl)), Bool.not_eq_true]
  rw [Unvarying, hvarying]
  refine and_congr_right fun hvalue => and_congr_right fun _ => forall₂_congr fun c hc => ?_
  rw [Unvarying, iff_and_self]
  exact fun _ => hn.outputs_value_of_mem_children hvalue hc

/-! ### Folding a node -/

/-- A node as preparation has left it, and what it was before. -/
structure Folds (before after : Node) : Prop where
  kind_eq : after.kind = before.kind
  mask_eq : after.mask = before.mask
  isSome_iff : after.folded?.isSome = true ↔ after.Unvarying
  resolve_eq : ∀ v, after.folded? = some v → ∀ p, before.resolve p = v

theorem Folds.unvarying_iff {before after : Node} (h : Folds before after) :
    after.Unvarying ↔ before.Unvarying := by
  rw [Unvarying, Unvarying, h.kind_eq, h.mask_eq]

/-- What was found not to vary resolves after preparation as it did before. -/
theorem Folds.resolve {before after : Node} (h : Folds before after) (hbefore : before.Unvarying)
    (p : ShadingPoint) : before.resolve p = after.resolve p := by
  obtain ⟨v, hv⟩ := Option.isSome_iff_exists.mp (h.isSome_iff.mpr (h.unvarying_iff.mpr hbefore))
  rw [h.resolve_eq v hv, resolve_of_folded? hv]

/-- With folding on, a node on which nothing was left before has the value it resolves to left on it
if it can be folded. -/
theorem folded?_settle {config : Config} (hfold : config.foldConstants = true) (path : String)
    (hprepared : n.prepared = .none) (textures : Pool Image) :
    (settle config path n textures).1.folded? =
      if n.isFoldable then some (n.resolve .origin) else none := by
  rw [settle]
  split
  · rename_i hkind
    rw [isFoldable, hkind]
    rfl
  · rename_i hkind
    have hno : n.isFoldable = false := by rw [isFoldable, hkind]; rfl
    rw [hno]
    split <;> rfl
  · rw [hfold, Bool.true_and]
    split
    · rfl
    · rw [folded?, hprepared]

/-- A node with all that is plugged into it prepared is folded when it does not vary. -/
theorem Typed.folds_settle (hn : n.Typed) (hmask : ∀ m ∈ n.nodes, m.mask = m.capabilities)
    (hprepared : n.prepared = .none) {config : Config} (hfold : config.foldConstants = true)
    {sockets : List (Socket Node)}
    (hsockets : Forall₂ (Socket.Rel (Everywhere Folds)) n.sockets sockets) (path : String)
    (textures : Pool Image) :
    Folds n (settle config path { n with processed := true, sockets := sockets } textures).1 := by
  let passed : Node := { n with processed := true, sockets := sockets }
  have hfolded : (settle config path passed textures).1.folded? =
      if passed.isFoldable then some (passed.resolve .origin) else none :=
    folded?_settle (n := passed) hfold path hprepared textures
  have hsettle := settle_fst config path passed textures
  have hchildren : (∀ c ∈ n.children, c.Unvarying) ↔
      ∀ d ∈ passed.children, d.folded?.isSome = true :=
    Socket.forall_plugged_iff hsockets fun c d h =>
      h.root.unvarying_iff.symm.trans h.root.isSome_iff.symm
  have hfoldable : passed.isFoldable = true ↔ n.Unvarying := by
    rw [hn.unvarying_iff hmask, hchildren, isFoldable, Bool.and_eq_true, Bool.and_eq_true,
      beq_iff_eq, Bool.not_eq_true', List.all_eq_true, and_assoc]
  refine ⟨?_, ?_, ?_, fun v hv p => ?_⟩
  · rw [hsettle]
  · rw [hsettle]
  · rw [hfolded, Unvarying, hsettle]
    change _ ↔ n.Unvarying
    rw [← hfoldable]
    cases passed.isFoldable <;> simp
  · rw [hfolded, Option.ite_none_right_eq_some, Option.some.injEq] at hv
    obtain ⟨hyes, rfl⟩ := hv
    have hunvarying := ((hn.unvarying_iff hmask).mp (hfoldable.mp hyes)).2.2
    have hplugged : ∀ s ∈ n.sockets, ∀ c, s.node? = some c → c.Unvarying :=
      fun s hs c hc => hunvarying c (mem_children.mpr ⟨s, hs, hc⟩)
    have hresolve : Forall₂ (Socket.Rel fun a b => a.resolve p = b.resolve p) n.sockets sockets :=
      ((List.forall₂_and_left _ _).mpr ⟨hplugged, hsockets⟩).imp fun s t hst =>
        hst.2.imp fun c d hc hcd => hcd.root.resolve (hst.1 c hc) p
    calc n.resolve p
        = passed.resolve p :=
          resolve_congr rfl rfl (fun _ => rfl) (input_congr (fun _ _ hab => hab) hresolve)
      _ = passed.resolve .origin := resolve_eq_of_isFoldable hyes p .origin

/-- Preparation folds the value nodes that do not vary, on the way up. -/
theorem Typed.folds_processAt (hn : n.Typed) (hmask : ∀ m ∈ n.nodes, m.mask = m.capabilities)
    (hfresh : n.Fresh) {config : Config} (hfold : config.foldConstants = true) (path : String)
    (textures : Pool Image) : Everywhere Folds n (processAt config path n textures).1 := by
  induction n using Node.induction generalizing path textures with
  | step n ih =>
    obtain ⟨⟨hprocessed, hprepared⟩, hbelow⟩ := forall_nodes_iff.mp hfresh
    have hsockets := rel_processIn config path n.sockets (fun c hc path textures =>
      ih c hc (hn.of_mem_children hc) ((forall_nodes_iff.mp hmask).2 c hc) (hbelow c hc) path
        textures) textures
    rw [processAt_eq, hprocessed, if_neg Bool.false_ne_true]
    refine .of_sockets (hn.folds_settle hmask hprepared hfold hsockets path _) ?_
    rw [settle_fst]
    exact hsockets

theorem mask_of_mem_nodes_validate {m : Node} (hm : m ∈ n.validate.nodes) :
    m.mask = m.capabilities := by
  rw [nodes_map sockets_validate] at hm
  obtain ⟨k, -, rfl⟩ := List.mem_map.mp hm
  rw [mask_validate, ← capabilities_reset k, ← reset_validate, capabilities_reset]

/-- **Folding is where the masks allow it**: take any tree that operations have made, none of whose
nodes preparation has passed, and that validation finds valid; prepare it with folding, under any
other configuration and with any textures. At each position the node has a folded value just when it
is a value node whose mask does not vary, and then this is what it resolved to before at every
point. -/
theorem folds_process {forest : Multiset Node} (hreached : Reached forest) {root : Node}
    (hroot : root ∈ forest) (hn : n ∈ root.nodes)
    (hunprocessed : ∀ m ∈ n.nodes, m.processed = false)
    (hvalid : n.validate.valid = true) (config : Config) (textures : Pool Image) :
    Everywhere Folds n.validate
      (n.validate.process { config with foldConstants := true } textures).1 := by
  have hwell : ∀ m ∈ n.nodes, m.WellFormed := fun m hm =>
    hreached.intact root hroot m (mem_nodes_trans hm hn)
  have hconforms : n.Conforms := fun m hm =>
    hreached.conforms root hroot m (mem_nodes_trans hm hn)
  have htyped : n.validate.Typed := typed_of_valid hvalid (reset_validate n) hconforms
  have hfresh : n.validate.Fresh := by
    rw [Fresh, nodes_map sockets_validate, List.forall_mem_map]
    intro m hm
    rw [processed_validate, prepared_validate]
    exact ⟨hunprocessed m hm, (hwell m hm).unprepared (hunprocessed m hm)⟩
  exact htyped.folds_processAt (fun _ => mask_of_mem_nodes_validate) hfresh rfl _ textures

/-- A constant colour times a checker. -/
def tinted : Node :=
  ((new .multiply).withSocket ⟨"Color1", .color, .node (new .constant)⟩).withSocket
    ⟨"Color2", .color, .node (new .checker)⟩

theorem reached_tinted : Reached {tinted} := by
  let half : Node := (new .multiply).withSocket ⟨"Color1", .color, .node (new .constant)⟩
  have hparts : Reached (new .multiply ::ₘ ({new .constant} + {new .checker})) :=
    .new .multiply (.new .constant (.new .checker .nothing))
  have hhalf : Reached (half ::ₘ (0 + {new .checker})) :=
    hparts.operateRoot (.connect (rfl : (new .multiply).connect "Color1" _ = some (half, none)))
  have hwhole : Reached (half ::ₘ ({new .checker} + 0)) := by simpa using hhalf
  exact hwhole.operateRoot (.connect (rfl : half.connect "Color2" _ = some (tinted, none)))

/-- Of a constant colour times a checker the constant is folded, and neither the checker nor the
product is. -/
theorem folds_tinted :
    Reached {tinted} ∧ (∀ m ∈ tinted.nodes, m.processed = false) ∧ tinted.validate.valid = true ∧
      Everywhere Folds tinted.validate
        (tinted.validate.process { Config.standard with foldConstants := true } (.empty "")).1 ∧
      (tinted.validate.process .standard (.empty "")).1.nodes.map (·.folded?.isSome) =
        [false, true, false] := by
  have hunprocessed : ∀ m ∈ tinted.nodes, m.processed = false := by decide +kernel
  have hvalid : tinted.validate.valid = true := by decide +kernel
  have hroot : tinted ∈ tinted.nodes := mem_nodes_iff.mpr (.inl rfl)
  exact ⟨reached_tinted, hunprocessed, hvalid,
    folds_process reached_tinted (Multiset.mem_singleton_self _) hroot hunprocessed hvalid .standard
      (.empty ""), by decide +kernel⟩

end ShadeTree.Node
