import ShadeTree.Proofs.Unedited

/-!
# What validation finds

Validation and inference go up a tree once and look at no more than what they found for the nodes
plugged in. This module proves that they find what their names say of the whole subtree. The
capabilities are those of all its nodes (`capabilities`). It is valid when every socket accepts what
is plugged into it (`Accepting`) and every output has a surface with a lobe node under it
(`Surfaced`). What was found before, or left by preparation, makes no difference
(`validate_infer_everywhere`).
-/

namespace ShadeTree

/-! ### Capabilities -/

namespace Capability

@[simp] theorem union_none (c : Capability) : c.union none = c := by
  simp [union, none]

theorem union_assoc (a b c : Capability) : (a.union b).union c = a.union (b.union c) := by
  simp [union, Bool.or_assoc]

/-- The capabilities in any of some sets. -/
def unions (cs : List Capability) : Capability := cs.foldr union none

theorem unions_cons (c : Capability) (cs : List Capability) :
    unions (c :: cs) = c.union (unions cs) := rfl

theorem unions_append (cs ds : List Capability) :
    unions (cs ++ ds) = (unions cs).union (unions ds) := by
  induction cs with
  | nil => rfl
  | cons c cs ih => rw [List.cons_append, unions_cons, unions_cons, ih, union_assoc]

theorem unions_flatMap {α : Type} (as : List α) (f : α → List Capability) :
    unions (as.flatMap f) = unions (as.map fun a => unions (f a)) := by
  induction as with
  | nil => rfl
  | cons a as ih => rw [List.flatMap_cons, unions_append, ih, List.map_cons, unions_cons]

theorem foldl_union {α : Type} (f : α → Capability) (as : List α) (c : Capability) :
    as.foldl (fun mask a => mask.union (f a)) c = c.union (unions (as.map f)) := by
  induction as generalizing c with
  | nil => exact (union_none c).symm
  | cons a as ih => rw [List.foldl_cons, ih, union_assoc, List.map_cons, unions_cons]

/-- A capability is in the union when it is in any of the sets. -/
theorem any_unions {has : Capability → Bool} (hnone : has none = false)
    (hunion : ∀ a b : Capability, has (a.union b) = (has a || has b)) (cs : List Capability) :
    has (unions cs) = cs.any has := by
  induction cs with
  | nil => exact hnone
  | cons c cs ih => rw [unions_cons, hunion, ih, List.any_cons]

theorem bsdf_unions (cs : List Capability) : (unions cs).bsdf = cs.any (·.bsdf) :=
  any_unions rfl (fun _ _ => rfl) cs

theorem bsdf_intrinsic (kind : NodeKind) : kind.intrinsic.bsdf = kind.isLobe := by
  cases kind <;> rfl

end Capability

namespace Node

/-- The capabilities that the nodes of the tree bring by themselves. -/
def capabilities (n : Node) : Capability := .unions (n.nodes.map (·.kind.intrinsic))

theorem capabilities_eq (n : Node) :
    n.capabilities = n.kind.intrinsic.union (.unions (n.children.map capabilities)) := by
  rw [capabilities, nodes_eq, List.map_cons, Capability.unions_cons, List.map_flatMap,
    Capability.unions_flatMap]
  rfl

theorem bsdf_capabilities_iff (n : Node) :
    n.capabilities.bsdf = true ↔ ∃ m ∈ n.nodes, m.kind.isLobe = true := by
  rw [capabilities, Capability.bsdf_unions, List.any_map, List.any_eq_true]
  simp only [Function.comp, Capability.bsdf_intrinsic]

/-- A walk that finds the capabilities of a node from those it found below finds those of the tree.
-/
theorem mask_walk {f : Node → Node} (hsockets : ∀ n, (f n).sockets = n.sockets.map (Socket.map f))
    (hmask : ∀ n, (f n).mask = .ofNode n.kind (f n).sockets) (n : Node) :
    (f n).mask = n.capabilities := by
  induction n using Node.induction with
  | step n ih =>
    have hchildren : (f n).sockets.filterMap Socket.node? = n.children.map f :=
      children_map hsockets n
    rw [hmask, Capability.ofNode, hchildren, Capability.foldl_union, List.map_map, capabilities_eq]
    congr 2
    exact List.map_congr_left ih

theorem mask_infer (n : Node) : n.infer.mask = n.capabilities :=
  mask_walk sockets_infer (fun n => by rw [infer_eq]) n

theorem mask_validate (n : Node) : n.validate.mask = n.capabilities :=
  mask_walk sockets_validate (fun n => by rw [validate_eq]) n

/-! ### Validity -/

/-- Every node plugged in anywhere in the tree is one its socket accepts. -/
def Accepting (n : Node) : Prop :=
  ∀ m ∈ n.nodes, ∀ s ∈ m.sockets, ∀ c, s.node? = some c → s.kind.accepts c.kind.outputKind = true

/-- Every output in the tree has something plugged into its surface that contains a lobe node. -/
def Surfaced (n : Node) : Prop :=
  ∀ m ∈ n.nodes, m.kind = .output →
    ∃ c, m.plugged? "Surface" = some c ∧ ∃ l ∈ c.nodes, l.kind.isLobe = true

theorem accepting_iff {n : Node} : n.Accepting ↔
    (∀ s ∈ n.sockets, ∀ c, s.node? = some c → s.kind.accepts c.kind.outputKind = true) ∧
      ∀ c ∈ n.children, c.Accepting :=
  forall_nodes_iff

theorem surfaced_iff {n : Node} : n.Surfaced ↔
    (n.kind = .output → ∃ c, n.plugged? "Surface" = some c ∧ ∃ l ∈ c.nodes, l.kind.isLobe = true) ∧
      ∀ c ∈ n.children, c.Surfaced :=
  forall_nodes_iff

/-- A socket of a validated node passes when what is plugged in was found valid and is accepted. -/
theorem isSound_map_validate_iff (s : Socket Node) : (s.map validate).isSound = true ↔
    ∀ c, s.node? = some c → c.validate.valid = true ∧ s.kind.accepts c.kind.outputKind = true := by
  rw [Socket.isSound, Socket.node?_map]
  cases s.node? with
  | none => simp
  | some c => simp

theorem hasScatteringSurface_validate_iff (n : Node) : n.validate.hasScatteringSurface = true ↔
    ∃ c, n.plugged? "Surface" = some c ∧ ∃ l ∈ c.nodes, l.kind.isLobe = true := by
  have hplugged : n.validate.hasScatteringSurface =
      (n.validate.plugged? "Surface").any (·.mask.bsdf) := rfl
  rw [hplugged, plugged?_map sockets_validate]
  cases n.plugged? "Surface" with
  | none => simp
  | some c => simp [mask_validate, bsdf_capabilities_iff]

/-- What is found of a node's validity, from what was found of the nodes plugged in. -/
theorem valid_validate_step (n : Node) : n.validate.valid = true ↔
    (∀ s ∈ n.sockets, ∀ c, s.node? = some c →
      c.validate.valid = true ∧ s.kind.accepts c.kind.outputKind = true) ∧
      (n.kind = .output →
        ∃ c, n.plugged? "Surface" = some c ∧ ∃ l ∈ c.nodes, l.kind.isLobe = true) := by
  have hvalid : n.validate.valid = (n.validate.sockets.all Socket.isSound &&
      (n.kind != .output || n.validate.hasScatteringSurface)) := by
    rw [validate_eq]
    rfl
  rw [hvalid, Bool.and_eq_true, List.all_eq_true, sockets_validate, List.forall_mem_map,
    Bool.or_eq_true, hasScatteringSurface_validate_iff, bne_iff_ne, ← imp_iff_not_or]
  simp only [isSound_map_validate_iff]

theorem valid_validate_iff (n : Node) : n.validate.valid = true ↔ n.Accepting ∧ n.Surfaced := by
  induction n using Node.induction with
  | step n ih =>
    rw [valid_validate_step, accepting_iff, surfaced_iff]
    constructor
    · rintro ⟨hsockets, hsurface⟩
      have hchildren : ∀ c ∈ n.children, c.Accepting ∧ c.Surfaced := by
        intro c hc
        obtain ⟨s, hs, hsc⟩ := mem_children.mp hc
        exact (ih c hc).mp (hsockets s hs c hsc).1
      exact ⟨⟨fun s hs c hc => (hsockets s hs c hc).2, fun c hc => (hchildren c hc).1⟩, hsurface,
        fun c hc => (hchildren c hc).2⟩
    · rintro ⟨⟨haccepts, haccepting⟩, hsurface, hsurfaced⟩
      refine ⟨fun s hs c hsc => ⟨?_, haccepts s hs c hsc⟩, hsurface⟩
      have hc : c ∈ n.children := mem_children.mpr ⟨s, hs, hsc⟩
      exact (ih c hc).mpr ⟨haccepting c hc, hsurfaced c hc⟩

/-! ### A matter of the tree -/

theorem capabilities_reset (n : Node) : n.reset.capabilities = n.capabilities := by
  rw [capabilities, nodes_map sockets_reset, List.map_map, capabilities]
  exact congrArg _ (List.map_congr_left fun m _ => congrArg NodeKind.intrinsic (kind_reset m))

theorem accepting_reset_iff {n : Node} : n.reset.Accepting ↔ n.Accepting := by
  have haccepts : ∀ m : Node,
      (∀ s ∈ m.reset.sockets, ∀ c, s.node? = some c → s.kind.accepts c.kind.outputKind = true) ↔
        ∀ s ∈ m.sockets, ∀ c, s.node? = some c → s.kind.accepts c.kind.outputKind = true := by
    intro m
    rw [sockets_reset, List.forall_mem_map]
    simp
  rw [Accepting, forall_nodes_reset, Accepting]
  simp only [haccepts]

theorem surfaced_reset_iff {n : Node} : n.reset.Surfaced ↔ n.Surfaced := by
  have hlobe : ∀ c : Node, (∃ l ∈ c.reset.nodes, l.kind.isLobe = true) ↔
      ∃ l ∈ c.nodes, l.kind.isLobe = true := by
    intro c
    rw [nodes_map sockets_reset]
    simp
  have hsurface : ∀ m : Node,
      (∃ c, m.reset.plugged? "Surface" = some c ∧ ∃ l ∈ c.nodes, l.kind.isLobe = true) ↔
        ∃ c, m.plugged? "Surface" = some c ∧ ∃ l ∈ c.nodes, l.kind.isLobe = true := by
    intro m
    rw [plugged?_map sockets_reset]
    cases m.plugged? "Surface" with
    | none => simp
    | some c => simpa using hlobe c
  rw [Surfaced, forall_nodes_reset, Surfaced]
  simp only [kind_reset, hsurface]

/-- What validation finds of a tree does not depend on what was found out about it before. -/
theorem validate_congr {a b : Node} (h : a.reset = b.reset) :
    a.validate.mask = b.validate.mask ∧ a.validate.valid = b.validate.valid := by
  constructor
  · rw [mask_validate, mask_validate, ← capabilities_reset, h, capabilities_reset]
  · rw [Bool.eq_iff_iff, valid_validate_iff, valid_validate_iff, ← accepting_reset_iff,
      ← surfaced_reset_iff, h, accepting_reset_iff, surfaced_reset_iff]

/-! ### The two walks -/

/-- A node as validation leaves it, beside the node as it was. -/
structure Validated (before after : Node) : Prop where
  unedited : after.reset = before.reset
  validated : after.validated = true
  mask_eq : after.mask = before.capabilities
  valid_iff : after.valid = true ↔ before.Accepting ∧ before.Surfaced
  processed_eq : after.processed = before.processed
  prepared_eq : after.prepared = before.prepared

/-- A node as inference leaves it, beside the node as it was. -/
structure Inferred (before after : Node) : Prop where
  unedited : after.reset = before.reset
  mask_eq : after.mask = before.capabilities
  valid_eq : after.valid = before.valid
  validated_eq : after.validated = before.validated
  processed_eq : after.processed = before.processed
  prepared_eq : after.prepared = before.prepared

theorem validated_validate (n : Node) : Validated n n.validate where
  unedited := reset_validate n
  validated := by rw [validate_eq]
  mask_eq := mask_validate n
  valid_iff := valid_validate_iff n
  processed_eq := by rw [validate_eq]
  prepared_eq := by rw [validate_eq]

theorem inferred_infer (n : Node) : Inferred n n.infer where
  unedited := reset_infer n
  mask_eq := mask_infer n
  valid_eq := by rw [infer_eq]
  validated_eq := by rw [infer_eq]
  processed_eq := by rw [infer_eq]
  prepared_eq := by rw [infer_eq]

/-- **What the walks find is true of every subtree**: whatever was found before, each node of a
validated tree is marked so, holds the capabilities of its whole subtree, and is valid exactly when
its subtree accepts what is plugged in and its outputs have scattering surfaces. Inference finds the
same capabilities and changes nothing else. -/
theorem validate_infer_everywhere (n : Node) :
    Everywhere Validated n n.validate ∧ Everywhere Inferred n n.infer :=
  ⟨everywhere_map sockets_validate validated_validate n,
    everywhere_map sockets_infer inferred_infer n⟩

end Node

end ShadeTree
