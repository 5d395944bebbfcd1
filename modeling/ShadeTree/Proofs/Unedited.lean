import ShadeTree.Proofs.Tree

/-!
# Unedited trees

Validating, inferring and preparing a tree find something out about it and leave the tree itself:
its kinds, its type names, its sockets and the literals in them. `reset` forgets what was found out,
so two trees are the same but for that when they reset to the same tree. This module proves that
each of the walks leaves the reset tree as it was.
-/

namespace ShadeTree.Node

/-! ### Resetting -/

theorem resetIn_eq (sockets : List (Socket Node)) :
    resetIn sockets = sockets.map (Socket.map reset) := by
  induction sockets with
  | nil => rfl
  | cons s rest ih =>
    obtain ⟨_, _, link⟩ := s
    cases link <;> simp [resetIn, ih, Socket.map, Link.map]

theorem reset_eq (n : Node) : n.reset =
    ⟨n.kind, n.typeName, .none, false, false, false, .none, n.sockets.map (Socket.map reset)⟩ := by
  obtain ⟨kind, typeName, _, _, _, _, _, sockets⟩ := n
  rw [reset, resetIn_eq]

@[simp] theorem kind_reset (n : Node) : n.reset.kind = n.kind := by rw [reset_eq]

@[simp] theorem typeName_reset (n : Node) : n.reset.typeName = n.typeName := by rw [reset_eq]

theorem sockets_reset (n : Node) : n.reset.sockets = n.sockets.map (Socket.map reset) := by
  rw [reset_eq]

/-- Two nodes reset to the same when they differ in nothing but what was found out about them. -/
theorem reset_eq_reset_iff {a b : Node} : a.reset = b.reset ↔ a.kind = b.kind ∧
    a.typeName = b.typeName ∧
      a.sockets.map (Socket.map reset) = b.sockets.map (Socket.map reset) := by
  rw [reset_eq, reset_eq b, Node.mk.injEq]
  simp

/-- What holds of every node of the reset tree is what holds of every node once it is reset. -/
theorem forall_nodes_reset {P : Node → Prop} {n : Node} :
    (∀ m ∈ n.reset.nodes, P m) ↔ ∀ m ∈ n.nodes, P m.reset := by
  rw [nodes_map sockets_reset, List.forall_mem_map]

/-- A walk that keeps the kinds, the type names and the sockets leaves the tree. -/
theorem reset_walk {f : Node → Node} (hsockets : ∀ n, (f n).sockets = n.sockets.map (Socket.map f))
    (hkind : ∀ n, (f n).kind = n.kind) (htype : ∀ n, (f n).typeName = n.typeName) (n : Node) :
    (f n).reset = n.reset := by
  induction n using Node.induction with
  | step n ih =>
    refine reset_eq_reset_iff.mpr ⟨hkind n, htype n, ?_⟩
    rw [hsockets, List.map_map]
    refine List.map_congr_left fun s hs => ?_
    obtain ⟨name, kind, link⟩ := s
    cases link with
    | literal v => rfl
    | text t => rfl
    | node c =>
      have hc : (f c).reset = c.reset := ih c (mem_children.mpr ⟨_, hs, rfl⟩)
      simp only [Function.comp, Socket.map, Link.map, hc]

theorem reset_reset (n : Node) : n.reset.reset = n.reset :=
  reset_walk sockets_reset kind_reset typeName_reset n

/-! ### Inferring and validating -/

theorem inferIn_eq (sockets : List (Socket Node)) :
    inferIn sockets = sockets.map (Socket.map infer) := by
  induction sockets with
  | nil => rfl
  | cons s rest ih =>
    obtain ⟨_, _, link⟩ := s
    cases link <;> simp [inferIn, ih, Socket.map, Link.map]

theorem validateIn_eq (sockets : List (Socket Node)) :
    validateIn sockets = sockets.map (Socket.map validate) := by
  induction sockets with
  | nil => rfl
  | cons s rest ih =>
    obtain ⟨_, _, link⟩ := s
    cases link <;> simp [validateIn, ih, Socket.map, Link.map]

theorem infer_eq (n : Node) : n.infer =
    { n with
      mask := .ofNode n.kind (n.sockets.map (Socket.map infer))
      sockets := n.sockets.map (Socket.map infer) } := by
  obtain ⟨kind, typeName, _, _, _, _, _, sockets⟩ := n
  rw [infer, inferIn_eq]

theorem validate_eq (n : Node) :
    let sockets := n.sockets.map (Socket.map validate)
    n.validate =
      { n with
        mask := .ofNode n.kind sockets
        valid := sockets.all Socket.isSound &&
          (n.kind != .output || hasScatteringSurface { n with sockets := sockets })
        validated := true
        sockets := sockets } := by
  obtain ⟨kind, typeName, _, _, _, _, _, sockets⟩ := n
  rw [validate, validateIn_eq]
  rfl

@[simp] theorem kind_infer (n : Node) : n.infer.kind = n.kind := by rw [infer_eq]

@[simp] theorem kind_validate (n : Node) : n.validate.kind = n.kind := by rw [validate_eq]

@[simp] theorem typeName_validate (n : Node) : n.validate.typeName = n.typeName := by
  rw [validate_eq]

@[simp] theorem processed_validate (n : Node) : n.validate.processed = n.processed := by
  rw [validate_eq]

@[simp] theorem prepared_validate (n : Node) : n.validate.prepared = n.prepared := by
  rw [validate_eq]

theorem sockets_infer (n : Node) : n.infer.sockets = n.sockets.map (Socket.map infer) := by
  rw [infer_eq]

theorem sockets_validate (n : Node) : n.validate.sockets = n.sockets.map (Socket.map validate) := by
  rw [validate_eq]

theorem reset_infer (n : Node) : n.infer.reset = n.reset :=
  reset_walk sockets_infer kind_infer (fun n => by rw [infer_eq]) n

theorem reset_validate (n : Node) : n.validate.reset = n.reset :=
  reset_walk sockets_validate kind_validate typeName_validate n

/-! ### Preparing -/

/-- Settling a node changes nothing but what preparation leaves on it. -/
theorem settle_fst (config : Config) (path : String) (n : Node) (textures : Pool Image) :
    (settle config path n textures).1 =
      { n with prepared := (settle config path n textures).1.prepared } := by
  obtain ⟨_, _, _, _, _, _, _, _⟩ := n
  rw [settle]
  split
  · rfl
  · split <;> rfl
  · split <;> rfl

theorem map_reset_processIn (config : Config) (path : String) (sockets : List (Socket Node))
    (hchildren : ∀ c ∈ sockets.filterMap Socket.node?, ∀ path textures,
      (processAt config path c textures).1.reset = c.reset) (textures : Pool Image) :
    (processIn config path sockets textures).1.map (Socket.map reset) =
      sockets.map (Socket.map reset) := by
  induction sockets generalizing textures with
  | nil => rfl
  | cons s rest ih =>
    obtain ⟨name, kind, link⟩ := s
    cases link with
    | literal v =>
      simp only [processIn, List.map_cons]
      rw [ih hchildren]
    | text t =>
      simp only [processIn, List.map_cons]
      rw [ih hchildren]
    | node c =>
      obtain ⟨hc, hrest⟩ := List.forall_mem_cons.mp hchildren
      simp only [processIn, List.map_cons]
      rw [ih hrest]
      simp only [Socket.map, Link.map, hc]

theorem reset_processAt (config : Config) (path : String) (n : Node) (textures : Pool Image) :
    (processAt config path n textures).1.reset = n.reset := by
  induction n using Node.induction generalizing path textures with
  | step n ih =>
    rw [processAt_eq]
    split
    · rfl
    · dsimp only
      rw [settle_fst, reset_eq_reset_iff]
      exact ⟨rfl, rfl, map_reset_processIn config path n.sockets ih textures⟩

/-- What holds of the nodes of every tree plugged in, once it is prepared, holds below the sockets
once these are. -/
theorem forall_nodes_processIn {P : Node → Prop} (config : Config) (path : String)
    (sockets : List (Socket Node))
    (hchildren : ∀ c ∈ sockets.filterMap Socket.node?, ∀ path textures,
      ∀ m ∈ (processAt config path c textures).1.nodes, P m) (textures : Pool Image) :
    ∀ c ∈ (processIn config path sockets textures).1.filterMap Socket.node?, ∀ m ∈ c.nodes,
      P m := by
  induction sockets generalizing textures with
  | nil => exact fun c hc => absurd hc List.not_mem_nil
  | cons s rest ih =>
    obtain ⟨name, kind, link⟩ := s
    cases link with
    | literal v => exact ih hchildren textures
    | text t => exact ih hchildren textures
    | node c =>
      obtain ⟨hc, hrest⟩ := List.forall_mem_cons.mp hchildren
      exact List.forall_mem_cons.mpr ⟨hc _ textures, ih hrest _⟩

theorem reset_process (config : Config) (n : Node) (textures : Pool Image) :
    (n.process config textures).1.reset = n.reset :=
  reset_processAt config n.typeName n textures

end ShadeTree.Node
