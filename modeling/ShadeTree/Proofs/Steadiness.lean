import ShadeTree.Proofs.Folding
import ShadeTree.Proofs.Validity

/-!
# What the capabilities promise

The capabilities of a tree are a summary of its kinds of node, found bottom up. What they are for is
to tell, without looking further, what the tree will never do. This module proves two such promises.
A tree that does not vary is steady: it resolves and composes the same at every point (`Steady`). A
tree that reads no texture takes none when it is prepared and misses none.

Both hold of any tree, typed or not, and in whatever state preparation has left it: the first is an
induction over two runs that differ in the point alone, and the step of it is that a kind which does
not vary does not read the point (`resolve_congr`, `compose_congr`).
-/

namespace ShadeTree.Node

/-! ### Capabilities that are missing -/

/-- A capability that a tree lacks none of its nodes has. -/
theorem lacking_of_mem_nodes {has : Capability → Bool} (hnone : has .none = false)
    (hunion : ∀ a b : Capability, has (a.union b) = (has a || has b)) {n m : Node}
    (h : has n.capabilities = false) (hm : m ∈ n.nodes) : has m.kind.intrinsic = false := by
  rw [capabilities, Capability.any_unions hnone hunion, List.any_map, List.any_eq_false] at h
  simpa using h m hm

/-! ### Steady trees -/

/-- One point is as good as another to shade the tree at. -/
structure Steady (n : Node) : Prop where
  resolve_eq : ∀ p q, n.resolve p = n.resolve q
  compose_eq : ∀ p q weight bsdf, n.compose p weight bsdf = n.compose q weight bsdf

/-- A node that does not vary is steady when all that is plugged into it is. -/
theorem Steady.of_children {n : Node} (hvarying : n.kind.intrinsic.varying = false)
    (hchildren : ∀ c ∈ n.children, c.Steady) : n.Steady := by
  have hinput : ∀ p q name, input n.sockets name p = input n.sockets name q := fun p q =>
    input_congr (R := fun a b => a.resolve p = b.resolve q) (fun _ _ hab => hab)
      (rel_sockets_self fun c hc => (hchildren c hc).resolve_eq p q)
  have hcompose : ∀ p q name weight bsdf,
      composeInput n.sockets name p weight bsdf = composeInput n.sockets name q weight bsdf :=
    fun p q => composeInput_congr
      (R := fun a b => ∀ weight bsdf, a.compose p weight bsdf = b.compose q weight bsdf)
      (fun _ _ hab => hab) (rel_sockets_self fun c hc => (hchildren c hc).compose_eq p q)
  constructor
  · intro p q
    exact resolve_congr rfl rfl (fun h => by rw [hvarying] at h; cases h) (hinput p q)
  · intro p q
    exact compose_congr rfl (fun _ => ⟨rfl, rfl⟩) (hinput p q) (hcompose p q)

theorem steady_of_not_varying {n : Node} (h : ∀ m ∈ n.nodes, m.kind.intrinsic.varying = false) :
    n.Steady := by
  induction n using Node.induction with
  | step n ih =>
    obtain ⟨hroot, hbelow⟩ := forall_nodes_iff.mp h
    exact .of_children hroot fun c hc => ih c hc (hbelow c hc)

/-! ### Trees without textures -/

/-- No kind but the one that reads a texture takes one when it is settled, or misses one. -/
theorem settle_of_not_texture {n : Node} (h : n.kind.intrinsic.texture = false) (config : Config)
    (path : String) (textures : Pool Image) : (settle config path n textures).2 = (textures, []) := by
  rw [settle]
  split
  · rfl
  · rename_i hkind
    rw [hkind] at h
    cases h
  · split <;> rfl

theorem processIn_of_children {config : Config} {path : String} {sockets : List (Socket Node)}
    (hchildren : ∀ c ∈ sockets.filterMap Socket.node?, ∀ path textures,
      (processAt config path c textures).2 = (textures, [])) (textures : Pool Image) :
    (processIn config path sockets textures).2 = (textures, []) := by
  induction sockets with
  | nil => rfl
  | cons s rest ih =>
    obtain ⟨name, kind, link⟩ := s
    cases link with
    | literal v => exact ih hchildren
    | text t => exact ih hchildren
    | node c =>
      obtain ⟨hc, hrest⟩ := List.forall_mem_cons.mp hchildren
      simp only [processIn, hc, ih hrest, List.append_nil]

theorem processAt_of_not_texture {n : Node} (h : ∀ m ∈ n.nodes, m.kind.intrinsic.texture = false)
    (config : Config) (path : String) (textures : Pool Image) :
    (processAt config path n textures).2 = (textures, []) := by
  induction n using Node.induction generalizing path textures with
  | step n ih =>
    obtain ⟨hroot, hbelow⟩ := forall_nodes_iff.mp h
    have hsockets : ∀ textures, (processIn config path n.sockets textures).2 = (textures, []) :=
      processIn_of_children fun c hc => ih c hc (hbelow c hc)
    rw [processAt_eq]
    split
    · rfl
    · -- Settling looks at the kind, which passing the sockets has not changed.
      have hsettle : ∀ (sockets : List (Socket Node)) (textures : Pool Image),
          (settle config path { n with processed := true, sockets := sockets } textures).2 =
            (textures, []) := fun sockets =>
        settle_of_not_texture (n := { n with processed := true, sockets := sockets }) hroot config
          path
      simp only [hsockets, hsettle, List.append_nil]

/-! ### The masks -/

/-- **The mask of a tree is a sound summary**: where validation or inference found that a tree does
not vary, then as long as it is not edited, whatever preparation has or has not left on its nodes,
it resolves and composes the same at any two points; and where it was found to read no texture,
preparing it takes no handle and has nothing to tell, under any configuration and with any textures.
-/
theorem steady_of_mask {n t : Node} (hunedited : t.reset = n.reset)
    (hmask : t.mask = n.validate.mask ∨ t.mask = n.infer.mask) :
    (t.mask.varying = false → t.Steady) ∧
      (t.mask.texture = false → ∀ (config : Config) (textures : Pool Image),
        (t.process config textures).2 = (textures, [])) := by
  have hcapabilities : t.mask = t.capabilities := by
    rw [← capabilities_reset, hunedited, capabilities_reset]
    rcases hmask with hmask | hmask
    · rw [hmask, mask_validate]
    · rw [hmask, mask_infer]
  rw [hcapabilities]
  constructor
  · intro h
    have hvarying : ∀ m ∈ t.nodes, m.kind.intrinsic.varying = false :=
      fun m => lacking_of_mem_nodes rfl (fun _ _ => rfl) h
    exact steady_of_not_varying hvarying
  · intro h config textures
    have htexture : ∀ m ∈ t.nodes, m.kind.intrinsic.texture = false :=
      fun m => lacking_of_mem_nodes rfl (fun _ _ => rfl) h
    exact processAt_of_not_texture htexture config t.typeName textures

/-- A lambert of a constant colour. -/
def matte : Node :=
  let lambert := (new .lambert).withSocket ⟨"Color", .color, .node (new .constant)⟩
  (new .output).withSocket ⟨"Surface", .bsdf, .node lambert⟩

theorem steady_matte : matte.validate.Steady ∧ ∀ (config : Config) (textures : Pool Image),
    (matte.validate.process config textures).2 = (textures, []) :=
  have hpromises := steady_of_mask (n := matte) (reset_validate matte) (.inl rfl)
  ⟨hpromises.1 (by decide), hpromises.2 (by decide)⟩

end ShadeTree.Node
