import ShadeTree.Proofs.Custody

/-!
# What every node is like

A node keeps several things that go together: its sockets and what they hold, what was found of its
validity, and what preparation left on it. Each operation changes some of them, on one node or on all
below it, and shading relies on all of them at once; a folded value, for one, is returned before the
kind of the node is looked at. This module says what every node is like (`WellFormed`) and proves
that no sequence of operations can make another.

A forest is whatever trees are at hand. `Reached` tells which forests there are: those that come from
none by making nodes, by an operation on a node anywhere in a tree, and by letting trees go. The main
statement is `wellFormed_of_reached`. With it goes `Reached.conforms`: what is proved of trees that
have the declared sockets is so of every tree there is.
-/

namespace ShadeTree

/-! ### What sockets hold -/

/-- A socket holds what its kind takes, if it holds no node. -/
structure Socket.Fits {ν : Type} (s : Socket ν) : Prop where
  /-- A socket for text holds no number. -/
  literal?_eq_none : s.kind = .text → s.literal? = none
  /-- Any other holds no text. -/
  text?_eq_none : s.kind ≠ .text → s.text? = none

namespace Socket

variable {ν μ : Type}

theorem fits_ofSpec (spec : SocketSpec) : (ofSpec spec : Socket ν).Fits := by
  obtain ⟨name, kind, initial⟩ := spec
  cases kind <;> constructor <;> simp [ofSpec, literal?, text?]

theorem fits_setLiteral (s : Socket ν) (text : String) : (s.setLiteral text).1.Fits := by
  obtain ⟨name, kind, link⟩ := s
  cases kind <;> constructor <;> simp [setLiteral, literal?, text?]

theorem fits_connect (s : Socket ν) (n : ν) : (s.connect n).Fits := ⟨fun _ => rfl, fun _ => rfl⟩

theorem Fits.disconnect {s : Socket ν} (hs : s.Fits) : s.disconnect.Fits := by
  obtain ⟨name, kind, link⟩ := s
  cases link with
  | literal v => exact hs
  | text t => exact hs
  | node n => cases kind <;> constructor <;> simp [Socket.disconnect, literal?, text?]

theorem fits_map_iff (f : ν → μ) (s : Socket ν) : (s.map f).Fits ↔ s.Fits := by
  have hliteral : (s.map f).literal? = s.literal? := by
    obtain ⟨name, kind, link⟩ := s
    cases link <;> rfl
  have htext : (s.map f).text? = s.text? := by
    obtain ⟨name, kind, link⟩ := s
    cases link <;> rfl
  constructor
  · rintro ⟨h, h'⟩
    exact ⟨hliteral ▸ h, htext ▸ h'⟩
  · rintro ⟨h, h'⟩
    exact ⟨hliteral.symm ▸ h, htext.symm ▸ h'⟩

end Socket

namespace Node

/-! ### Well-formed nodes -/

/-- The sockets of a node are those of its kind, and hold what these take. -/
structure Shaped (n : Node) : Prop where
  /-- The sockets have the names, the kinds and the order that the kind declares. -/
  schema : n.HasSchema
  fits : ∀ s ∈ n.sockets, s.Fits

/-- What was found out about a node goes together. -/
structure Consistent (n : Node) : Prop where
  validated : n.valid = true → n.validated = true
  /-- Preparation left nothing where it did not pass. -/
  unprepared : n.processed = false → n.prepared = .none
  folded : ∀ v, n.prepared = .folded v → n.kind = .constant ∨ n.kind = .multiply ∨ n.kind = .mix
  texture_iff : (∃ h, n.prepared = .texture h) ↔ n.processed = true ∧ n.kind = .imageTexture
  fallback_iff : (∃ c, n.prepared = .fallback c) ↔ n.processed = true ∧ n.kind = .output

/-- What every node is like. -/
structure WellFormed (n : Node) : Prop extends Shaped n, Consistent n

/-- Every node of the tree is well formed. -/
def Intact (n : Node) : Prop := ∀ m ∈ n.nodes, m.WellFormed

theorem intact_iff {n : Node} : n.Intact ↔ n.WellFormed ∧ ∀ c ∈ n.children, c.Intact :=
  forall_nodes_iff

theorem intact_iff_shaped_consistent {n : Node} :
    n.Intact ↔ (∀ m ∈ n.nodes, m.Shaped) ∧ ∀ m ∈ n.nodes, m.Consistent := by
  constructor
  · exact fun h => ⟨fun m hm => (h m hm).toShaped, fun m hm => (h m hm).toConsistent⟩
  · rintro ⟨hshaped, hconsistent⟩ m hm
    exact ⟨hshaped m hm, hconsistent m hm⟩

theorem Consistent.of_unprocessed {n : Node} (hvalidated : n.valid = true → n.validated = true)
    (hprocessed : n.processed = false) (hprepared : n.prepared = .none) : n.Consistent where
  validated := hvalidated
  unprepared _ := hprepared
  folded v h := by rw [hprepared] at h; cases h
  texture_iff := by simp [hprepared, hprocessed]
  fallback_iff := by simp [hprepared, hprocessed]

/-! ### New nodes -/

theorem intact_new (kind : NodeKind) : (new kind).Intact := by
  have hschema : (new kind).HasSchema := (conforms_iff.mp (conforms_new kind)).1
  have hfits : ∀ s ∈ (new kind).sockets, s.Fits := fun s hs => by
    obtain ⟨spec, -, rfl⟩ := List.mem_map.mp hs
    exact Socket.fits_ofSpec spec
  refine intact_iff.mpr ⟨⟨⟨hschema, hfits⟩, .of_unprocessed ?_ rfl rfl⟩, by simp [children_new]⟩
  exact fun h => absurd h Bool.false_ne_true

/-- The name a node was created under has no part in whether it is well formed. -/
theorem Intact.rename {n : Node} (hn : n.Intact) (typeName : String) :
    Intact { n with typeName := typeName } := by
  obtain ⟨⟨⟨hschema, hfits⟩, h⟩, hchildren⟩ := intact_iff.mp hn
  refine intact_iff.mpr ⟨⟨⟨hschema, hfits⟩, ?_⟩, hchildren⟩
  exact ⟨h.validated, h.unprepared, h.folded, h.texture_iff, h.fallback_iff⟩

/-! ### Edits -/

/-- A socket changed in what it holds leaves the tree intact, if it fits and what is plugged in is
intact. -/
theorem Intact.withSocket {n : Node} (hn : n.Intact) {s t : Socket Node}
    (ht : n.socket? t.name = some t) (hdeclared : s.declared = t.declared) (hfits : s.Fits)
    (hs : ∀ c, s.node? = some c → c.Intact) : (n.withSocket s).Intact := by
  obtain ⟨hroot, hchildren⟩ := intact_iff.mp hn
  have hshaped : (n.withSocket s).Shaped := by
    refine ⟨(map_declared_replaceIn hdeclared ht).trans hroot.schema, fun u hu => ?_⟩
    rcases mem_replaceIn hu with rfl | hu
    · exact hfits
    · exact hroot.fits u hu
  have hconsistent : (n.withSocket s).Consistent :=
    ⟨hroot.validated, hroot.unprepared, hroot.folded, hroot.texture_iff, hroot.fallback_iff⟩
  refine intact_iff.mpr ⟨⟨hshaped, hconsistent⟩, fun c hc => ?_⟩
  obtain ⟨u, hu, huc⟩ := mem_children.mp hc
  rcases mem_replaceIn hu with rfl | hu
  · exact hs c huc
  · exact hchildren c (mem_children.mpr ⟨u, hu, huc⟩)

theorem Intact.plug {n child : Node} (hn : n.Intact) {s : Socket Node}
    (hs : n.socket? s.name = some s) (hchild : child.Intact) :
    (n.withSocket (s.connect child)).Intact := by
  refine hn.withSocket hs rfl (s.fits_connect child) fun c hc => ?_
  obtain rfl : child = c := Option.some.inj hc
  exact hchild

theorem Intact.unplug {n : Node} (hn : n.Intact) {s t : Socket Node}
    (ht : n.socket? t.name = some t) (hdeclared : s.declared = t.declared) (hfits : s.Fits)
    (hs : s.node? = none) : (n.withSocket s).Intact := by
  refine hn.withSocket ht hdeclared hfits fun c hc => ?_
  rw [hs] at hc
  cases hc

theorem Intact.putAt {n new : Node} (hn : n.Intact) (hnew : new.Intact) (path : List String) :
    (n.putAt new path).Intact := by
  induction path generalizing n with
  | nil => exact hnew
  | cons name path ih =>
    cases hs : n.socket? name with
    | none => simpa [Node.putAt, hs] using hn
    | some s =>
      obtain rfl := name_of_socket? hs
      cases hc : s.node? with
      | none => simpa [Node.putAt, hs, hc] using hn
      | some child =>
        rw [putAt_cons hs hc]
        exact hn.plug hs (ih (forall_nodes_plugged hn hs hc))

/-! ### Walks -/

theorem shaped_reset_iff (n : Node) : n.reset.Shaped ↔ n.Shaped := by
  have hschema : n.reset.HasSchema ↔ n.HasSchema := by
    rw [HasSchema, sockets_reset, List.map_map, kind_reset]
    rfl
  have hfits : (∀ s ∈ n.reset.sockets, s.Fits) ↔ ∀ s ∈ n.sockets, s.Fits := by
    rw [sockets_reset, List.forall_mem_map]
    simp only [Socket.fits_map_iff]
  exact ⟨fun h => ⟨hschema.mp h.schema, hfits.mp h.fits⟩,
    fun h => ⟨hschema.mpr h.schema, hfits.mpr h.fits⟩⟩

/-- What is found out about a tree has no part in the shape of its nodes. -/
theorem shaped_of_reset_eq {a b : Node} (h : a.reset = b.reset) (hb : ∀ m ∈ b.nodes, m.Shaped) :
    ∀ m ∈ a.nodes, m.Shaped := by
  have hshaped : ∀ n : Node, (∀ m ∈ n.reset.nodes, m.Shaped) ↔ ∀ m ∈ n.nodes, m.Shaped := by
    intro n
    rw [forall_nodes_reset]
    simp only [shaped_reset_iff]
  rw [← hshaped, h, hshaped]
  exact hb

/-- A walk that leaves the tree and keeps its nodes consistent keeps it intact. -/
theorem Intact.walk {f : Node → Node} (hsockets : ∀ n, (f n).sockets = n.sockets.map (Socket.map f))
    (hreset : ∀ n, (f n).reset = n.reset) (hconsistent : ∀ n, n.Consistent → (f n).Consistent)
    {n : Node} (hn : n.Intact) : (f n).Intact := by
  obtain ⟨hshaped, hfound⟩ := intact_iff_shaped_consistent.mp hn
  refine intact_iff_shaped_consistent.mpr ⟨shaped_of_reset_eq (hreset n) hshaped, ?_⟩
  rw [nodes_map hsockets, List.forall_mem_map]
  exact fun m hm => hconsistent m (hfound m hm)

theorem Intact.infer {n : Node} (hn : n.Intact) : n.infer.Intact := by
  refine hn.walk sockets_infer reset_infer fun m hm => ?_
  rw [infer_eq]
  exact ⟨hm.validated, hm.unprepared, hm.folded, hm.texture_iff, hm.fallback_iff⟩

theorem Intact.validate {n : Node} (hn : n.Intact) : n.validate.Intact := by
  refine hn.walk sockets_validate reset_validate fun m hm => ?_
  rw [validate_eq]
  exact ⟨fun _ => rfl, hm.unprepared, hm.folded, hm.texture_iff, hm.fallback_iff⟩

theorem Intact.reset {n : Node} (hn : n.Intact) : n.reset.Intact := by
  refine hn.walk sockets_reset reset_reset fun m _ => ?_
  rw [reset_eq]
  exact .of_unprocessed (fun h => h) rfl rfl

/-! ### Preparation -/

theorem kind_of_isFoldable {n : Node} (h : n.isFoldable = true) :
    n.kind = .constant ∨ n.kind = .multiply ∨ n.kind = .mix := by
  rw [isFoldable, Bool.and_assoc, Bool.and_eq_true, Bool.and_eq_true] at h
  obtain ⟨hvalue, hvarying, -⟩ := h
  cases hkind : n.kind <;> simp_all [NodeKind.outputKind, NodeKind.intrinsic]

/-- Settling a node that preparation passes leaves it consistent. -/
theorem Consistent.settle {n : Node} (hn : n.Consistent) (hprocessed : n.processed = false)
    (config : Config) (path : String) (sockets : List (Socket Node)) (textures : Pool Image) :
    (settle config path { n with processed := true, sockets := sockets } textures).1.Consistent := by
  -- Nothing was left on the node before, so what it has now is what one of the branches leaves.
  have hprepared : n.prepared = .none := hn.unprepared hprocessed
  rw [Node.settle]
  split
  · rename_i hkind
    have houtput : n.kind = .output := hkind
    exact ⟨hn.validated, by simp, by simp, by simp [houtput], by simp [houtput]⟩
  · rename_i hkind
    have himage : n.kind = .imageTexture := hkind
    split <;> exact ⟨hn.validated, by simp, by simp, by simp [himage], by simp [himage]⟩
  · rename_i houtput himage
    have hother : n.kind ≠ .output ∧ n.kind ≠ .imageTexture := ⟨houtput, himage⟩
    split
    · rename_i hfold
      have hkind := kind_of_isFoldable (Bool.and_eq_true_iff.mp hfold).2
      exact ⟨hn.validated, by simp, fun _ _ => hkind, by simp [hother], by simp [hother]⟩
    · refine ⟨hn.validated, by simp, fun v h => ?_, by simp [hprepared, hother],
        by simp [hprepared, hother]⟩
      rw [hprepared] at h
      cases h

theorem consistent_processAt (config : Config) (path : String) {n : Node}
    (hn : ∀ m ∈ n.nodes, m.Consistent) (textures : Pool Image) :
    ∀ m ∈ (processAt config path n textures).1.nodes, m.Consistent := by
  induction n using Node.induction generalizing path textures with
  | step n ih =>
    rw [processAt_eq]
    split
    · exact hn
    · rename_i hprocessed
      obtain ⟨hroot, hchildren⟩ := forall_nodes_iff.mp hn
      have hbelow := forall_nodes_processIn config path n.sockets
        (fun c hc path => ih c hc path (hchildren c hc)) textures
      dsimp only
      refine forall_nodes_iff.mpr ⟨hroot.settle (by simpa using hprocessed) config path _ _, ?_⟩
      rw [settle_fst]
      exact hbelow

theorem Intact.process {n : Node} (hn : n.Intact) (config : Config) (textures : Pool Image) :
    (n.process config textures).1.Intact := by
  obtain ⟨hshaped, hconsistent⟩ := intact_iff_shaped_consistent.mp hn
  exact intact_iff_shaped_consistent.mpr
    ⟨shaped_of_reset_eq (reset_process config n textures) hshaped,
      consistent_processAt config n.typeName hconsistent textures⟩

/-! ### Operations -/

/-- An operation on a node. It may take trees in, and it may put trees out. -/
inductive Operation : Node → Multiset Node → Node → Multiset Node → Prop where
  /-- A literal replaces what a socket held. -/
  | setLiteral {n m : Node} {name text : String} {tuple : Tuple} {old : Option Node} :
      n.setLiteral name text = some (m, tuple, old) → Operation n 0 m old.toList
  /-- A tree is plugged in and replaces what the socket held. -/
  | connect {n m child : Node} {name : String} {old : Option Node} :
      n.connect name child = some (m, old) → Operation n {child} m old.toList
  /-- What is plugged in comes out. -/
  | disconnect {n m : Node} {name : String} {old : Option Node} :
      n.disconnect name = some (m, old) → Operation n 0 m old.toList
  | infer (n : Node) : Operation n 0 n.infer 0
  | validate (n : Node) : Operation n 0 n.validate 0
  /-- Preparation, under any configuration and with any textures. -/
  | process (n : Node) (config : Config) (textures : Pool Image) :
      Operation n 0 (n.process config textures).1 0
  | reset (n : Node) : Operation n 0 n.reset 0

/-- What comes out of a socket of an intact tree is intact. -/
theorem Intact.plugged {n : Node} (hn : n.Intact) {s : Socket Node}
    (hs : n.socket? s.name = some s) : ∀ c ∈ (s.node?.toList : Multiset Node), c.Intact := by
  intro c hc
  have hnode : s.node? = some c := by simpa using hc
  exact forall_nodes_plugged hn hs hnode

theorem Operation.intact {n m : Node} {ins outs : Multiset Node} (h : Operation n ins m outs)
    (hn : n.Intact) (hins : ∀ c ∈ ins, c.Intact) : m.Intact ∧ ∀ c ∈ outs, c.Intact := by
  cases h with
  | setLiteral h =>
    obtain ⟨s, hs, heq⟩ := Option.map_eq_some_iff.mp h
    obtain rfl := name_of_socket? hs
    obtain ⟨rfl, -, rfl⟩ := by simpa using heq
    exact ⟨hn.unplug hs (s.declared_setLiteral _) (s.fits_setLiteral _) (s.node?_setLiteral _),
      hn.plugged hs⟩
  | connect h =>
    obtain ⟨s, hs, heq⟩ := Option.map_eq_some_iff.mp h
    obtain rfl := name_of_socket? hs
    obtain ⟨rfl, rfl⟩ := Prod.mk.inj heq
    exact ⟨hn.plug hs (hins _ (Multiset.mem_singleton_self _)), hn.plugged hs⟩
  | disconnect h =>
    obtain ⟨s, hs, heq⟩ := Option.map_eq_some_iff.mp h
    obtain rfl := name_of_socket? hs
    obtain ⟨rfl, rfl⟩ := Prod.mk.inj heq
    have hfits : s.Fits := (intact_iff.mp hn).1.fits s (List.mem_of_find?_eq_some hs)
    exact ⟨hn.unplug hs s.declared_disconnect hfits.disconnect s.node?_disconnect, hn.plugged hs⟩
  | infer => exact ⟨hn.infer, hins⟩
  | validate => exact ⟨hn.validate, hins⟩
  | process config textures => exact ⟨hn.process config textures, hins⟩
  | reset => exact ⟨hn.reset, hins⟩

/-! ### Forests -/

/-- The forests that there are: some trees that operations have made. -/
inductive Reached : Multiset Node → Prop where
  | nothing : Reached 0
  | new {forest : Multiset Node} (kind : NodeKind) : Reached forest → Reached (new kind ::ₘ forest)
  /-- A registry gives a node of a type that operations of its own have made. -/
  | create {r : Registry} {name : String} {fresh : Node} {made forest : Multiset Node} :
      Reached made → (∀ node, (name, node) ∈ r.types → node ∈ made) →
        r.create? name = some fresh → Reached forest → Reached (fresh ::ₘ forest)
  /-- An operation on the node at a path takes trees from the forest and puts trees into it. -/
  | operate {n m m' : Node} {path : List String} {ins outs forest : Multiset Node} :
      Reached (n ::ₘ (ins + forest)) → n.at? path = some m → Operation m ins m' outs →
        Reached (n.putAt m' path ::ₘ (outs + forest))
  /-- A tree is let go. -/
  | drop {n : Node} {forest : Multiset Node} : Reached (n ::ₘ forest) → Reached forest

theorem Reached.intact {forest : Multiset Node} (h : Reached forest) : ∀ n ∈ forest, n.Intact := by
  induction h with
  | nothing => exact fun n hn => absurd hn (Multiset.notMem_zero n)
  | new kind _ ih => exact Multiset.forall_mem_cons.mpr ⟨intact_new kind, ih⟩
  | create _ hmade hfresh _ ih ih' =>
    refine Multiset.forall_mem_cons.mpr ⟨?_, ih'⟩
    obtain ⟨node, hnode, rfl⟩ := Registry.exists_of_create? hfresh
    exact (ih node (hmade node hnode)).rename _
  | @operate n m m' path ins outs forest _ hm hop ih =>
    obtain ⟨hn, hrest⟩ := Multiset.forall_mem_cons.mp ih
    have hins : ∀ c ∈ ins, c.Intact := fun c hc => hrest c (Multiset.mem_add.mpr (.inl hc))
    obtain ⟨hm', houts⟩ := hop.intact (forall_nodes_at? hn hm) hins
    refine Multiset.forall_mem_cons.mpr ⟨hn.putAt hm' path, fun c hc => ?_⟩
    rcases Multiset.mem_add.mp hc with hc | hc
    · exact houts c hc
    · exact hrest c (Multiset.mem_add.mpr (.inr hc))
  | drop _ ih => exact (Multiset.forall_mem_cons.mp ih).2

/-- The trees that operations have made have the declared sockets, as the statements on the shading
of a valid tree ask of it. -/
theorem Reached.conforms {forest : Multiset Node} (h : Reached forest) :
    ∀ n ∈ forest, n.Conforms :=
  fun n hn m hm => (h.intact n hn m hm).schema

/-- **Operations make well-formed nodes only**: whatever sequence of operations has made some trees,
every node of every tree has the sockets of its kind, each of which holds what it takes; its marks
agree; and preparation has left on it what is due to its kind if it has passed it, and nothing
otherwise. -/
theorem wellFormed_of_reached {forest : Multiset Node} (h : Reached forest) :
    ∀ n ∈ forest, ∀ m ∈ n.nodes, m.WellFormed :=
  fun n hn => h.intact n hn

/-- An operation on a root. -/
theorem Reached.operateRoot {n m : Node} {ins outs forest : Multiset Node}
    (h : Reached (n ::ₘ (ins + forest))) (hop : Operation n ins m outs) :
    Reached (m ::ₘ (outs + forest)) :=
  .operate h (rfl : n.at? [] = some n) hop

/-- A lambert of a textured colour. -/
def textured : Node :=
  (new .lambert).withSocket ⟨"Color", .color, .node (new .imageTexture)⟩

/-- The same below an output. -/
def papered : Node := (new .output).withSocket ⟨"Surface", .bsdf, .node textured⟩

theorem reached_papered (config : Config) (textures : Pool Image) :
    Reached {(papered.validate.process config textures).1} := by
  have hparts : Reached (new .lambert ::ₘ ({new .imageTexture} + 0)) :=
    .new .lambert (.new .imageTexture .nothing)
  have htextured : Reached (textured ::ₘ (0 + 0)) :=
    hparts.operateRoot (.connect (rfl : (new .lambert).connect "Color" _ = some (textured, none)))
  have hwhole : Reached (new .output ::ₘ ({textured} + 0)) := .new .output htextured
  have hpapered : Reached (papered ::ₘ (0 + 0)) :=
    hwhole.operateRoot (.connect (rfl : (new .output).connect "Surface" _ = some (papered, none)))
  have hvalid : Reached (papered.validate ::ₘ (0 + 0)) := hpapered.operateRoot (.validate papered)
  exact hvalid.operateRoot (.process papered.validate config textures)

theorem wellFormed_papered :
    Reached {(papered.validate.process .standard (.empty "texture")).1} ∧
      ∀ m ∈ (papered.validate.process .standard (.empty "texture")).1.nodes, m.WellFormed :=
  have hreached := reached_papered .standard (.empty "texture")
  ⟨hreached, wellFormed_of_reached hreached _ (Multiset.mem_singleton_self _)⟩

end Node

end ShadeTree
