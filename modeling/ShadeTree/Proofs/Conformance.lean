import ShadeTree.Graph
import ShadeTree.Proofs.Unedited

/-!
# Conforming trees

A node has the sockets that its kind declares, by name, kind and order. This is so of a new node,
and it stays so: what a socket holds changes (`Conforms.plug`, `Conforms.unplug`), and what is found
out about a node, but never which sockets there are. It is so too of every graph that is assembled
from a description (`Graph.conforms_ofDesc`), and of every tree that operations have made
(`Reached.conforms`). So a statement about trees may assume it (`Conforms`), and what is plugged into
a socket of some name is then known by the kind of the node (`kind_of_socket?`).
-/

namespace ShadeTree

/-- A socket as it is declared: its name and kind. -/
def Socket.declared {ν : Type} (s : Socket ν) : String × SocketKind := (s.name, s.kind)

/-- The name and kind of a declaration. -/
def SocketSpec.declared (s : SocketSpec) : String × SocketKind := (s.name, s.kind)

section Edits

variable {ν : Type} (s : Socket ν)

theorem Socket.declared_setLiteral (text : String) :
    (s.setLiteral text).1.declared = s.declared := by
  obtain ⟨name, kind, link⟩ := s
  cases kind <;> rfl

theorem Socket.node?_setLiteral (text : String) : (s.setLiteral text).1.node? = none := by
  obtain ⟨name, kind, link⟩ := s
  cases kind <;> rfl

theorem Socket.declared_disconnect : s.disconnect.declared = s.declared := by
  obtain ⟨name, kind, link⟩ := s
  cases link <;> cases kind <;> rfl

theorem Socket.node?_disconnect : s.disconnect.node? = none := by
  obtain ⟨name, kind, link⟩ := s
  cases link <;> cases kind <;> rfl

end Edits

/-- The kind of the socket that a kind of node declares under a name. -/
def NodeKind.socketKind? (kind : NodeKind) (name : String) : Option SocketKind :=
  (kind.sockets.find? (·.name == name)).map (·.kind)

namespace Node

/-- The node has the sockets its kind declares. -/
def HasSchema (n : Node) : Prop :=
  n.sockets.map Socket.declared = n.kind.sockets.map SocketSpec.declared

/-- Every node of the tree has the sockets its kind declares. -/
def Conforms (n : Node) : Prop := ∀ m ∈ n.nodes, m.HasSchema

instance (n : Node) : Decidable n.HasSchema := inferInstanceAs (Decidable (_ = _))

instance (n : Node) : Decidable n.Conforms :=
  inferInstanceAs (Decidable (∀ m ∈ n.nodes, m.HasSchema))

theorem conforms_iff {n : Node} : n.Conforms ↔ n.HasSchema ∧ ∀ c ∈ n.children, c.Conforms :=
  forall_nodes_iff

/-- A socket of a name has the kind that is declared under the name. -/
theorem HasSchema.kind_of_socket? {n : Node} (h : n.HasSchema) (name : String) :
    (n.socket? name).map (·.kind) = n.kind.socketKind? name := by
  have hfind : (n.sockets.map Socket.declared).find? (·.1 == name) =
      (n.kind.sockets.map SocketSpec.declared).find? (·.1 == name) := by rw [h]
  rw [List.find?_map, List.find?_map] at hfind
  have hkind := congrArg (Option.map Prod.snd) hfind
  rw [Option.map_map, Option.map_map] at hkind
  exact hkind

/-! ### New and unedited nodes -/

theorem children_new (kind : NodeKind) : (new kind).children = [] := by
  cases kind <;> rfl

theorem conforms_new (kind : NodeKind) : (new kind).Conforms := by
  refine conforms_iff.mpr ⟨?_, by simp [children_new]⟩
  cases kind <;> rfl

theorem conforms_reset_iff {n : Node} : n.reset.Conforms ↔ n.Conforms := by
  have hschema : ∀ m : Node, m.reset.HasSchema ↔ m.HasSchema := fun m => by
    rw [HasSchema, sockets_reset, List.map_map, kind_reset]
    rfl
  rw [Conforms, forall_nodes_reset, Conforms]
  simp only [hschema]

/-- What is found out about a tree has no part in whether it conforms. -/
theorem conforms_of_reset_eq {a b : Node} (h : a.reset = b.reset) (hb : b.Conforms) :
    a.Conforms := by
  rw [← conforms_reset_iff, h]
  exact conforms_reset_iff.mpr hb

/-! ### Edited nodes -/

theorem map_declared_replaceIn {s t : Socket Node} (hdeclared : s.declared = t.declared)
    {sockets : List (Socket Node)} (ht : sockets.find? (·.name == t.name) = some t) :
    (replaceIn s sockets).map Socket.declared = sockets.map Socket.declared := by
  have hname : s.name = t.name := congrArg Prod.fst hdeclared
  induction sockets with
  | nil => rfl
  | cons u rest ih =>
    rw [replaceIn, hname]
    by_cases hu : u.name = t.name
    · rw [List.find?_cons_of_pos (by simpa using hu)] at ht
      obtain rfl := Option.some.inj ht
      rw [if_pos rfl, List.map_cons, List.map_cons, hdeclared]
    · rw [List.find?_cons_of_neg (by simpa using hu)] at ht
      rw [if_neg hu, List.map_cons, List.map_cons, ih ht]

theorem mem_replaceIn {s u : Socket Node} {sockets : List (Socket Node)}
    (h : u ∈ replaceIn s sockets) : u = s ∨ u ∈ sockets := by
  induction sockets with
  | nil => cases h
  | cons t rest ih =>
    rw [replaceIn] at h
    split at h
    · rcases List.mem_cons.mp h with rfl | h
      · exact .inl rfl
      · exact .inr (List.mem_cons_of_mem t h)
    · rcases List.mem_cons.mp h with rfl | h
      · exact .inr List.mem_cons_self
      · exact (ih h).imp_right (List.mem_cons_of_mem t)

/-- A socket changed in what it holds leaves the tree conforming, if what is plugged in conforms. -/
theorem Conforms.withSocket {n : Node} (hn : n.Conforms) {s t : Socket Node}
    (ht : n.socket? t.name = some t) (hdeclared : s.declared = t.declared)
    (hs : ∀ c, s.node? = some c → c.Conforms) : (n.withSocket s).Conforms := by
  obtain ⟨hschema, hchildren⟩ := conforms_iff.mp hn
  refine conforms_iff.mpr ⟨(map_declared_replaceIn hdeclared ht).trans hschema, fun c hc => ?_⟩
  obtain ⟨u, hu, huc⟩ := mem_children.mp hc
  rcases mem_replaceIn hu with rfl | hu
  · exact hs c huc
  · exact hchildren c (mem_children.mpr ⟨u, hu, huc⟩)

theorem Conforms.of_plugged? {n c : Node} (hn : n.Conforms) {name : String}
    (h : n.plugged? name = some c) : c.Conforms :=
  (conforms_iff.mp hn).2 c (mem_children_of_plugged? h)

theorem name_of_socket? {n : Node} {name : String} {s : Socket Node} (h : n.socket? name = some s) :
    s.name = name := by
  simpa using List.find?_some h

/-- A socket that a node is plugged into leaves the tree conforming, if that node conforms. -/
theorem Conforms.plug {n child : Node} (hn : n.Conforms) {s : Socket Node}
    (hs : n.socket? s.name = some s) (hchild : child.Conforms) :
    (n.withSocket (s.connect child)).Conforms := by
  refine hn.withSocket hs rfl fun c hc => ?_
  obtain rfl : child = c := Option.some.inj hc
  exact hchild

/-- So does a socket that is left with nothing plugged in. -/
theorem Conforms.unplug {n : Node} (hn : n.Conforms) {s t : Socket Node}
    (ht : n.socket? t.name = some t) (hdeclared : s.declared = t.declared) (hs : s.node? = none) :
    (n.withSocket s).Conforms := by
  refine hn.withSocket ht hdeclared fun c hc => ?_
  rw [hs] at hc
  cases hc

/-- The name a node was created under has no part in whether it conforms. -/
theorem Conforms.rename {n : Node} (hn : n.Conforms) (typeName : String) :
    Conforms { n with typeName := typeName } := by
  have h := conforms_iff.mp hn
  exact conforms_iff.mpr h

end Node

/-! ### Assembled nodes -/

namespace Registry

/-- Every registered type is a conforming tree. -/
def Conforms (r : Registry) : Prop := ∀ entry ∈ r.types, entry.2.Conforms

theorem mem_insert {name : String} {node : Node} {entry : String × Node}
    {types : List (String × Node)} (h : entry ∈ insert name node types) :
    entry = (name, node) ∨ entry ∈ types := by
  induction types with
  | nil => exact .inl (List.mem_singleton.mp h)
  | cons first rest ih =>
    rw [insert] at h
    split at h
    · exact (List.mem_cons.mp h).imp_right (List.mem_cons_of_mem first)
    split at h
    · exact List.mem_cons.mp h
    · rcases List.mem_cons.mp h with rfl | h
      · exact .inr List.mem_cons_self
      · exact (ih h).imp_right (List.mem_cons_of_mem first)

/-- A fresh node is a registered type under the name it was created by. -/
theorem exists_of_create? {r : Registry} {name : String} {fresh : Node}
    (h : r.create? name = some fresh) :
    ∃ node, (name, node) ∈ r.types ∧ fresh = { node with typeName := name } := by
  obtain ⟨node, hlookup, rfl⟩ := Option.map_eq_some_iff.mp h
  obtain ⟨before, after, htypes, -⟩ := List.lookup_eq_some_iff.mp hlookup
  exact ⟨node, by simp [htypes], rfl⟩

/-- The types of the schema are new nodes of its kinds. -/
theorem exists_of_mem_builtin {entry : String × Node} (h : entry ∈ builtin.types) :
    ∃ kind, entry.2 = .new kind := by
  have hkinds : ∀ (kinds : List NodeKind) (r : Registry),
      entry ∈ (kinds.foldl (fun r kind => r.register kind.name (.new kind)) r).types →
        entry ∈ r.types ∨ ∃ kind, entry.2 = .new kind := by
    intro kinds
    induction kinds with
    | nil => exact fun r hr => .inl hr
    | cons kind kinds ih =>
      intro r hr
      rcases ih _ hr with hr | hnew
      · rcases mem_insert hr with rfl | hr
        · exact .inr ⟨kind, rfl⟩
        · exact .inl hr
      · exact .inr hnew
  exact (hkinds _ empty h).resolve_left List.not_mem_nil

theorem Conforms.register {r : Registry} (hr : r.Conforms) {node : Node} (hnode : node.Conforms)
    (name : String) : (r.register name node).Conforms := by
  intro entry hentry
  rcases mem_insert hentry with rfl | hentry
  · exact hnode
  · exact hr entry hentry

theorem Conforms.registerKinds {r : Registry} (hr : r.Conforms) (kinds : List NodeKind) :
    Conforms (kinds.foldl (fun r kind => r.register kind.name (.new kind)) r) := by
  induction kinds generalizing r with
  | nil => exact hr
  | cons kind kinds ih => exact ih (hr.register (Node.conforms_new kind) kind.name)

theorem conforms_empty : empty.Conforms := by
  intro entry hentry
  cases hentry

theorem conforms_builtin : builtin.Conforms :=
  conforms_empty.registerKinds (NodeKind.all.filter (· != .output))

theorem Conforms.create? {r : Registry} (hr : r.Conforms) {name : String} {node : Node}
    (h : r.create? name = some node) : node.Conforms := by
  obtain ⟨template, hlookup, rfl⟩ := Option.map_eq_some_iff.mp h
  obtain ⟨before, after, htypes, -⟩ := List.lookup_eq_some_iff.mp hlookup
  have hmem : (name, template) ∈ r.types := by simp [htypes]
  exact (hr _ hmem).rename name

end Registry

namespace Assembly

@[simp] theorem node_warn (a : Assembly) (ws : Report) : (a.warn ws).node = a.node := rfl

theorem conforms_applyLiteral {a : Assembly} (ha : a.node.Conforms) {s : Socket Node}
    (hs : a.node.socket? s.name = some s) (path text : String) :
    (applyLiteral path a s text).node.Conforms := by
  rw [applyLiteral]
  split
  · exact ha
  · exact ha.unplug hs (s.declared_setLiteral text) (s.node?_setLiteral text)

section Properties

/- What is assembled one level down conforms. -/
variable {ctx : Context} (hctx : ctx.registry.Conforms)
  {assemble : Option (NodeDesc → String → Node → Assembly)}
  (hassemble : ∀ f, assemble = some f → ∀ desc path node, node.Conforms →
    (f desc path node).node.Conforms)

include hctx hassemble

theorem conforms_applyNode {a : Assembly} (ha : a.node.Conforms) {s : Socket Node}
    (hs : a.node.socket? s.name = some s) (path : String) (desc : NodeDesc) :
    (applyNode ctx assemble path a s desc).node.Conforms := by
  unfold applyNode
  split
  · exact ha
  cases assemble with
  | none => exact ha
  | some f =>
    cases hfresh : ctx.registry.create? desc.nodeType with
    | none => exact ha
    | some fresh =>
      have hchild := hassemble f rfl desc (childPath path s.name desc.nodeType) fresh
        (hctx.create? hfresh)
      exact ha.plug hs hchild

theorem conforms_applyProperty (templates : Templates) (path : String) {a : Assembly}
    (ha : a.node.Conforms) (property : String × PropertyValue) :
    (applyProperty ctx templates assemble path a property).node.Conforms := by
  obtain ⟨name, value⟩ := property
  cases hs : a.node.socket? name with
  | none => cases value <;> simpa [applyProperty, hs] using ha
  | some s =>
    obtain rfl := Node.name_of_socket? hs
    cases value with
    | literal text => simpa [applyProperty, hs] using conforms_applyLiteral ha hs path text
    | node desc => simpa [applyProperty, hs] using conforms_applyNode hctx hassemble ha hs path desc
    | reference target =>
      cases htarget : templates.get? target with
      | none => simpa [applyProperty, hs, htarget] using ha
      | some desc =>
        simpa [applyProperty, hs, htarget] using conforms_applyNode hctx hassemble ha hs path desc
    | missing what => simpa [applyProperty] using ha
    | invalid reason => simpa [applyProperty, hs] using ha

theorem conforms_applyProperties (templates : Templates) (path : String)
    (properties : List (String × PropertyValue)) {a : Assembly} (ha : a.node.Conforms) :
    (properties.foldl (applyProperty ctx templates assemble path) a).node.Conforms := by
  induction properties generalizing a with
  | nil => exact ha
  | cons property properties ih =>
    exact ih (conforms_applyProperty hctx hassemble templates path ha property)

end Properties

theorem conforms_fill {ctx : Context} (hctx : ctx.registry.Conforms) (templates : Templates)
    (room : ℕ) (desc : NodeDesc) (path : String) {target : Node} (htarget : target.Conforms) :
    (fill ctx templates room desc path target).node.Conforms := by
  induction room generalizing desc path target with
  | zero =>
    rw [fill]
    refine conforms_applyProperties hctx ?_ templates path desc.properties htarget
    intro f hf
    cases hf
  | succ room ih =>
    rw [fill]
    refine conforms_applyProperties hctx ?_ templates path desc.properties htarget
    intro f hf desc path node hnode
    obtain rfl := Option.some.inj hf
    exact ih desc path hnode

end Assembly

/-- Every graph that is assembled from a description conforms, whatever the description. -/
theorem Graph.conforms_ofDesc {ctx : Context} (hctx : ctx.registry.Conforms) (desc : GraphDesc) :
    (Graph.ofDesc ctx desc).1.root.Conforms :=
  Assembly.conforms_fill hctx desc.templates ctx.config.maxDepth desc.output _
    (Node.conforms_new .output)

end ShadeTree
