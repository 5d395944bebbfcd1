import ShadeTree.Proofs.Conformance
import ShadeTree.Proofs.Tally
import Mathlib.Tactic.Abel

/-!
# Handles in trees

Preparation leaves handles on the nodes of a tree, and the pool counts them. Here is what each
operation on a tree does to the handles it holds: an edit moves them with the subtree that comes
out, withdrawing gives them all back, and preparation takes one for every image texture that it
passes and whose texture is loaded.

Preparation writes over what it finds on a node, so it would lose a handle that is held by a node it
has still to pass. There is none in a tree that is `Tidy`, and every operation keeps trees tidy.
What preparation takes (`Takes`) is told with whatever else is held elsewhere, so that it can be
told of a subtree and then of the tree.
-/

namespace ShadeTree

namespace Node

/-! ### The handles of a tree -/

theorem handlesIn_eq (sockets : List (Socket Node)) :
    handlesIn sockets = (sockets.filterMap Socket.node?).flatMap handles := by
  induction sockets with
  | nil => rfl
  | cons s rest ih =>
    obtain ⟨_, _, link⟩ := s
    rw [List.filterMap_cons]
    cases link <;> simp [handlesIn, ih, Socket.node?]

theorem handles_eq (n : Node) : n.handles = n.texture?.toList ++ n.children.flatMap handles := by
  obtain ⟨_, _, _, _, _, _, prepared, sockets⟩ := n
  rw [children, ← handlesIn_eq]
  cases prepared with
  | texture h => cases h <;> simp [handles, texture?]
  | none => simp [handles, texture?]
  | folded v => simp [handles, texture?]
  | fallback c => simp [handles, texture?]

/-- The handles of a tree are those bound to its nodes. -/
theorem handles_eq_filterMap (n : Node) : n.handles = n.nodes.filterMap texture? := by
  induction n using Node.induction with
  | step n ih =>
    have hbelow : n.children.flatMap handles = (n.children.flatMap nodes).filterMap texture? := by
      rw [List.filterMap_flatMap]
      exact List.flatMap_congr ih
    rw [handles_eq, nodes_eq, List.filterMap_cons, hbelow]
    cases n.texture? <;> rfl

/-- A walk that leaves the bound texture of every node leaves the handles. -/
theorem handles_walk {f : Node → Node}
    (hsockets : ∀ n, (f n).sockets = n.sockets.map (Socket.map f))
    (htexture : ∀ n, (f n).texture? = n.texture?) (n : Node) : (f n).handles = n.handles := by
  rw [handles_eq_filterMap, nodes_map hsockets, List.filterMap_map, handles_eq_filterMap]
  exact congrArg (List.filterMap · _) (funext htexture)

theorem handles_validate (n : Node) : n.validate.handles = n.handles :=
  handles_walk sockets_validate (fun n => by rw [validate_eq]; rfl) n

theorem handles_infer (n : Node) : n.infer.handles = n.handles :=
  handles_walk sockets_infer (fun n => by rw [infer_eq]; rfl) n

theorem handles_reset (n : Node) : n.reset.handles = [] := by
  rw [handles_eq_filterMap, nodes_map sockets_reset, List.filterMap_map]
  have hnone : texture? ∘ reset = fun _ => none := funext fun m => by
    rw [Function.comp, reset_eq]
    rfl
  rw [hnone, List.filterMap_none]

/-- The handles that some trees hold. -/
def custody (trees : Multiset Node) : Multiset (Handle Image) :=
  trees.bind fun n => (n.handles : Multiset (Handle Image))

@[simp] theorem custody_zero : custody 0 = 0 := rfl

@[simp] theorem custody_cons (n : Node) (trees : Multiset Node) :
    custody (n ::ₘ trees) = (n.handles : Multiset (Handle Image)) + custody trees :=
  Multiset.cons_bind n trees _

@[simp] theorem custody_add (trees more : Multiset Node) :
    custody (trees + more) = custody trees + custody more :=
  Multiset.add_bind trees more _

@[simp] theorem custody_singleton (n : Node) :
    custody {n} = (n.handles : Multiset (Handle Image)) :=
  Multiset.singleton_bind n _

theorem custody_coe (trees : List Node) :
    custody trees = (trees.flatMap handles : Multiset (Handle Image)) :=
  Multiset.coe_bind trees handles

theorem handles_eq_custody (n : Node) : (n.handles : Multiset (Handle Image)) =
    (n.texture?.toList : Multiset (Handle Image)) + custody n.children := by
  rw [handles_eq, custody_coe, Multiset.coe_add]

/-! ### Edits -/

/-- Another socket in the place of one: what was plugged in comes out, and what the other holds
comes in. -/
theorem plugged_replaceIn {s t : Socket Node} {sockets : List (Socket Node)}
    (ht : sockets.find? (·.name == s.name) = some t) :
    ((replaceIn s sockets).filterMap Socket.node? : Multiset Node) + t.node?.toList =
      (sockets.filterMap Socket.node? : Multiset Node) + s.node?.toList := by
  have hcons : ∀ (u : Socket Node) (rest : List (Socket Node)),
      ((u :: rest).filterMap Socket.node? : Multiset Node) =
        (u.node?.toList : Multiset Node) + (rest.filterMap Socket.node? : Multiset Node) := by
    intro u rest
    rw [List.filterMap_cons]
    cases u.node? <;> rfl
  induction sockets with
  | nil => cases ht
  | cons u rest ih =>
    rw [replaceIn]
    by_cases hu : u.name = s.name
    · rw [List.find?_cons_of_pos (by simpa using hu)] at ht
      obtain rfl := Option.some.inj ht
      rw [if_pos hu, hcons, hcons]
      abel
    · rw [List.find?_cons_of_neg (by simpa using hu)] at ht
      rw [if_neg hu, hcons, hcons, add_assoc, ih ht, add_assoc]

theorem handles_withSocket {n : Node} {s t : Socket Node} (ht : n.socket? s.name = some t) :
    ((n.withSocket s).handles : Multiset (Handle Image)) + custody t.node?.toList =
      (n.handles : Multiset (Handle Image)) + custody s.node?.toList := by
  have hchildren : ((n.withSocket s).children : Multiset Node) + t.node?.toList =
      (n.children : Multiset Node) + s.node?.toList := plugged_replaceIn ht
  rw [handles_eq_custody, handles_eq_custody n, add_assoc, add_assoc, ← custody_add, ← custody_add,
    hchildren]
  rfl

theorem find?_replaceIn {s t : Socket Node} {sockets : List (Socket Node)}
    (ht : sockets.find? (·.name == s.name) = some t) :
    (replaceIn s sockets).find? (·.name == s.name) = some s := by
  induction sockets with
  | nil => cases ht
  | cons u rest ih =>
    rw [replaceIn]
    by_cases hu : u.name = s.name
    · rw [if_pos hu, List.find?_cons_of_pos (by simp)]
    · rw [List.find?_cons_of_neg (by simpa using hu)] at ht
      rw [if_neg hu, List.find?_cons_of_neg (by simpa using hu), ih ht]

theorem putAt_cons {n child : Node} {name : String} {s : Socket Node} (hs : n.socket? name = some s)
    (hchild : s.node? = some child) (new : Node) (path : List String) :
    n.putAt new (name :: path) = n.withSocket (s.connect (child.putAt new path)) := by
  rw [putAt, hs]
  simp only [hchild]

/-- What is put at a path is found there. -/
theorem at?_putAt {n m : Node} {path : List String} (h : n.at? path = some m) (new : Node) :
    (n.putAt new path).at? path = some new := by
  induction path generalizing n with
  | nil => rfl
  | cons name path ih =>
    obtain ⟨child, hchild, hm⟩ := Option.bind_eq_some_iff.mp h
    obtain ⟨s, hs, hnode⟩ := Option.bind_eq_some_iff.mp hchild
    obtain rfl := name_of_socket? hs
    have hput : (n.putAt new (s.name :: path)).socket? s.name =
        some (s.connect (child.putAt new path)) := by
      rw [putAt_cons hs hnode]
      exact find?_replaceIn (s := s.connect (child.putAt new path)) hs
    rw [at?, hput]
    exact ih hm

/-- What a tree holds besides the subtree at a path, it holds whatever is put there. -/
theorem exists_handles_putAt {n m : Node} {path : List String} (h : n.at? path = some m) :
    ∃ besides : Multiset (Handle Image),
      (n.handles : Multiset (Handle Image)) = (m.handles : Multiset (Handle Image)) + besides ∧
      ∀ new : Node, ((n.putAt new path).handles : Multiset (Handle Image)) =
        (new.handles : Multiset (Handle Image)) + besides := by
  induction path generalizing n with
  | nil =>
    obtain rfl := Option.some.inj h
    exact ⟨0, (add_zero _).symm, fun new => (add_zero _).symm⟩
  | cons name path ih =>
    obtain ⟨child, hchild, hm⟩ := Option.bind_eq_some_iff.mp h
    obtain ⟨s, hs, hnode⟩ := Option.bind_eq_some_iff.mp hchild
    obtain rfl := name_of_socket? hs
    obtain ⟨below, hbelow, hput⟩ := ih hm
    -- What the node holds without the subtree in this socket.
    let rest : Multiset (Handle Image) := ((n.withSocket s.disconnect).handles : Multiset _)
    have hrest : (n.handles : Multiset (Handle Image)) = (child.handles : Multiset _) + rest := by
      have hname : s.disconnect.name = s.name := congrArg Prod.fst s.declared_disconnect
      have hout := handles_withSocket (s := s.disconnect) (hname ▸ hs)
      rw [s.node?_disconnect, hnode] at hout
      rw [add_comm]
      simpa [rest] using hout.symm
    refine ⟨below + rest, by rw [hrest, hbelow, add_assoc], fun new => ?_⟩
    have hin := handles_withSocket (s := s.connect (child.putAt new path)) hs
    rw [hnode, hrest] at hin
    rw [putAt_cons hs hnode, ← add_assoc, ← hput new]
    refine add_right_cancel (b := (child.handles : Multiset (Handle Image))) ?_
    simpa [Socket.connect, Socket.node?, add_comm, add_left_comm] using hin

/-! ### Properties of all nodes -/

section AllNodes

variable {P : Node → Prop} {n m : Node}

theorem forall_nodes_plugged (hn : ∀ m ∈ n.nodes, P m) {name : String} {s : Socket Node} {c : Node}
    (hs : n.socket? name = some s) (hc : s.node? = some c) : ∀ m ∈ c.nodes, P m :=
  (forall_nodes_iff.mp hn).2 c
    (mem_children_of_plugged? (Option.bind_eq_some_iff.mpr ⟨s, hs, hc⟩))

theorem forall_nodes_at? (hn : ∀ m ∈ n.nodes, P m) {path : List String} (h : n.at? path = some m) :
    ∀ l ∈ m.nodes, P l := by
  induction path generalizing n with
  | nil =>
    obtain rfl := Option.some.inj h
    exact hn
  | cons name path ih =>
    obtain ⟨child, hchild, hm⟩ := Option.bind_eq_some_iff.mp h
    obtain ⟨s, hs, hnode⟩ := Option.bind_eq_some_iff.mp hchild
    exact ih (forall_nodes_plugged hn hs hnode) hm

-- A property that does not look at the sockets is kept when these change.
variable (hP : ∀ n sockets, P n → P { n with sockets := sockets })

include hP

theorem forall_nodes_withSocket (hn : ∀ m ∈ n.nodes, P m) {s : Socket Node}
    (hs : ∀ c, s.node? = some c → ∀ m ∈ c.nodes, P m) : ∀ m ∈ (n.withSocket s).nodes, P m := by
  obtain ⟨hroot, hchildren⟩ := forall_nodes_iff.mp hn
  refine forall_nodes_iff.mpr ⟨hP n _ hroot, fun c hc => ?_⟩
  obtain ⟨u, hu, huc⟩ := mem_children.mp hc
  rcases mem_replaceIn hu with rfl | hu
  · exact hs c huc
  · exact hchildren c (mem_children.mpr ⟨u, hu, huc⟩)

theorem forall_nodes_putAt {new : Node} (hn : ∀ m ∈ n.nodes, P m) (hnew : ∀ m ∈ new.nodes, P m)
    (path : List String) : ∀ m ∈ (n.putAt new path).nodes, P m := by
  induction path generalizing n with
  | nil => exact hnew
  | cons name path ih =>
    rw [Node.putAt]
    cases hs : n.socket? name with
    | none => exact hn
    | some s =>
      cases hc : s.node? with
      | none =>
        simp only [hc]
        exact hn
      | some child =>
        simp only [hc]
        refine forall_nodes_withSocket hP hn fun c hc' => ?_
        obtain rfl : child.putAt new path = c := Option.some.inj hc'
        exact ih (forall_nodes_plugged hn hs hc)

end AllNodes

/-! ### Tidy trees -/

/-- The nodes that preparation has still to pass hold nothing from it. -/
def Tidy (n : Node) : Prop := ∀ m ∈ n.nodes, m.processed = false → m.prepared = .none

theorem tidy_iff {n : Node} :
    n.Tidy ↔ (n.processed = false → n.prepared = .none) ∧ ∀ c ∈ n.children, c.Tidy :=
  forall_nodes_iff

theorem Tidy.withSocket {n : Node} (hn : n.Tidy) {s : Socket Node}
    (hs : ∀ c, s.node? = some c → c.Tidy) : (n.withSocket s).Tidy :=
  forall_nodes_withSocket (fun _ _ h => h) hn hs

theorem Tidy.of_plugged {n c : Node} (hn : n.Tidy) {name : String} {s : Socket Node}
    (hs : n.socket? name = some s) (hc : s.node? = some c) : c.Tidy :=
  forall_nodes_plugged hn hs hc

theorem Tidy.at? {n m : Node} (hn : n.Tidy) {path : List String} (h : n.at? path = some m) :
    m.Tidy :=
  forall_nodes_at? hn h

theorem Tidy.putAt {n new : Node} (hn : n.Tidy) (hnew : new.Tidy) (path : List String) :
    (n.putAt new path).Tidy :=
  forall_nodes_putAt (fun _ _ h => h) hn hnew path

/-- A walk that leaves what preparation left keeps trees tidy. -/
theorem Tidy.walk {f : Node → Node} (hsockets : ∀ n, (f n).sockets = n.sockets.map (Socket.map f))
    (hprocessed : ∀ n, (f n).processed = n.processed) (hprepared : ∀ n, (f n).prepared = n.prepared)
    {n : Node} (hn : n.Tidy) : (f n).Tidy := by
  rw [Tidy, nodes_map hsockets, List.forall_mem_map]
  intro m hm
  rw [hprocessed, hprepared]
  exact hn m hm

theorem Tidy.validate {n : Node} (hn : n.Tidy) : n.validate.Tidy :=
  hn.walk sockets_validate processed_validate prepared_validate

theorem Tidy.infer {n : Node} (hn : n.Tidy) : n.infer.Tidy :=
  hn.walk sockets_infer (fun n => by rw [infer_eq]) fun n => by rw [infer_eq]

/-- No node of the tree was processed, and none holds anything from it. -/
def Fresh (n : Node) : Prop := ∀ m ∈ n.nodes, m.processed = false ∧ m.prepared = .none

theorem Fresh.tidy {n : Node} (hn : n.Fresh) : n.Tidy := fun m hm _ => (hn m hm).2

theorem Fresh.handles_eq {n : Node} (hn : n.Fresh) : n.handles = [] := by
  rw [handles_eq_filterMap, List.filterMap_eq_nil_iff]
  intro m hm
  rw [texture?, (hn m hm).2]

theorem fresh_new (kind : NodeKind) : (new kind).Fresh := by
  have hnodes : (new kind).nodes = [new kind] := by
    rw [nodes_eq, children_new]
    rfl
  rw [Fresh, hnodes, List.forall_mem_singleton]
  exact ⟨rfl, rfl⟩

theorem fresh_reset (n : Node) : n.reset.Fresh := by
  rw [Fresh, forall_nodes_reset]
  intro m _
  rw [reset_eq]
  exact ⟨rfl, rfl⟩

/-! ### Preparation -/

@[simp] theorem textureName_reset (n : Node) : n.reset.textureName = n.textureName := by
  have htext : ∀ s : Socket Node, (s.map reset).text? = s.text? := fun ⟨_, _, link⟩ => by
    cases link <;> rfl
  rw [textureName, socket?, sockets_reset, List.find?_map, textureName, socket?]
  have hname : ((·.name == "Texture") ∘ Socket.map reset : Socket Node → Bool) =
      (·.name == "Texture") := rfl
  rw [hname]
  cases n.sockets.find? (·.name == "Texture") with
  | none => rfl
  | some s =>
    rw [Option.map_some, Option.bind_some, Option.bind_some, htext]

theorem textureName_eq_of_reset_eq {a b : Node} (h : a.reset = b.reset) :
    a.textureName = b.textureName := by
  rw [← textureName_reset, h, textureName_reset]

theorem nodes_cons (n : Node) : n.nodes = n :: nodesIn n.sockets := by
  rw [nodes_eq, nodesIn_eq]
  rfl

theorem length_nodes_reset (n : Node) : n.reset.nodes.length = n.nodes.length := by
  rw [nodes_map sockets_reset, List.length_map]

/-- Of a node beside itself after preparation: it is an image texture of a name, and it was passed
just now. -/
def passes (name : String) (pair : Node × Node) : Bool :=
  pair.1.kind == .imageTexture && pair.1.textureName == name && !pair.1.processed &&
    pair.2.processed

/-- How many image textures of a name were passed on the way from a tree to the tree prepared. -/
def passed (name : String) (before after : List Node) : ℕ :=
  (before.zip after).countP (passes name)

theorem passed_self (name : String) (ns : List Node) : passed name ns ns = 0 := by
  have hzip : ns.zip ns = ns.map fun m => (m, m) := by
    simpa using (List.map_prod_left_eq_zip (l := ns) (f := id)).symm
  rw [passed, hzip, List.countP_map, List.countP_eq_zero]
  intro m _
  cases hm : m.processed <;> simp [passes, hm]

theorem passed_cons (name : String) (n n' : Node) (before after : List Node) :
    passed name (n :: before) (n' :: after) =
      passed name before after + if passes name (n, n') then 1 else 0 :=
  List.countP_cons

theorem passed_append (name : String) {before after : List Node} (more more' : List Node)
    (h : before.length = after.length) :
    passed name (before ++ more) (after ++ more') =
      passed name before after + passed name more more' := by
  rw [passed, List.zip_append h, List.countP_append]
  rfl

/-- Taking handles from a pool: those held before become those held after, the pool accounts for
them and for `others`, and of each registered name so many were gained. -/
structure Takes (others : Multiset (Handle Image)) (t u : Pool Image)
    (held held' : Multiset (Handle Image)) (gain : String → ℕ) : Prop where
  accounts : u.Accounts (held' + others)
  directory_eq : u.directory = t.directory
  gained : ∀ name ∈ t.names,
    held'.countP (·.name = name) = held.countP (·.name = name) + gain name

section Taking

variable {others extra held held' held'' : Multiset (Handle Image)} {t u v : Pool Image}
  {gain gain' : String → ℕ}

theorem Takes.refl (h : t.Accounts (held + others)) : Takes others t t held held fun _ => 0 :=
  ⟨h, rfl, fun _ _ => (add_zero _).symm⟩

theorem Takes.trans (h : Takes others t u held held' gain)
    (h' : Takes others u v held' held'' gain') :
    Takes others t v held held'' fun name => gain name + gain' name where
  accounts := h'.accounts
  directory_eq := h'.directory_eq.trans h.directory_eq
  gained name hname := by
    have hname' : name ∈ u.names := by rwa [Pool.names, h.directory_eq]
    rw [h'.gained name hname', h.gained name hname, add_assoc]

/-- Every registered name counts as many more as were gained of it. -/
theorem Takes.rises (h : Takes others t u held held' gain) (ht : t.Accounts (held + others)) :
    t.Rises u gain where
  names_eq := congrArg (List.map _) h.directory_eq
  refs?_eq name hname := by
    have hname' : name ∈ u.names := by rwa [Pool.names, h.directory_eq]
    refine ⟨_, ht.refs?_eq hname, ?_⟩
    rw [h.accounts.refs?_eq hname', Multiset.countP_add, Multiset.countP_add, h.gained name hname,
      add_right_comm]

/-- What is held besides stays held. -/
theorem Takes.beside (h : Takes (extra + others) t u held held' gain) :
    Takes others t u (extra + held) (extra + held') gain where
  accounts := by
    rw [add_assoc, add_left_comm]
    exact h.accounts
  directory_eq := h.directory_eq
  gained name hname := by
    rw [Multiset.countP_add, Multiset.countP_add, h.gained name hname, add_assoc]

/-- What preparation leaves on a node that held nothing from it: no handle, or one to the texture it
names. -/
theorem settle_cases (config : Config) (path : String) {n : Node} (hprepared : n.prepared = .none)
    (t : Pool Image) :
    ((settle config path n t).1.texture? = none ∧ (settle config path n t).2.1 = t ∧
        (n.kind = .imageTexture → t.find? n.textureName = none)) ∨
      ∃ k, (settle config path n t).1.texture? = some k ∧ n.kind = .imageTexture ∧
        t.find? n.textureName = some (k, (settle config path n t).2.1) := by
  have hnone : n.texture? = none := by rw [texture?, hprepared]
  rw [settle]
  split
  · rename_i hkind
    exact .inl ⟨rfl, rfl, fun h => by simp [hkind] at h⟩
  · rename_i hkind
    cases hfind : t.find? n.textureName with
    | none => exact .inl ⟨rfl, rfl, fun _ => rfl⟩
    | some found => exact .inr ⟨found.1, rfl, hkind, rfl⟩
  · rename_i hkind
    split
    · exact .inl ⟨rfl, rfl, fun h => absurd h hkind⟩
    · exact .inl ⟨hnone, rfl, fun h => absurd h hkind⟩

/-- A node that holds nothing from preparation holds what is plugged into it. -/
theorem handles_of_unprepared {n : Node} (h : n.prepared = .none) :
    n.handles = handlesIn n.sockets := by
  rw [handles_eq, handlesIn_eq, texture?, h]
  rfl

/-- What preparation takes for the node itself. -/
theorem takes_settle (config : Config) (path : String) {n : Node} (hprepared : n.prepared = .none)
    (h : t.Accounts ((n.handles : Multiset (Handle Image)) + others)) :
    Takes others t (settle config path n t).2.1 n.handles (settle config path n t).1.handles
      fun name => if n.kind = .imageTexture ∧ n.textureName = name then 1 else 0 := by
  have hbelow : (n.handles : Multiset (Handle Image)) = custody n.children := by
    rw [handles_of_unprepared hprepared, handlesIn_eq, custody_coe]
    rfl
  have hafter : ((settle config path n t).1.handles : Multiset (Handle Image)) =
      ((settle config path n t).1.texture?.toList : Multiset (Handle Image)) +
        (n.handles : Multiset (Handle Image)) := by
    rw [handles_eq_custody, hbelow, children, settle_fst]
    rfl
  rw [hafter]
  rcases settle_cases config path hprepared t with ⟨htexture, hpool, hmissing⟩ | ⟨k, htexture,
    hkind, hfind⟩
  · rw [htexture, hpool]
    refine ⟨by simpa using h, rfl, fun name hname => ?_⟩
    have hother : ¬ (n.kind = .imageTexture ∧ n.textureName = name) := by
      rintro ⟨hkind, rfl⟩
      exact h.find?_eq_none_iff.mp (hmissing hkind) hname
    rw [if_neg hother]
    simp
  · obtain ⟨hk, -, hpool, -⟩ := h.find?_eq_some hfind
    rw [htexture, Option.toList_some, Multiset.coe_singleton, Multiset.singleton_add]
    refine ⟨?_, by rw [hpool]; rfl, fun name _ => ?_⟩
    · rw [Multiset.cons_add]
      exact h.find? hfind
    · rw [Multiset.countP_cons, hk]
      simp [hkind]

/-- What preparation takes for the nodes plugged into sockets. -/
theorem takes_processIn (config : Config) (path : String) (sockets : List (Socket Node))
    (hchildren : ∀ c ∈ sockets.filterMap Socket.node?, ∀ path (t : Pool Image) others,
      t.Accounts ((c.handles : Multiset (Handle Image)) + others) →
        (processAt config path c t).1.Tidy ∧
        Takes others t (processAt config path c t).2.1 c.handles
          (processAt config path c t).1.handles fun name =>
            passed name c.nodes (processAt config path c t).1.nodes)
    (h : t.Accounts ((handlesIn sockets : Multiset (Handle Image)) + others)) :
    (∀ c ∈ (processIn config path sockets t).1.filterMap Socket.node?, c.Tidy) ∧
      Takes others t (processIn config path sockets t).2.1 (handlesIn sockets)
        (handlesIn (processIn config path sockets t).1) fun name =>
          passed name (nodesIn sockets) (nodesIn (processIn config path sockets t).1) := by
  induction sockets generalizing t others with
  | nil => exact ⟨fun c hc => absurd hc List.not_mem_nil, .refl h⟩
  | cons s rest ih =>
    obtain ⟨name, kind, link⟩ := s
    cases link with
    | literal v =>
      simp only [processIn, handlesIn, nodesIn]
      exact ih hchildren h
    | text t =>
      simp only [processIn, handlesIn, nodesIn]
      exact ih hchildren h
    | node c =>
      obtain ⟨hc, hrest⟩ := List.forall_mem_cons.mp hchildren
      simp only [processIn, handlesIn, nodesIn, ← Multiset.coe_add] at h ⊢
      rw [add_assoc] at h
      obtain ⟨htidy, htakes⟩ := hc (childPath path name c.typeName) t _ h
      have hothers := htakes.accounts
      rw [add_left_comm] at hothers
      obtain ⟨htidy', htakes'⟩ := ih hrest hothers
      refine ⟨List.forall_mem_cons.mpr ⟨htidy, htidy'⟩, ?_⟩
      have hlength : c.nodes.length =
          (processAt config (childPath path name c.typeName) c t).1.nodes.length := by
        rw [← length_nodes_reset, ← reset_processAt config (childPath path name c.typeName) c t,
          length_nodes_reset]
      simp only [passed_append _ _ _ hlength]
      have hfirst := htakes.beside
      rw [add_comm (handlesIn rest : Multiset (Handle Image)),
        add_comm (handlesIn rest : Multiset (Handle Image))] at hfirst
      exact hfirst.trans htakes'.beside

/-- A node that is passed adds itself to what was passed below it. -/
theorem passed_settle (config : Config) (path name : String) {n m : Node}
    (hn : n.processed = false) (hm : m.processed = true) (hreset : m.reset = n.reset)
    (t : Pool Image) :
    passed name n.nodes (settle config path m t).1.nodes =
      passed name (nodesIn n.sockets) (nodesIn m.sockets) +
        if m.kind = .imageTexture ∧ m.textureName = name then 1 else 0 := by
  have hkind : m.kind = n.kind := (reset_eq_reset_iff.mp hreset).1
  have htexture : m.textureName = n.textureName := textureName_eq_of_reset_eq hreset
  rw [nodes_cons, nodes_cons, settle_fst, passed_cons, htexture, hkind]
  simp [passes, hn, hm]

/-- What preparation takes: a handle for each image texture that it passes, if its texture is
loaded. The tree stays tidy. -/
theorem takes_processAt (config : Config) (path : String) {n : Node} (hn : n.Tidy)
    (h : t.Accounts ((n.handles : Multiset (Handle Image)) + others)) :
    (processAt config path n t).1.Tidy ∧
      Takes others t (processAt config path n t).2.1 n.handles (processAt config path n t).1.handles
        fun name => passed name n.nodes (processAt config path n t).1.nodes := by
  induction n using Node.induction generalizing path t others with
  | step n ih =>
    obtain ⟨hroot, hchildren⟩ := tidy_iff.mp hn
    rw [processAt_eq]
    cases hprocessed : n.processed with
    | true =>
      rw [if_pos rfl]
      simp only [passed_self]
      exact ⟨hn, .refl h⟩
    | false =>
      rw [if_neg Bool.false_ne_true]
      have hprepared : n.prepared = .none := hroot hprocessed
      have hown : n.handles = handlesIn n.sockets := handles_of_unprepared hprepared
      rw [hown] at h ⊢
      obtain ⟨htidy, hbelow⟩ := takes_processIn config path n.sockets
        (fun c hc path t others hc' => ih c hc path (hchildren c hc) hc') h
      let m : Node := { n with processed := true, sockets := (processIn config path n.sockets t).1 }
      have hm : m.handles = handlesIn m.sockets := handles_of_unprepared hprepared
      have hpassed : (processIn config path n.sockets t).2.1.Accounts
          ((m.handles : Multiset (Handle Image)) + others) := by
        rw [hm]
        exact hbelow.accounts
      have hsettle := takes_settle (n := m) config path hprepared hpassed
      have hafter := settle_fst config path m (processIn config path n.sockets t).2.1
      rw [hm] at hsettle
      refine ⟨?_, ?_⟩
      · rw [hafter]
        exact tidy_iff.mpr ⟨by simp [m], htidy⟩
      · have hreset : m.reset = n.reset := reset_eq_reset_iff.mpr ⟨rfl, rfl,
          map_reset_processIn config path n.sockets
            (fun c _ path t => reset_processAt config path c t) t⟩
        have hgain := fun name => passed_settle config path name hprocessed (m := m) rfl hreset
          (processIn config path n.sockets t).2.1
        simp only [m] at hgain
        dsimp only
        simp only [hgain]
        exact hbelow.trans hsettle

end Taking

end Node

end ShadeTree
