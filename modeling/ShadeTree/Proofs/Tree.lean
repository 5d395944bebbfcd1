import ShadeTree.Node.Preparation
import ShadeTree.Node.Validity
import Mathlib.Data.List.Forall2

/-!
# Trees of nodes

What the walks over a tree have in common, so that a proof about one of them is an induction on the
tree with one step for a node and what is plugged into it (`Node.induction`).

A tree is looked at in two ways. `nodes` lists every node, for statements about all of them. A
position tells a node by the places of the sockets on the way down to it, for statements that
compare two trees: `Everywhere R a b` says that `a` and `b` have the same positions, with `R` at
each of them.

A walk that changes every node and keeps every socket, such as `reset`, `infer` and `validate`, is a
`Socket.map` on the sockets, so it commutes with both (`nodes_map`, `below?_map`).
-/

namespace ShadeTree

open List (Forall₂)

/-! ### Sockets -/

section Sockets

variable {ν μ : Type}

/-- What a socket holds, with a function applied to the node plugged in. -/
def Link.map (f : ν → μ) : Link ν → Link μ
  | .literal v => .literal v
  | .text s => .text s
  | .node n => .node (f n)

/-- The socket with a function applied to the node plugged in. -/
def Socket.map (f : ν → μ) (s : Socket ν) : Socket μ := ⟨s.name, s.kind, s.link.map f⟩

@[simp] theorem Socket.map_name (f : ν → μ) (s : Socket ν) : (s.map f).name = s.name := rfl

@[simp] theorem Socket.map_kind (f : ν → μ) (s : Socket ν) : (s.map f).kind = s.kind := rfl

@[simp] theorem Socket.node?_map (f : ν → μ) (s : Socket ν) : (s.map f).node? = s.node?.map f := by
  obtain ⟨name, kind, link⟩ := s
  cases link <;> rfl

theorem optionRel_cases {R : ν → μ → Prop} {x : Option ν} {y : Option μ} (h : Option.Rel R x y) :
    (x = none ∧ y = none) ∨ ∃ a b, x = some a ∧ y = some b ∧ R a b := by
  cases h with
  | none => exact .inl ⟨rfl, rfl⟩
  | some hab => exact .inr ⟨_, _, rfl, rfl, hab⟩

/-- Related options stay related under computations that relate their results. -/
theorem optionRel_bind {α β : Type} {R : ν → μ → Prop} {S : α → β → Prop} {x : Option ν}
    {y : Option μ} {f : ν → Option α} {g : μ → Option β} (h : Option.Rel R x y)
    (hfg : ∀ a b, R a b → Option.Rel S (f a) (g b)) : Option.Rel S (x.bind f) (y.bind g) := by
  cases h with
  | none => exact .none
  | some hab => exact hfg _ _ hab

theorem optionRel_or {R : ν → μ → Prop} {x x' : Option ν} {y y' : Option μ} (h : Option.Rel R x y)
    (h' : Option.Rel R x' y') : Option.Rel R (x.or x') (y.or y') := by
  cases h with
  | none => exact h'
  | some hab => exact .some hab

/-- Two sockets hold the same literal or the same text, or related nodes. -/
inductive Link.Rel (R : ν → μ → Prop) : Link ν → Link μ → Prop where
  | literal (v : Value) : Rel R (.literal v) (.literal v)
  | text (s : String) : Rel R (.text s) (.text s)
  | node {n : ν} {m : μ} (h : R n m) : Rel R (.node n) (.node m)

/-- Two sockets of the same name and kind, that differ only in the nodes plugged in. -/
structure Socket.Rel (R : ν → μ → Prop) (s : Socket ν) (t : Socket μ) : Prop where
  name_eq : s.name = t.name
  kind_eq : s.kind = t.kind
  link : s.link.Rel R t.link

variable {R : ν → μ → Prop}

theorem Socket.Rel.node? {s : Socket ν} {t : Socket μ} (h : s.Rel R t) :
    Option.Rel R s.node? t.node? := by
  obtain ⟨_, _, link⟩ := s
  obtain ⟨_, _, link'⟩ := t
  cases h.link with
  | literal => exact .none
  | text => exact .none
  | node hR => exact .some hR

/-- Sockets that correspond one by one have corresponding first sockets of a name. -/
theorem Socket.rel_find? {ss : List (Socket ν)} {ts : List (Socket μ)}
    (h : Forall₂ (Socket.Rel R) ss ts) (name : String) :
    Option.Rel (Socket.Rel R) (ss.find? (·.name == name)) (ts.find? (·.name == name)) := by
  induction h with
  | nil => exact .none
  | @cons s t ss ts hst _ ih =>
    rw [List.find?_cons, List.find?_cons, ← hst.name_eq]
    cases s.name == name with
    | true => exact .some hst
    | false => exact ih

theorem Socket.rel_getElem? {ss : List (Socket ν)} {ts : List (Socket μ)}
    (h : Forall₂ (Socket.Rel R) ss ts) (i : ℕ) : Option.Rel (Socket.Rel R) ss[i]? ts[i]? := by
  induction h generalizing i with
  | nil => exact .none
  | cons hst _ ih =>
    cases i with
    | zero => exact .some hst
    | succ i => exact ih i

/-- A function on sockets that goes by the first of a name gives what it makes of that socket. -/
theorem eq_find?_of_cons {α : Type} {f : List (Socket ν) → α} {g : Socket ν → α} (name : String)
    (hcons : ∀ s rest, f (s :: rest) = if s.name = name then g s else f rest)
    (sockets : List (Socket ν)) :
    f sockets = ((sockets.find? (·.name == name)).map g).getD (f []) := by
  induction sockets with
  | nil => rfl
  | cons s rest ih =>
    rw [hcons]
    by_cases h : s.name = name
    · rw [if_pos h, List.find?_cons_of_pos (by simpa using h)]
      rfl
    · rw [if_neg h, List.find?_cons_of_neg (by simpa using h), ih]

end Sockets

namespace Node

/-! ### Induction -/

section Induction

variable {P : Node → Prop}

mutual

private theorem induction_node (step : ∀ n : Node, (∀ c ∈ n.children, P c) → P n)
    (n : Node) : P n :=
  match n with
  | ⟨_, _, _, _, _, _, _, sockets⟩ => step _ (induction_sockets step sockets)
termination_by structural n

private theorem induction_sockets (step : ∀ n : Node, (∀ c ∈ n.children, P c) → P n)
    (sockets : List (Socket Node)) : ∀ c ∈ sockets.filterMap Socket.node?, P c :=
  match sockets with
  | [] => fun _ h => nomatch h
  | ⟨_, _, .node child⟩ :: rest =>
    List.forall_mem_cons.mpr ⟨induction_node step child, induction_sockets step rest⟩
  | ⟨_, _, .literal _⟩ :: rest => induction_sockets step rest
  | ⟨_, _, .text _⟩ :: rest => induction_sockets step rest
termination_by structural sockets

end

/-- A property of every tree follows, for each node, from the trees plugged into it. -/
@[elab_as_elim]
theorem induction {P : Node → Prop} (n : Node) (step : ∀ n, (∀ c ∈ n.children, P c) → P n) : P n :=
  induction_node step n

end Induction

theorem mem_children {n c : Node} : c ∈ n.children ↔ ∃ s ∈ n.sockets, s.node? = some c :=
  List.mem_filterMap

/-- Sockets correspond to themselves when what is plugged in is related to itself. -/
theorem rel_sockets_self {R : Node → Node → Prop} {n : Node} (h : ∀ c ∈ n.children, R c c) :
    Forall₂ (Socket.Rel R) n.sockets n.sockets := by
  refine List.forall₂_same.mpr fun s hs => ⟨rfl, rfl, ?_⟩
  cases hlink : s.link with
  | literal v => exact .literal v
  | text t => exact .text t
  | node c => exact .node (h c (mem_children.mpr ⟨s, hs, by rw [Socket.node?, hlink]⟩))

/-! ### The sockets of a name -/

/-- The node plugged into the first socket of a name. -/
def plugged? (n : Node) (name : String) : Option Node := (n.socket? name).bind Socket.node?

theorem plugged?_eq_some {n c : Node} {name : String} (h : n.plugged? name = some c) :
    ∃ s, n.socket? name = some s ∧ s.node? = some c :=
  Option.bind_eq_some_iff.mp h

theorem mem_children_of_plugged? {n c : Node} {name : String} (h : n.plugged? name = some c) :
    c ∈ n.children := by
  obtain ⟨s, hs, hc⟩ := plugged?_eq_some h
  exact mem_children.mpr ⟨s, List.mem_of_find?_eq_some hs, hc⟩

/-- The value read at a name is that of the first socket of the name. -/
theorem input_eq (sockets : List (Socket Node)) (name : String) (p : ShadingPoint) :
    input sockets name p = ((sockets.find? (·.name == name)).map (·.resolve p)).getD .zero := by
  refine eq_find?_of_cons (f := fun sockets => input sockets name p) name (fun s rest => ?_) sockets
  obtain ⟨n, kind, link⟩ := s
  cases link <;> rfl

/-- The lobes composed at a name are those of the first socket of the name. -/
theorem composeInput_eq (sockets : List (Socket Node)) (name : String) (p : ShadingPoint)
    (weight : Spectrum) (bsdf : Bsdf) :
    composeInput sockets name p weight bsdf =
      ((sockets.find? (·.name == name)).map (·.compose p weight bsdf)).getD bsdf := by
  refine eq_find?_of_cons (f := fun sockets => composeInput sockets name p weight bsdf) name
    (fun s rest => ?_) sockets
  obtain ⟨n, kind, link⟩ := s
  cases link <;> rfl

/-! ### All nodes -/

mutual

/-- The nodes of the tree, each before those below it. -/
def nodes (n : Node) : List Node :=
  match n with
  | ⟨_, _, _, _, _, _, _, sockets⟩ => n :: nodesIn sockets
termination_by structural n

/-- The nodes plugged into sockets, with all below them. -/
def nodesIn : List (Socket Node) → List Node
  | [] => []
  | ⟨_, _, .node child⟩ :: rest => child.nodes ++ nodesIn rest
  | _ :: rest => nodesIn rest
termination_by structural sockets => sockets

end

theorem nodesIn_eq (sockets : List (Socket Node)) :
    nodesIn sockets = (sockets.filterMap Socket.node?).flatMap nodes := by
  induction sockets with
  | nil => rfl
  | cons s rest ih =>
    obtain ⟨_, _, link⟩ := s
    rw [List.filterMap_cons]
    cases link <;> simp [nodesIn, ih, Socket.node?]

theorem nodes_eq (n : Node) : n.nodes = n :: n.children.flatMap nodes := by
  obtain ⟨kind, typeName, mask, valid, validated, processed, prepared, sockets⟩ := n
  rw [nodes, nodesIn_eq]
  rfl

theorem mem_nodes_iff {m n : Node} : m ∈ n.nodes ↔ m = n ∨ ∃ c ∈ n.children, m ∈ c.nodes := by
  rw [nodes_eq, List.mem_cons, List.mem_flatMap]

theorem forall_nodes_iff {P : Node → Prop} {n : Node} :
    (∀ m ∈ n.nodes, P m) ↔ P n ∧ ∀ c ∈ n.children, ∀ m ∈ c.nodes, P m := by
  rw [nodes_eq, List.forall_mem_cons]
  constructor
  · rintro ⟨h, hbelow⟩
    exact ⟨h, fun c hc m hm => hbelow m (List.mem_flatMap.mpr ⟨c, hc, hm⟩)⟩
  · rintro ⟨h, hbelow⟩
    refine ⟨h, fun m hm => ?_⟩
    obtain ⟨c, hc, hm⟩ := List.mem_flatMap.mp hm
    exact hbelow c hc m hm

/-! ### Positions -/

/-- The node at a position: the places of the sockets on the way down to it. -/
def below? (n : Node) : List ℕ → Option Node
  | [] => some n
  | i :: rest => (n.sockets[i]?.bind Socket.node?).bind (below? · rest)

theorem mem_nodes_of_below? {n m : Node} {position : List ℕ} (h : n.below? position = some m) :
    m ∈ n.nodes := by
  induction position generalizing n with
  | nil =>
    obtain rfl : n = m := Option.some.inj h
    exact mem_nodes_iff.mpr (.inl rfl)
  | cons i rest ih =>
    obtain ⟨c, hplugged, hm⟩ := Option.bind_eq_some_iff.mp h
    obtain ⟨s, hi, hsc⟩ := Option.bind_eq_some_iff.mp hplugged
    exact mem_nodes_iff.mpr (.inr ⟨c, mem_children.mpr ⟨s, List.mem_of_getElem? hi, hsc⟩, ih hm⟩)

/-- Two trees have the same positions, and their nodes are related at each of them. -/
def Everywhere (R : Node → Node → Prop) (a b : Node) : Prop :=
  ∀ position, Option.Rel R (a.below? position) (b.below? position)

/-- Trees are related everywhere when their roots are and what is plugged into them is. -/
theorem Everywhere.of_sockets {R : Node → Node → Prop} {a b : Node} (h : R a b)
    (hs : Forall₂ (Socket.Rel (Everywhere R)) a.sockets b.sockets) : Everywhere R a b := by
  intro position
  cases position with
  | nil => exact .some h
  | cons i rest =>
    have hc := optionRel_bind (Socket.rel_getElem? hs i) fun _ _ hst => hst.node?
    exact optionRel_bind hc fun _ _ hcd => hcd rest

theorem Everywhere.root {R : Node → Node → Prop} {a b : Node} (h : Everywhere R a b) : R a b := by
  have hroot : Option.Rel R (some a) (some b) := h []
  cases hroot with
  | some hR => exact hR

theorem Everywhere.refl {R : Node → Node → Prop} (hR : ∀ n, R n n) (n : Node) :
    Everywhere R n n := by
  intro position
  cases n.below? position with
  | none => exact .none
  | some m => exact .some (hR m)

/-! ### Preparation -/

/-- Preparation leaves a node it has passed. It passes another after what is plugged into it. -/
theorem processAt_eq (config : Config) (path : String) (n : Node) (textures : Pool Image) :
    processAt config path n textures =
      if n.processed then (n, textures, [])
      else
        let below := processIn config path n.sockets textures
        let own := settle config path { n with processed := true, sockets := below.1 } below.2.1
        (own.1, own.2.1, below.2.2 ++ own.2.2) := by
  obtain ⟨kind, typeName, mask, valid, validated, processed, prepared, sockets⟩ := n
  rw [processAt]

/-! ### Walks that keep the sockets -/

section Walks

variable {f : Node → Node} (hf : ∀ n, (f n).sockets = n.sockets.map (Socket.map f))

include hf

theorem children_map (n : Node) : (f n).children = n.children.map f := by
  rw [children, hf, children, List.filterMap_map, List.map_filterMap]
  exact congrArg (List.filterMap · _) (funext fun s => Socket.node?_map f s)

theorem plugged?_map (n : Node) (name : String) :
    (f n).plugged? name = (n.plugged? name).map f := by
  rw [plugged?, socket?, hf, List.find?_map, plugged?, socket?]
  have hname : ((·.name == name) ∘ Socket.map f : Socket Node → Bool) = (·.name == name) := rfl
  rw [hname]
  cases n.sockets.find? (·.name == name) with
  | none => rfl
  | some s => exact Socket.node?_map f s

theorem nodes_map (n : Node) : (f n).nodes = n.nodes.map f := by
  induction n using Node.induction with
  | step n ih =>
    rw [nodes_eq, children_map hf, nodes_eq, List.map_cons, List.flatMap_map, List.map_flatMap]
    exact congrArg _ (List.flatMap_congr ih)

theorem below?_map (n : Node) (position : List ℕ) :
    (f n).below? position = (n.below? position).map f := by
  induction position generalizing n with
  | nil => rfl
  | cons i rest ih =>
    rw [below?, below?, hf, List.getElem?_map]
    cases n.sockets[i]? with
    | none => rfl
    | some s =>
      rw [Option.map_some, Option.bind_some, Option.bind_some, Socket.node?_map]
      cases s.node? with
      | none => rfl
      | some c => exact ih c

/-- What a walk does at every node it does at every position. -/
theorem everywhere_map {R : Node → Node → Prop} (h : ∀ n, R n (f n)) (n : Node) :
    Everywhere R n (f n) := by
  intro position
  rw [below?_map hf]
  cases n.below? position with
  | none => exact .none
  | some m => exact .some (h m)

end Walks

end Node

end ShadeTree
