import ShadeTree.Graph
import ShadeTree.Proofs.Lobes
import ShadeTree.Proofs.Preparing
import ShadeTree.Proofs.Sparing
import ShadeTree.Proofs.Telling

/-!
# Paths

Two walks make up paths. Assembly names what it tells of a node by the properties and the types of
the description on the way down to it. Preparation names a node by the sockets and the type names on
the way down the tree. This module proves that they agree: what is told of a node before there is a
tree, and what is told of it afterwards, bears the same path.

The tree is walked as preparation walks it (`Node.stops`): what is plugged into a node comes before
the node, by the order of the sockets. A node that assembly has made and left in its place is told by
`Plants`, which follows the last property of each name that is not skipped. Everything else in the
tree came with a node of a registered type (`Plants.cases_of_lies`).

That a path tells a node from all others does not depend on what the types are called. Where two ways
down part, they do so at two sockets, whose names differ and have no bracket in them, and a bracket
follows the name (`Lies.eq_of_path_eq`).
-/

namespace ShadeTree

open Relation (ReflTransGen)

/-! ### Paths as texts -/

theorem toList_childPath (path socket typeName : String) :
    (childPath path socket typeName).toList =
      path.toList ++ '/' :: socket.toList ++ '(' :: typeName.toList ++ [')'] := by
  simp [childPath, String.toList_append, toString]

/-- No socket has a bracket in its name. -/
theorem NodeKind.not_mem_name (kind : NodeKind) : ∀ spec ∈ kind.sockets, '(' ∉ spec.name.toList := by
  cases kind <;> decide

/-- Up to a character that they do not have, texts are told apart. -/
theorem eq_of_append_cons_eq {c : Char} {s t x y : List Char} (hs : c ∉ s) (ht : c ∉ t)
    (h : s ++ c :: x = t ++ c :: y) : s = t := by
  induction s generalizing t with
  | nil =>
    cases t with
    | nil => rfl
    | cons b t =>
      obtain ⟨rfl, -⟩ := List.cons.inj h
      exact absurd List.mem_cons_self ht
  | cons a s ih =>
    cases t with
    | nil =>
      obtain ⟨rfl, -⟩ := List.cons.inj h
      exact absurd List.mem_cons_self hs
    | cons b t =>
      obtain ⟨rfl, hrest⟩ := List.cons.inj h
      rw [ih (fun hc => hs (List.mem_cons_of_mem a hc)) (fun hc => ht (List.mem_cons_of_mem a hc)) hrest]

/-! ### Walking a tree -/

/-- A node as a walk meets it: where it lies, and by which path. -/
structure Stop where
  position : List ℕ
  path : String
  node : Node

/-- A stop as it is seen from the node one level up. -/
def Stop.under (i : ℕ) (stop : Stop) : Stop := { stop with position := i :: stop.position }

/-- One position comes before another when what is plugged in comes before the node that it is
plugged into, and what is plugged into one socket before what is plugged into a later one. -/
inductive Earlier : List ℕ → List ℕ → Prop where
  | under (i : ℕ) (rest : List ℕ) : Earlier (i :: rest) []
  | aside {i j : ℕ} (p q : List ℕ) (h : i < j) : Earlier (i :: p) (j :: q)
  | within (i : ℕ) {p q : List ℕ} (h : Earlier p q) : Earlier (i :: p) (i :: q)

namespace Node

mutual

/-- The stops of a walk over the tree, from a path. -/
def stops (path : String) (n : Node) : List Stop :=
  match n with
  | ⟨_, _, _, _, _, _, _, sockets⟩ => stopsIn path 0 sockets ++ [⟨[], path, n⟩]
termination_by structural n

/-- The stops below sockets, of which the first has a place. -/
def stopsIn (path : String) (i : ℕ) (sockets : List (Socket Node)) : List Stop :=
  match sockets with
  | [] => []
  | ⟨name, _, .node child⟩ :: rest =>
    (child.stops (childPath path name child.typeName)).map (.under i) ++ stopsIn path (i + 1) rest
  | _ :: rest => stopsIn path (i + 1) rest
termination_by structural sockets

end

/-- A node lies in a tree at the stop, when the root has the path. -/
inductive Lies : String → Node → Stop → Prop where
  | here (path : String) (n : Node) : Lies path n ⟨[], path, n⟩
  | down {path : String} {n c : Node} {i : ℕ} {s : Socket Node} {stop : Stop}
    (hs : n.sockets[i]? = some s) (hc : s.node? = some c)
    (h : Lies (childPath path s.name c.typeName) c stop) : Lies path n (stop.under i)

theorem stops_eq (path : String) (n : Node) :
    n.stops path = stopsIn path 0 n.sockets ++ [⟨[], path, n⟩] := by
  obtain ⟨kind, typeName, mask, valid, validated, processed, prepared, sockets⟩ := n
  rw [stops]

theorem mem_stopsIn {path : String} {sockets : List (Socket Node)} {i : ℕ} {stop : Stop} :
    stop ∈ stopsIn path i sockets ↔ ∃ (k : ℕ) (s : Socket Node) (c : Node), sockets[k]? = some s ∧
      s.node? = some c ∧
        ∃ below ∈ c.stops (childPath path s.name c.typeName), below.under (i + k) = stop := by
  induction sockets generalizing i with
  | nil => simp [stopsIn]
  | cons t rest ih =>
    have hstep : stopsIn path i (t :: rest) =
        (t.node?.elim [] fun c => (c.stops (childPath path t.name c.typeName)).map (.under i)) ++
          stopsIn path (i + 1) rest := by
      obtain ⟨name, kind, link⟩ := t
      cases link <;> rfl
    rw [hstep, List.mem_append, ih]
    constructor
    · rintro (h | ⟨k, s, c, hs, hc, below, hbelow, rfl⟩)
      · cases hc : t.node? with
        | none =>
          rw [hc] at h
          cases h
        | some c =>
          rw [hc] at h
          obtain ⟨below, hbelow, rfl⟩ := List.mem_map.mp h
          exact ⟨0, t, c, rfl, hc, below, hbelow, rfl⟩
      · exact ⟨k + 1, s, c, hs, hc, below, hbelow, by rw [add_assoc, add_comm 1 k]⟩
    · rintro ⟨k, s, c, hs, hc, below, hbelow, rfl⟩
      cases k with
      | zero =>
        obtain rfl := Option.some.inj hs
        rw [hc]
        exact .inl (List.mem_map_of_mem hbelow)
      | succ k => exact .inr ⟨k, s, c, hs, hc, below, hbelow, by rw [add_assoc, add_comm 1 k]⟩

/-- The walk meets what lies in the tree, and nothing else. -/
theorem mem_stops_iff {path : String} {n : Node} {stop : Stop} :
    stop ∈ n.stops path ↔ n.Lies path stop := by
  induction n using Node.induction generalizing path stop with
  | step n ih =>
    rw [stops_eq, List.mem_append, mem_stopsIn, List.mem_singleton]
    constructor
    · rintro (⟨k, s, c, hs, hc, below, hbelow, rfl⟩ | rfl)
      · rw [zero_add]
        have hmem := mem_children.mpr ⟨s, List.mem_of_getElem? hs, hc⟩
        exact .down hs hc ((ih c hmem).mp hbelow)
      · exact .here path n
    · intro h
      cases h with
      | here => exact .inr rfl
      | @down _ _ c i s below hs hc h =>
        have hmem := mem_children.mpr ⟨s, List.mem_of_getElem? hs, hc⟩
        exact .inl ⟨i, s, c, hs, hc, below, (ih c hmem).mpr h, by rw [zero_add]⟩

theorem pairwise_stopsIn {path : String} {sockets : List (Socket Node)}
    (hchildren : ∀ c ∈ sockets.filterMap Socket.node?, ∀ path,
      (c.stops path).Pairwise fun a b => Earlier a.position b.position) (i : ℕ) :
    (stopsIn path i sockets).Pairwise fun a b => Earlier a.position b.position := by
  induction sockets generalizing i with
  | nil => exact .nil
  | cons s rest ih =>
    obtain ⟨name, kind, link⟩ := s
    cases link with
    | literal v => exact ih hchildren (i + 1)
    | text t => exact ih hchildren (i + 1)
    | node c =>
      obtain ⟨hc, hrest⟩ := List.forall_mem_cons.mp hchildren
      refine List.pairwise_append.mpr ⟨?_, ih hrest (i + 1), ?_⟩
      · exact List.pairwise_map.mpr ((hc _).imp fun h => .within i h)
      · intro a ha b hb
        obtain ⟨a, -, rfl⟩ := List.mem_map.mp ha
        obtain ⟨k, _, _, -, -, b, -, rfl⟩ := mem_stopsIn.mp hb
        exact .aside _ _ (by omega)

/-- The walk meets each position once, and in order. -/
theorem pairwise_stops (path : String) (n : Node) :
    (n.stops path).Pairwise fun a b => Earlier a.position b.position := by
  induction n using Node.induction generalizing path with
  | step n ih =>
    rw [stops_eq]
    refine List.pairwise_append.mpr
      ⟨pairwise_stopsIn (fun c hc path => ih c hc path) 0, List.pairwise_singleton _ _, ?_⟩
    intro a ha b hb
    obtain ⟨k, _, _, -, -, a, -, rfl⟩ := mem_stopsIn.mp ha
    obtain rfl := List.mem_singleton.mp hb
    exact .under _ _

theorem Lies.below?_eq_some {path : String} {n : Node} {stop : Stop} (h : n.Lies path stop) :
    n.below? stop.position = some stop.node := by
  induction h with
  | here => rfl
  | down hs hc _ ih =>
    exact Option.bind_eq_some_iff.mpr ⟨_, Option.bind_eq_some_iff.mpr ⟨_, hs, hc⟩, ih⟩

/-- There is a stop at each position of the tree. -/
theorem exists_lies {n m : Node} {position : List ℕ} (h : n.below? position = some m)
    (path : String) : ∃ path', n.Lies path ⟨position, path', m⟩ := by
  induction position generalizing path n with
  | nil =>
    obtain rfl : n = m := Option.some.inj h
    exact ⟨path, .here path n⟩
  | cons i rest ih =>
    obtain ⟨c, hplugged, hm⟩ := Option.bind_eq_some_iff.mp h
    obtain ⟨s, hs, hc⟩ := Option.bind_eq_some_iff.mp hplugged
    obtain ⟨path', hlies⟩ := ih hm (childPath path s.name c.typeName)
    exact ⟨path', .down hs hc hlies⟩

/-! ### Paths tell nodes apart -/

/-- The path of a node begins with that of each node above it. -/
theorem Lies.prefix_path {path : String} {n : Node} {stop : Stop} (h : n.Lies path stop) :
    path.toList <+: stop.path.toList := by
  induction h with
  | here path n => exact List.prefix_rfl
  | down _ _ _ ih =>
    rw [toList_childPath, List.append_assoc, List.append_assoc] at ih
    exact (List.prefix_append _ _).trans ih

theorem Lies.length_lt {path : String} {c : Node} {s : Socket Node} {stop : Stop}
    (h : Lies (childPath path s.name c.typeName) c stop) :
    path.toList.length < stop.path.toList.length := by
  have hlength := h.prefix_path.length_le
  rw [toList_childPath] at hlength
  simp only [List.length_append, List.length_cons] at hlength
  omega

theorem HasSchema.not_mem_name {n : Node} (hn : n.HasSchema) {s : Socket Node}
    (hs : s ∈ n.sockets) : '(' ∉ s.name.toList := by
  have hname : s.name ∈ n.kind.sockets.map (·.name) := by
    rw [← hn.map_name]
    exact List.mem_map_of_mem hs
  obtain ⟨spec, hspec, heq⟩ := List.mem_map.mp hname
  rw [← heq]
  exact n.kind.not_mem_name spec hspec

/-- Ways down through two sockets have different paths. -/
theorem HasSchema.eq_of_path_eq {n c d : Node} (hn : n.HasSchema) {path : String} {i j : ℕ}
    {s t : Socket Node} {a b : Stop} (hs : n.sockets[i]? = some s) (ht : n.sockets[j]? = some t)
    (ha : Lies (childPath path s.name c.typeName) c a)
    (hb : Lies (childPath path t.name d.typeName) d b) (h : a.path = b.path) : i = j := by
  obtain ⟨x, hx⟩ := ha.prefix_path
  obtain ⟨y, hy⟩ := hb.prefix_path
  have hpaths := hx.trans ((congrArg String.toList h).trans hy.symm)
  simp only [toList_childPath, List.append_assoc, List.cons_append] at hpaths
  have hnames := (List.cons.inj (List.append_cancel_left hpaths)).2
  have hname : s.name = t.name := String.toList_injective (eq_of_append_cons_eq
    (hn.not_mem_name (List.mem_of_getElem? hs)) (hn.not_mem_name (List.mem_of_getElem? ht)) hnames)
  rw [← hn.place_name hs, hname, hn.place_name ht]

/-- **A path tells one node**, whatever the types are called. -/
theorem Lies.eq_of_path_eq {path : String} {n : Node} (hn : n.Conforms) {a b : Stop}
    (ha : n.Lies path a) (hb : n.Lies path b) (h : a.path = b.path) : a = b := by
  induction ha generalizing b with
  | here path n =>
    cases hb with
    | here => rfl
    | down _ _ hbelow => exact absurd (congrArg (·.toList.length) h) hbelow.length_lt.ne
  | @down path n c i s a hs hc habove ih =>
    cases hb with
    | here => exact absurd (congrArg (·.toList.length) h) habove.length_lt.ne'
    | @down _ _ d j t b ht hd hbelow =>
      -- Both go down, and by the same socket, as its name stands in the path up to the bracket.
      obtain ⟨hschema, hchildren⟩ := conforms_iff.mp hn
      obtain rfl := hschema.eq_of_path_eq hs ht habove hbelow h
      obtain rfl := Option.some.inj (hs.symm.trans ht)
      obtain rfl := Option.some.inj (hc.symm.trans hd)
      have hmem := mem_children.mpr ⟨s, List.mem_of_getElem? hs, hc⟩
      rw [ih (hchildren c hmem) hbelow h]

end Node

/-! ### What preparation tells -/

/-- What preparation tells of a node that it meets: it is an image texture, and the texture that it
names is not loaded. -/
def Stop.missing? (textures : Pool Image) (stop : Stop) : Option Warning :=
  if stop.node.kind = .imageTexture ∧ (textures.find? stop.node.textureName).isNone then
    some (.missingTexture stop.path stop.node.textureName)
  else none

theorem Stop.missing?_congr {p q : Pool Image} (h : p.bare = q.bare) :
    missing? p = missing? q := by
  funext stop
  rw [missing?, missing?]
  rcases Pool.find?_cases h stop.node.textureName with ⟨hp, hq⟩ | ⟨k, p', q', hp, hq, -, -⟩
  · rw [hp, hq]
  · rw [hp, hq, Option.isNone_some, Option.isNone_some]

namespace Node

/-- No node of the tree was passed by preparation. -/
def Unprocessed (n : Node) : Prop := ∀ m ∈ n.nodes, m.processed = false

theorem unprocessed_iff {n : Node} :
    n.Unprocessed ↔ n.processed = false ∧ ∀ c ∈ n.children, c.Unprocessed :=
  forall_nodes_iff

theorem report_settle (config : Config) (path : String) (n : Node) (textures : Pool Image) :
    (settle config path n textures).2.2 =
      [(⟨[], path, n⟩ : Stop)].filterMap (Stop.missing? textures) := by
  by_cases himage : n.kind = .imageTexture
  · rw [settle_of_imageTexture config path textures himage]
    cases hfind : textures.find? n.textureName <;> simp [Stop.missing?, himage, hfind]
  · have hnone : Stop.missing? textures ⟨[], path, n⟩ = none := if_neg fun h => himage h.1
    rw [List.filterMap_cons_none hnone]
    by_cases houtput : n.kind = .output
    · rw [settle_of_output config path textures houtput]
      rfl
    · rw [settle_of_plain config path textures houtput himage]
      rfl

theorem report_processIn (config : Config) (path : String) (sockets : List (Socket Node))
    (hchildren : ∀ c ∈ sockets.filterMap Socket.node?, ∀ path textures,
      (processAt config path c textures).2.2 =
        (c.stops path).filterMap (Stop.missing? textures)) (i : ℕ) (textures : Pool Image) :
    (processIn config path sockets textures).2.2 =
      (stopsIn path i sockets).filterMap (Stop.missing? textures) := by
  induction sockets generalizing i textures with
  | nil => rfl
  | cons s rest ih =>
    obtain ⟨name, kind, link⟩ := s
    cases link with
    | literal v => exact ih hchildren (i + 1) textures
    | text t => exact ih hchildren (i + 1) textures
    | node c =>
      obtain ⟨hc, hrest⟩ := List.forall_mem_cons.mp hchildren
      have hbare := (processAt_sameButCounts (p := textures) rfl config
        (childPath path name c.typeName) c).left
      simp only [processIn, stopsIn]
      rw [hc, ih hrest (i + 1), Stop.missing?_congr hbare, List.filterMap_append,
        List.filterMap_map]
      rfl

/-- **Preparation tells of a tree what it tells of the stops of the walk**, in order. -/
theorem Unprocessed.report_processAt {n : Node} (hn : n.Unprocessed) (config : Config)
    (path : String) (textures : Pool Image) :
    (processAt config path n textures).2.2 =
      (n.stops path).filterMap (Stop.missing? textures) := by
  induction n using Node.induction generalizing path textures with
  | step n ih =>
    obtain ⟨hprocessed, hchildren⟩ := unprocessed_iff.mp hn
    have hbelow := report_processIn config path n.sockets
      (fun c hc path textures => ih c hc (hchildren c hc) path textures) 0 textures
    have hbare := (processIn_sameButCounts (p := textures) rfl config path n.sockets
      fun c _ path p q h => processAt_sameButCounts h config path c).left
    let m : Node :=
      { n with processed := true, sockets := (processIn config path n.sockets textures).1 }
    have hreset : m.reset = n.reset := reset_eq_reset_iff.mpr ⟨rfl, rfl,
      map_reset_processIn config path n.sockets
        (fun c _ path t => reset_processAt config path c t) textures⟩
    have hname : m.textureName = n.textureName := textureName_eq_of_reset_eq hreset
    have hown : Stop.missing? textures ⟨[], path, m⟩ = Stop.missing? textures ⟨[], path, n⟩ := by
      rw [Stop.missing?, Stop.missing?, hname]
    rw [processAt_eq, hprocessed, if_neg Bool.false_ne_true, stops_eq, List.filterMap_append,
      ← hbelow]
    dsimp only
    rw [report_settle, Stop.missing?_congr hbare]
    congr 1
    rw [List.filterMap_cons, hown, ← List.filterMap_cons]

end Node

/-! ### What assembly leaves in its place -/

section Planting

variable (ctx : Context) (templates : Templates)

/-- A visit plants, at a position below its node, the node of another. At each socket on the way the
last property of its name that is not skipped is a node or a reference to one. -/
inductive Plants : Visit → List ℕ → Visit → Prop where
  | here (v : Visit) : Plants v [] v
  | down {v u : Visit} {i : ℕ} {position : List ℕ} {s : Socket Node}
    {earlier later : List (String × PropertyValue)} {value : PropertyValue} {desc : NodeDesc}
    {fresh : Node} (hs : v.node.sockets[i]? = some s) (hplace : v.node.place s.name = i)
    (hproperties : v.desc.properties = earlier ++ (s.name, value) :: later)
    (hasks : Asks templates v.node (s.name, value) desc)
    (hdepth : v.depth < ctx.config.maxDepth)
    (hfresh : ctx.registry.create? desc.nodeType = some fresh)
    (hlater : ∀ p ∈ later, p.1 = s.name →
      Skipped ctx templates (ctx.config.maxDepth - v.depth) v.node p)
    (h : Plants ⟨v.depth + 1, childPath v.path s.name desc.nodeType, desc, fresh⟩ position u) :
    Plants v (i :: position) u

/-- A node came with a node of a registered type that a visit plants, as part of what was plugged
into that. -/
inductive Given (v : Visit) (position : List ℕ) (m : Node) : Prop where
  | intro {above rest : List ℕ} {i : ℕ} {u : Visit} (hposition : position = above ++ i :: rest)
    (hplants : Plants ctx templates v above u) (hm : u.node.below? (i :: rest) = some m)

/-- What a visit leaves. -/
def Visit.planted (v : Visit) : Node :=
  build ctx templates (ctx.config.maxDepth - v.depth) v.desc v.node

end Planting

section Planted

variable {ctx : Context} {templates : Templates} {v u : Visit} {position : List ℕ}

/-- The node of a visit is planted by a chain of calls. -/
theorem Plants.reaches (h : Plants ctx templates v position u) :
    ReflTransGen (Calls ctx templates) v u := by
  induction h with
  | here => exact .refl
  | down _ _ hproperties hasks hdepth hfresh _ _ ih =>
    refine .head (.intro ?_ hasks hdepth hfresh) ih
    rw [hproperties]
    exact List.mem_append_right _ List.mem_cons_self

/-- A property that asks for a node plugs in what one level down is built. -/
theorem put?_of_asks {below : NodeDesc → Node → Node} {n fresh : Node} {p : String × PropertyValue}
    {desc : NodeDesc} (hasks : Asks templates n p desc)
    (hfresh : ctx.registry.create? desc.nodeType = some fresh) :
    put? ctx templates (some below) (n.socketKind? p.1) p.2 = some (.node (below desc fresh)) := by
  obtain ⟨hsubject, kind, hkind, htext⟩ := hasks
  rw [hkind, put?_plug _ _ (isPlug_of_subject? hsubject), if_neg htext, hsubject]
  simp [hfresh]

/-- Only such a property puts a node in a socket. -/
theorem asks_of_put? {room : ℕ} {n c : Node} {p : String × PropertyValue}
    (h : put? ctx templates (buildBelow ctx templates room) (n.socketKind? p.1) p.2 =
      some (.node c)) :
    ∃ below desc fresh, room = below + 1 ∧ Asks templates n p desc ∧
      ctx.registry.create? desc.nodeType = some fresh ∧ c = build ctx templates below desc fresh := by
  obtain ⟨name, value⟩ := p
  cases hkind : n.socketKind? name with
  | none =>
    rw [hkind] at h
    cases h
  | some kind =>
    rw [hkind] at h
    by_cases hplug : value.isPlug
    · rw [put?_plug _ _ hplug] at h
      split_ifs at h with htext
      obtain ⟨f, hf, h⟩ := Option.bind_eq_some_iff.mp h
      obtain ⟨desc, hsubject, h⟩ := Option.bind_eq_some_iff.mp h
      obtain ⟨fresh, hfresh, h⟩ := Option.map_eq_some_iff.mp h
      obtain rfl := Link.node.inj h
      cases room with
      | zero => cases hf
      | succ below =>
        obtain rfl := Option.some.inj hf
        exact ⟨below, desc, fresh, rfl, ⟨hsubject, kind, hkind, htext⟩, hfresh, rfl⟩
    · cases value with
      | node desc => exact absurd rfl hplug
      | reference target => exact absurd rfl hplug
      | literal text => cases kind <;> cases h
      | missing what =>
        rw [put?_of_subject?_eq_none _ _ rfl fun _ hvalue => by cases hvalue] at h
        cases h
      | invalid reason =>
        rw [put?_of_subject?_eq_none _ _ rfl fun _ hvalue => by cases hvalue] at h
        cases h

theorem getElem?_build (room : ℕ) (desc : NodeDesc) (n : Node) (i : ℕ) :
    (build ctx templates room desc n).sockets[i]? = n.sockets[i]?.map fun s =>
      if n.place s.name = i then
        { s with link := (lastPut? ctx templates (buildBelow ctx templates room) desc.properties n
          s.name).getD s.link }
      else s := by
  rw [build_eq, Node.getElem?_setLinks]
  rfl

/-- Where the last property of a name is one that plugs in a node, the socket holds what is left of
the visit to that node. -/
theorem getElem?_planted {i : ℕ} {s : Socket Node} {earlier later : List (String × PropertyValue)}
    {value : PropertyValue} {desc : NodeDesc} {fresh : Node} (hs : v.node.sockets[i]? = some s)
    (hplace : v.node.place s.name = i)
    (hproperties : v.desc.properties = earlier ++ (s.name, value) :: later)
    (hasks : Asks templates v.node (s.name, value) desc) (hdepth : v.depth < ctx.config.maxDepth)
    (hfresh : ctx.registry.create? desc.nodeType = some fresh)
    (hlater : ∀ p ∈ later, p.1 = s.name →
      Skipped ctx templates (ctx.config.maxDepth - v.depth) v.node p) (path : String) :
    (v.planted ctx templates).sockets[i]? = some { s with
      link := .node (Visit.planted ctx templates ⟨v.depth + 1, path, desc, fresh⟩) } := by
  obtain ⟨room, hroom⟩ := Nat.exists_eq_succ_of_ne_zero
    (show ctx.config.maxDepth - v.depth ≠ 0 by omega)
  have hbelow : ctx.config.maxDepth - (v.depth + 1) = room := by omega
  rw [hroom] at hlater
  have hlast := lastPut?_eq_some earlier (put?_of_asks hasks hfresh) (lastPut?_eq_none hlater)
  rw [← hproperties] at hlast
  rw [Visit.planted, getElem?_build, hs, Option.map_some, if_pos hplace, hroom, Nat.succ_eq_add_one,
    buildBelow, hlast, Option.getD_some, Visit.planted, hbelow]

/-- **What is planted lies where it was planted, by the path of its visit.** -/
theorem Plants.lies (h : Plants ctx templates v position u) :
    (v.planted ctx templates).Lies v.path ⟨position, u.path, u.planted ctx templates⟩ := by
  induction h with
  | here v => exact .here _ _
  | @down v u i position s earlier later value desc fresh hs hplace hproperties hasks hdepth hfresh
      hlater _ ih =>
    have hsocket := getElem?_planted hs hplace hproperties hasks hdepth hfresh hlater
      (childPath v.path s.name desc.nodeType)
    have htype : (Visit.planted ctx templates ⟨v.depth + 1,
        childPath v.path s.name desc.nodeType, desc, fresh⟩).typeName = desc.nodeType := by
      rw [Visit.planted, typeName_build]
      exact Registry.typeName_create? hfresh
    rw [← htype] at ih
    exact .down hsocket rfl ih

/-- Where a socket does not hold what it held before, it holds what the last property of its name
that is not skipped has put there. -/
theorem exists_plants_of_getElem? {i : ℕ} {s' : Socket Node} {c : Node}
    (hs' : (v.planted ctx templates).sockets[i]? = some s') (hc : s'.node? = some c) :
    (∃ s, v.node.sockets[i]? = some s ∧ s.node? = some c) ∨
      ∃ w, c = w.planted ctx templates ∧ w.path = childPath v.path s'.name c.typeName ∧
        ∀ position u, Plants ctx templates w position u →
          Plants ctx templates v (i :: position) u := by
  rw [Visit.planted, getElem?_build] at hs'
  obtain ⟨s, hs, rfl⟩ := Option.map_eq_some_iff.mp hs'
  by_cases hplace : v.node.place s.name = i
  · rw [if_pos hplace] at hc ⊢
    cases hlast : lastPut? ctx templates (buildBelow ctx templates (ctx.config.maxDepth - v.depth))
        v.desc.properties v.node s.name with
    | none =>
      rw [hlast] at hc
      exact .inl ⟨s, hs, hc⟩
    | some link =>
      rw [hlast] at hc
      obtain rfl : link = .node c := by
        cases link with
        | literal v => cases hc
        | text t => cases hc
        | node d => rw [Option.some.inj hc]
      obtain ⟨earlier, value, later, hproperties, hput, hlater⟩ := exists_of_lastPut? hlast
      obtain ⟨room, desc, fresh, hroom, hasks, hfresh, rfl⟩ := asks_of_put? (p := (s.name, value)) hput
      have hdepth : v.depth < ctx.config.maxDepth := by omega
      have hbelow : ctx.config.maxDepth - (v.depth + 1) = room := by omega
      have htype : (build ctx templates room desc fresh).typeName = desc.nodeType := by
        rw [typeName_build]
        exact Registry.typeName_create? hfresh
      refine .inr ⟨⟨v.depth + 1, childPath v.path s.name desc.nodeType, desc, fresh⟩, ?_, ?_, ?_⟩
      · rw [Visit.planted, hbelow]
      · rw [htype]
      · exact fun position u h => .down hs hplace hproperties hasks hdepth hfresh
          (skipped_of_lastPut?_eq_none (fun _ _ => reads_build _) hlater) h
  · rw [if_neg hplace] at hc ⊢
    exact .inl ⟨s, hs, hc⟩

/-- **Whatever lies in the tree that a visit leaves was planted, or was given with a node of a
registered type.** -/
theorem plants_or_given {stop : Stop} (h : (v.planted ctx templates).Lies v.path stop) :
    (∃ u, Plants ctx templates v stop.position u) ∨
      Given ctx templates v stop.position stop.node := by
  -- By induction on the way down: once it enters what was given with a node, it stays there.
  generalize hnode : v.planted ctx templates = n at h
  generalize hpath : v.path = path at h
  induction h generalizing v with
  | here path n => exact .inl ⟨v, .here v⟩
  | @down path n c i s stop hs hc h ih =>
    subst hnode hpath
    rcases exists_plants_of_getElem? hs hc with ⟨s₀, hs₀, hc₀⟩ | ⟨w, hw, hwpath, hplants⟩
    · refine .inr ⟨(List.nil_append _).symm, .here v, ?_⟩
      exact Option.bind_eq_some_iff.mpr
        ⟨c, Option.bind_eq_some_iff.mpr ⟨s₀, hs₀, hc₀⟩, h.below?_eq_some⟩
    · rcases ih hw.symm hwpath with ⟨u, hu⟩ | ⟨hposition, habove, hm⟩
      · exact .inl ⟨u, hplants _ u hu⟩
      · refine .inr ⟨?_, hplants _ _ habove, hm⟩
        exact congrArg (i :: ·) hposition

/-- What holds of the registered types, and does not depend on what is plugged in, holds of every
node that is built from them. -/
theorem forall_nodes_build {P : Node → Prop}
    (hP : ∀ n sockets, P n → P { n with sockets := sockets })
    (hregistry : ∀ name fresh, ctx.registry.create? name = some fresh → ∀ m ∈ fresh.nodes, P m)
    (room : ℕ) (desc : NodeDesc) {n : Node} (hn : ∀ m ∈ n.nodes, P m) :
    ∀ m ∈ (build ctx templates room desc n).nodes, P m := by
  induction room using Nat.strongRecOn generalizing desc n with
  | ind room ih =>
    have hputs : ∀ entry ∈ puts ctx templates (buildBelow ctx templates room) desc.properties n,
        ∀ c, entry.2 = .node c → ∀ m ∈ c.nodes, P m := by
      intro entry hentry c hc
      obtain ⟨p, -, hput⟩ := List.mem_filterMap.mp hentry
      obtain ⟨link, hlink, rfl⟩ := Option.map_eq_some_iff.mp hput
      obtain rfl : link = .node c := hc
      obtain ⟨below, sub, fresh, rfl, -, hfresh, rfl⟩ := asks_of_put? hlink
      exact ih below (Nat.lt_succ_self below) sub (hregistry _ fresh hfresh)
    rw [build_eq]
    generalize puts ctx templates (buildBelow ctx templates room) desc.properties n = links at hputs
    clear ih
    induction links generalizing n with
    | nil => exact hn
    | cons entry rest ih =>
      obtain ⟨hentry, hrest⟩ := List.forall_mem_cons.mp hputs
      exact ih (Node.forall_nodes_setLink hP hn hentry) hrest

/-! ### What is told bears the path of the visit -/

/-- An objection to a property is about the node, or about the property of the node. -/
theorem path_of_objects {room : ℕ} {path : String} {n : Node} {p : String × PropertyValue}
    {w : Warning} (h : Objects ctx templates room path n p w) :
    w.path = path ∨ w.path = s!"{path}/{p.1}" := by
  cases h with
  | missing name what =>
    rw [Warning.path]
    split_ifs
    · exact .inl rfl
    · exact .inr rfl
  | noSocket | invalid | literalOnBsdf | plugOnText => exact .inl rfl
  | unknownTemplate | tooDeep | unregisteredType => exact .inr rfl

theorem path_of_mem_tupleReport {path name text : String} {w : Warning}
    (h : w ∈ tupleReport path name text) : w.path = path := by
  rw [tupleReport, List.mem_append] at h
  rcases h with h | h
  · obtain ⟨token, -, rfl⟩ := List.mem_map.mp h
    rfl
  · split_ifs at h
    · obtain rfl := List.mem_singleton.mp h
      rfl
    · cases h

theorem prefix_of_tells {room : ℕ} {path : String} {n : Node} {p : String × PropertyValue}
    {ws : Report} (h : Tells ctx templates room path n p ws) :
    ∀ w ∈ ws, path.toList <+: w.path.toList := by
  induction h with
  | @skipped _ path _ p w h =>
    refine List.forall_mem_singleton.mpr ?_
    rcases path_of_objects h with heq | heq
    · rw [heq]
    · rw [heq]
      simp [String.toList_append, toString]
  | text => exact List.forall_mem_nil _
  | tuple text h =>
    intro w hw
    rw [path_of_mem_tupleReport hw]
  | @plugged _ path _ p desc _ _ _ _ _ ih =>
    intro w hw
    obtain ⟨q, hq, hw⟩ := List.mem_flatMap.mp hw
    have hbelow := ih q hq w hw
    rw [toList_childPath, List.append_assoc, List.append_assoc] at hbelow
    exact (List.prefix_append _ _).trans hbelow

/-- All that is told of a visit is told under its path. -/
theorem Visit.prefix_of_mem_report {w : Warning} (h : w ∈ v.report ctx templates) :
    v.path.toList <+: w.path.toList := by
  obtain ⟨tell, htell⟩ :=
    Assembly.exists_tells ctx templates (ctx.config.maxDepth - v.depth) v.path v.node
  rw [v.report_eq_flatMap fun p _ => (htell p _).mpr rfl] at h
  obtain ⟨p, -, hw⟩ := List.mem_flatMap.mp h
  exact prefix_of_tells ((htell p _).mpr rfl) w hw

end Planted

/-! ### Described graphs -/

/-- The registered types are nodes that preparation has not passed, with all that is plugged into
them. -/
def Registry.Unprocessed (r : Registry) : Prop :=
  ∀ name fresh, r.create? name = some fresh → fresh.Unprocessed

theorem Registry.unprocessed_builtin : builtin.Unprocessed := fun name fresh h m hm =>
  (fresh_builtin name fresh h m hm).1

/-- What a graph is assembled from: its description, and an output to read it into. -/
def GraphDesc.outset (desc : GraphDesc) : Visit :=
  ⟨0, (Node.new .output).typeName, desc.output, .new .output⟩

theorem Graph.root_ofDesc (ctx : Context) (desc : GraphDesc) :
    (ofDesc ctx desc).1.root = desc.outset.planted ctx desc.templates :=
  Assembly.node_fill_eq_build ctx desc.templates ctx.config.maxDepth desc.output _ _

theorem Graph.typeName_ofDesc (ctx : Context) (desc : GraphDesc) :
    (ofDesc ctx desc).1.root.typeName = desc.outset.path := by
  rw [root_ofDesc, Visit.planted, typeName_build]
  rfl

theorem Graph.unprocessed_ofDesc {ctx : Context} (hctx : ctx.registry.Unprocessed)
    (desc : GraphDesc) : (ofDesc ctx desc).1.root.Unprocessed := by
  rw [root_ofDesc]
  exact forall_nodes_build (fun _ _ h => h) hctx _ desc.output
    fun m hm => (Node.fresh_new .output m hm).1

/-- Each node of a described graph has a path of its own, under which assembly tells of it and the
first preparation does. -/
structure GraphDesc.Located (ctx : Context) (desc : GraphDesc) (root : Node) : Prop where
  /-- Preparation tells of the image textures whose texture is not loaded, and of nothing else, as
  it meets them on the walk. -/
  report : ∀ config textures, ((Graph.ofDesc ctx desc).1.prepare config textures).2.2 =
    (root.stops root.typeName).filterMap (Stop.missing? textures)
  /-- The walk meets all that lies in the tree. -/
  met : ∀ stop, stop ∈ root.stops root.typeName ↔ root.Lies root.typeName stop
  /-- Something lies at each position of the tree. -/
  located : ∀ position m,
    root.below? position = some m ↔ ∃ path, root.Lies root.typeName ⟨position, path, m⟩
  /-- The walk meets each position once, what is plugged into a node before the node, and by the
  order of the sockets. -/
  ascending : (root.stops root.typeName).Pairwise fun a b => Earlier a.position b.position
  /-- A node that assembly planted lies where it was planted, by the path of its visit. -/
  planted : ∀ position u, Plants ctx desc.templates desc.outset position u →
    ReflTransGen (Calls ctx desc.templates) desc.outset u ∧
      root.Lies root.typeName ⟨position, u.path, u.planted ctx desc.templates⟩
  /-- All that was told of the visit was told under that path. -/
  told : ∀ position u, Plants ctx desc.templates desc.outset position u →
    u.report ctx desc.templates <:+: (Graph.ofDesc ctx desc).2 ∧
      ∀ w ∈ u.report ctx desc.templates, u.path.toList <+: w.path.toList
  /-- What is objected to a property of it, is so under that path, or under that of the property. -/
  objected : ∀ position u, Plants ctx desc.templates desc.outset position u → ∀ room p w,
    Objects ctx desc.templates room u.path u.node p w →
      w.path = u.path ∨ w.path = s!"{u.path}/{p.1}"
  /-- Any other node came with a node of a registered type. -/
  given : ∀ stop, root.Lies root.typeName stop →
    (∃ u, Plants ctx desc.templates desc.outset stop.position u) ∨
      Given ctx desc.templates desc.outset stop.position stop.node
  /-- Two nodes have different paths, whatever the types are called. -/
  distinct : ∀ a b, root.Lies root.typeName a → root.Lies root.typeName b →
    a.path = b.path → a = b

/-- **What is missing is told under the paths of the assembly.** Of a graph that was assembled from
any description, with types that preparation has not passed and that have the declared sockets, the
first preparation tells one thing for each image texture whose texture is not loaded. The path it
gives is the one under which the node was visited when it was assembled, and no other node has it. -/
theorem Graph.located_ofDesc {ctx : Context} (hconforms : ctx.registry.Conforms)
    (hunprocessed : ctx.registry.Unprocessed) (desc : GraphDesc) :
    desc.Located ctx (ofDesc ctx desc).1.root := by
  have htypeName := typeName_ofDesc ctx desc
  have hroot := root_ofDesc ctx desc
  constructor
  case report =>
    intro config textures
    have hvalidate := Node.processAt_validate config (ofDesc ctx desc).1.root.typeName
      (ofDesc ctx desc).1.root textures
    rw [← (unprocessed_ofDesc hunprocessed desc).report_processAt config]
    show (Node.process config (ofDesc ctx desc).1.root.validate textures).2.2 = _
    rw [Node.process, Node.typeName_validate, hvalidate]
  case met => exact fun stop => Node.mem_stops_iff
  case located =>
    intro position m
    constructor
    · exact fun h => Node.exists_lies h _
    · rintro ⟨path, h⟩
      exact h.below?_eq_some
  case ascending => exact Node.pairwise_stops _ _
  case planted =>
    intro position u hu
    rw [htypeName, hroot]
    exact ⟨hu.reaches, hu.lies⟩
  case told =>
    intro position u hu
    have hpart : u.report ctx desc.templates <:+: desc.outset.report ctx desc.templates :=
      Visit.infix_report_of_reaches hu.reaches
    exact ⟨hpart.trans (List.suffix_append desc.warnings _).isInfix,
      fun w hw => Visit.prefix_of_mem_report hw⟩
  case objected => exact fun _ _ _ _ _ _ h => path_of_objects h
  case given =>
    intro stop h
    rw [htypeName, hroot] at h
    exact plants_or_given h
  case distinct => exact fun a b ha hb h => ha.eq_of_path_eq (conforms_ofDesc hconforms desc) hb h

/-- A lambert that a template paints with a texture. -/
def textured : GraphDesc :=
  let texture : NodeDesc := .mk "ImageTexture" none [("Texture", .literal "wood.png")]
  let lambert : NodeDesc := .mk "Lambert" none [("Color", .reference "paint")]
  ⟨none, .output [("Surface", .node lambert)], [("paint", texture)], []⟩

theorem Graph.located_textured :
    textured.Located ⟨.builtin, .standard⟩ (ofDesc ⟨.builtin, .standard⟩ textured).1.root :=
  @located_ofDesc ⟨.builtin, .standard⟩ Registry.conforms_builtin Registry.unprocessed_builtin
    textured

end ShadeTree
