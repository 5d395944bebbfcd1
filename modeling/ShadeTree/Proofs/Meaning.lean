import ShadeTree.Proofs.Effect

/-!
# What a description means

What comes of a description is told here apart from the way it is assembled. A property is skipped
for one of a few reasons (`Skipped`). Of those that are not, the last of a name says what the socket
of that name holds, and a socket that none is left for holds what it held before (`Reads`). What a
property gives is a text, a tuple, or a fresh node of a registered type into which a description is
read in turn (`Gives`).

So a description may be rearranged where that leaves the last word on every socket to the same
property: skipped properties may go, and properties of different names may change places, in the
description and in the nodes described inside it (`Rearranged`), and in the templates it refers to
(`Rearranges`). `Context.assemble_reads` says that assembly does what the description means, and
that no rearrangement shows in the tree.

The tree alone is built by `build`, which knows no paths and makes no report. Assembly leaves the
tree that it builds (`Assembly.node_fill_eq_build`).
-/

namespace ShadeTree

theorem Registry.typeName_create? {r : Registry} {name : String} {fresh : Node}
    (h : r.create? name = some fresh) : fresh.typeName = name := by
  obtain ⟨node, -, rfl⟩ := Option.map_eq_some_iff.mp h
  rfl

/-- A value that is to be plugged in: a node or a reference to one. -/
def PropertyValue.isPlug : PropertyValue → Bool
  | .node _ | .reference _ => true
  | _ => false

/-! ### Meaning -/

section Meaning

variable (ctx : Context) (templates : Templates)

/-- Why a property of a description that is read into a node is skipped, with room for so many
levels below the node. -/
inductive Skipped (room : ℕ) (n : Node) : String × PropertyValue → Prop where
  | missing (name what : String) : Skipped room n (name, .missing what)
  | invalid (name reason : String) : Skipped room n (name, .invalid reason)
  | noSocket {name : String} (value : PropertyValue) (h : n.socket? name = none) :
    Skipped room n (name, value)
  | literalOnBsdf {name : String} (text : String) (h : n.socketKind? name = some .bsdf) :
    Skipped room n (name, .literal text)
  | plugOnText {name : String} {value : PropertyValue} (hplug : value.isPlug)
    (h : n.socketKind? name = some .text) : Skipped room n (name, value)
  | tooDeep (name : String) {value : PropertyValue} (hplug : value.isPlug) (h : room = 0) :
    Skipped room n (name, value)
  | unknownTemplate (name : String) {target : String} (h : templates.get? target = none) :
    Skipped room n (name, .reference target)
  | unregisteredType (name : String) {value : PropertyValue} {desc : NodeDesc}
    (hsubject : value.subject? templates = some desc)
    (h : ctx.registry.create? desc.nodeType = none) : Skipped room n (name, value)

mutual

/-- A description is read into a node with room for so many levels below it: the sockets hold what
the description says, and nothing else about the node changes. -/
inductive Reads : ℕ → NodeDesc → Node → Node → Prop where
  | intro {room : ℕ} {desc : NodeDesc} {before after : Node}
    (kept : after = { before with sockets := after.sockets })
    (declared : after.sockets.map Socket.declared = before.sockets.map Socket.declared)
    (holds : ∀ i s s', before.sockets[i]? = some s → after.sockets[i]? = some s' →
      Holds room desc before i s s') :
    Reads room desc before after

/-- What the socket at a place holds after a description is read: what the last property of its name
gives that is not skipped, or what it held before. -/
inductive Holds : ℕ → NodeDesc → Node → ℕ → Socket Node → Socket Node → Prop where
  | prior {room : ℕ} {desc : NodeDesc} {before : Node} {i : ℕ} {s : Socket Node}
    (hskipped : before.place s.name = i →
      ∀ p ∈ desc.properties, p.1 = s.name → Skipped ctx templates room before p) :
    Holds room desc before i s s
  | last {room : ℕ} {desc : NodeDesc} {before : Node} {i : ℕ} {s : Socket Node}
    {earlier later : List (String × PropertyValue)} {value : PropertyValue} {link : Link Node}
    (hplace : before.place s.name = i)
    (hproperties : desc.properties = earlier ++ (s.name, value) :: later)
    (happlied : ¬ Skipped ctx templates room before (s.name, value))
    (hlater : ∀ p ∈ later, p.1 = s.name → Skipped ctx templates room before p)
    (hgives : Gives room s.kind value link) :
    Holds room desc before i s { s with link := link }

/-- What a property gives to a socket of a kind. -/
inductive Gives : ℕ → SocketKind → PropertyValue → Link Node → Prop where
  | text (room : ℕ) (text : String) : Gives room .text (.literal text) (.text text)
  | tuple (room : ℕ) {kind : SocketKind} (hkind : kind = .color ∨ kind = .float) (text : String) :
    Gives room kind (.literal text) (.literal (Tuple.ofText text).value)
  | node {room : ℕ} (kind : SocketKind) {value : PropertyValue} {desc : NodeDesc} {fresh n : Node}
    (hsubject : value.subject? templates = some desc)
    (hfresh : ctx.registry.create? desc.nodeType = some fresh)
    (htypeName : n.typeName = desc.nodeType)
    (hreads : Reads room desc fresh n) :
    Gives (room + 1) kind value (.node n)

end

/-- One description is the other rearranged, for a node with room for so many levels below it. -/
inductive Rearranged : ℕ → Node → NodeDesc → NodeDesc → Prop where
  | refl (room : ℕ) (n : Node) (desc : NodeDesc) : Rearranged room n desc desc
  | trans {room : ℕ} {n : Node} {a b c : NodeDesc} (hab : Rearranged room n a b)
    (hbc : Rearranged room n b c) : Rearranged room n a c
  /-- A skipped property goes. -/
  | delete {room : ℕ} {n : Node} (nodeType : String) (name : Option String)
    (earlier later : List (String × PropertyValue)) {p : String × PropertyValue}
    (hp : Skipped ctx templates room n p) :
    Rearranged room n (.mk nodeType name (earlier ++ p :: later))
      (.mk nodeType name (earlier ++ later))
  /-- The properties change places, and those of the same name stay in order. -/
  | permute (room : ℕ) (n : Node) (nodeType : String) (name : Option String)
    {ps ps' : List (String × PropertyValue)} (hperm : ps.Perm ps')
    (horder : ∀ name, ps.filter (·.1 == name) = ps'.filter (·.1 == name)) :
    Rearranged room n (.mk nodeType name ps) (.mk nodeType name ps')
  /-- A node described inside is rearranged, for the node that it is read into. -/
  | inside {room : ℕ} (n : Node) (nodeType : String) (name : Option String)
    (earlier later : List (String × PropertyValue)) (key : String) {d d' : NodeDesc}
    (htype : d.nodeType = d'.nodeType)
    (hinside : ∀ below fresh, room = below + 1 → ctx.registry.create? d.nodeType = some fresh →
      Rearranged below fresh d d') :
    Rearranged room n (.mk nodeType name (earlier ++ (key, .node d) :: later))
      (.mk nodeType name (earlier ++ (key, .node d') :: later))

/-- Templates are rearranged: each stays of its type, and is rearranged at every level it may be
read at. -/
def Rearranges (templates' : Templates) : Prop :=
  ∀ name, Option.Rel
    (fun (d d' : NodeDesc) => d.nodeType = d'.nodeType ∧
      ∀ room < ctx.config.maxDepth, ∀ fresh, ctx.registry.create? d.nodeType = some fresh →
        Rearranged ctx templates room fresh d d')
    (templates.get? name) (templates'.get? name)

end Meaning

/-! ### The tree alone -/

section Build

variable (ctx : Context) (templates : Templates)

/-- What a property puts in a socket, where nodes one level down are built by `below`. -/
def put? (below : Option (NodeDesc → Node → Node)) (kind? : Option SocketKind)
    (value : PropertyValue) : Option (Link Node) :=
  kind?.bind fun kind =>
    match value with
    | .literal text =>
      match kind with
      | .bsdf => none
      | .text => some (.text text)
      | _ => some (.literal (Tuple.ofText text).value)
    | value =>
      if kind = .text then none
      else
        below.bind fun below =>
          (value.subject? templates).bind fun desc =>
            (ctx.registry.create? desc.nodeType).map fun fresh => .node (below desc fresh)

/-- What properties put in the sockets of a node. -/
def puts (below : Option (NodeDesc → Node → Node)) (properties : List (String × PropertyValue))
    (n : Node) : List (String × Link Node) :=
  properties.filterMap fun p => (put? ctx templates below (n.socketKind? p.1) p.2).map (p.1, ·)

/-- What the last of some properties of a name puts in its socket. -/
def lastPut? (below : Option (NodeDesc → Node → Node)) (properties : List (String × PropertyValue))
    (n : Node) (name : String) : Option (Link Node) :=
  (puts ctx templates below properties n).reverse.lookup name

/-- The tree a description gives when it is read into a node with room for so many levels below. -/
def build : ℕ → NodeDesc → Node → Node
  | 0, desc, n => n.setLinks (puts ctx templates none desc.properties n)
  | room + 1, desc, n => n.setLinks (puts ctx templates (some (build room)) desc.properties n)

/-- Nodes are built with room for so many levels below, when there is room for one. -/
def buildBelow : ℕ → Option (NodeDesc → Node → Node)
  | 0 => none
  | room + 1 => some (build ctx templates room)

theorem build_eq (room : ℕ) (desc : NodeDesc) (n : Node) :
    build ctx templates room desc n =
      n.setLinks (puts ctx templates (buildBelow ctx templates room) desc.properties n) := by
  cases room <;> rfl

theorem puts_append (below : Option (NodeDesc → Node → Node))
    (ps ps' : List (String × PropertyValue)) (n : Node) :
    puts ctx templates below (ps ++ ps') n =
      puts ctx templates below ps n ++ puts ctx templates below ps' n :=
  List.filterMap_append

/-- A property takes part in what is put in sockets by what it puts in its own. -/
theorem puts_cons (below : Option (NodeDesc → Node → Node)) (p : String × PropertyValue)
    (ps : List (String × PropertyValue)) (n : Node) :
    puts ctx templates below (p :: ps) n =
      ((put? ctx templates below (n.socketKind? p.1) p.2).map (p.1, ·)).toList ++
        puts ctx templates below ps n := by
  rw [puts, List.filterMap_cons]
  cases put? ctx templates below (n.socketKind? p.1) p.2 <;> rfl

/-! ### Assembly leaves the tree that is built -/

/-- Nodes one level down are assembled into what is built. -/
def Assembles (assemble : Option (NodeDesc → String → Node → Assembly))
    (below : Option (NodeDesc → Node → Node)) : Prop :=
  Option.Rel (fun f g => ∀ desc path n, (f desc path n).node = g desc n) assemble below

namespace Assembly

variable {assemble : Option (NodeDesc → String → Node → Assembly)}
  {below : Option (NodeDesc → Node → Node)}

theorem link?_nodeEffect (h : Assembles assemble below) (path name : String) (kind : SocketKind)
    (desc : NodeDesc) :
    (nodeEffect ctx assemble path name kind desc).link? =
      put? ctx templates below (some kind) (.node desc) := by
  unfold nodeEffect plugEffect
  rw [put?, Option.bind_some]
  split
  · rfl
  · cases h with
    | none => rfl
    | some hfg =>
      simp only [PropertyValue.subject?, Option.bind_some]
      cases ctx.registry.create? desc.nodeType with
      | none => rfl
      | some fresh => simp [Effect.link?, hfg]

theorem link?_effect (h : Assembles assemble below) (path : String) (kind? : Option SocketKind)
    (property : String × PropertyValue) :
    (effect ctx templates assemble path kind? property).link? =
      put? ctx templates below kind? property.2 := by
  obtain ⟨name, value⟩ := property
  cases kind? with
  | none => cases value <;> rfl
  | some kind =>
    cases value with
    | literal text => cases kind <;> rfl
    | node desc => exact link?_nodeEffect ctx templates h path name kind desc
    | reference target =>
      simp only [effect]
      cases htarget : templates.get? target with
      | none => simp [Effect.link?, put?, PropertyValue.subject?, htarget]
      | some desc =>
        dsimp only
        rw [link?_nodeEffect ctx templates h]
        simp [put?, PropertyValue.subject?, htarget]
    | missing what => simp [effect, Effect.link?, put?, PropertyValue.subject?]
    | invalid reason => simp [effect, Effect.link?, put?, PropertyValue.subject?]

theorem links_effects (h : Assembles assemble below) (desc : NodeDesc) (path : String) (n : Node) :
    links (effects ctx templates assemble desc path n) =
      puts ctx templates below desc.properties n := by
  simp only [links, effects, puts, List.filterMap_map, Function.comp_def,
    link?_effect ctx templates h]

theorem node_fill_eq_build (room : ℕ) (desc : NodeDesc) (path : String) (n : Node) :
    (fill ctx templates room desc path n).node = build ctx templates room desc n := by
  induction room generalizing desc path n with
  | zero =>
    have hbelow : Assembles (deeper ctx templates 0) (buildBelow ctx templates 0) := .none
    rw [node_fill, links_effects ctx templates hbelow, build_eq]
  | succ room ih =>
    have hbelow : Assembles (deeper ctx templates (room + 1))
        (buildBelow ctx templates (room + 1)) := .some ih
    rw [node_fill, links_effects ctx templates hbelow, build_eq]

end Assembly

/-! ### What is built is what the description means -/

variable {ctx templates}

theorem isPlug_of_subject? {value : PropertyValue} {desc : NodeDesc}
    (h : value.subject? templates = some desc) : value.isPlug := by
  cases value with
  | node desc => rfl
  | reference target => rfl
  | literal text => cases h
  | missing what => cases h
  | invalid reason => cases h

theorem put?_plug (below : Option (NodeDesc → Node → Node)) (kind : SocketKind)
    {value : PropertyValue} (hplug : value.isPlug) :
    put? ctx templates below (some kind) value =
      if kind = .text then none
      else
        below.bind fun below =>
          (value.subject? templates).bind fun desc =>
            (ctx.registry.create? desc.nodeType).map fun fresh => .node (below desc fresh) := by
  cases value with
  | node desc => rfl
  | reference target => rfl
  | literal text => cases hplug
  | missing what => cases hplug
  | invalid reason => cases hplug

theorem put?_of_subject?_eq_none (below : Option (NodeDesc → Node → Node))
    (kind? : Option SocketKind) {value : PropertyValue} (hsubject : value.subject? templates = none)
    (hliteral : ∀ text, value ≠ .literal text) : put? ctx templates below kind? value = none := by
  cases kind? with
  | none => rfl
  | some kind =>
    cases value with
    | literal text => exact absurd rfl (hliteral text)
    | node desc => cases hsubject
    | reference target => simp [put?, hsubject]
    | missing what => simp [put?, hsubject]
    | invalid reason => simp [put?, hsubject]

theorem Skipped.put?_eq_none {room : ℕ} {n : Node} {p : String × PropertyValue}
    (h : Skipped ctx templates room n p) :
    put? ctx templates (buildBelow ctx templates room) (n.socketKind? p.1) p.2 = none := by
  cases h with
  | missing name what => exact put?_of_subject?_eq_none _ _ rfl fun _ hvalue => by cases hvalue
  | invalid name reason => exact put?_of_subject?_eq_none _ _ rfl fun _ hvalue => by cases hvalue
  | noSocket value h => rw [Node.socketKind?, h]; rfl
  | literalOnBsdf text h => rw [h]; rfl
  | plugOnText hplug h => rw [h, put?_plug _ _ hplug, if_pos rfl]
  | tooDeep name hplug h =>
    subst h
    cases hkind : n.socketKind? name with
    | none => rfl
    | some kind =>
      rw [put?_plug _ _ hplug]
      split <;> rfl
  | unknownTemplate name h => exact put?_of_subject?_eq_none _ _ h fun _ hvalue => by cases hvalue
  | unregisteredType name hsubject h =>
    cases hkind : n.socketKind? name with
    | none => rfl
    | some kind =>
      simp [put?_plug _ _ (isPlug_of_subject? hsubject), hsubject, h]

theorem typeName_build (room : ℕ) (desc : NodeDesc) (n : Node) :
    (build ctx templates room desc n).typeName = n.typeName := by
  rw [build_eq, Node.setLinks_eq]

/-- The last property of a name that puts something in its socket, and what it puts there. -/
theorem exists_of_lastPut? {below : Option (NodeDesc → Node → Node)} {n : Node} {name : String}
    {ps : List (String × PropertyValue)} {link : Link Node}
    (h : lastPut? ctx templates below ps n name = some link) :
    ∃ earlier value later, ps = earlier ++ (name, value) :: later ∧
      put? ctx templates below (n.socketKind? name) value = some link ∧
      lastPut? ctx templates below later n name = none := by
  obtain ⟨after, before, hsplit, hafter⟩ := List.lookup_eq_some_iff.mp h
  have hputs : puts ctx templates below ps n = before.reverse ++ (name, link) :: after.reverse := by
    rw [List.reverse_eq_iff.mp hsplit]
    simp
  obtain ⟨earlier, rest, rfl, -, hrest⟩ := List.filterMap_eq_append_iff.mp hputs
  obtain ⟨skipped, p, later, rfl, -, hp, hlater⟩ := List.filterMap_eq_cons_iff.mp hrest
  obtain ⟨link', hlink, hentry⟩ := Option.map_eq_some_iff.mp hp
  obtain ⟨rfl, rfl⟩ := Prod.mk.inj hentry
  refine ⟨earlier ++ skipped, p.2, later, by simp, hlink, List.lookup_eq_none_iff.mpr ?_⟩
  rw [puts, hlater, List.reverse_reverse]
  exact hafter

section Building

/- What is built one level down is what its description means. -/
variable {room : ℕ} {n : Node} (hbelow : ∀ below, room = below + 1 → ∀ desc n,
  Reads ctx templates below desc n (build ctx templates below desc n))

include hbelow

/-- A property that is not skipped puts in its socket what it gives. -/
theorem exists_put? {p : String × PropertyValue}
    (h : ¬ Skipped ctx templates room n p) :
    ∃ kind link, n.socketKind? p.1 = some kind ∧
      put? ctx templates (buildBelow ctx templates room) (some kind) p.2 = some link ∧
      Gives ctx templates room kind p.2 link := by
  obtain ⟨name, value⟩ := p
  obtain ⟨s, hs⟩ := Option.ne_none_iff_exists'.mp fun hs => h (.noSocket value hs)
  have hkind : n.socketKind? name = some s.kind := by
    rw [Node.socketKind?, hs]
    rfl
  by_cases hplug : value.isPlug
  · have htext : s.kind ≠ .text := fun htext =>
      h (.plugOnText hplug (hkind.trans (congrArg some htext)))
    obtain ⟨below, rfl⟩ := Nat.exists_eq_succ_of_ne_zero fun hroom => h (.tooDeep name hplug hroom)
    obtain ⟨desc, hdesc⟩ : ∃ desc, value.subject? templates = some desc := by
      cases value with
      | node desc => exact ⟨desc, rfl⟩
      | reference target =>
        exact Option.ne_none_iff_exists'.mp fun hnone => h (.unknownTemplate name hnone)
      | literal text => cases hplug
      | missing what => cases hplug
      | invalid reason => cases hplug
    obtain ⟨fresh, hfresh⟩ := Option.ne_none_iff_exists'.mp fun hnone =>
      h (.unregisteredType name hdesc hnone)
    refine ⟨s.kind, .node (build ctx templates below desc fresh), hkind, ?_, ?_⟩
    · rw [put?_plug _ _ hplug, if_neg htext, hdesc]
      simp [buildBelow, hfresh]
    · refine .node s.kind hdesc hfresh ?_ (hbelow below rfl desc fresh)
      rw [typeName_build]
      exact Registry.typeName_create? hfresh
  · refine ⟨s.kind, ?_⟩
    cases value with
    | literal text =>
      cases hs' : s.kind with
      | bsdf => exact absurd (.literalOnBsdf text (hs' ▸ hkind)) h
      | text => exact ⟨.text text, hs' ▸ hkind, rfl, .text room text⟩
      | color => exact ⟨_, hs' ▸ hkind, rfl, .tuple room (.inl rfl) text⟩
      | float => exact ⟨_, hs' ▸ hkind, rfl, .tuple room (.inr rfl) text⟩
    | missing what => exact absurd (.missing name what) h
    | invalid reason => exact absurd (.invalid name reason) h
    | node desc => exact absurd rfl hplug
    | reference target => exact absurd rfl hplug

theorem put?_eq_none_iff {p : String × PropertyValue} :
    put? ctx templates (buildBelow ctx templates room) (n.socketKind? p.1) p.2 = none ↔
      Skipped ctx templates room n p := by
  refine ⟨fun hnone => ?_, Skipped.put?_eq_none⟩
  by_contra h
  obtain ⟨kind, link, hkind, hput, -⟩ := exists_put? hbelow h
  rw [hkind, hput] at hnone
  cases hnone

/-- The properties of a name are all skipped when they put nothing in its socket. -/
theorem skipped_of_lastPut?_eq_none {name : String} {ps : List (String × PropertyValue)}
    (h : lastPut? ctx templates (buildBelow ctx templates room) ps n name = none) :
    ∀ p ∈ ps, p.1 = name → Skipped ctx templates room n p := by
  rintro p hp rfl
  refine (put?_eq_none_iff hbelow).mp (Option.eq_none_iff_forall_ne_some.mpr fun link hlink => ?_)
  have hmem : (p.1, link) ∈ puts ctx templates (buildBelow ctx templates room) ps n :=
    List.mem_filterMap.mpr ⟨p, hp, by rw [hlink]; rfl⟩
  simpa using List.lookup_eq_none_iff.mp h _ (List.mem_reverse.mpr hmem)

/-- What a socket is left with is what the description says that it holds. -/
theorem holds_lastPut? {desc : NodeDesc} {i : ℕ} {s : Socket Node} (hs : n.sockets[i]? = some s)
    (hplace : n.place s.name = i) :
    let last? := lastPut? ctx templates (buildBelow ctx templates room) desc.properties n s.name
    Holds ctx templates room desc n i s { s with link := last?.getD s.link } := by
  dsimp only
  cases hlast : lastPut? ctx templates (buildBelow ctx templates room) desc.properties n s.name with
  | none => exact .prior fun _ => skipped_of_lastPut?_eq_none hbelow hlast
  | some link =>
    obtain ⟨earlier, value, later, hproperties, hput, hlater⟩ := exists_of_lastPut? hlast
    have happlied : ¬ Skipped ctx templates room n (s.name, value) := fun h => by
      rw [h.put?_eq_none] at hput
      cases hput
    obtain ⟨kind, link', hkind, hput', hgives⟩ := exists_put? hbelow happlied
    rw [hkind, hput'] at hput
    obtain rfl := Option.some.inj hput
    have hsocket : n.socket? s.name = some s := by rw [← Node.getElem?_place, hplace, hs]
    rw [Node.socketKind?, hsocket] at hkind
    obtain rfl := Option.some.inj hkind
    exact .last hplace hproperties happlied (skipped_of_lastPut?_eq_none hbelow hlater) hgives

end Building

/-- **What is built is what the description means.** -/
theorem reads_build (room : ℕ) (desc : NodeDesc) (n : Node) :
    Reads ctx templates room desc n (build ctx templates room desc n) := by
  induction room using Nat.strongRecOn generalizing desc n with
  | ind room ih =>
    rw [build_eq]
    refine .intro (Node.setLinks_eq _ _) (Node.map_declared_setLinks _ _) fun i s s' hs hs' => ?_
    rw [Node.getElem?_setLinks, hs, Option.map_some] at hs'
    obtain rfl := Option.some.inj hs'
    by_cases hplace : n.place s.name = i
    · rw [if_pos hplace]
      exact holds_lastPut? (fun below hroom => ih below (by omega)) hs hplace
    · rw [if_neg hplace]
      exact .prior fun h => absurd h hplace

/-! ### A description has one meaning -/

theorem lastPut?_eq_none {room : ℕ} {n : Node} {name : String} {ps : List (String × PropertyValue)}
    (h : ∀ p ∈ ps, p.1 = name → Skipped ctx templates room n p) :
    lastPut? ctx templates (buildBelow ctx templates room) ps n name = none := by
  refine List.lookup_eq_none_iff.mpr fun entry hentry => ?_
  obtain ⟨p, hp, hput⟩ := List.mem_filterMap.mp (List.mem_reverse.mp hentry)
  obtain ⟨link, hlink, rfl⟩ := Option.map_eq_some_iff.mp hput
  refine bne_iff_ne.mpr fun hname => ?_
  rw [(h p hp hname.symm).put?_eq_none] at hlink
  cases hlink

theorem lastPut?_eq_some {below : Option (NodeDesc → Node → Node)} {n : Node} {name : String}
    (earlier : List (String × PropertyValue)) {later : List (String × PropertyValue)}
    {value : PropertyValue} {link : Link Node}
    (hput : put? ctx templates below (n.socketKind? name) value = some link)
    (hlater : lastPut? ctx templates below later n name = none) :
    lastPut? ctx templates below (earlier ++ (name, value) :: later) n name = some link := by
  rw [lastPut?] at hlater ⊢
  rw [puts_append, puts_cons, hput]
  simp [List.lookup_append, hlater]

section Reading

/- A description one level down means what is built. -/
variable {room : ℕ} (hbelow : ∀ below, room = below + 1 → ∀ desc n a,
  Reads ctx templates below desc n a → a = build ctx templates below desc n)

include hbelow

/-- A property gives one thing. -/
theorem Gives.unique {kind : SocketKind} {value : PropertyValue} {link link' : Link Node}
    (h : Gives ctx templates room kind value link)
    (h' : Gives ctx templates room kind value link') : link = link' := by
  cases h with
  | text room text =>
    cases h' with
    | text => rfl
    | tuple _ hkind => rcases hkind with hkind | hkind <;> cases hkind
    | node _ hsubject => cases hsubject
  | tuple room hkind text =>
    cases h' with
    | text => rcases hkind with hkind | hkind <;> cases hkind
    | tuple => rfl
    | node _ hsubject => cases hsubject
  | node kind hsubject hfresh _ hreads =>
    cases h' with
    | text => cases hsubject
    | tuple => cases hsubject
    | node _ hsubject' hfresh' _ hreads' =>
      obtain rfl := Option.some.inj (hsubject.symm.trans hsubject')
      obtain rfl := Option.some.inj (hfresh.symm.trans hfresh')
      rw [hbelow _ rfl _ _ _ hreads, hbelow _ rfl _ _ _ hreads']

/-- What a description says that a socket holds is what it is left with. -/
theorem Holds.eq_lastPut? {desc : NodeDesc} {n : Node} {i : ℕ} {s s' : Socket Node}
    (hs : n.sockets[i]? = some s) (h : Holds ctx templates room desc n i s s') :
    let last? := lastPut? ctx templates (buildBelow ctx templates room) desc.properties n s.name
    s' = if n.place s.name = i then { s with link := last?.getD s.link } else s := by
  dsimp only
  cases h with
  | prior hskipped =>
    split
    · rename_i hplace
      rw [lastPut?_eq_none (hskipped hplace)]
      rfl
    · rfl
  | last hplace hproperties happlied hlater hgives =>
    obtain ⟨kind, link', hkind, hput, hgives'⟩ := exists_put? (fun _ _ => reads_build _) happlied
    have hsocket : n.socket? s.name = some s := by rw [← Node.getElem?_place, hplace, hs]
    have hkind' := hkind
    rw [Node.socketKind?, hsocket] at hkind'
    obtain rfl := Option.some.inj hkind'
    rw [if_pos hplace, hproperties,
      lastPut?_eq_some _ (hkind ▸ hput) (lastPut?_eq_none hlater), hgives.unique hbelow hgives']
    rfl

end Reading

/-- **A description has one meaning**: it is read into a node in one way, and that is what is
built. -/
theorem reads_iff {room : ℕ} {desc : NodeDesc} {n a : Node} :
    Reads ctx templates room desc n a ↔ a = build ctx templates room desc n := by
  refine ⟨fun h => ?_, fun h => h ▸ reads_build room desc n⟩
  induction room using Nat.strongRecOn generalizing desc n a with
  | ind room ih =>
    obtain ⟨kept, declared, holds⟩ := h
    rw [kept, build_eq, Node.setLinks_eq]
    congr 1
    refine List.ext_getElem? fun i => ?_
    have hi := congrArg (·[i]?) declared
    simp only [List.getElem?_map] at hi
    rw [Node.getElem?_setLinks]
    cases hs : n.sockets[i]? with
    | none =>
      rw [hs] at hi
      exact Option.map_eq_none_iff.mp hi
    | some s =>
      rw [hs] at hi
      obtain ⟨s', hs', -⟩ := Option.map_eq_some_iff.mp hi
      rw [hs', Option.map_some]
      have hbelow : ∀ below, room = below + 1 → ∀ desc n a, Reads ctx templates below desc n a →
          a = build ctx templates below desc n :=
        fun below hroom desc n a => ih below (hroom ▸ Nat.lt_succ_self below)
      rw [(holds i s s' hs hs').eq_lastPut? hbelow hs]
      rfl

/-! ### Rearranging -/

theorem filter_puts (below : Option (NodeDesc → Node → Node)) (ps : List (String × PropertyValue))
    (n : Node) (name : String) :
    (puts ctx templates below ps n).filter (·.1 == name) =
      puts ctx templates below (ps.filter (·.1 == name)) n := by
  induction ps with
  | nil => rfl
  | cons p ps ih =>
    rw [puts_cons, List.filter_append, ih]
    by_cases hp : p.1 = name
    · rw [List.filter_cons_of_pos (by simpa using hp), puts_cons]
      cases put? ctx templates below (n.socketKind? p.1) p.2 <;> simp [hp]
    · rw [List.filter_cons_of_neg (by simpa using hp)]
      cases put? ctx templates below (n.socketKind? p.1) p.2 <;> simp [hp]

/-- Two values that are to be plugged in put the same in a socket, when they stand for nodes of the
same type that are built alike. -/
theorem put?_congr {templates' : Templates} {room : ℕ} {v v' : PropertyValue} (hv : v.isPlug)
    (hv' : v'.isPlug) (h : Option.Rel
      (fun (d d' : NodeDesc) => d.nodeType = d'.nodeType ∧ ∀ below fresh, room = below + 1 →
        ctx.registry.create? d.nodeType = some fresh →
          build ctx templates below d fresh = build ctx templates' below d' fresh)
      (v.subject? templates) (v'.subject? templates')) (kind? : Option SocketKind) :
    put? ctx templates (buildBelow ctx templates room) kind? v =
      put? ctx templates' (buildBelow ctx templates' room) kind? v' := by
  cases kind? with
  | none => rfl
  | some kind =>
    rw [put?_plug _ _ hv, put?_plug _ _ hv']
    rcases optionRel_cases h with ⟨hd, hd'⟩ | ⟨d, d', hd, hd', htype, hbuild⟩
    · rw [hd, hd']
      cases room <;> rfl
    · rw [hd, hd']
      cases room with
      | zero => rfl
      | succ below =>
        simp only [buildBelow, Option.bind_some, ← htype]
        cases hfresh : ctx.registry.create? d.nodeType with
        | none => rfl
        | some fresh => simp only [Option.map_some, hbuild below fresh rfl hfresh]

/-- Rearranging a description does not show in the tree it gives. -/
theorem Rearranged.build_eq {room : ℕ} {n : Node} {d d' : NodeDesc}
    (h : Rearranged ctx templates room n d d') :
    build ctx templates room d n = build ctx templates room d' n := by
  induction h with
  | refl room n desc => rfl
  | trans _ _ hab hbc => exact hab.trans hbc
  | delete nodeType name earlier later hp =>
    rw [ShadeTree.build_eq, ShadeTree.build_eq]
    simp only [NodeDesc.properties, puts_append, puts_cons, hp.put?_eq_none]
    rfl
  | permute room n nodeType name hperm horder =>
    rw [ShadeTree.build_eq, ShadeTree.build_eq]
    refine Node.setLinks_congr n fun name => ?_
    rw [filter_puts, filter_puts]
    exact congrArg (puts ctx templates _ · n) (horder name)
  | @inside room n nodeType name earlier later key d d' htype hinside ih =>
    have hput : put? ctx templates (buildBelow ctx templates room) (n.socketKind? key) (.node d) =
        put? ctx templates (buildBelow ctx templates room) (n.socketKind? key) (.node d') :=
      put?_congr rfl rfl (.some ⟨htype, ih⟩) _
    rw [ShadeTree.build_eq, ShadeTree.build_eq]
    simp only [NodeDesc.properties, puts_append, puts_cons, hput]

/-- Rearranging templates does not show in the tree that a description gives, down to the depth that
they are rearranged for. -/
theorem Rearranges.build_eq {templates' : Templates} (h : Rearranges ctx templates templates')
    {room : ℕ} (hroom : room ≤ ctx.config.maxDepth) (d : NodeDesc) (n : Node) :
    build ctx templates' room d n = build ctx templates room d n := by
  induction room using Nat.strongRecOn generalizing d n with
  | ind room ih =>
    have hbelow : ∀ below, room = below + 1 → ∀ d fresh,
        build ctx templates' below d fresh = build ctx templates below d fresh :=
      fun below hbelow => ih below (by omega) (by omega)
    have hput : ∀ kind? value,
        put? ctx templates' (buildBelow ctx templates' room) kind? value =
          put? ctx templates (buildBelow ctx templates room) kind? value := by
      intro kind? value
      cases value with
      | literal text => cases kind? <;> rfl
      | node d =>
        exact put?_congr rfl rfl
          (.some ⟨rfl, fun below fresh hroom _ => hbelow below hroom d fresh⟩) kind?
      | reference target =>
        refine (put?_congr rfl rfl ?_ kind?).symm
        rcases optionRel_cases (h target) with ⟨hd, hd'⟩ | ⟨d, d', hd, hd', htype, hrearranged⟩
        · simp only [PropertyValue.subject?, hd, hd']
          exact .none
        · simp only [PropertyValue.subject?, hd, hd']
          refine .some ⟨htype, fun below fresh hroom' hfresh => ?_⟩
          rw [hbelow below hroom', (hrearranged below (by omega) fresh hfresh).build_eq]
      | missing what => cases kind? <;> simp [put?, PropertyValue.subject?]
      | invalid reason => cases kind? <;> simp [put?, PropertyValue.subject?]
    simp only [ShadeTree.build_eq, puts, hput]

end Build

/-- **Assembly does what a description means**: it leaves the one tree that the description reads
into. The first socket of a name holds what the last property of the name gives that is not skipped,
or what it held before, and so on in the nodes below. No rearrangement of the description or of its
templates shows in the tree. -/
theorem Context.assemble_reads (ctx : Context) (templates : Templates) (desc : NodeDesc)
    (target : Node) :
    (∀ after, Reads ctx templates ctx.config.maxDepth desc target after ↔
        after = (ctx.assemble templates desc target).node) ∧
      ∀ templates' desc', Rearranges ctx templates templates' →
        Rearranged ctx templates ctx.config.maxDepth target desc desc' →
          (ctx.assemble templates' desc' target).node =
            (ctx.assemble templates desc target).node := by
  simp only [assemble, Assembly.node_fill_eq_build]
  refine ⟨fun after => reads_iff, fun templates' desc' htemplates hdesc => ?_⟩
  rw [htemplates.build_eq (Nat.le_refl _), hdesc.build_eq]

/-- A Lambert node has no gloss, so a description of one may go without it. -/
theorem Context.assemble_gloss :
    let ctx : Context := ⟨.builtin, .standard⟩
    let color : String × PropertyValue := ("Color", .literal "1 0 0")
    let gloss : String × PropertyValue := ("Gloss", .literal "0.5")
    let surface (ps : List (String × PropertyValue)) : NodeDesc :=
      .output [("Surface", .node (.mk "Lambert" none ps))]
    (ctx.assemble [] (surface [color]) (.new .output)).node =
      (ctx.assemble [] (surface [gloss, color]) (.new .output)).node := by
  intro ctx color gloss surface
  refine (ctx.assemble_reads [] _ _).2 [] _ (fun name => .none)
    (.inside _ "Output" none [] [] "Surface" rfl fun below fresh _ hfresh => ?_)
  have hlambert : ctx.registry.create? "Lambert" = some (.new .lambert) := rfl
  obtain rfl := Option.some.inj (hlambert.symm.trans hfresh)
  have hsocket : (Node.new .lambert).socket? "Gloss" = none := rfl
  exact .delete "Lambert" none [] [color] (.noSocket _ hsocket)

end ShadeTree
